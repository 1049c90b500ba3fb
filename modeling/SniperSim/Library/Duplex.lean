import SniperSim.Library.Confluence

open List Option
namespace Duplex
open Confluence
variable {α σ τ : Type}

-- a party blocks until as many elements as it needs are there, takes them, and sends its answer
structure Party (α σ : Type) where
  need : σ → Option Nat
  feed : σ → List α → σ × List α

def Party.turn (A : Party α σ) (s : σ) (input output : List α) : Option (σ × List α × List α) :=
  (A.need s).bind fun n =>
    if n ≤ input.length then
      some ((A.feed s (input.take n)).1,input.drop n,output ++ (A.feed s (input.take n)).2)
    else none

structure Link (α σ τ : Type) where
  left : σ
  right : τ
  (toRight toLeft : List α)

inductive Side
  | left | right
deriving DecidableEq

def next (A : Party α σ) (B : Party α τ) (d : Link α σ τ) : Side → Option (Link α σ τ)
  | .left => (A.turn d.left d.toLeft d.toRight).map fun x => ⟨x.1,d.right,x.2.2,x.2.1⟩
  | .right => (B.turn d.right d.toRight d.toLeft).map fun x => ⟨d.left,x.1,x.2.1,x.2.2⟩

variable {A : Party α σ} {B : Party α τ} {l l' : σ} {r r' : τ} {n : Nat} {bs out xs ys : List α}

theorem Party.turn_of (hn : A.need l = some n) (hb : bs.length = n) (hf : A.feed l bs = (l',out)) :
    A.turn l (bs ++ ys) xs = some (l',ys,xs ++ out) := by
  subst hb
  simp [turn,hn,hf]

theorem Party.turn_eq_some (h : A.turn l ys xs = some x) : ∃ n bs rest, A.need l = some n ∧ bs.length = n ∧
    ys = bs ++ rest ∧ x = ((A.feed l bs).1,rest,xs ++ (A.feed l bs).2) := by
  obtain ⟨n,hn,hx⟩ := bind_eq_some_iff.mp h
  split_ifs at hx with hle
  exact ⟨n,_,_,hn,length_take_of_le hle,(take_append_drop n ys).symm,(some.inj hx).symm⟩

theorem Party.turn_none (h : ∀ n, A.need l = some n → ys.length < n) : A.turn l ys xs = none := by
  refine bind_eq_none_iff.mpr fun n hn => if_neg ?_
  exact Nat.not_le.mpr (h n hn)

theorem left_of (hn : A.need l = some n) (hb : bs.length = n) (hf : A.feed l bs = (l',out)) :
    next A B ⟨l,r,xs,bs ++ ys⟩ .left = some ⟨l',r,xs ++ out,ys⟩ := by
  rw [next,Party.turn_of hn hb hf,map_some]

theorem right_of (hn : B.need r = some n) (hb : bs.length = n) (hf : B.feed r bs = (r',out)) :
    next A B ⟨l,r,bs ++ xs,ys⟩ .right = some ⟨l,r',xs,ys ++ out⟩ := by
  rw [next,Party.turn_of hn hb hf,map_some]

theorem diamond (he : next A B d .left = some e) (hf : next A B d .right = some f) :
    ∃ g, next A B e .right = some g ∧ next A B f .left = some g := by
  obtain ⟨l,r,p,q⟩ := d
  obtain ⟨x,hx,rfl⟩ := map_eq_some_iff.mp he
  obtain ⟨y,hy,rfl⟩ := map_eq_some_iff.mp hf
  obtain ⟨n,bs,ys,hn,hb,rfl,rfl⟩ := Party.turn_eq_some hx
  obtain ⟨m,cs,xs,hm,hc,rfl,rfl⟩ := Party.turn_eq_some hy
  dsimp only
  rw [append_assoc,append_assoc]
  exact ⟨_,right_of hm hc rfl,left_of hn hb rfl⟩

theorem commutes : Commutes (next A B) := by
  intro d e f m k hmk he hf
  cases m <;> cases k
  case left.right => exact diamond he hf
  case right.left =>
    obtain ⟨g,hk,hm⟩ := diamond hf he
    exact ⟨g,hm,hk⟩
  all_goals exact absurd rfl hmk

theorem leads_left (hn : A.need l = some n) (hb : bs.length = n) (hf : A.feed l bs = (l',out)) :
    Leads (next A B) ⟨l,r,[],bs⟩ ⟨l',r,out,[]⟩ := by
  have h : next A B ⟨l,r,[],bs ++ []⟩ .left = some ⟨l',r,out,[]⟩ := left_of hn hb hf
  rw [append_nil] at h
  exact .of_next h

theorem leads_right (hn : B.need r = some n) (hb : bs.length = n) (hf : B.feed r bs = (r',out)) :
    Leads (next A B) ⟨l,r,bs,[]⟩ ⟨l,r',[],out⟩ := by
  have h : next A B ⟨l,r,bs ++ [],[]⟩ .right = some ⟨l,r',[],out⟩ := right_of hn hb hf
  rw [append_nil] at h
  exact .of_next h

theorem leads_left_silent (hn : A.need l = some n) (hb : bs.length = n) (hf : A.feed l bs = (l',[])) :
    Leads (next A B) ⟨l,r,xs,bs ++ ys⟩ ⟨l',r,xs,ys⟩ := by
  have h : next A B ⟨l,r,xs,bs ++ ys⟩ .left = some ⟨l',r,xs ++ [],ys⟩ := left_of hn hb hf
  rw [append_nil] at h
  exact .of_next h

theorem leads_right_silent (hn : B.need r = some n) (hb : bs.length = n) (hf : B.feed r bs = (r',[])) :
    Leads (next A B) ⟨l,r,bs ++ xs,ys⟩ ⟨l,r',xs,ys⟩ := by
  have h : next A B ⟨l,r,bs ++ xs,ys⟩ .right = some ⟨l,r',xs,ys ++ []⟩ := right_of hn hb hf
  rw [append_nil] at h
  exact .of_next h

theorem stuck_of (hl : ∀ n, A.need l = some n → ys.length < n) (hr : ∀ n, B.need r = some n → xs.length < n) :
    Stuck (next A B) ⟨l,r,xs,ys⟩ := by
  intro m
  cases m with
  | left => rw [next,Party.turn_none hl,map_none]
  | right => rw [next,Party.turn_none hr,map_none]

end Duplex
