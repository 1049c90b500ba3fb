import SniperSim.Coherence.Census

open List Option Bool
namespace Coherence

def held : CacheState → Bool
  | .invalid => false
  | _ => true

theorem held_of_ne (hs : s ≠ .invalid) : held s := by
  cases s with
  | invalid => exact absurd rfl hs
  | _ => rfl

def LlcMsg.asks {D : Type} : LlcMsg D → Option ReqKind
  | .exReq => some .ex
  | .shReq => some .sh
  | .upgradeReq => some .upgrade
  | _ => none

structure View where
  (sharer granted : Bool)
  dstate : DirectoryState
  (awaitWb awaitFlush flushOk : Prop)
  pending : List ReqKind

structure Port (v : View) (s : CacheState) (w : Option Bool) (i : Inbox) (o : Outbox) : Prop where
  token : (held s).toNat + i.exRep + i.shRep + o.invRep + o.flushRep + v.granted.toNat = v.sharer.toNat
  outstanding : o.shReq + o.exReq + o.upgradeReq + v.pending.length + i.exRep + i.shRep + i.upgradeRep = w.isSome.toNat
  waiting : w.isSome → s = .invalid ∨ s = .sharedUpgrading
  upgrading : s = .sharedUpgrading → w.isSome
  eager : 0 < o.exReq + o.upgradeReq + i.upgradeRep ∨ .ex ∈ v.pending ∨ .upgrade ∈ v.pending ∨
    0 < i.exRep ∧ v.dstate = .modified → w = some true
  notOwned : s ≠ .owned
  stale : s = .invalid → i.exRep + i.shRep = 0 → i.wbReq = 0 ∧ i.flushReq = 0 ∧ i.demandThenUpgrade = 0
  known : v.sharer → v.dstate = .shared ∨ v.dstate.isEM
  sharedOnly : v.dstate = .shared → s ≠ .exclusive ∧ s ≠ .modified ∧ i.exRep = 0 ∧ i.upgradeRep = 0
  upgraded : 0 < i.upgradeRep → v.sharer ∧ v.dstate = .modified ∧ o.flushRep = 0 ∧ o.wbRep = 0
  shReply : 0 < i.shRep → v.dstate = .shared
  sharedCopy : s = .shared → v.dstate = .shared ∨ 0 < o.wbRep
  upgradePending : .upgrade ∈ v.pending → v.sharer → v.dstate = .shared ∨ v.granted
  upgradeSent : 0 < o.upgradeReq → v.sharer → v.dstate = .shared ∨ 0 < o.wbRep
  upgradeOrder : 0 < o.upgradeThenWb → v.dstate = .shared
  requesting : 0 < o.shReq + o.exReq ∨ .sh ∈ v.pending ∨ .ex ∈ v.pending → s = .invalid
  requestOrder : o.requestThenDrop = 0
  requestClean : .sh ∈ v.pending ∨ .ex ∈ v.pending → o.invRep + o.flushRep = 0
  wbReply : 0 < o.wbRep → v.awaitWb ∧ s ≠ .exclusive ∧ s ≠ .modified ∧ i.exRep = 0 ∧
    i.upgradeRep = 0 ∧ i.wbReq = 0 ∧ o.flushRep = 0
  wbReplyOnce : o.wbRep ≤ 1
  wbReplyOrder : o.dropThenWb = 0
  wbDemand : 0 < i.wbReq → v.awaitWb
  wbDemandOnce : i.wbReq ≤ 1
  flushReply : 0 < o.flushRep → v.flushOk
  flushDemand : 0 < i.flushReq → v.awaitFlush
  demandOrder : i.demandThenUpgrade = 0

structure Vacant (w : Option Bool) (pending : List ReqKind) (i : Inbox) (o : Outbox) : Prop where
  inbox : i.exRep + i.shRep + i.upgradeRep + i.wbReq + i.flushReq + i.demandThenUpgrade = 0
  outbox : o.invRep + o.flushRep + o.wbRep + o.requestThenDrop + o.dropThenWb = 0
  outstanding : o.shReq + o.exReq + o.upgradeReq + pending.length = w.isSome.toNat
  eager : 0 < o.exReq + o.upgradeReq ∨ .ex ∈ pending ∨ .upgrade ∈ pending → w = some true

variable {D : Type} {v : View} {s : CacheState} {w : Option Bool} {i : Inbox} {o : Outbox}
namespace Port

theorem idle (h : Port v s none i o) : (o.shReq = 0 ∧ o.exReq = 0 ∧ o.upgradeReq = 0) ∧
    v.pending = [] ∧ i.exRep = 0 ∧ i.shRep = 0 ∧ i.upgradeRep = 0 := by
  have hn := h.outstanding
  rw [← length_eq_zero_iff]
  simp only [isSome_none,toNat_false] at hn
  omega

variable (h : Port v s w i o)
include h

theorem asked (hp : v.pending ≠ []) : w.isSome ∧ v.pending.tail = [] ∧ (o.shReq = 0 ∧ o.exReq = 0 ∧ o.upgradeReq = 0) ∧
    i.exRep = 0 ∧ i.shRep = 0 ∧ i.upgradeRep = 0 := by
  have hn := h.outstanding
  have hl := length_pos_iff.mpr hp
  rw [← length_eq_zero_iff,length_tail]
  cases w with
  | none => simp only [isSome_none,toNat_false] at hn; omega
  | some x =>
    simp only [isSome_some,toNat_true] at hn
    exact ⟨rfl,by omega,by omega,by omega,by omega,by omega⟩

theorem holder (hs : s ≠ .invalid) : v.sharer ∧ v.granted = false ∧
    i.exRep = 0 ∧ i.shRep = 0 ∧ o.invRep = 0 ∧ o.flushRep = 0 := by
  have ht := h.token
  rw [held_of_ne hs,toNat_true] at ht
  have hl := v.sharer.toNat_le
  have hv : v.sharer := by
    cases he : v.sharer with
    | true => rfl
    | false => simp only [he,toNat_false] at ht; omega
  have hg : v.granted = false := by
    cases he : v.granted with
    | false => rfl
    | true => simp only [he,toNat_true] at ht; omega
  exact ⟨hv,hg,by omega,by omega,by omega,by omega⟩

theorem mono (hs : v'.sharer = v.sharer) (hg : v'.granted = v.granted)
    (hd : v'.dstate = v.dstate) (hp : v'.pending = v.pending) (hw : v.awaitWb → v'.awaitWb)
    (hf : v.awaitFlush → v'.awaitFlush) (ho : v.flushOk → v'.flushOk) : Port v' s w i o := by
  obtain ⟨sharer,granted,dstate,awaitWb,awaitFlush,flushOk,pending⟩ := v
  subst hs hg hd hp
  exact { h with
    wbReply := fun hr => ⟨hw (h.wbReply hr).1,(h.wbReply hr).2⟩
    wbDemand := fun hr => hw (h.wbDemand hr)
    flushReply := fun hr => ho (h.flushReply hr)
    flushDemand := fun hr => hf (h.flushDemand hr) }

theorem noWb (hw : ¬ v.awaitWb) : o.wbRep = 0 ∧ i.wbReq = 0 ∧ o.upgradeThenWb = 0 := by
  have hr : o.wbRep = 0 := Nat.eq_zero_of_not_pos fun hr => hw (h.wbReply hr).1
  exact ⟨hr,Nat.eq_zero_of_not_pos fun hr => hw (h.wbDemand hr),o.wbLess hr⟩

theorem exclusiveAsk (hp : 0 < o.exReq + o.upgradeReq ∨ .ex ∈ v.pending ∨ .upgrade ∈ v.pending) : w = some true := by
  rcases hp with hp | hp | hp
  · exact h.eager (.inl (by omega))
  · exact h.eager (.inr (.inl hp))
  · exact h.eager (.inr (.inr (.inl hp)))

theorem ungranted (hs : v.sharer = false) : v.granted = false := by
  have ht := h.token
  cases he : v.granted with
  | false => rfl
  | true => simp only [hs,he,toNat_true,toNat_false] at ht; omega

theorem requester (hp : .sh ∈ v.pending ∨ .ex ∈ v.pending) : v.sharer = v.granted := by
  have hi := h.requesting (.inr hp)
  have hc := h.requestClean hp
  have hne : v.pending ≠ [] := by
    rintro he
    simp [he] at hp
  obtain ⟨-,-,-,he,hr,-⟩ := h.asked hne
  have ht := h.token
  subst hi
  simp only [held,toNat_false] at ht
  cases hs : v.sharer <;> cases hg : v.granted <;> simp only [hs,hg,toNat_true,
    toNat_false] at ht <;> first | rfl | omega

theorem vacant (hs : v.sharer = v.granted)
    (hg : v.granted → v.pending ≠ []) (hw : ¬ v.awaitWb) : s = .invalid ∧ Vacant w v.pending i o := by
  have ht := h.token
  rw [hs] at ht
  have hi : s = .invalid := by
    cases s <;> simp [held] at ht ⊢
  subst hi
  obtain ⟨hb,hq,-⟩ := h.noWb hw
  obtain ⟨-,hf,hd⟩ := h.stale rfl (by omega)
  have hu : i.upgradeRep = 0 := by
    cases he : v.granted with
    | true => exact (h.asked (hg he)).2.2.2.2.2
    | false =>
      refine Nat.eq_zero_of_not_pos fun hu => ?_
      simp [(h.upgraded hu).1,he] at hs
  have hr := h.requestOrder
  have hl := h.wbReplyOrder
  have hn := h.outstanding
  exact ⟨rfl,by omega,by omega,by omega,h.exclusiveAsk⟩

end Port

namespace Vacant

theorem port (h : Vacant w v.pending i o) (hs : v.sharer = v.granted)
    (hk : v.sharer → (v.dstate = .shared ∨ v.dstate.isEM) ∧ v.pending ≠ []) : Port v .invalid w i o := by
  have hi := h.inbox
  have ho := h.outbox
  have hn := h.outstanding
  exact {
    token := by rw [hs]; simp only [held]; simp; omega
    outstanding := by omega
    waiting := fun _ => .inl rfl
    upgrading := by simp
    eager := by
      rintro (he | he | he | he)
      · exact h.eager (.inl (by omega))
      · exact h.eager (.inr (.inl he))
      · exact h.eager (.inr (.inr he))
      · omega
    notOwned := by simp
    stale := by omega
    known := fun hv => (hk hv).1
    sharedOnly := by simp; omega
    upgraded := by omega
    shReply := by omega
    sharedCopy := by simp
    upgradePending := fun _ hv => .inr (hs ▸ hv)
    upgradeSent := fun hu hv => by
      have := length_pos_iff.mpr (hk hv).2
      have := w.isSome.toNat_le
      omega
    upgradeOrder := by have := o.wbLess; omega
    requesting := fun _ => rfl
    requestOrder := by omega
    requestClean := by omega
    wbReply := by omega
    wbReplyOnce := by omega
    wbReplyOrder := by omega
    wbDemand := by omega
    wbDemandOnce := by omega
    flushReply := by omega
    flushDemand := by omega
    demandOrder := by omega }

theorem grant (h : Vacant w v.pending i o) (live : Nat) (m : DirMsg D)
    (hs : v'.sharer) (hg : v'.granted = false) (hk : v.pending ≠ []) (hp : v'.pending = v.pending.tail)
    (hm : (∃ d, m = .shRep d) ∧ v'.dstate = .shared ∨ (∃ d, m = .exRep d) ∧ v'.dstate.isEM ∧
        (v'.dstate = .modified → .ex ∈ v.pending ∨ .upgrade ∈ v.pending)) : Port v' .invalid w (i.snoc live m) o := by
  have hi := h.inbox
  have ho := h.outbox
  have hn := h.outstanding
  have hl := length_pos_iff.mpr hk
  have hw := w.isSome.toNat_le
  have hz : v'.pending = [] := by
    rw [hp,← length_eq_zero_iff,length_tail]
    omega
  have hwb := o.wbLess
  rcases hm with ⟨⟨d,rfl⟩,hd⟩ | ⟨⟨d,rfl⟩,hd,hx⟩
  · constructor
    all_goals try simp [Inbox.snoc,held,hs,hg,hz,hd]
    all_goals omega
  · have hne : v'.dstate ≠ .shared := by
      intro he
      simp [he,DirectoryState.isEM] at hd
    constructor
    case eager =>
      rintro (he | he | he | ⟨-,he⟩)
      · simp only [Inbox.snoc] at he
        omega
      · simp [hz] at he
      · simp [hz] at he
      · exact h.eager (.inr (hx he))
    all_goals try simp [Inbox.snoc,held,hs,hg,hz,hd,hne]
    all_goals omega

end Vacant

namespace Port

theorem popDrop (h : Port v s w i (o.cons m)) (hm : m = .invRep ∧ v.dstate ≠ .modified ∨ ∃ d, m = .flushRep d) :
    s = .invalid ∧ Vacant w v.pending i o := by
  have ht := h.token
  have hl := v.sharer.toNat_le
  have hr := h.requestOrder
  have hb := h.wbReplyOrder
  have hn := h.outstanding
  have hd : (o.cons m).invRep + (o.cons m).flushRep = o.invRep + o.flushRep + 1 := by
    rcases hm with ⟨rfl,-⟩ | ⟨d,rfl⟩ <;> simp only [Outbox.cons] <;> omega
  have hi : s = .invalid := by
    cases s <;> simp only [held,toNat_true] at ht <;> first | rfl | omega
  subst hi
  have hs := h.stale rfl (by omega)
  have hz : i.upgradeRep = 0 := by
    refine Nat.eq_zero_of_not_pos fun hp => ?_
    obtain ⟨-,hq,hf,-⟩ := h.upgraded hp
    rcases hm with ⟨-,he⟩ | ⟨d,rfl⟩
    · exact he hq
    · simp [Outbox.cons] at hf
  have he := h.exclusiveAsk
  refine ⟨rfl,?_⟩
  rcases hm with ⟨rfl,-⟩ | ⟨d,rfl⟩ <;> simp only [Outbox.cons] at *
  · exact ⟨by omega,by omega,by omega,he⟩
  · exact ⟨by omega,by omega,by omega,he⟩

end Port
end Coherence
