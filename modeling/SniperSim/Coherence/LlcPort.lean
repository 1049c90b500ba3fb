import SniperSim.Coherence.LlcSpec
import SniperSim.Coherence.PortLlc

open List Option
namespace Coherence
open Inbox
variable {D : Type} {v : View} {b : LlcLine D} {inbox : List (DirMsg D)} {outbox : List (LlcMsg D)}

def PortOf (v : View) (b : LlcLine D) (inbox : List (DirMsg D)) (outbox : List (LlcMsg D)) : Prop :=
  Port v b.cstate b.waiters.head? (.ofList (held b.cstate) inbox) (.ofList outbox)

theorem dropped_ofList (inbox : List (DirMsg D)) (valid : Bool) :
    Port.Dropped (.ofList valid inbox) (.ofList false inbox) := by
  obtain ⟨he,hs,hu⟩ := ofList_grants valid inbox
  obtain ⟨he',hs',hu'⟩ := ofList_grants false inbox
  exact ⟨he'.trans he.symm,hs'.trans hs.symm,hu'.trans hu.symm,ofList_stale inbox⟩

theorem Port.Dropped.of_cons (h : Port.Dropped i i') (hm : m = .invReq ∨ m = .flushReq) :
    Port.Dropped (i.cons m) i' := by
  rcases hm with rfl | rfl
  · exact h
  · exact { h with }

theorem LlcLine.Moves.port (hm : b.Moves junk msg wr b' out)
    (h : PortOf v b (msg.toList ++ inbox) outbox) (hem : v.dstate.isEM → v.flushOk)
    (hff : v.awaitFlush → v.flushOk) (hwf : v.awaitWb → ¬ v.awaitFlush) : PortOf v b' inbox (outbox ++ out) := by
  cases hm with
  | hit => rwa [append_nil]
  | write d hs =>
    rw [append_nil]
    rcases hs with hs | hs
    · simp only [PortOf,hs,toList,nil_append] at h
      exact h.write
    · simp only [PortOf,hs,toList,nil_append] at h
      exact h
  | own hs =>
    rw [append_nil]
    simp only [PortOf,hs,toList,nil_append] at h
    exact h.write
  | queue x hw =>
    obtain ⟨y,ws,hw⟩ := exists_cons_of_ne_nil hw
    rw [append_nil]
    simp only [PortOf,hw,toList,nil_append,head?_cons,cons_append] at h ⊢
    exact h
  | askShared hw hs =>
    simp only [PortOf,hw,toList,nil_append,head?_nil,head?_cons,Outbox.ofList_concat] at h ⊢
    have hi : b.cstate = .invalid := by
      cases hc : b.cstate with
      | invalid => rfl
      | sharedUpgrading => exact absurd (h.upgrading hc) (by simp)
      | _ => simp [readable,hc] at hs
    rw [hi] at h ⊢
    exact h.sendShReq
  | askExclusive hw hs =>
    simp only [PortOf,hw,hs,toList,nil_append,head?_nil,head?_cons,Outbox.ofList_concat] at h ⊢
    exact h.sendExReq
  | askUpgrade hw hs =>
    simp only [PortOf,hw,hs,toList,nil_append,head?_nil,head?_cons,Outbox.ofList_concat] at h ⊢
    exact h.sendUpgradeReq
  | evictClean hs =>
    have hv : b.cstate ≠ .invalid := by rcases hs with hs | hs <;> simp [hs]
    simp only [PortOf,toList,nil_append,Outbox.ofList_concat] at h ⊢
    exact h.dropClean hv (dropped_ofList inbox _)
  | evictDirty hs =>
    simp only [PortOf,hs,toList,nil_append,Outbox.ofList_concat] at h ⊢
    exact h.evictDirty (dropped_ofList inbox _) hem b.data
  | fillExclusive d s hs ho =>
    simp only [PortOf,hs,held,toList,cons_append,nil_append,ofList] at h
    rw [append_nil]
    rcases ho with rfl | ⟨rfl,-⟩
    · exact h.receiveExRep.write
    · exact h.receiveExRep
  | fillShared d hs =>
    simp only [PortOf,hs,held,toList,cons_append,nil_append,ofList] at h
    rw [append_nil]
    exact h.receiveShRep
  | fillUpgrading d rest hs =>
    simp only [PortOf,hs,held,toList,cons_append,nil_append,ofList] at h
    simp only [PortOf,Outbox.ofList_concat]
    exact h.receiveShRep.sendUpgradeReq
  | upgrade hs =>
    simp only [PortOf,hs,held,toList,cons_append,nil_append,ofList] at h
    rw [append_nil]
    exact h.receiveUpgradeRep
  | ignore m hs hm =>
    rw [append_nil]
    rcases hm with rfl | rfl | rfl <;> simpa only [PortOf,hs,held,toList,cons_append,nil_append,ofList] using h
  | invalidate hs hm =>
    simp only [PortOf,held_of_ne hs,toList,cons_append,nil_append,ofList,Outbox.ofList_concat] at h ⊢
    exact h.dropClean hs ((dropped_ofList inbox true).of_cons (.inl rfl))
  | flush hs =>
    simp only [PortOf,held_of_ne hs,toList,cons_append,nil_append,ofList,Outbox.ofList_concat] at h ⊢
    exact h.receiveFlushReq hs ((dropped_ofList inbox true).of_cons (.inr rfl)) hff hwf b.data
  | writeBack hs hu =>
    simp only [PortOf,held_of_ne hs,toList,cons_append,nil_append,ofList,Outbox.ofList_concat] at h ⊢
    exact h.receiveWbReq hs (.inr ⟨hu,rfl⟩) b.data
  | writeBackUpgrading hs =>
    simp only [PortOf,hs,held,toList,cons_append,nil_append,ofList,Outbox.ofList_concat] at h ⊢
    exact h.receiveWbReq (by simp) (.inl ⟨rfl,rfl⟩) junk

end Coherence
