import SniperSim.Coherence.Port

open List
namespace Coherence
open Inbox
variable {D : Type}
namespace Port

theorem popWbRep (h : Port v s w i (o.cons (.wbRep d))) (hs : v'.sharer = v.sharer) (hg : v'.granted = v.granted)
    (hd : v'.dstate = .shared) (hp : v'.pending = v.pending) (hf : v.awaitFlush → v'.awaitFlush) : Port v' s w i o := by
  obtain ⟨-,he,hm,hx,hu,hb,hl⟩ := h.wbReply (by simp [Outbox.cons])
  have hr := h.wbReplyOnce
  simp only [Outbox.cons] at hr hl
  obtain ⟨sharer',granted',dstate',awaitWb',awaitFlush',flushOk',pending'⟩ := v'
  subst hs hg hd hp
  exact { h with
    eager := by
      rintro (hq | hq | hq | hq)
      · exact h.eager (.inl hq)
      · exact h.eager (.inr (.inl hq))
      · exact h.eager (.inr (.inr (.inl hq)))
      · simp at hq
    known := fun _ => .inl rfl
    sharedOnly := fun _ => ⟨he,hm,hx,hu⟩
    upgraded := by omega
    shReply := fun _ => rfl
    sharedCopy := fun _ => .inl rfl
    upgradePending := fun _ _ => .inl rfl
    upgradeSent := fun _ _ => .inl rfl
    upgradeOrder := fun _ => rfl
    wbReply := by omega
    wbReplyOnce := by omega
    wbDemand := by omega
    flushReply := by omega
    flushDemand := fun hq => hf (h.flushDemand hq) }

theorem popRequest (h : Port v s w i (o.cons m)) (hk : m.asks = some k) (hs : v'.sharer = v.sharer)
    (hg : v'.granted = v.granted) (hd : v'.dstate = v.dstate) (hp : v'.pending = v.pending ++ [k])
    (hw : v.awaitWb → v'.awaitWb) (hf : v.awaitFlush → v'.awaitFlush) (ho : v.flushOk → v'.flushOk) :
    Port v' s w i o := by
  have hn := h.outstanding
  have hl := w.isSome.toNat_le
  have hz : v.pending = [] := by
    rw [← length_eq_zero_iff]
    cases m <;> simp only [LlcMsg.asks,Outbox.cons,reduceCtorEq] at hk hn <;> omega
  suffices hv : Port { v with pending := [k] } s w i o from hv.mono hs hg hd (by simp [hp,hz]) hw hf ho
  rw [hz] at hn
  have hr := h.requestOrder
  have hb := h.wbReplyOrder
  have hq := h.requesting
  have he := h.exclusiveAsk
  cases m with
  | shReq =>
    obtain rfl : .sh = k := by simpa [LlcMsg.asks] using hk
    simp only [Outbox.cons,length_nil] at hn hr hb hq
    exact { h with
      outstanding := by simp only [length_singleton]; omega
      eager := by have := h.eager; simp [hz] at this ⊢; omega
      upgradePending := by simp
      requesting := fun _ => hq (.inl (by omega))
      requestOrder := by omega
      requestClean := by omega }
  | exReq =>
    obtain rfl : .ex = k := by simpa [LlcMsg.asks] using hk
    simp only [Outbox.cons,length_nil] at hn hr hb hq he
    exact { h with
      outstanding := by simp only [length_singleton]; omega
      eager := fun _ => he (.inl (by omega))
      upgradePending := by simp
      requesting := fun _ => hq (.inl (by omega))
      requestOrder := by omega
      requestClean := by omega }
  | upgradeReq =>
    obtain rfl : .upgrade = k := by simpa [LlcMsg.asks] using hk
    have hu := h.upgradeSent
    have ho := h.upgradeOrder
    simp only [Outbox.cons,length_nil] at hn hr hb hq hu ho he
    exact { h with
      outstanding := by simp only [length_singleton]; omega
      eager := fun _ => he (.inl (by omega))
      upgradePending := fun _ hv => by
        rcases hu (by omega) hv with hc | hc
        · exact .inl hc
        · exact .inl (ho (by omega))
      upgradeSent := fun _ => hu (by omega)
      upgradeOrder := fun _ => ho (by omega)
      requesting := by have := h.requesting; simp [hz] at this ⊢; omega
      requestClean := by simp }
  | invRep | flushRep | wbRep => simp [LlcMsg.asks] at hk

theorem upgradeReply (h : Port v s w i o) (hk : .upgrade ∈ v.pending) (hs : v.sharer)
    (hg : v.granted = false) (hw : ¬ v.awaitWb) (hf : ¬ v.awaitFlush) (ho : ¬ v.flushOk)
    (hs' : v'.sharer) (hg' : v'.granted = false) (hd : v'.dstate = .modified)
    (hp : v'.pending = v.pending.tail) (live : Nat) : Port v' s w (i.snoc live (.upgradeRep : DirMsg D)) o := by
  have hne := ne_nil_of_mem hk
  obtain ⟨hsome,hz,⟨hq1,hq2,hq3⟩,he,hr,hu⟩ := h.asked hne
  obtain ⟨hb,hbq,hbo⟩ := h.noWb hw
  have hfl : o.flushRep = 0 := Nat.eq_zero_of_not_pos fun hl => ho (h.flushReply hl)
  have hfq : i.flushReq = 0 := Nat.eq_zero_of_not_pos fun hl => hf (h.flushDemand hl)
  have hdt := h.demandOrder
  have hst : s = .invalid ∨ s = .sharedUpgrading := h.waiting hsome
  have ht := h.token
  have hwt := h.exclusiveAsk (.inr (.inr hk))
  subst hwt
  rw [hs,hg] at ht
  rw [hz] at hp
  exact {
    token := by rw [hs',hg']; exact ht
    outstanding := by simp [snoc,hp,hq1,hq2,hq3,he,hr,hu]
    waiting := fun _ => hst
    upgrading := fun _ => rfl
    eager := fun _ => rfl
    notOwned := h.notOwned
    stale := by simp [snoc]; have := h.stale; omega
    known := fun _ => .inr (by simp [hd,DirectoryState.isEM])
    sharedOnly := by simp [hd]
    upgraded := fun _ => ⟨hs',hd,hfl,hb⟩
    shReply := by simp [snoc]; omega
    sharedCopy := by rcases hst with rfl | rfl <;> simp
    upgradePending := by simp [hp]
    upgradeSent := by omega
    upgradeOrder := by omega
    requesting := by simp [hp]; omega
    requestOrder := h.requestOrder
    requestClean := by simp [hp]
    wbReply := by omega
    wbReplyOnce := by omega
    wbReplyOrder := h.wbReplyOrder
    wbDemand := by simp [snoc]; omega
    wbDemandOnce := h.wbDemandOnce
    flushReply := by omega
    flushDemand := by simp [snoc]; omega
    demandOrder := by simp [snoc]; omega }

theorem demandFlush (h : Port v s w i o) (ha : v.awaitFlush) :
    Port v s w (i.snoc (i.live (held s)) (.flushReq : DirMsg D)) o :=
  { h with
    stale := by
      rintro rfl hz
      simp only [snoc] at hz
      have := h.stale rfl hz
      simp only [snoc,live,held,Bool.toNat_false]
      omega
    flushDemand := fun _ => ha }

theorem demandWb (h : Port v s w i o) (hr : o.wbRep = 0) (hq : i.wbReq = 0) (ha : v.awaitWb) :
    Port v s w (i.snoc (i.live (held s)) (.wbReq : DirMsg D)) o :=
  { h with
    stale := by
      rintro rfl hz
      simp only [snoc] at hz
      have := h.stale rfl hz
      simp only [snoc,live,held,Bool.toNat_false]
      omega
    wbReply := by omega
    wbDemand := fun _ => ha
    wbDemandOnce := by simp only [snoc,live]; omega }

end Port
end Coherence
