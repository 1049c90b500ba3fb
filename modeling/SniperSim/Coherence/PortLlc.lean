import SniperSim.Coherence.Port

namespace Coherence
open Outbox
variable {D : Type} {i i' : Inbox}
namespace Port

theorem sendShReq (h : Port v .invalid none i o) : Port v .invalid (some false) i (o.snoc (.shReq : LlcMsg D)) := by
  obtain ⟨⟨hs,he,hu⟩,hp,hx,hr,ha⟩ := h.idle
  exact { h with
    outstanding := by simp [snoc,hs,he,hu,hp,hx,hr,ha]
    waiting := fun _ => .inl rfl
    upgrading := fun _ => rfl
    eager := by simp [snoc,he,hu,hp,hx,ha]
    requesting := fun _ => rfl }

theorem sendExReq (h : Port v .invalid none i o) : Port v .invalid (some true) i (o.snoc (.exReq : LlcMsg D)) := by
  obtain ⟨⟨hs,he,hu⟩,hp,hx,hr,ha⟩ := h.idle
  exact { h with
    outstanding := by simp [snoc,hs,he,hu,hp,hx,hr,ha]
    waiting := fun _ => .inl rfl
    upgrading := fun _ => rfl
    eager := fun _ => rfl
    requesting := fun _ => rfl }

theorem sendUpgradeReq (h : Port v .shared none i o) :
    Port v .sharedUpgrading (some true) i (o.snoc (.upgradeReq : LlcMsg D)) := by
  obtain ⟨⟨hs,he,hu⟩,hp,hx,hr,ha⟩ := h.idle
  exact { h with
    outstanding := by simp [snoc,hs,he,hu,hp,hx,hr,ha]
    waiting := fun _ => .inr rfl
    upgrading := fun _ => rfl
    eager := fun _ => rfl
    notOwned := by simp
    stale := by simp
    sharedOnly := fun hd => ⟨by simp,by simp,(h.sharedOnly hd).2.2⟩
    sharedCopy := by simp
    upgradeSent := fun _ _ => h.sharedCopy rfl
    requesting := by simp [snoc,hs,he,hp]
    wbReply := fun hb => ⟨(h.wbReply hb).1,by simp,by simp,(h.wbReply hb).2.2.2⟩ }

theorem write (h : Port v .exclusive w i o) : Port v .modified w i o :=
  { h with
    waiting := fun hw => absurd (h.waiting hw) (by simp)
    upgrading := by simp
    notOwned := by simp
    stale := by simp
    sharedOnly := fun hd => absurd rfl (h.sharedOnly hd).1
    sharedCopy := by simp
    requesting := fun hr => absurd (h.requesting hr) (by simp)
    wbReply := fun hb => absurd rfl (h.wbReply hb).2.1 }

theorem noRequest (h : Port v s w i o) (hs : s ≠ .invalid) :
    o.shReq + o.exReq = 0 ∧ .sh ∉ v.pending ∧ .ex ∉ v.pending :=
  ⟨Nat.eq_zero_of_not_pos fun hr => hs (h.requesting (.inl hr)),
    fun hr => hs (h.requesting (.inr (.inl hr))),fun hr => hs (h.requesting (.inr (.inr hr)))⟩

structure Dropped (i i' : Inbox) : Prop where
  exRep : i'.exRep = i.exRep
  shRep : i'.shRep = i.shRep
  upgradeRep : i'.upgradeRep = i.upgradeRep
  stale : i'.exRep + i'.shRep = 0 → i'.wbReq = 0 ∧ i'.flushReq = 0 ∧ i'.demandThenUpgrade = 0

theorem dropClean (h : Port v s w i o) (hs : s ≠ .invalid) (hi : Dropped i i') :
    Port v .invalid w i' (o.snoc (.invRep : LlcMsg D)) := by
  obtain ⟨hv,hg,he,hr,hn,hl⟩ := h.holder hs
  obtain ⟨hq,hsh,hex⟩ := h.noRequest hs
  obtain ⟨hb,hf,hd⟩ := hi.stale (by rw [hi.exRep,hi.shRep,he,hr])
  obtain ⟨he',hr',hu',-⟩ := hi
  exact { h with
    token := by simp [snoc,held,he',hr',he,hr,hn,hl,hg,hv]
    outstanding := by rw [he',hr',hu']; exact h.outstanding
    waiting := fun _ => .inl rfl
    upgrading := by simp
    eager := by rw [he',hu']; exact h.eager
    notOwned := by simp
    stale := fun _ _ => ⟨hb,hf,hd⟩
    sharedOnly := fun hc => ⟨by simp,by simp,by omega,hu'.trans (h.sharedOnly hc).2.2.2⟩
    upgraded := fun hu => h.upgraded (by omega)
    shReply := by omega
    sharedCopy := by simp
    requesting := fun _ => rfl
    requestOrder := by have := h.requestOrder; simp only [snoc]; omega
    requestClean := by simp [hsh,hex]
    wbReply := fun hw => by
      obtain ⟨ha,-,-,-,hu,-,hf⟩ := h.wbReply hw
      exact ⟨ha,by simp,by simp,by omega,by omega,hb,hf⟩
    wbDemand := by omega
    wbDemandOnce := by omega
    flushDemand := by omega
    demandOrder := hd }

theorem dropDirty (h : Port v s w i o) (hs : s ≠ .invalid) (hi : Dropped i i') (hf : v.flushOk)
    (hu : i.upgradeRep = 0) (hw : o.wbRep = 0) (d : D) : Port v .invalid w i' (o.snoc (.flushRep d)) := by
  have hc := h.dropClean (D := D) hs hi
  obtain ⟨he',hr',hu',-⟩ := hi
  exact { hc with
    token := by have := hc.token; simp only [snoc] at this ⊢; omega
    upgraded := by omega
    requestClean := fun hp => absurd (hc.requestClean hp) (by simp [snoc])
    wbReply := by simp only [snoc]; omega
    flushReply := fun _ => hf }

theorem evictDirty (h : Port v .modified w i o) (hi : Dropped i i')
    (hem : v.dstate.isEM → v.flushOk) (d : D) : Port v .invalid w i' (o.snoc (.flushRep d)) := by
  have hw : w = none := by
    cases w with
    | none => rfl
    | some x => exact absurd (h.waiting rfl) (by simp)
  subst hw
  have hd : v.dstate.isEM := (h.known (h.holder (by simp)).1).resolve_left fun hd => (h.sharedOnly hd).2.1 rfl
  have hb : o.wbRep = 0 := Nat.eq_zero_of_not_pos fun hb => (h.wbReply hb).2.2.1 rfl
  exact h.dropDirty (by simp) hi (hem hd) h.idle.2.2.2.2 hb d

theorem receiveFlushReq (h : Port v s w (i.cons (.flushReq : DirMsg D)) o) (hs : s ≠ .invalid)
    (hi : Dropped (i.cons (.flushReq : DirMsg D)) i') (hff : v.awaitFlush → v.flushOk)
    (hwf : v.awaitWb → ¬ v.awaitFlush) (d : D) : Port v .invalid w i' (o.snoc (.flushRep d)) := by
  have ha := h.flushDemand (by simp [Inbox.cons])
  have hu := h.demandOrder
  have hb : o.wbRep = 0 := Nat.eq_zero_of_not_pos fun hb => hwf (h.wbReply hb).1 ha
  simp only [Inbox.cons] at hu
  exact h.dropDirty hs hi (hff ha) (by simp only [Inbox.cons]; omega) hb d

theorem receiveExRep (h : Port v .invalid w (i.cons (.exRep d)) o) : Port v .exclusive none i o := by
  have hn := h.outstanding
  have ht := h.token
  have hw := w.isSome.toNat_le
  have hd : v.dstate ≠ .shared := fun hd => by simpa [Inbox.cons] using (h.sharedOnly hd).2.2.1
  have hb : o.wbRep = 0 := Nat.eq_zero_of_not_pos fun hb => by
    simpa [Inbox.cons] using (h.wbReply hb).2.2.2.1
  simp only [Inbox.cons,held,Bool.toNat_false] at hn ht
  have hp : v.pending = [] := by rw [← List.length_eq_zero_iff]; omega
  exact { h with
    token := by simp only [held,Bool.toNat_true]; omega
    outstanding := by simp [hp]; omega
    waiting := by simp
    upgrading := by simp
    eager := by simp [hp]; omega
    notOwned := by simp
    stale := by simp
    sharedOnly := fun hc => absurd hc hd
    sharedCopy := by simp
    requesting := by simp [hp]; omega
    wbReply := by omega }

theorem receiveShRep (h : Port v .invalid w (i.cons (.shRep d)) o) : Port v .shared none i o := by
  have hn := h.outstanding
  have ht := h.token
  have hw := w.isSome.toNat_le
  have hd : v.dstate = .shared := h.shReply (by simp [Inbox.cons])
  have hb := h.wbReply
  simp only [Inbox.cons,held,Bool.toNat_false] at hn ht hb
  have hp : v.pending = [] := by rw [← List.length_eq_zero_iff]; omega
  exact { h with
    token := by simp only [held,Bool.toNat_true]; omega
    outstanding := by simp [hp]; omega
    waiting := by simp
    upgrading := by simp
    eager := by simp [hp]; omega
    notOwned := by simp
    stale := by simp
    sharedOnly := fun hc => ⟨by simp,by simp,by omega,by omega⟩
    shReply := fun _ => hd
    sharedCopy := fun _ => .inl hd
    requesting := by simp [hp]; omega
    wbReply := fun hr => ⟨(hb hr).1,by simp,by simp,(hb hr).2.2.2⟩ }

theorem receiveUpgradeRep (h : Port v .sharedUpgrading w (i.cons (.upgradeRep : DirMsg D)) o) :
    Port v .modified none i o := by
  have hn := h.outstanding
  have hw := w.isSome.toNat_le
  obtain ⟨-,hd,hf,hb⟩ := h.upgraded (by simp [Inbox.cons])
  simp only [Inbox.cons] at hn
  have hp : v.pending = [] := by rw [← List.length_eq_zero_iff]; omega
  exact { h with
    outstanding := by simp [hp]; omega
    waiting := by simp
    upgrading := by simp
    eager := by simp [hp]; omega
    notOwned := by simp
    stale := by simp
    sharedOnly := by simp [hd]
    upgraded := by omega
    sharedCopy := by simp
    requesting := by simp [hp]; omega
    wbReply := by omega }

theorem receiveWbReq (h : Port v s w (i.cons (.wbReq : DirMsg D)) o) (hs : s ≠ .invalid)
    (hs' : s = .sharedUpgrading ∧ s' = .sharedUpgrading ∨ s ≠ .sharedUpgrading ∧ s' = .shared)
    (d : D) : Port v s' w i (o.snoc (.wbRep d)) := by
  obtain ⟨hv,hg,he,hr,hn,hl⟩ := h.holder hs
  obtain ⟨hq,hsh,hex⟩ := h.noRequest hs
  have ha := h.wbDemand (by simp [Inbox.cons])
  have ho := h.wbDemandOnce
  have hd := h.demandOrder
  have hb : o.wbRep = 0 := Nat.eq_zero_of_not_pos fun hb => by
    simpa [Inbox.cons] using (h.wbReply hb).2.2.2.2.2.1
  have hu := h.upgradeSent
  have hk := h.wbReplyOrder
  have hz := o.wbLess hb
  have hx := h.sharedOnly
  simp only [Inbox.cons] at he hr ho hd hx
  have hheld : s' ≠ .invalid := by rcases hs' with ⟨-,rfl⟩ | ⟨-,rfl⟩ <;> simp
  exact { h with
    token := by rw [held_of_ne hheld,← held_of_ne hs]; exact h.token
    waiting := fun hw => by
      rcases hs' with ⟨-,rfl⟩ | ⟨hne,-⟩
      · exact .inr rfl
      · exact absurd (h.waiting hw) (by simp [hs,hne])
    upgrading := by
      rintro rfl
      rcases hs' with ⟨rfl,-⟩ | ⟨-,hc⟩
      · exact h.upgrading rfl
      · simp at hc
    notOwned := by rcases hs' with ⟨-,rfl⟩ | ⟨-,rfl⟩ <;> simp
    stale := fun hc => absurd hc hheld
    sharedOnly := fun hc => ⟨by rcases hs' with ⟨-,rfl⟩ | ⟨-,rfl⟩ <;> simp,
      by rcases hs' with ⟨-,rfl⟩ | ⟨-,rfl⟩ <;> simp,he,by omega⟩
    upgraded := by omega
    sharedCopy := fun _ => .inr (by simp [snoc])
    upgradeSent := fun _ _ => .inr (by simp [snoc])
    upgradeOrder := fun hc => by
      simp only [snoc] at hc
      exact (hu (by omega) hv).resolve_right (by omega)
    requesting := by simp [snoc,hq,hsh,hex]
    wbReply := fun _ => ⟨ha,by rcases hs' with ⟨-,rfl⟩ | ⟨-,rfl⟩ <;> simp,
      by rcases hs' with ⟨-,rfl⟩ | ⟨-,rfl⟩ <;> simp,he,by omega,by omega,hl⟩
    wbReplyOnce := by simp only [snoc]; omega
    wbReplyOrder := by simp only [snoc]; omega
    wbDemand := fun _ => ha
    wbDemandOnce := by omega
    flushDemand := h.flushDemand
    demandOrder := by omega }

end Port
end Coherence
