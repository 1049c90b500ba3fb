import SniperSim.Stack.Inclusion

open List Option Except
open Coherence Function
namespace Coherence
variable {D : Type}
namespace LlcLine
variable {P : CacheState → Prop} (hm : P .modified) (hu : P .shared → P .sharedUpgrading)
include hm hu

theorem wakeWaiters_keeps (hs : P s) (ws : List Bool) : P (wakeWaiters (D := D) s ws).1 := by
  induction ws generalizing s with
  | nil => exact hs
  | cons x ws ih =>
    rw [wakeWaiters]
    split
    case isTrue hx => exact hu (hx.2 ▸ hs)
    case isFalse =>
      refine ih ?_
      split
      · exact hm
      · exact hs

theorem settle_keeps {b : LlcLine D} (hs : P b.cstate) (p : Option Handover) : P (settle p b).1.cstate := by
  rcases p with _ | _ | _
  · exact hs
  · refine wakeWaiters_keeps hm hu ?_ _
    split
    · exact hm
    · exact hs
  · exact wakeWaiters_keeps hm hu hs _

end LlcLine

theorem WaiterSystem.sole_owner {Addr T : Type} {n : Nat} [DecidableEq Addr] {s : WaiterSystem Addr T n D}
    {a : Addr} {c c' : Fin n} {contents : Addr → D} (h : Reachable cfg contents s)
    (hc : s.lastLevel c a = .exclusive ∨ s.lastLevel c a = .modified) (hne : c' ≠ c) : s.lastLevel c' a = .invalid := by
  by_contra hv
  have ho := LlcLine.settle_keeps (P := fun x => x = .exclusive ∨ x = .modified) (.inr rfl) (by simp) hc (s.phase a c)
  have hi := Line.others_invalid (System.reachable_busy (reachable_settled h) a).1 ho hne
  exact LlcLine.settle_keeps (P := (· ≠ .invalid)) (by simp) (by simp) hv (s.phase a c') hi

end Coherence

namespace StackSystem
open CacheStack
variable {Addr ι : Type} {n : Nat} [DecidableEq Addr] {cfg : Config} {H : Fin n → Forest ι}
  {s t : StackSystem Addr ι n} {c c' : Fin n} {a : Addr} {x : ι}

def Awaited (s : StackSystem Addr ι n) : Prop :=
  ∀ c x a, s.pending c x = some a → x ∈ (s.protocol.waiting c a).map (·.thread)

theorem Awaited.move (h : Awaited s) (hc : WaiterSystem.Changes s.protocol t.protocol c a z q)
    (hp : t.pending = update s.pending c p)
    (hq : ∀ x v, p x = some v → x ∈ (update (s.protocol.waiting c) a q v).map (·.thread)) : Awaited t := by
  intro c' x v hx
  rw [hp] at hx
  rcases eq_or_ne c' c with rfl | hcc
  · rw [update_self] at hx
    have hm := hq x v hx
    rcases eq_or_ne v a with rfl | hv
    · rwa [update_self,← hc.queue] at hm
    · rwa [update_of_ne hv,← hc.queues c' v (.inl hv)] at hm
  · rw [update_of_ne hcc] at hx
    rw [hc.queues c' v (.inr hcc)]
    exact h c' x v hx

theorem Awaited.kept (h : Awaited s) (hc : WaiterSystem.Changes s.protocol t.protocol c a z (s.protocol.waiting c a))
    (hp : t.pending = s.pending) : Awaited t := by
  refine h.move hc (hp.trans (update_eq_self c _).symm) fun x v hx => ?_
  rw [update_eq_self]
  exact h c x v hx

theorem stepProtocol_ok (h : s.stepProtocol cfg l = .ok t) :
    ∃ p, s.protocol.step cfg l = .ok p ∧ t = { s with protocol := p } := by
  unfold stepProtocol at h
  split at h
  case h_1 p hp => exact ⟨p,hp,(ok.inj h).symm⟩
  case h_2 => cases h

variable [DecidableEq ι]

theorem writing_stack_alone (h : Reachable cfg H s)
    (hw : s.lastLevel c a = .exclusive ∨ s.lastLevel c a = .modified ∨ ∃ x, s.caches c a x = .modified)
    (hne : c' ≠ c) : s.lastLevel c' a = .invalid ∧ ∀ y, s.caches c' a y = .invalid := by
  have hs := reachable_sound h
  have ho : s.lastLevel c a = .exclusive ∨ s.lastLevel c a = .modified := by
    rcases hw with hw | hw | ⟨x,hx⟩
    · exact .inl hw
    · exact .inr hw
    · exact .inr ((hs.consistent c a).last_level_modified hx)
  have hi : s.lastLevel c' a = .invalid := WaiterSystem.sole_owner hs.protocol ho hne
  exact ⟨hi,(hi ▸ hs.consistent c' a).all_invalid⟩

def writeBy (c : Fin n) : List (StackLabel Unit Bool n) :=
  [.core () c false (.write ()) fun _ => none, .directory () (.deliverDir c ⟨c,(),none⟩), .directory () .dramServe,
    .directory () (.dramReply ⟨c,(),none⟩), .network () c, .user c fun _ => none]

def afterWrite (k : Nat) : StackSystem Unit Bool 2 :=
  (Run.guided (step mesiFullMap fun _ => privateFirstLevels) (fun _ _ => True) (initial Unit Bool 2)
    ((writeBy ⟨0,Nat.zero_lt_two⟩).take k)).getD (initial Unit Bool 2)

theorem written_stack_alone : (afterWrite 6).caches 0 () false = .modified ∧
    (afterWrite 6).caches 1 () true = .invalid := by
  have hm : (afterWrite 6).caches 0 () false = .modified := by decide +kernel
  exact ⟨hm,(writing_stack_alone (Run.reaches_guided (by decide +kernel)) (.inr (.inr ⟨false,hm⟩)) (by decide)).2 true⟩

theorem core_awaited (hs : Sound cfg H s) (h : Awaited s) (hx : (H c).prev (some x) = [])
    (ht : s.processMemOpFromCore cfg H a c x op victims = .ok t) : Awaited t := by
  unfold processMemOpFromCore at ht
  cases hperm : operationPermissibleinCache op (s.caches c a x) with
  | true =>
    rw [processMemOpFromCore_hit hperm] at ht
    obtain rfl := ok.inj ht
    exact h
  | false =>
    obtain ⟨⟨m,w⟩,hq,hacc⟩ := processMemOpFromCore_accessed hx (hs.unowned c a) (hs.consistent c) hperm victims
    rw [hq] at ht
    cases w with
    | below =>
      obtain rfl := ok.inj ht
      exact h
    | lastLevel =>
      obtain ⟨p,hp,rfl⟩ := stepProtocol_ok ht
      exact h.kept (WaiterSystem.core_hit_changes hp ((permits_eq_grants _ _).trans (hacc.granted.1 rfl))) rfl
    | miss =>
      obtain ⟨p,hp,rfl⟩ := stepProtocol_ok ht
      obtain ⟨z,-,hch⟩ := WaiterSystem.core_miss_changes (WaiterSystem.reachable_ordered hs.protocol) hp
        ((permits_eq_grants _ _).trans (hacc.granted.2 rfl))
      refine h.move hch rfl fun y v hy => ?_
      rcases eq_or_ne y x with rfl | hyx
      · rw [update_self] at hy
        obtain rfl := some.inj hy
        simp
      · rw [update_of_ne hyx] at hy
        have hm := h c y v hy
        rcases eq_or_ne v a with rfl | hv
        · rw [update_self,map_append]
          exact mem_append_left _ hm
        · rwa [update_of_ne hv]

theorem user_awaited (hs : Sound cfg H s) (h : Awaited s) (hn : s.protocol.networkThread c = some (a,.user))
    (ht : s.runUserThread cfg H a c victims = .ok t) : Awaited t := by
  unfold runUserThread at ht
  cases hq : s.protocol.directoryWaiters a c with
  | nil =>
    rw [hq] at ht
    cases ht
  | cons w rest =>
    have hw := hs.woken hn hq
    have hmove : ∀ p m, s.protocol.step cfg (.user c) = .ok p →
        Awaited { (s.setCaches c m).setPending c w.thread none with protocol := p } := by
      refine fun p m hp => h.move (WaiterSystem.user_changes hn hq hp) rfl fun y v hy => ?_
      rcases eq_or_ne y w.thread with rfl | hyw
      · simp at hy
      · rw [update_of_ne hyw] at hy
        have hm := h c y v hy
        rcases eq_or_ne v a with rfl | hv
        · rw [hw.waits,map_cons] at hm
          rw [update_self]
          exact (mem_cons.mp hm).resolve_left hyw
        · rwa [update_of_ne hv]
    obtain ⟨⟨m,wh⟩,hop,hmiss,hacc⟩ := hw.served victims
    obtain ⟨hc,hperm,-⟩ := hacc.served hw.leaf (hs.unowned c a) (hs.consistent c a)
    rw [hq] at ht
    dsimp only at ht
    rw [hop] at ht
    cases wh with
    | below =>
      obtain rfl := ok.inj ht
      refine hmove _ m (user_below hn hq hw.permitted fun hx => ?_)
      have hz := below_exclusive hc (hperm hmiss)
      rw [show w.op.exclusive from hx] at hz
      exact hz
    | lastLevel =>
      obtain ⟨p,hp,rfl⟩ := stepProtocol_ok ht
      exact hmove p m hp
    | miss => exact absurd rfl hmiss

theorem step_awaited (hs : Sound cfg H s) (h : Awaited s) (ht : s.step cfg H l = .ok t) : Awaited t := by
  cases l with
  | core a c x op victims =>
    rw [step] at ht
    split_ifs at ht with hx
    exact core_awaited hs h (not_not.mp hx) ht
  | network a c =>
    rw [step] at ht
    split_ifs at ht
    unfold handleMsgFromDramDirectory at ht
    split at ht
    case h_1 => cases ht
    case h_2 m ms hi =>
      obtain ⟨f,-,ht⟩ := Outcome.bind_ok ht
      obtain ⟨p,hp,rfl⟩ := stepProtocol_ok ht
      obtain ⟨z,-,hch⟩ := WaiterSystem.network_changes hi hp
      exact h.kept hch rfl
  | user c victims =>
    rw [step] at ht
    split at ht
    case h_1 a hn => exact user_awaited hs h hn ht
    case h_2 => cases ht
  | resume c =>
    obtain ⟨p,hp,rfl⟩ := stepProtocol_ok ht
    obtain ⟨a,z,-,hch⟩ := WaiterSystem.resume_changes hp
    exact h.kept hch rfl
  | evict a c =>
    rw [step] at ht
    split_ifs at ht
    obtain ⟨f,-,ht⟩ := Outcome.bind_ok ht
    obtain ⟨p,hp,rfl⟩ := stepProtocol_ok ht
    exact h.kept (WaiterSystem.evict_changes hp).1 rfl
  | directory a l =>
    obtain ⟨p,hp,rfl⟩ := stepProtocol_ok ht
    intro c x a' hx
    rw [(WaiterSystem.directory_keeps hp c a').2]
    exact h c x a' hx

theorem stalled_iff_queued (h : Reachable cfg H s) (c : Fin n) (a : Addr) :
    (∀ x, s.pending c x = some a ↔ x ∈ (s.protocol.waiting c a).map (·.thread)) ∧
    ((s.protocol.waiting c a).map (·.thread)).Nodup ∧
    ∀ w ∈ s.protocol.waiting c a, (H c).prev (some w.thread) = [] ∧ s.caches c a w.thread = .invalid := by
  have hs := reachable_sound h
  have hw : Sound cfg H s ∧ Awaited s := by
    refine Run.Reaches.invariant (I := fun s => Sound cfg H s ∧ Awaited s) ?_ ⟨sound_initial cfg H,fun _ _ _ => nofun⟩ h
    exact fun s l t hs _ ht => ⟨(step_sound hs.1 l).of_ok ht,step_awaited hs.1 hs.2 ht⟩
  refine ⟨fun x => ⟨hw.2 c x a,?_⟩,hs.distinct c a,fun w hm => ?_⟩
  · intro hx
    obtain ⟨w,hm,rfl⟩ := mem_map.mp hx
    exact (hs.queued c a w hm).2
  · exact hs.absent c w.thread a (hs.queued c a w hm).2

theorem write_miss_queued : (afterWrite 1).pending 0 false = some () ∧
    false ∈ ((afterWrite 1).protocol.waiting 0 ()).map (·.thread) := by
  have hp : (afterWrite 1).pending 0 false = some () := by decide +kernel
  exact ⟨hp,((stalled_iff_queued (Run.reaches_guided (by decide +kernel)) 0 ()).1 false).mp hp⟩

end StackSystem
