import SniperSim.Stack.StackSpec
import SniperSim.Stack.StackSystem

open List Option Except
open Coherence Function
namespace CacheStack
variable {ι : Type} {H : Forest ι} {llc s t : CacheState} {f : ι → CacheState} {x y : ι}

theorem Under.drift (h : Under s llc) (hd : LlcLine.Drifts llc t) : Under s t := by
  rcases hd with rfl | ⟨rfl,rfl⟩
  · exact h
  · cases h with
    | invalid => exact .invalid _
    | shared => exact .shared (by decide)

theorem Consistent.drift (h : Consistent H llc f) (hd : LlcLine.Drifts llc t) : Consistent H t f := by
  intro y
  have hu := h y
  cases hz : H.next y with
  | none =>
    rw [hz] at hu
    exact hu.drift hd
  | some z => rwa [hz] at hu

theorem Consistent.last_level_modified (h : Consistent H llc f) (hx : f x = .modified) : llc = .modified := by
  induction x using H.climb with
  | h x ih =>
    have hu := h x
    rw [hx] at hu
    cases hn : H.next x with
    | none => exact (hn ▸ hu).next_modified
    | some z => exact ih z hn (hn ▸ hu).next_modified

theorem Consistent.all_invalid (h : Consistent H .invalid f) (x : ι) : f x = .invalid := by
  induction x using H.climb with
  | h x ih =>
    have hu := h x
    cases hn : H.next x with
    | none => exact (hn ▸ hu).of_invalid
    | some z =>
      rw [hn,getCacheState,ih z hn] at hu
      exact hu.of_invalid

theorem consistent_of_invalid (h : ∀ x, f x = .invalid) (t : CacheState) : Consistent H t f := by
  intro y
  rw [h y]
  exact .invalid _

theorem settleAll_all_invalid (f : ι → CacheState) (y : ι) : settleAll .invalid f y = .invalid := by
  rcases eq_or_ne (f y) .invalid with hf | hf
  · exact settleAll_invalid hf
  · exact settleAll_valid hf

theorem Consistent.settle_all (h : Consistent H llc f) (ht : t = .shared ∨ t = .modified) :
    Consistent H t (settleAll t f) := by
  intro y
  by_cases hy : f y = .invalid
  · rw [settleAll_invalid hy]
    exact .invalid _
  · rw [settleAll_valid hy]
    have hself : Under t t := by
      rcases ht with rfl | rfl
      · exact .shared (by decide)
      · exact .modified
    have hv := (h y).next_valid hy
    cases hz : H.next y with
    | none => exact hself
    | some z =>
      rw [hz] at hv
      change f z ≠ .invalid at hv
      change Under t (settleAll t f z)
      rwa [settleAll_valid hv]

theorem demand_invalid (h : Consistent H s f) (y : ι) :
    (if s = .invalid then none else some .invalid).elim f (fun new => settleAll new f) y = .invalid := by
  split_ifs with hs
  · subst hs
    exact h.all_invalid y
  · exact settleAll_all_invalid f y

theorem updateForDirectory_consistent (h : Consistent H s f) (hm : LlcLine.Handled s m t) :
    Consistent H t ((demand s m).elim f fun new => settleAll new f) := by
  cases hm with
  | exRep d hs | shRep d hs | shRepUpgrading d hs =>
    subst hs
    exact consistent_of_invalid h.all_invalid _
  | upgradeRep hs =>
    rw [demand,if_pos hs]
    exact h.settle_all (.inr rfl)
  | invReq | flushReq => exact consistent_of_invalid (demand_invalid h) _
  | wbReqAbsent hs | wbReqUpgrading hs =>
    subst hs
    exact h
  | wbReq hi hu =>
    rw [demand,if_neg hi,if_neg hu]
    exact h.settle_all (.inl rfl)

theorem updateForDirectory_invalid (m : DirMsg Unit) (hy : f y = .invalid) :
    (demand s m).elim f (fun new => settleAll new f) y = .invalid := by
  cases demand s m with
  | none => exact hy
  | some new => exact settleAll_invalid hy

variable [DecidableEq ι]

theorem updateForDirectory_eq (h : Consistent H s f) (m : DirMsg Unit) : updateForDirectory H s m f =
      .ok ((demand s m).elim f fun new => settleAll new f) := by
  unfold updateForDirectory
  cases hd : demand s m with
  | none => rfl
  | some new =>
    refine updatePrevCaches_roots ?_ h none
    cases m with
    | exRep _ | shRep _ => cases hd
    | invReq | flushReq =>
      dsimp only [demand] at hd
      split_ifs at hd
      exact .inl (some.inj hd).symm
    | wbReq =>
      dsimp only [demand] at hd
      split_ifs at hd
      exact .inr (.inl (some.inj hd).symm)
    | upgradeRep =>
      dsimp only [demand] at hd
      split_ifs at hd
      exact .inr (.inr (some.inj hd).symm)

end CacheStack

variable {z y : CacheState}
namespace StackSystem
open CacheStack
variable {Addr ι : Type} {n : Nat}

def Harmless (f : StackFault) : Prop := (∀ g, f ≠ .stack g) ∧ f ≠ .protocol (.line .modifiedDataLost)

def Expected (l : StackLabel Addr ι n) (f : StackFault) : Prop :=
  (∀ g, f ≠ .stack g) ∧ ((∀ a d, l ≠ .directory a d) → f ≠ .protocol (.line .modifiedDataLost))

theorem expected_of_harmless (h : Outcome Harmless P r) : Outcome (Expected l) P r := by
  cases r with
  | ok t => exact h
  | error f => exact ⟨h.1,fun _ => h.2⟩

variable [DecidableEq Addr] {cfg : Config}
  {H : Fin n → Forest ι} {s t : StackSystem Addr ι n} {a : Addr} {c : Fin n} {x : ι}
  {rest : List (CacheDirectoryWaiter ι Unit)} {w : CacheDirectoryWaiter ι Unit}

structure Sound (cfg : Config) (H : Fin n → Forest ι) (s : StackSystem Addr ι n) : Prop where
  protocol : WaiterSystem.Reachable cfg (fun _ => ()) s.protocol
  unowned : ∀ c a, s.lastLevel c a ≠ .owned
  consistent : ∀ c a, Consistent (H c) (s.lastLevel c a) (s.caches c a)
  queued : ∀ c a, ∀ w ∈ s.protocol.waiting c a,(H c).prev (some w.thread) = [] ∧ s.pending c w.thread = some a
  distinct : ∀ c a, ((s.protocol.waiting c a).map (·.thread)).Nodup
  absent : ∀ c x a, s.pending c x = some a → (H c).prev (some x) = [] ∧ s.caches c a x = .invalid

theorem sound_initial (cfg : Config) (H : Fin n → Forest ι) : Sound cfg H (initial Addr ι n) where
  protocol := .refl
  unowned := fun _ _ => nofun
  consistent := fun _ _ => consistent_of_invalid (fun _ => rfl) _
  queued := fun _ _ _ hw => nomatch hw
  distinct := fun _ _ => nodup_nil
  absent := fun _ _ _ h => nomatch h

structure StackMove (H : Forest ι) (s : StackSystem Addr ι n) (c : Fin n) (a : Addr) (z : CacheState)
    (q : List (CacheDirectoryWaiter ι Unit)) (m : Addr → ι → CacheState) (p : ι → Option Addr) : Prop where
  unowned : z ≠ .owned
  line : Consistent H z (m a)
  others : ∀ v ≠ a, Consistent H (s.lastLevel c v) (m v)
  queued : ∀ w ∈ q, H.prev (some w.thread) = [] ∧ p w.thread = some a
  kept : ∀ v ≠ a, ∀ w ∈ s.protocol.waiting c v, p w.thread = some v
  distinct : (q.map (·.thread)).Nodup
  absent : ∀ x v, p x = some v → H.prev (some x) = [] ∧ m v x = .invalid

theorem Sound.move (h : Sound cfg H s) (hr : WaiterSystem.Reachable cfg (fun _ => ()) t.protocol)
    (hc : WaiterSystem.Changes s.protocol t.protocol c a z q) (hm : t.caches = update s.caches c m)
    (hp : t.pending = update s.pending c p) (hs : StackMove (H c) s c a z q m p) : Sound cfg H t := by
  refine ⟨hr,fun c' a' => ?_,fun c' a' => ?_,fun c' a' w hw => ?_,fun c' a' => ?_,fun c' y a' hy => ?_⟩
  · rcases WaiterSystem.touched a a' c c' with ⟨rfl,rfl⟩ | hne
    · rw [lastLevel,hc.state]
      exact hs.unowned
    · rw [lastLevel,hc.states c' a' hne]
      exact h.unowned c' a'
  · rw [hm]
    rcases WaiterSystem.touched a a' c c' with ⟨rfl,rfl⟩ | hne
    · rw [lastLevel,hc.state,update_self]
      exact hs.line
    · rw [lastLevel,hc.states c' a' hne]
      rcases eq_or_ne c' c with rfl | hcc
      · rw [update_self]
        exact hs.others a' (hne.resolve_right fun hn => hn rfl)
      · rw [update_of_ne hcc]
        exact h.consistent c' a'
  · rw [hp]
    rcases WaiterSystem.touched a a' c c' with ⟨rfl,rfl⟩ | hne
    · rw [hc.queue] at hw
      rw [update_self]
      exact hs.queued w hw
    · rw [hc.queues c' a' hne] at hw
      have hq := h.queued c' a' w hw
      rcases eq_or_ne c' c with rfl | hcc
      · rw [update_self]
        exact ⟨hq.1,hs.kept a' (hne.resolve_right fun hn => hn rfl) w hw⟩
      · rwa [update_of_ne hcc]
  · rcases WaiterSystem.touched a a' c c' with ⟨rfl,rfl⟩ | hne
    · rw [hc.queue]
      exact hs.distinct
    · rw [hc.queues c' a' hne]
      exact h.distinct c' a'
  · rw [hp] at hy
    rw [hm]
    rcases eq_or_ne c' c with rfl | hcc
    · rw [update_self] at hy ⊢
      exact hs.absent y a' hy
    · rw [update_of_ne hcc] at hy ⊢
      exact h.absent c' y a' hy

theorem Sound.line_move (h : Sound cfg H s) (hz : z ≠ .owned) (hg : Consistent (H c) z g)
    (hi : ∀ y, s.caches c a y = .invalid → g y = .invalid) :
    StackMove (H c) s c a z (s.protocol.waiting c a) (update (s.caches c) a g) (s.pending c) where
  unowned := hz
  line := by rwa [update_self]
  others := fun v hv => by
    rw [update_of_ne hv]
    exact h.consistent c v
  queued := h.queued c a
  kept := fun v _ w hw => (h.queued c v w hw).2
  distinct := h.distinct c a
  absent := fun y v hy => by
    obtain ⟨hl,hn⟩ := h.absent c y v hy
    refine ⟨hl,?_⟩
    rcases eq_or_ne v a with rfl | hv <;> simp [*]

section
variable [DecidableEq ι] {op : MemOp Unit} {q : (Addr → ι → CacheState) × HitWhere} {z : CacheState}

theorem Sound.hit_move (h : Sound cfg H s) (hq : Accessed (H c) (s.lastLevel c) op a x (s.caches c) q)
    (hp : s.pending c x = none) (hz : z ≠ .owned) (hc : Consistent (H c) z (q.1 a)) :
    StackMove (H c) s c a z (s.protocol.waiting c a) q.1 (s.pending c) where
  unowned := hz
  line := hc
  others := fun v hv => (hq.others v hv).consistent
  queued := h.queued c a
  kept := fun v _ w hw => (h.queued c v w hw).2
  distinct := h.distinct c a
  absent := fun y v hy => by
    obtain ⟨hl,hn⟩ := h.absent c y v hy
    refine ⟨hl,hq.keeps_invalid hl ?_ hn⟩
    rintro rfl
    simp [hp] at hy

theorem Sound.miss_move (h : Sound cfg H s) (hq : Accessed (H c) (s.lastLevel c) op a x (s.caches c) q)
    (hx : (H c).prev (some x) = []) (hp : s.pending c x = none) (hz : z ≠ .owned)
    (hc : Consistent (H c) z (q.1 a)) (hi : q.1 a x = .invalid) :
    StackMove (H c) s c a z (s.protocol.waiting c a ++ [⟨x,op⟩]) q.1 (update (s.pending c) x (some a)) := by
  have hne : ∀ {v w}, w ∈ s.protocol.waiting c v → w.thread ≠ x := by
    rintro v w hw rfl
    simp [(h.queued c v w hw).2] at hp
  refine ⟨hz,hc,fun v hv => (hq.others v hv).consistent,fun w hw => ?_,fun v _ w hw => ?_,?_,fun y v hy => ?_⟩
  · rcases mem_append.mp hw with hw | hw
    · rw [update_of_ne (hne hw)]
      exact h.queued c a w hw
    · obtain rfl := mem_singleton.mp hw
      exact ⟨hx,update_self _ _ _⟩
  · rw [update_of_ne (hne hw)]
    exact (h.queued c v w hw).2
  · rw [map_append,nodup_append]
    refine ⟨h.distinct c a,nodup_singleton _,fun u hu y hy => ?_⟩
    obtain ⟨w,hw,rfl⟩ := List.mem_map.mp hu
    obtain rfl := mem_singleton.mp hy
    exact hne hw
  · rcases eq_or_ne y x with rfl | hyx
    · rw [update_self] at hy
      cases hy
      exact ⟨hx,hi⟩
    · rw [update_of_ne hyx] at hy
      obtain ⟨hl,hn⟩ := h.absent c y v hy
      exact ⟨hl,hq.keeps_invalid hl hyx hn⟩

theorem Sound.user_move (h : Sound cfg H s) (hq : Accessed (H c) (s.lastLevel c) op a w.thread (s.caches c) q)
    (hw : s.protocol.waiting c a = w :: rest) (hz : z ≠ .owned) (hc : Consistent (H c) z (q.1 a)) :
    StackMove (H c) s c a z rest q.1 (update (s.pending c) w.thread none) := by
  have hd := h.distinct c a
  rw [hw,map_cons,nodup_cons] at hd
  have hself : s.pending c w.thread = some a := (h.queued c a w (by rw [hw]; exact mem_cons_self)).2
  refine ⟨hz,hc,fun v hv => (hq.others v hv).consistent,fun w' hw' => ?_,fun v hv w' hw' => ?_,hd.2,fun y v hy => ?_⟩
  · have hne : w'.thread ≠ w.thread := fun he => hd.1 (he ▸ List.mem_map_of_mem hw')
    rw [update_of_ne hne]
    exact h.queued c a w' (by rw [hw]; exact mem_cons_of_mem _ hw')
  · have hpend := (h.queued c v w' hw').2
    have hne : w'.thread ≠ w.thread := by
      intro he
      rw [he,hself] at hpend
      exact hv (some.inj hpend).symm
    rwa [update_of_ne hne]
  · have hne : y ≠ w.thread := by
      rintro rfl
      simp [update_self] at hy
    rw [update_of_ne hne] at hy
    obtain ⟨hl,hn⟩ := h.absent c y v hy
    exact ⟨hl,hq.keeps_invalid hl hne hn⟩
end

theorem stepProtocol_outcome (hr : WaiterSystem.Reachable cfg (fun _ => ()) s.protocol) (hl : ∀ a d, l ≠ .directory a d)
    (hok : ∀ p, s.protocol.step cfg l = .ok p → WaiterSystem.Reachable cfg (fun _ => ()) p →
      P { s with protocol := p }) : Outcome Harmless P (s.stepProtocol cfg l) := by
  unfold stepProtocol
  cases hs : s.protocol.step cfg l with
  | ok p => exact hok p hs (hr.tail trivial hs)
  | error f =>
    refine ⟨nofun,fun hf => WaiterSystem.step_lossless hr hl ?_⟩
    rw [hs,StackFault.protocol.inj hf]

theorem drifts_unowned (h : y ≠ .owned) (hd : LlcLine.Drifts y z) : z ≠ .owned := by
  rcases hd with rfl | ⟨-,rfl⟩
  · exact h
  · decide

theorem last_level_unowned {x : Bool} (h : y ≠ .owned) : (if x then .modified else y) ≠ CacheState.owned := by
  split
  · decide
  · exact h

theorem permits_eq_grants (b : LlcLine Unit) (op : MemOp Unit) : b.permits op.exclusive = grants op b.cstate := by
  obtain ⟨s,d,ws⟩ := b
  cases op <;> cases s <;> rfl

variable {op : MemOp Unit}

theorem below_exclusive {w : HitWhere} {f : ι → CacheState}
    (hc : Consistent (H c) (lineAfter op w y) f) (hperm : operationPermissibleinCache op (f x)) :
    lineAfter op w y = if op.exclusive then .modified else y := by
  cases hop : op.exclusive with
  | true => exact hc.last_level_modified (permissible_exclusive hop hperm)
  | false => simp [lineAfter,hop]

theorem hitBy_modified {ln : Line n Unit} (h : op.exclusive → (ln.llc c).cstate = .modified) : ln.hitBy c op = ln := by
  have hb : (ln.llc c).performed op = ln.llc c := by
    generalize ln.llc c = b at h
    obtain ⟨s,d,ws⟩ := b
    cases op with
    | read => rfl
    | readEx | write v =>
      obtain rfl : s = .modified := h rfl
      rfl
  rw [Line.hitBy,hb,Line.setLlc_self]

theorem user_below
    (hn : s.protocol.networkThread c = some (a,.user)) (hq : s.protocol.directoryWaiters a c = w :: rest)
    (hp : ((s.protocol.lines a).llc c).permits w.exclusive)
    (hm : w.exclusive → s.lastLevel c a = .modified) :
    s.protocol.step cfg (.user c) = .ok (s.protocol.setNetworkThread c (some (a,.network))) := by
  have hstep : (s.protocol.lines a).step cfg (.core c w.op) = .ok (s.protocol.lines a) := by
    rw [Line.step_core_hit hp]
    exact congrArg ok (hitBy_modified hm)
  rw [WaiterSystem.step,hn]
  dsimp only
  rw [WaiterSystem.runUserThread,hq]
  dsimp only
  rw [if_pos hp,WaiterSystem.stepLine,hstep]
  change ok ((s.protocol.setLine a (s.protocol.lines a)).setNetworkThread c _) = _
  rw [WaiterSystem.setLine,update_eq_self]

theorem resume_sound (h : Sound cfg H s) (c : Fin n) :
    Outcome Harmless (Sound cfg H) (s.stepProtocol cfg (.resume c)) := by
  refine stepProtocol_outcome h.protocol (by simp) fun p hstep hr => ?_
  obtain ⟨a,z,hz,hch⟩ := WaiterSystem.resume_changes hstep
  have hm := h.line_move (a := a) (c := c) (drifts_unowned (h.unowned c a) hz)
    ((h.consistent c a).drift hz) fun _ hy => hy
  rw [update_eq_self] at hm
  exact h.move hr hch (update_eq_self _ _).symm (update_eq_self _ _).symm hm

theorem directory_sound (h : Sound cfg H s) (hs : s.protocol.step cfg (.directory a l) = .ok p) :
    Sound cfg H { s with protocol := p } := by
  have hk := WaiterSystem.directory_keeps hs
  refine ⟨h.protocol.tail trivial hs,fun c a' => ?_,fun c a' => ?_,fun c a' => ?_,fun c a' => ?_,h.absent⟩
  · change p.lastLevel c a' ≠ _
    rw [(hk c a').1]
    exact h.unowned c a'
  · change Consistent _ (p.lastLevel c a') _
    rw [(hk c a').1]
    exact h.consistent c a'
  · rw [(hk c a').2]
    exact h.queued c a'
  · rw [(hk c a').2]
    exact h.distinct c a'

variable [DecidableEq ι]

theorem core_sound (h : Sound cfg H s) (hx : (H c).prev (some x) = []) (hp : s.pending c x = none)
    (victims : ι → Option Addr) : Outcome Harmless (Sound cfg H) (s.processMemOpFromCore cfg H a c x op victims) := by
  unfold processMemOpFromCore
  cases hperm : operationPermissibleinCache op (s.caches c a x) with
  | true =>
    rw [processMemOpFromCore_hit hperm]
    change Sound cfg H (s.setCaches c (s.caches c))
    rwa [setCaches,update_eq_self]
  | false =>
    obtain ⟨⟨m,w⟩,hq,hacc⟩ := processMemOpFromCore_accessed hx (h.unowned c a) (h.consistent c) hperm victims
    obtain ⟨hc,-,hi⟩ := hacc.served hx (h.unowned c a) (h.consistent c a)
    have hpend : s.pending = update s.pending c (s.pending c) := (update_eq_self _ _).symm
    rw [hq]
    cases w with
    | below =>
      exact h.move h.protocol ⟨rfl,rfl,fun _ _ _ => rfl,fun _ _ _ => rfl⟩ rfl hpend
        (h.hit_move hacc hp (h.unowned c a) hc)
    | lastLevel =>
      refine stepProtocol_outcome (s := s.setCaches c m) h.protocol (by simp) fun p hstep hr => ?_
      have hch := WaiterSystem.core_hit_changes hstep ((permits_eq_grants _ _).trans (hacc.granted.1 rfl))
      simp only [lineAfter,true_and] at hc
      exact h.move hr hch rfl hpend (h.hit_move hacc hp (last_level_unowned (h.unowned c a)) hc)
    | miss =>
      refine stepProtocol_outcome (s := (s.setCaches c m).setPending c x (some a)) h.protocol (by simp)
        fun p hstep hr => ?_
      obtain ⟨z,hz,hch⟩ := WaiterSystem.core_miss_changes (WaiterSystem.reachable_ordered h.protocol)
        hstep ((permits_eq_grants _ _).trans (hacc.granted.2 rfl))
      exact h.move hr hch rfl rfl (h.miss_move hacc hx hp (drifts_unowned (h.unowned c a) hz) (hc.drift hz) (hi rfl))

structure Woken (cfg : Config) (H : Fin n → Forest ι) (s : StackSystem Addr ι n) (a : Addr)
    (c : Fin n) (w : CacheDirectoryWaiter ι Unit) (rest : List (CacheDirectoryWaiter ι Unit)) : Prop where
  waits : s.protocol.waiting c a = w :: rest
  permitted : ((s.protocol.lines a).llc c).permits w.exclusive
  leaf : (H c).prev (some w.thread) = []
  served : ∀ victims, ∃ q,
    CacheStack.processMemOpAfterReply (H c) (s.lastLevel c) w.op a victims w.thread (s.caches c) =
      .ok q ∧ q.2 ≠ .miss ∧ Accessed (H c) (s.lastLevel c) w.op a w.thread (s.caches c) q

section
variable (h : Sound cfg H s)
include h

theorem Sound.woken (hn : s.protocol.networkThread c = some (a,.user))
    (hq : s.protocol.directoryWaiters a c = w :: rest) : Woken cfg H s a c w rest := by
  have hph : s.protocol.phase a c = some .user := by
    rw [WaiterSystem.phase,hn,WaiterSystem.servedAt_self]
  have hwait : s.protocol.waiting c a = w :: rest := by
    rw [WaiterSystem.waiting,hph,if_neg (by decide),hq]
  have hpermits : ((s.protocol.lines a).llc c).permits w.exclusive :=
    (WaiterSystem.reachable_ordered h.protocol a c).permitted hph w (by rw [hq]; rfl)
  obtain ⟨hx,hpend⟩ := h.queued c a w (by rw [hwait]; exact mem_cons_self)
  have hi := (h.absent c w.thread a hpend).2
  refine ⟨hwait,hpermits,hx,fun victims => ?_⟩
  obtain ⟨q,hop,hacc⟩ := processMemOpFromCore_accessed hx (h.unowned c a) (h.consistent c)
    (by rw [hi]; exact refused_invalid w.op) victims
  have hmiss : q.2 ≠ .miss := by
    intro hm
    exact Bool.false_ne_true ((hacc.granted.2 hm).symm.trans ((permits_eq_grants _ _).symm.trans hpermits))
  exact ⟨q,processMemOpAfterReply_eq hi hop hmiss,hmiss,hacc⟩

theorem user_sound (hn : s.protocol.networkThread c = some (a,.user))
    (victims : ι → Option Addr) : Outcome Harmless (Sound cfg H) (s.runUserThread cfg H a c victims) := by
  unfold runUserThread
  cases hq : s.protocol.directoryWaiters a c with
  | nil => exact ⟨nofun,nofun⟩
  | cons w rest =>
    have hw := h.woken hn hq
    obtain ⟨⟨m,wh⟩,hop,hmiss,hacc⟩ := hw.served victims
    obtain ⟨hc,hperm,-⟩ := hacc.served hw.leaf (h.unowned c a) (h.consistent c a)
    have hz := below_exclusive hc (hperm hmiss)
    have hmove : ∀ p, s.protocol.step cfg (.user c) = .ok p →
        Sound cfg H { (s.setCaches c m).setPending c w.thread none with protocol := p } := by
      intro p hstep
      rw [hz] at hc
      exact h.move (h.protocol.tail trivial hstep) (WaiterSystem.user_changes hn hq hstep) rfl rfl
        (h.user_move hacc hw.waits (last_level_unowned (h.unowned c a)) hc)
    dsimp only
    rw [hop]
    cases wh with
    | below =>
      refine hmove _ (user_below hn hq hw.permitted fun hx => ?_)
      rw [show w.op.exclusive from hx] at hz
      exact hz
    | lastLevel => exact stepProtocol_outcome h.protocol (by simp) fun p hstep _ => hmove p hstep
    | miss => exact absurd rfl hmiss

theorem network_sound (a : Addr) (c : Fin n) :
    Outcome Harmless (Sound cfg H) (s.handleMsgFromDramDirectory cfg H a c) := by
  unfold handleMsgFromDramDirectory
  cases hi : (s.protocol.lines a).toLlc c with
  | nil => exact ⟨nofun,nofun⟩
  | cons m ms =>
    dsimp only
    rw [updateForDirectory_eq (h.consistent c a)]
    refine stepProtocol_outcome (s := s.setCaches c _) h.protocol (by simp) fun p hstep hr => ?_
    obtain ⟨z,hz,hch⟩ := WaiterSystem.network_changes hi hstep
    exact h.move hr hch rfl (update_eq_self _ _).symm
      (h.line_move (by cases hz <;> decide) (updateForDirectory_consistent (h.consistent c a) hz)
        fun y => updateForDirectory_invalid m)

theorem evictFromLastLevel_eq (a : Addr) (c : Fin n) : s.evictFromLastLevel cfg H a c =
      (s.setCaches c (update (s.caches c) a fun _ => .invalid)).stepProtocol cfg (.evict a c) := by
  unfold evictFromLastLevel
  rw [updatePrevCaches_roots (.inl rfl) (h.consistent c a),
    show settleAll .invalid (s.caches c a) = fun _ => .invalid from funext (settleAll_all_invalid (s.caches c a))]
  rfl

theorem evict_message (ht : s.step cfg H (.evict a c) = .ok t) :
    (∀ x, t.caches c a x = .invalid) ∧ ∃ out, LlcLine.EvictedAs ((s.protocol.lines a).llc c) out ∧
      (t.protocol.lines a).toDir c = (s.protocol.lines a).toDir c ++ out := by
  rw [step] at ht
  split_ifs at ht
  rw [evictFromLastLevel_eq h,stepProtocol] at ht
  split at ht
  case h_2 => cases ht
  case h_1 p hs =>
    cases ht
    refine ⟨fun x => ?_,(WaiterSystem.evict_changes hs).2⟩
    change update s.caches c _ c a x = _
    rw [update_self,update_self]

theorem evict_sound (a : Addr) (c : Fin n) : Outcome Harmless (Sound cfg H) (s.evictFromLastLevel cfg H a c) := by
  rw [evictFromLastLevel_eq h]
  refine stepProtocol_outcome (s := s.setCaches c _) h.protocol (by simp) fun p hstep hr => ?_
  exact h.move hr (WaiterSystem.evict_changes hstep).1 rfl (update_eq_self _ _).symm
    (h.line_move (by decide) (consistent_of_invalid (fun _ => rfl) _) fun _ _ => rfl)

theorem step_sound (l : StackLabel Addr ι n) : Outcome (Expected l) (Sound cfg H) (s.step cfg H l) := by
  cases l with
  | core a c x op victims =>
    refine expected_of_harmless ?_
    rw [step]
    split_ifs with hx hp hn
    · exact ⟨nofun,nofun⟩
    · exact ⟨nofun,nofun⟩
    · exact ⟨nofun,nofun⟩
    · exact core_sound h (not_not.mp hx) (by simpa using hp) victims
  | network a c =>
    refine expected_of_harmless ?_
    rw [step]
    split_ifs
    · exact ⟨nofun,nofun⟩
    · exact network_sound h a c
  | user c victims =>
    refine expected_of_harmless ?_
    rw [step]
    split
    case h_1 a hn => exact user_sound h hn victims
    case h_2 => exact ⟨nofun,nofun⟩
  | resume c => exact expected_of_harmless (resume_sound h c)
  | evict a c =>
    refine expected_of_harmless ?_
    rw [step]
    split_ifs
    · exact ⟨nofun,nofun⟩
    · exact evict_sound h a c
  | directory a l =>
    rw [step,stepProtocol]
    split
    case h_1 p hs => exact directory_sound h hs
    case h_2 => exact ⟨nofun,fun hl => absurd rfl (hl a l)⟩
end

theorem reachable_sound (h : Reachable cfg H s) : Sound cfg H s :=
  Run.Reaches.invariant (fun _ l _ hs _ ht => (step_sound hs l).of_ok ht) (sound_initial cfg H) h

theorem inclusive_and_dirty_ordered (h : Reachable cfg H s) :
    (∀ c a x, s.caches c a x ≠ .invalid → getCacheState (s.lastLevel c a) (s.caches c a) ((H c).next x) ≠ .invalid) ∧
    (∀ c a x, s.caches c a x = .modified → getCacheState (s.lastLevel c a) (s.caches c a) ((H c).next x) = .modified) ∧
    (∀ l g, s.step cfg H l ≠ .error (.stack g)) ∧
    (∀ l, (∀ a d, l ≠ .directory a d) → s.step cfg H l ≠ .error (.protocol (.line .modifiedDataLost))) ∧
    (∀ a c t, s.step cfg H (.evict a c) = .ok t → (∀ x, t.caches c a x = .invalid) ∧
      ((t.protocol.lines a).toDir c = (s.protocol.lines a).toDir c ++ [.flushRep ()] ∧ s.lastLevel c a = .modified ∨
        (t.protocol.lines a).toDir c = (s.protocol.lines a).toDir c ++ [.invRep] ∧
          s.lastLevel c a ≠ .modified ∧ ∀ x, s.caches c a x ≠ .modified)) := by
  have hs := reachable_sound h
  refine ⟨fun c a x hx => (hs.consistent c a x).next_valid hx,fun c a x hx => ?_,fun l g hg => ?_,
    fun l hl hg => ?_,fun a c t ht => ?_⟩
  · have hu := hs.consistent c a x
    rw [hx] at hu
    exact hu.next_modified
  · exact ((step_sound hs l).of_error hg).1 g rfl
  · exact ((step_sound hs l).of_error hg).2 hl rfl
  · obtain ⟨hinv,out,hout,hmsg⟩ := evict_message hs ht
    refine ⟨hinv,?_⟩
    cases hout with
    | flush hm => exact .inl ⟨hmsg,hm⟩
    | inv hm =>
      have hne : s.lastLevel c a ≠ .modified := by
        change ((s.protocol.lines a).llc c).cstate ≠ _
        rcases hm with hm | hm <;> rw [hm] <;> decide
      exact .inr ⟨hmsg,hne,fun x hx => hne ((hs.consistent c a).last_level_modified hx)⟩

def privateFirstLevels : Forest Bool where
  above := fun _ => []
  prev := fun y => if y = none then [false,true] else []
  height := fun _ => 0
  mem_prev := by
    intro x y
    cases y <;> simp [*]
  above_cons := nofun
  nodup := by
    intro y
    cases y <;> simp
  height_lt := by simp

def mesiFullMap : Config := ⟨.mesi,.fullMap,64,false⟩

def onlyCore : Fin 1 := ⟨0,Nat.zero_lt_one⟩

def coldWrite : List (StackLabel Unit Bool 1) :=
  [.core () onlyCore false (.write ()) fun _ => none,
    .directory () (.deliverDir onlyCore ⟨onlyCore,(),none⟩), .directory () .dramServe,
    .directory () (.dramReply ⟨onlyCore,(),none⟩), .network () onlyCore, .user onlyCore fun _ => none, .resume onlyCore]

def afterColdWrite : StackSystem Unit Bool 1 :=
  (Run.guided (step mesiFullMap fun _ => privateFirstLevels) (fun _ _ => True)
    (initial Unit Bool 1) coldWrite).getD (initial Unit Bool 1)

theorem reachable_afterColdWrite : Reachable mesiFullMap (fun _ => privateFirstLevels) afterColdWrite :=
  Run.reaches_guided (by decide +kernel)

theorem inclusive_after_cold_write : afterColdWrite.caches 0 () false = .modified ∧
      getCacheState (afterColdWrite.lastLevel 0 ()) (afterColdWrite.caches 0 ())
        (privateFirstLevels.next false) = .modified := by
  have hm : afterColdWrite.caches 0 () false = .modified := by decide +kernel
  exact ⟨hm,(inclusive_and_dirty_ordered reachable_afterColdWrite).2.1 0 () false hm⟩

end StackSystem
