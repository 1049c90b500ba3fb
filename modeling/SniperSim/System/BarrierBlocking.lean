import SniperSim.Library.ExceptSpec
import SniperSim.System.BarrierSyncServer

open Function List Bool
variable {rounds : List Round} {cont : Bool}
namespace BarrierSyncServer
variable {cfg : BarrierConfig} {s : BarrierSyncServer} {c d : CoreId} {t : ThreadId}
  {caller : Option (CoreId × ThreadId)} {order : List CoreId}

inductive Entry (cfg : BarrierConfig) (s : BarrierSyncServer) (c : CoreId) (time : SubsecondTime)
    (rounds : List Round) (order : List CoreId) : BarrierSyncServer → Prop
  | ignored (h : s.disable) : Entry cfg s c time rounds order s
  | early (t : ThreadId) (ht : (s.use c).thread = some t) (hd : s.disable = false)
      (ha : s.acquire (s.masterOf c) = false) (hlt : time < s.next) :
      Entry cfg s c time rounds order ((s.report (s.masterOf c) time).leave ⟨s.masterOf c,t,time,false,none⟩)
  | blocks (t : ThreadId) (ht : (s.use c).thread = some t) (hd : s.disable = false)
      (ha : s.acquire (s.masterOf c) = false) (hge : s.fastforward = false → s.next ≤ time)
      (hb : isBarrierReached cfg (s.arrive (s.masterOf c) t time) = false) :
      Entry cfg s c time rounds order ((s.arrive (s.masterOf c) t time).block ⟨s.masterOf c,t,time,false,none⟩)
  | releases (t : ThreadId) (ht : (s.use c).thread = some t) (hd : s.disable = false)
      (ha : s.acquire (s.masterOf c) = false) (hge : s.fastforward = false → s.next ≤ time)
      (hb : isBarrierReached cfg (s.arrive (s.masterOf c) t time))
      (r : BarrierSyncServer × Bool)
      (hr : barrierRelease cfg (s.arrive (s.masterOf c) t time) (some t) false rounds order = .ok r) :
      Entry cfg s c time rounds order (afterRelease (s.masterOf c) t time r)

theorem synchronize_entry (h : synchronize cfg s c time rounds order = .ok s') :
    Entry cfg s c time rounds order s' := by
  rw [synchronize] at h
  cases hd : s.disable with
  | true =>
    rw [if_pos hd] at h
    cases h
    exact .ignored hd
  | false =>
    rw [if_neg (by simp [hd])] at h
    cases ht : (s.use c).thread with
    | none =>
      rw [ht] at h
      cases h
    | some t =>
      rw [ht] at h
      dsimp only at h
      split_ifs at h with hst ha himm
      · cases h
        exact .early t ht hd (eq_false_iff.mpr ha) himm.1
      · have hge : s.fastforward = false → s.next ≤ time := fun hf => BitVec.not_lt.mp fun hlt => himm ⟨hlt,hf⟩
        rw [awaitBarrier] at h
        split_ifs at h with hb
        · obtain ⟨r,hr,rfl⟩ := Outcome.map_ok h
          exact .releases t ht hd (eq_false_iff.mpr ha) hge hb r hr
        · cases h
          exact .blocks t ht hd (eq_false_iff.mpr ha) hge (eq_false_iff.mpr hb)

def pendsAt (caller : Option (CoreId × ThreadId)) (c : CoreId) : Bool := caller.map (·.1) == some c

def waiters (caller : Option (CoreId × ThreadId)) (s : BarrierSyncServer) (c : CoreId) : Nat :=
  s.toRelease.count c + if pendsAt caller c then 0 else (s.acquire c).toNat

structure Blocking (cfg : BarrierConfig) (caller : Option (CoreId × ThreadId)) (s : BarrierSyncServer) : Prop where
  bound : ∀ c, s.acquire c → c < cfg.numCores
  staged : ∀ c ∈ s.toRelease, c < cfg.numCores
  count : ∀ c, (s.cond c).length = waiters caller s c
  last : ∀ c, s.acquire c → pendsAt caller c = false →
    ∃ v, (s.cond c).getLast? = some v ∧ s.coreThread c = some v.thread
  entered : ∀ c t, caller = some (c,t) → s.coreThread c = some t ∧ ∀ d, ∀ v ∈ s.cond d, v.thread ≠ t

def Off (s : BarrierSyncServer) : Prop := s.disable → ∀ c, s.acquire c = false

theorem signalCore_eq (s : BarrierSyncServer) (c : CoreId) (aborted : Bool) :
    ∃ left, s.signalCore c aborted = { s with cond := update s.cond c (s.cond c).tail, left := left } := by
  unfold signalCore
  split
  · next h =>
    have ht : update s.cond c (s.cond c).tail = s.cond := update_eq_self_iff.mpr (by rw [h,tail_nil])
    exact ⟨s.left,by rw [ht]⟩
  · next v q h => exact ⟨_,by rw [h]; rfl⟩

theorem doRelease_frame (n : Nat) (s : BarrierSyncServer) : ∃ toRelease cond left,
      doRelease n s = { s with toRelease := toRelease, cond := cond, left := left } := by
  induction n generalizing s with
  | zero => exact ⟨s.toRelease,s.cond,s.left,rfl⟩
  | succ n ih =>
    rw [doRelease]
    split
    · exact ⟨s.toRelease,s.cond,s.left,rfl⟩
    · next c hc =>
      obtain ⟨l,hs⟩ := signalCore_eq { s with toRelease := s.toRelease.dropLast } c false
      rw [hs]
      obtain ⟨r,q,l,hr⟩ := ih { s with toRelease := s.toRelease.dropLast, cond := _, left := l }
      exact ⟨r,q,l,hr⟩

theorem abort_frame (cores : List CoreId) (s : BarrierSyncServer) : ∃ acquire cond left,
      cores.foldl abortCore s = { s with acquire := acquire, cond := cond, left := left } := by
  induction cores generalizing s with
  | nil => exact ⟨s.acquire,s.cond,s.left,rfl⟩
  | cons c cores ih =>
    rw [foldl_cons,abortCore]
    split_ifs
    · obtain ⟨l,hs⟩ := signalCore_eq { s with acquire := update s.acquire c false } c true
      rw [hs]
      obtain ⟨a,q,l,hr⟩ := ih { s with acquire := update s.acquire c false, cond := _, left := l }
      exact ⟨a,q,l,hr⟩
    · exact ih s

namespace Blocking
section
variable (h : Blocking cfg caller s)
include h

theorem modify (ht : s'.coreThread = s.coreThread) (hs : ∀ d ∈ s'.toRelease, d < cfg.numCores)
    (ho : ∀ d, d ≠ c → s'.acquire d = s.acquire d ∧ s'.toRelease.count d = s.toRelease.count d ∧ s'.cond d = s.cond d)
    (hn : (s'.cond c).length = waiters caller s' c)
    (ha : s'.acquire c → s.acquire c ∧ (pendsAt caller c = false → (s'.cond c).getLast? = (s.cond c).getLast?))
    (hv : ∀ v ∈ s'.cond c, ∃ w ∈ s.cond c, w.thread = v.thread) : Blocking cfg caller s' := by
  refine ⟨fun d hd => ?_,hs,fun d => ?_,fun d hd hp => ?_,fun d t hdt => ?_⟩
  · rcases eq_or_ne d c with rfl | hne
    · exact h.bound d (ha hd).1
    · exact h.bound d ((ho d hne).1 ▸ hd)
  · rcases eq_or_ne d c with rfl | hne
    · exact hn
    · obtain ⟨ha,hr,hc⟩ := ho d hne
      rw [hc,h.count d,waiters,waiters,ha,hr]
  · rw [ht]
    rcases eq_or_ne d c with rfl | hne
    · obtain ⟨ha,hl⟩ := ha hd
      rw [hl hp]
      exact h.last d ha hp
    · obtain ⟨ha,-,hc⟩ := ho d hne
      rw [hc]
      exact h.last d (ha ▸ hd) hp
  · obtain ⟨hent,hne⟩ := h.entered d t hdt
    refine ⟨ht ▸ hent,fun e v hw => ?_⟩
    rcases eq_or_ne e c with rfl | hec
    · obtain ⟨w,hw,he⟩ := hv v hw
      exact he ▸ hne e w hw
    · exact hne e v ((ho e hec).2.2 ▸ hw)

theorem popLast (hl : s.toRelease = l ++ [c]) : Blocking cfg caller ({ s with toRelease := l }.signalCore c false) := by
  obtain ⟨left,hs⟩ := signalCore_eq { s with toRelease := l } c false
  rw [hs]
  have hlen : (s.cond c).length = l.count c + 1 + if pendsAt caller c then 0 else
      (s.acquire c).toNat := by
    rw [h.count c,waiters,hl]
    simp
  refine h.modify rfl (fun d hd => h.staged d (hl ▸ mem_append_left [c] hd)) (c := c)
    (fun d hne => ⟨rfl,by simp [hl,hne.symm],update_of_ne hne ..⟩) ?_ (fun hac => ⟨hac,fun hp => ?_⟩)
    fun v hv => ⟨v,mem_of_mem_tail (by simpa using hv),rfl⟩
  · simp only [waiters,update_self,length_tail]
    omega
  · -- the acquired thread is behind at least one staged one
    have h2 : 2 ≤ (s.cond c).length := by
      rw [hlen,hp,hac]
      simp
    simp only [update_self]
    rw [getLast?_tail,if_neg (by omega)]
end

theorem doRelease (n : Nat) (h : Blocking cfg caller s) : Blocking cfg caller (doRelease n s) := by
  induction n generalizing s with
  | zero => exact h
  | succ n ih =>
    rw [BarrierSyncServer.doRelease]
    split
    · exact h
    · next c hc =>
      refine ih (h.popLast ?_)
      obtain ⟨l,hl⟩ := getLast?_eq_some_iff.mp hc
      rw [hl,dropLast_concat]

section
variable (h : Blocking cfg caller s)
include h

theorem resetClock (t : ThreadId) : Blocking cfg caller (resetClock cfg s t) := by
  refine { h with count := fun c => ?_, last := fun c ha hp => ?_, entered := fun c u hc => ?_ }
  · exact (length_map _).trans (h.count c)
  · obtain ⟨v,hv,ht⟩ := h.last c ha hp
    exact ⟨{ v with excused := v.excused || v.thread == t },by simp [BarrierSyncServer.resetClock,hv],ht⟩
  · refine ⟨(h.entered c u hc).1,fun d v hv => ?_⟩
    obtain ⟨w,hw,rfl⟩ := mem_map.mp hv
    exact (h.entered c u hc).2 d w hw

theorem releaseThread (t : ThreadId) : Blocking cfg caller (releaseThread cfg s t) := by
  exact doRelease 1 (h.resetClock t)

theorem abortCore (hc : caller = none ∨ s.toRelease = []) (c : CoreId) : Blocking cfg caller (s.abortCore c) := by
  rw [BarrierSyncServer.abortCore]
  split_ifs with hac
  · obtain ⟨left,hs⟩ := signalCore_eq { s with acquire := update s.acquire c false } c true
    rw [hs]
    refine h.modify rfl h.staged (c := c) (fun d hne => ⟨update_of_ne hne ..,rfl,update_of_ne hne ..⟩) ?_
      (by simp) fun v hv => ⟨v,mem_of_mem_tail (by simpa using hv),rfl⟩
    simp only [waiters,update_self,length_tail]
    rw [h.count c,waiters,hac]
    rcases hc with rfl | hnil
    · simp [pendsAt]
    · rw [hnil]
      split_ifs <;> rfl
  · exact h
end

theorem abortCore_toRelease (c : CoreId) : (s.abortCore c).toRelease = s.toRelease := by
  rw [BarrierSyncServer.abortCore]
  split_ifs
  · obtain ⟨left,hs⟩ := signalCore_eq { s with acquire := update s.acquire c false } c true
    rw [hs]
  · rfl

theorem abortBarrier (h : Blocking cfg caller s) (hc : caller = none ∨ s.toRelease = []) :
    Blocking cfg caller (abortBarrier cfg s) := by
  rw [BarrierSyncServer.abortBarrier]
  induction range cfg.numCores generalizing s with
  | nil => exact h
  | cons c l ih => exact ih (h.abortCore hc c) (by rwa [abortCore_toRelease])

end Blocking

theorem abort_acquire (l : List CoreId) (s : BarrierSyncServer) (c : CoreId) :
    (l.foldl abortCore s).acquire c = (s.acquire c && !l.contains c) := by
  induction l generalizing s with
  | nil => simp
  | cons d l ih =>
    have hd : (s.abortCore d).acquire c = (s.acquire c && !(c == d)) := by
      rw [abortCore]
      split_ifs with had
      · obtain ⟨left,hs⟩ := signalCore_eq { s with acquire := update s.acquire d false } d true
        rw [hs]
        rcases eq_or_ne c d with rfl | hne <;> simp [*]
      · rcases eq_or_ne c d with rfl | hne <;> simp [*]
    rw [foldl_cons,ih,hd,contains_cons,Bool.not_or,Bool.and_assoc]

theorem abortBarrier_acquire (h : ∀ c, s.acquire c → c < cfg.numCores) (c : CoreId) :
    (abortBarrier cfg s).acquire c = false := by
  rw [abortBarrier,abort_acquire]
  cases hc : s.acquire c <;> simp [*]

theorem abort_same (l : List CoreId) (s : BarrierSyncServer) :
    (l.foldl abortCore s).toRelease = s.toRelease ∧ (l.foldl abortCore s).disable = s.disable ∧
      (l.foldl abortCore s).coreThread = s.coreThread := by
  obtain ⟨a,q,l',hs⟩ := abort_frame l s
  rw [hs]
  exact ⟨rfl,rfl,rfl⟩

structure Releasing (cfg : BarrierConfig) (caller : Option (CoreId × ThreadId)) (s : BarrierSyncServer) : Prop where
  blocking : Blocking cfg caller s
  off : Off s
  unstaged : s.toRelease = []
  present : ∀ c t, caller = some (c,t) → s.acquire c ∨ ∀ d, s.acquire d = false

theorem doRelease_same (n : Nat) (s : BarrierSyncServer) :
    (doRelease n s).acquire = s.acquire ∧ (doRelease n s).coreThread = s.coreThread ∧
      (doRelease n s).disable = s.disable ∧ (doRelease n s).next = s.next ∧ (doRelease n s).clock = s.clock := by
  obtain ⟨r,q,l,hs⟩ := doRelease_frame n s
  rw [hs]
  exact ⟨rfl,rfl,rfl,rfl,rfl⟩

theorem doRelease_cond_subset (n : Nat) (s : BarrierSyncServer) (c : CoreId) : (doRelease n s).cond c ⊆ s.cond c := by
  induction n generalizing s with
  | zero => exact List.Subset.refl _
  | succ n ih =>
    rw [doRelease]
    split
    · exact List.Subset.refl _
    · next d hd =>
      refine List.Subset.trans (ih _) ?_
      obtain ⟨left,hs⟩ := signalCore_eq { s with toRelease := s.toRelease.dropLast } d false
      rw [hs]
      rcases eq_or_ne c d with rfl | hne
      · simpa using (tail_sublist (s.cond c)).subset
      · simp [hne]

theorem releaseThread_same (cfg : BarrierConfig) (s : BarrierSyncServer) (t : ThreadId) :
    (releaseThread cfg s t).acquire = s.acquire ∧ (releaseThread cfg s t).coreThread = s.coreThread ∧
      (releaseThread cfg s t).disable = s.disable ∧ (releaseThread cfg s t).next = s.next := by
  obtain ⟨ha,ht,hd,hn,-⟩ := doRelease_same 1 (resetClock cfg s t)
  exact ⟨ha,ht,hd,hn⟩

namespace Releasing
variable (h : Releasing cfg caller s)
include h

theorem releaseThread (t : ThreadId) : Releasing cfg caller (releaseThread cfg s t) := by
  obtain ⟨ha,-,hd,-⟩ := releaseThread_same cfg s t
  refine ⟨h.blocking.releaseThread t,fun hoff c => ?_,?_,fun c u hcu => ?_⟩
  · rw [ha]
    exact h.off (hd ▸ hoff) c
  · simp [BarrierSyncServer.releaseThread,doRelease,resetClock,h.unstaged]
  · rw [ha]
    exact h.present c u hcu

theorem setDisable (b : Bool) : Releasing cfg caller (setDisable cfg s b) := by
  cases b with
  | true =>
    have hb : Blocking cfg caller { s with disable := true } := { h.blocking with }
    have hall := abortBarrier_acquire (s := { s with disable := true }) hb.bound
    exact ⟨hb.abortBarrier (.inr h.unstaged),fun _ => hall,(abort_same _ _).1.trans h.unstaged,fun _ _ _ => .inr hall⟩
  | false => exact ⟨{ h.blocking with },fun hd => (by cases hd),h.unstaged,h.present⟩

theorem hookAction (a : HookAction) : Releasing cfg caller (hookAction cfg s a) := by
  cases a with
  | env e => cases e <;> exact { h with blocking := { h.blocking with } }
  | migrate t => exact h.releaseThread t
  | setDisable b => exact h.setDisable b

theorem callHooks (l : List HookAction) : Releasing cfg caller (callHooks cfg s l) :=
  Run.foldl_invariant (I := Releasing cfg caller) (fun _ a hs => hs.hookAction a) h l

end Releasing

theorem stamp_threads (s : BarrierSyncServer) (c : CoreId) :
    (s.stamp c).map (·.thread) = (s.cond c).map (·.thread) := by
  rw [stamp]
  split
  · next h => rw [getLast?_eq_none_iff.mp h]
  · next v h =>
    obtain ⟨l,hl⟩ := getLast?_eq_some_iff.mp h
    rw [hl,dropLast_concat,map_append,map_append]
    rfl

namespace Blocking
variable (h : Blocking cfg caller s)
include h

theorem caller_core (ha : s.acquire c) : s.coreThread c = caller.map (·.2) ↔ pendsAt caller c := by
  constructor
  · intro he
    cases hp : pendsAt caller c with
    | true => rfl
    | false =>
      obtain ⟨v,hv,hvt⟩ := h.last c ha hp
      cases hc : caller with
      | none =>
        rw [he,hc] at hvt
        cases hvt
      | some p =>
        obtain ⟨-,hne⟩ := h.entered p.1 p.2 hc
        rw [he,hc] at hvt
        exact (hne c v (mem_of_getLast? hv) (Option.some.inj hvt).symm).elim
  · intro hp
    cases hc : caller with
    | none => simp [pendsAt,hc] at hp
    | some p =>
      have he : p.1 = c := by simpa [pendsAt,hc] using hp
      rw [← he,(h.entered p.1 p.2 hc).1]
      rfl

theorem stageOther (ha : s.acquire c) (hp : pendsAt caller c = false)
    (hq : q.map (·.thread) = (s.cond c).map (·.thread)) : Blocking cfg caller { s with
      acquire := update s.acquire c false
      toRelease := s.toRelease ++ [c]
      cond := update s.cond c q } := by
  refine h.modify rfl (fun d hd => ?_) (c := c)
    (fun d hne => ⟨update_of_ne hne ..,by simp [count_append,hne.symm],update_of_ne hne ..⟩) ?_ (by simp) fun v hv => ?_
  · rcases mem_append.mp hd with hd | hd
    · exact h.staged d hd
    · rw [mem_singleton.mp hd]
      exact h.bound c ha
  · have hlen := congrArg length hq
    rw [length_map,length_map,h.count c,waiters,hp,ha] at hlen
    simp [waiters,hp,hlen]
  · have hmem : v.thread ∈ q.map (·.thread) := mem_map_of_mem (by simpa using hv)
    exact mem_map.mp (hq ▸ hmem)

end Blocking

structure Staged (cfg : BarrierConfig) (caller : Option (CoreId × ThreadId)) (s : BarrierSyncServer)
    (r : Staging) : Prop where
  blocking : Blocking cfg caller r.1
  enabled : r.1.disable = s.disable
  idle : r.2.1 = false → r = (s,false,true)
  some_acquired : r.2.1 → ∃ d, s.acquire d
  waits : ∀ c t, caller = some (c,t) → r.1.acquire c = (s.acquire c && r.2.2) ∧ (r.2.2 = false → s.acquire c)

namespace Staged

theorem staged_acquired (h : Staged cfg caller s r) (hc : r.1.acquire c) : ∃ d, s.acquire d := by
  cases hr : r.2.1 with
  | false =>
    rw [h.idle hr] at hc
    exact ⟨c,hc⟩
  | true => exact h.some_acquired hr

theorem core (h : Staged cfg caller s r) (c : CoreId) : Staged cfg caller s (stageCore (caller.map (·.2)) r c) := by
  rw [stageCore]
  split_ifs with hg ht
  · have hp := (h.blocking.caller_core hg.2).mp ht
    refine ⟨?_,h.enabled,by simp,fun _ => h.staged_acquired hg.2,fun d t hdt => ?_⟩
    · refine h.blocking.modify rfl h.blocking.staged (c := c) (fun d hne => ⟨update_of_ne hne ..,rfl,rfl⟩) ?_ (by simp)
        fun v hv => ⟨v,hv,rfl⟩
      rw [waiters,h.blocking.count c,waiters,hp]
      rfl
    · have hdc : d = c := by simpa [pendsAt,hdt] using hp
      subst hdc
      obtain ⟨hw,-⟩ := h.waits d t hdt
      rw [hg.2] at hw
      have hsd : s.acquire d := by
        cases hs : s.acquire d with
        | false => simp [hs] at hw
        | true => rfl
      exact ⟨by simp,fun _ => hsd⟩
  · have hp : pendsAt caller c = false := by
      cases hp : pendsAt caller c with
      | false => rfl
      | true => exact (ht ((h.blocking.caller_core hg.2).mpr hp)).elim
    refine ⟨?_,h.enabled,by simp,fun _ => h.staged_acquired hg.2,fun d t hdt => ?_⟩
    · exact h.blocking.stageOther hg.2 hp (stamp_threads _ c)
    · have hdc : d ≠ c := by
        rintro rfl
        simp [pendsAt,hdt] at hp
      obtain ⟨hw,hf⟩ := h.waits d t hdt
      refine ⟨?_,hf⟩
      change update r.1.acquire c false d = _
      rwa [update_of_ne hdc]
  · exact h

theorem start (h : Blocking cfg caller s) : Staged cfg caller s (s,false,true) :=
  ⟨h,rfl,fun _ => rfl,by simp,fun _ _ _ => ⟨by simp,by simp⟩⟩

theorem stage (h : Blocking cfg caller s) : Staged cfg caller s (stage cfg (caller.map (·.2)) s) :=
  Run.foldl_invariant (I := Staged cfg caller s) (fun _ c hr => hr.core c) (start h) _

end Staged

structure Released (cfg : BarrierConfig) (caller : Option (CoreId × ThreadId)) (s : BarrierSyncServer)
    (mustWait : Bool) : Prop where
  blocking : Blocking cfg caller s
  off : Off s
  waits : ∀ c t, caller = some (c,t) → s.acquire c = mustWait

theorem Releasing.caller_acquired (h : Releasing cfg caller s)
    (hst : Staged cfg caller (advanceNext cfg s) (stage cfg (caller.map (·.2)) (advanceNext cfg s)))
    (hres : (stage cfg (caller.map (·.2)) (advanceNext cfg s)).2.1)
    (hct : caller = some (c,t)) : (advanceNext cfg s).acquire c := by
  obtain ⟨d,hd⟩ := hst.some_acquired hres
  rcases h.present c t hct with hp | hp
  · exact hp
  · have hf : s.acquire d := hd
    rw [hp d] at hf
    cases hf

theorem releaseLoop_released (h : Releasing cfg caller s) (hc : cont → caller = none)
    (hr : releaseLoop cfg (caller.map (·.2)) cont rs s = .ok r) : Released cfg caller r.1 (r.2.getD false) := by
  induction rs generalizing s with
  | nil => cases hr
  | cons round rs ih =>
    rw [releaseLoop] at hr
    dsimp only at hr
    have h0 : Releasing cfg caller { s with globalTime := s.next } := { h with blocking := { h.blocking with } }
    have hh := h0.callHooks round.actions
    generalize callHooks cfg { s with globalTime := s.next } round.actions = u at hh hr
    split_ifs at hr with hrun htime hdis hres
    · cases hr
      refine ⟨hh.blocking,hh.off,fun c t hct => ?_⟩
      rw [hc hrun.1] at hct
      cases hct
    · cases hr
      exact ⟨hh.blocking,hh.off,fun c t _ => hh.off hdis c⟩
    · cases hr
      have hb : Blocking cfg caller (advanceNext cfg u) := { hh.blocking with }
      have hst := Staged.stage hb
      refine ⟨hst.blocking,fun hd => ?_,fun c t hct => ?_⟩
      · rw [hst.enabled] at hd
        exact (hdis hd).elim
      · rw [(hst.waits c t hct).1,hh.caller_acquired hst hres hct]
        rfl
    · have hb : Blocking cfg caller (advanceNext cfg u) := { hh.blocking with }
      have hidle := (Staged.stage hb).idle (eq_false_iff.mpr hres)
      rw [hidle] at hr
      exact ih { hh with blocking := hb } hr

theorem Blocking.reorder (h : Blocking cfg caller s)
    (ho : order.Perm s.toRelease) : Blocking cfg caller { s with toRelease := order } := by
  refine ⟨h.bound,fun c hc => h.staged c (ho.mem_iff.mp hc),fun c => ?_,h.last,h.entered⟩
  rw [h.count c,waiters,waiters]
  exact congrArg (· + _) (ho.count_eq c).symm

theorem Released.restart (h : Released cfg caller s mustWait) (ho : order.Perm s.toRelease) :
    Released cfg caller (restart cfg s order) mustWait := by
  obtain ⟨ha,-,hd,-⟩ := doRelease_same (if s.fastforward then order.length else cfg.numHostCores)
    { s with toRelease := order }
  refine ⟨(h.blocking.reorder ho).doRelease _,fun hdis c => ?_,fun c t hct => ?_⟩
  · rw [BarrierSyncServer.restart,ha]
    exact h.off (hd ▸ hdis) c
  · rw [BarrierSyncServer.restart,ha]
    exact h.waits c t hct

theorem barrierRelease_ok {caller : Option ThreadId} {q : BarrierSyncServer × Bool}
    (hr : barrierRelease cfg s caller cont rounds order = .ok q) :
    s.toRelease = [] ∧ ∃ p, releaseLoop cfg caller cont rounds (skipSlots cfg s) = .ok p ∧ p.2.getD false = q.2 ∧
      (q.1 = p.1 ∨ order.Perm p.1.toRelease ∧ q.1 = BarrierSyncServer.restart cfg p.1 order) := by
  rw [barrierRelease] at hr
  split_ifs at hr with hnil
  obtain ⟨p,hl,hr⟩ := Outcome.bind_ok hr
  refine ⟨hnil,p,hl,?_⟩
  obtain ⟨u,o⟩ := p
  cases o with
  | none =>
    cases hr
    exact ⟨rfl,.inl rfl⟩
  | some mustWait =>
    rw [afterLoop] at hr
    split_ifs at hr with ho
    cases hr
    exact ⟨rfl,.inr ⟨isPerm_iff.mp ho,rfl⟩⟩

theorem barrierRelease_released {r : BarrierSyncServer × Bool} (h : Blocking cfg caller s) (hoff : Off s)
    (hp : ∀ c t, caller = some (c,t) → s.acquire c) (hc : cont → caller = none)
    (hr : barrierRelease cfg s (caller.map (·.2)) cont rounds order = .ok r) : Released cfg caller r.1 r.2 := by
  obtain ⟨hnil,p,hl,hw,hq⟩ := barrierRelease_ok hr
  have hs : Releasing cfg caller (skipSlots cfg s) := by
    rw [skipSlots]
    split_ifs
    · exact ⟨{ h with },hoff,hnil,fun c t hct => .inl (hp c t hct)⟩
    · exact ⟨h,hoff,hnil,fun c t hct => .inl (hp c t hct)⟩
  have hrel := releaseLoop_released hs hc hl
  rw [hw] at hrel
  rcases hq with he | ⟨ho,he⟩
  · rwa [he]
  · rw [he]
    exact hrel.restart ho

end BarrierSyncServer
