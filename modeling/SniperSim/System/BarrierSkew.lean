import SniperSim.System.BarrierTermination

open Function List Option Nat
variable {cont : Bool}
namespace BarrierSyncServer
variable {cfg : BarrierConfig} {s s' u : BarrierSyncServer} {c : CoreId} {t : ThreadId}
  {caller : Option (CoreId × ThreadId)} {floor : SubsecondTime} {rounds : List Round} {time : SubsecondTime}
  {l : List HookAction} {v : Visit} {r : Round}

def Due (cfg : BarrierConfig) (next : SubsecondTime) (v : Visit) : Prop :=
  v.time < next ∧ ∀ b, v.barrier = some b → v.time < b ∧ b.toNat ≤ v.time.toNat + cfg.interval.toNat

theorem Due.mono {next next' : SubsecondTime} (h : Due cfg next v) (hle : next ≤ next') :
    Due cfg next' v := ⟨Nat.lt_of_lt_of_le h.1 hle,h.2⟩

structure Timely (cfg : BarrierConfig) (caller : Option (CoreId × ThreadId)) (floor : SubsecondTime)
    (s : BarrierSyncServer) : Prop where
  staged : ∀ c, ∀ v ∈ (s.cond c).take (s.toRelease.count c), v.excused = false → Due cfg s.next v
  held : ∀ c v, s.acquire c → pendsAt caller c = false → (s.cond c).getLast? = some v →
    v.excused = false → v.time = s.clock c ∧ v.time ≠ 0
  floored : ∀ c, s.acquire c → s.clock c = 0 ∨ floor ≤ s.clock c
  gone : ∀ v ∈ s.left, v.excused = false → Due cfg s.next v
  reported : ∀ c, s.clock c ≤ s.reported c
  passed : ∀ p ∈ s.passed, p.2

namespace Timely
section
variable (h : Timely cfg caller floor s)
include h
section
variable (hb : Blocking cfg caller s)
include hb

theorem popLast {l : List CoreId}
    (hl : s.toRelease = l ++ [c]) : Timely cfg caller floor ({ s with toRelease := l }.signalCore c false) := by
  have hcount : s.toRelease.count c = l.count c + 1 := by rw [hl]; simp
  obtain ⟨v,q,hq⟩ : ∃ v q, s.cond c = v :: q := by
    refine exists_cons_of_length_pos ?_
    rw [hb.count c,waiters,hcount]
    omega
  have hv : v ∈ (s.cond c).take (s.toRelease.count c) := by
    rw [hq,hcount]
    simp
  have he : ({ s with toRelease := l }.signalCore c false) = { s with
      toRelease := l
      cond := update s.cond c q
      left := s.left ++ [{ v with excused := v.excused || false }] } := by
    rw [signalCore]
    dsimp only
    rw [hq]
  rw [he]
  refine ⟨fun d w hw => ?_,fun d w ha hp hlast => ?_,h.floored,fun w hw => ?_,h.reported,h.passed⟩
  · change w ∈ (update s.cond c q d).take (l.count d) at hw
    refine h.staged d w ?_
    rcases eq_or_ne d c with rfl | hne
    · rw [update_self] at hw
      rw [hq,hcount,take_succ_cons]
      exact mem_cons_of_mem v hw
    · rw [update_of_ne hne] at hw
      have hsame : s.toRelease.count d = l.count d := by
        rw [hl,count_append]
        simp [hne.symm]
      rwa [hsame]
  · change (update s.cond c q d).getLast? = some w at hlast
    refine h.held d w ha hp ?_
    rcases eq_or_ne d c with rfl | hne
    · rw [update_self] at hlast
      rw [hq,getLast?_cons,hlast]
      rfl
    · rwa [update_of_ne hne] at hlast
  · rcases mem_append.mp hw with hw | hw
    · exact h.gone w hw
    · rw [mem_singleton.mp hw]
      intro hex
      have hve : v.excused = false := by simpa using hex
      exact h.staged c v hv hve

theorem doRelease (n : Nat) : Timely cfg caller floor (doRelease n s) := by
  induction n generalizing s with
  | zero => exact h
  | succ n ih =>
    rw [doRelease]
    split
    · exact h
    · next c hc =>
      obtain ⟨l,hl⟩ := getLast?_eq_some_iff.mp hc
      have hd : s.toRelease.dropLast = l := by rw [hl,dropLast_concat]
      rw [hd]
      exact ih (h.popLast hb hl) (hb.popLast hl)

theorem resetClock (t : ThreadId) : Timely cfg caller floor (resetClock cfg s t) := by
  refine ⟨fun c v hv hex => ?_,fun c v ha hp hlast hex => ?_,fun c ha => ?_,h.gone,fun c => ?_,h.passed⟩
  · dsimp only [BarrierSyncServer.resetClock] at hv
    rw [← map_take] at hv
    obtain ⟨w,hw,rfl⟩ := List.mem_map.mp hv
    exact h.staged c w hw (Bool.or_eq_false_iff.mp hex).1
  · dsimp only [BarrierSyncServer.resetClock] at hlast
    rw [getLast?_map] at hlast
    obtain ⟨w,hw,rfl⟩ := map_eq_some_iff.mp hlast
    obtain ⟨hwe,hwt⟩ := Bool.or_eq_false_iff.mp hex
    obtain ⟨v,hv,hvt⟩ := hb.last c ha hp
    rw [hw] at hv
    cases hv
    have hne : ¬ (c < cfg.numCores ∧ s.acquire c ∧ s.coreThread c = some t) := by
      rintro ⟨-,-,ht⟩
      rw [hvt] at ht
      exact (beq_eq_false_iff_ne.mp hwt) (some.inj ht)
    dsimp only [BarrierSyncServer.resetClock]
    rw [if_neg hne]
    exact h.held c w ha hp hw hwe
  · dsimp only [BarrierSyncServer.resetClock]
    split_ifs
    · exact .inl rfl
    · exact h.floored c ha
  · dsimp only [BarrierSyncServer.resetClock]
    split_ifs
    · exact zero_le _
    · exact h.reported c

theorem releaseThread (t : ThreadId) : Timely cfg caller floor (releaseThread cfg s t) :=
  (h.resetClock hb t).doRelease (hb.resetClock t) 1
end

theorem advance (hrep : allReported cfg s) (hfit : s.next.toNat + cfg.interval.toNat < 18446744073709551616) :
    Timely cfg caller floor (advanceNext cfg s) := by
  have hle := next_advance_le hfit
  refine ⟨fun c v hv hex => (h.staged c v hv hex).mono hle,h.held,h.floored,
    fun v hv hex => (h.gone v hv hex).mono hle,h.reported,fun p hp => ?_⟩
  rcases mem_append.mp hp with hp | hp
  · exact h.passed p hp
  · rwa [mem_singleton.mp hp]

theorem freeCaller (c : CoreId) : Timely cfg caller floor { s with acquire := update s.acquire c false } := by
  have hne : ∀ d, update s.acquire c false d → s.acquire d :=
    (forall_update_iff s.acquire fun d b => b → s.acquire d).mpr ⟨Bool.noConfusion,fun _ _ => id⟩
  exact { h with held := fun d v hd => h.held d v (hne d hd), floored := fun d hd => h.floored d (hne d hd) }

theorem stageOther (hb : Blocking cfg caller s)
    (ha : s.acquire c) (hp : pendsAt caller c = false) (hlt : s.clock c < s.next)
    (hle : s.next.toNat ≤ floor.toNat + cfg.interval.toNat) : Timely cfg caller floor { s with
      acquire := update s.acquire c false
      toRelease := s.toRelease ++ [c]
      cond := update s.cond c (s.stamp c) } := by
  obtain ⟨v,hv,-⟩ := hb.last c ha hp
  obtain ⟨l,hl⟩ := getLast?_eq_some_iff.mp hv
  have hstamp : s.stamp c = l ++ [{ v with barrier := some s.next }] := by
    rw [stamp,hv,hl,dropLast_concat]
  have hlen : l.length = s.toRelease.count c := by
    have hc := hb.count c
    rw [waiters,hp,ha,hl,length_append] at hc
    simpa using hc
  have hfree := h.freeCaller c
  refine ⟨fun d w hw hex => ?_,fun d w hd hpd hlast => ?_,hfree.floored,h.gone,h.reported,h.passed⟩
  · change w ∈ (update s.cond c (s.stamp c) d).take ((s.toRelease ++ [c]).count d) at hw
    rcases eq_or_ne d c with rfl | hne
    · rw [update_self] at hw
      rcases mem_append.mp (hstamp ▸ mem_of_mem_take hw) with hw | hw
      · refine h.staged d w ?_ hex
        rwa [hl,← hlen,take_left]
      · rw [mem_singleton.mp hw] at hex ⊢
        obtain ⟨ht,hz⟩ := h.held d v ha hp hv hex
        have hfloor : floor ≤ s.clock d := by
          rcases h.floored d ha with hc | hc
          · exact (hz (ht.trans hc)).elim
          · exact hc
        rw [← ht] at hlt hfloor
        refine ⟨hlt,fun b hb => ?_⟩
        cases hb
        exact ⟨hlt,Nat.le_trans hle (Nat.add_le_add_right hfloor _)⟩
    · rw [update_of_ne hne,count_append] at hw
      refine h.staged d w ?_ hex
      simpa [hne.symm] using hw
  · rcases eq_or_ne d c with rfl | hne
    · change update s.acquire d false d at hd
      rw [update_self] at hd
      cases hd
    · change (update s.cond c (s.stamp c) d).getLast? = some w at hlast
      rw [update_of_ne hne] at hlast
      exact hfree.held d w hd hpd hlast
end

theorem core {r : Staging} (h : Timely cfg caller floor r.1) (hs : Staged cfg caller s r)
    (hle : r.1.next.toNat ≤ floor.toNat + cfg.interval.toNat) (c : CoreId) :
    Timely cfg caller floor (stageCore (caller.map (·.2)) r c).1 := by
  rw [stageCore]
  split_ifs with hg ht
  · exact h.freeCaller c
  · have hp : pendsAt caller c = false := Bool.eq_false_iff.mpr fun hp => ht ((hs.blocking.caller_core hg.2).mpr hp)
    exact h.stageOther hs.blocking hg.2 hp hg.1 hle
  · exact h

section
variable (h : Timely cfg caller floor s)
include h

theorem stage (hb : Blocking cfg caller s) (hle : s.next.toNat ≤ floor.toNat + cfg.interval.toNat) :
    Timely cfg caller floor (stage cfg (caller.map (·.2)) s).1 := by
  have hfold := Run.foldl_invariant
    (I := fun r => Staged cfg caller s r ∧ Timely cfg caller floor r.1 ∧ r.1.next = s.next)
    (fun r c hr => ⟨hr.1.core c,hr.2.1.core hr.1 (hr.2.2 ▸ hle) c,
      (stageCore_pass (caller.map (·.2)) r c).next.trans hr.2.2⟩)
    ⟨Staged.start hb,h,rfl⟩ (range cfg.numCores)
  exact hfold.2.1

theorem raise (hge : ∀ c, s.acquire c → s.next ≤ s.clock c) : Timely cfg caller s.next s :=
  { h with floored := fun c ha => .inr (hge c ha) }

theorem reorder (ho : order.Perm s.toRelease) : Timely cfg caller floor { s with toRelease := order } := by
  refine { h with staged := fun c v hv => ?_ }
  rw [ho.count_eq c] at hv
  exact h.staged c v hv

theorem report (c : CoreId) (time : SubsecondTime) : Timely cfg caller floor (s.report c time) := by
  refine { h with reported := (forall_update_iff s.reported fun d x => s.clock d ≤ x).mpr ⟨?_,fun d _ => h.reported d⟩ }
  split_ifs with hlt
  · exact Nat.le_of_lt (Nat.lt_of_le_of_lt (h.reported c) hlt)
  · exact h.reported c
end

theorem enter (h : Timely cfg none floor s) (hle : floor ≤ time)
    (hrep : time ≤ s.reported c) (t : ThreadId) : Timely cfg (some (c,t)) floor (s.enterBarrier c t time) := by
  have hupd : ∀ d, d ≠ c → update s.acquire c true d = s.acquire d := fun d hne => update_of_ne hne ..
  refine ⟨h.staged,fun d v hd hp hlast hex => ?_,fun d hd => ?_,h.gone,
    (forall_update_iff s.clock fun d x => x ≤ s.reported d).mpr ⟨hrep,fun d _ => h.reported d⟩,h.passed⟩
  · have hne : d ≠ c := by
      rintro rfl
      simp [pendsAt] at hp
    change v.time = update s.clock c time d ∧ v.time ≠ 0
    rw [update_of_ne hne]
    exact h.held d v (hupd d hne ▸ hd) rfl hlast hex
  · change update s.clock c time d = 0 ∨ floor ≤ update s.clock c time d
    rcases eq_or_ne d c with rfl | hne
    · rw [update_self]
      exact .inr hle
    · rw [update_of_ne hne]
      exact h.floored d (hupd d hne ▸ hd)

theorem block (h : Timely cfg (some (c,t)) floor s) (hb : Blocking cfg (some (c,t)) s)
    (hc : v.core = c) (hv : v.excused = false → v.time = s.clock c ∧ v.time ≠ 0) :
    Timely cfg none floor (s.block v) := by
  subst hc
  have hpend : ∀ d, d ≠ v.core → pendsAt (some (v.core,t)) d = false := fun d hne => by
    simpa [pendsAt] using hne.symm
  refine { h with staged := fun d w hw => ?_, held := fun d w hd _ hlast => ?_ }
  · change w ∈ (update s.cond v.core (s.cond v.core ++ [v]) d).take (s.toRelease.count d) at hw
    refine h.staged d w ?_
    rcases eq_or_ne d v.core with rfl | hne
    · have hlen : (s.cond v.core).length = s.toRelease.count v.core := by
        rw [hb.count,waiters]
        simp [pendsAt]
      rw [update_self,← hlen,take_left] at hw
      rwa [← hlen,take_length]
    · rwa [update_of_ne hne] at hw
  · change (update s.cond v.core (s.cond v.core ++ [v]) d).getLast? = some w at hlast
    rcases eq_or_ne d v.core with rfl | hne
    · rw [update_self,getLast?_concat] at hlast
      cases hlast
      exact hv
    · rw [update_of_ne hne] at hlast
      exact h.held d w hd (hpend d hne) hlast

theorem drop (h : Timely cfg (some (c,t)) floor s) (ha : s.acquire c = false) : Timely cfg none floor s := by
  refine { h with held := fun d v hd _ => h.held d v hd ?_ }
  refine Bool.eq_false_iff.mpr fun hp => ?_
  have hdc : c = d := by simpa [pendsAt] using hp
  rw [← hdc,ha] at hd
  cases hd

variable (h : Timely cfg caller floor s)
include h

theorem leave (hv : v.excused = false → Due cfg s.next v) : Timely cfg caller floor (s.leave v) := by
  refine { h with gone := fun w hw => ?_ }
  rcases mem_append.mp hw with hw | hw
  · exact h.gone w hw
  · rwa [mem_singleton.mp hw]

theorem hookAction (hr : Releasing cfg caller s) (ha : a ≠ .setDisable true) :
    Timely cfg caller floor (hookAction cfg s a) := by
  cases a with
  | env e => cases e <;> exact { h with }
  | migrate t => exact h.releaseThread hr.blocking t
  | setDisable b =>
    cases b with
    | true => exact (ha rfl).elim
    | false => exact { h with }

theorem callHooks (hr : Releasing cfg caller s)
    (hl : HookAction.setDisable true ∉ l) : Timely cfg caller floor (callHooks cfg s l) := by
  induction l generalizing s with
  | nil => exact h
  | cons a l ih =>
    rw [mem_cons,not_or] at hl
    exact ih (h.hookAction hr (Ne.symm hl.1)) (hr.hookAction a) hl.2

end Timely

theorem hookAction_frame (ha : a ≠ .setDisable true) (hd : s.disable = false) :
    (hookAction cfg s a).group = s.group ∧ (hookAction cfg s a).reported = s.reported ∧
      (hookAction cfg s a).disable = false := by
  cases a with
  | env e => cases e <;> exact ⟨rfl,rfl,hd⟩
  | migrate t =>
    obtain ⟨r,q,l,he⟩ := doRelease_frame 1 (resetClock cfg s t)
    rw [hookAction,releaseThread,he]
    exact ⟨rfl,rfl,hd⟩
  | setDisable b =>
    cases b with
    | true => exact (ha rfl).elim
    | false => exact ⟨rfl,rfl,rfl⟩

theorem callHooks_frame (hl : HookAction.setDisable true ∉ l) (hd : s.disable = false) :
    (callHooks cfg s l).group = s.group ∧ (callHooks cfg s l).reported = s.reported ∧
      (callHooks cfg s l).disable = false := by
  induction l generalizing s with
  | nil => exact ⟨rfl,rfl,hd⟩
  | cons a l ih =>
    rw [mem_cons,not_or] at hl
    obtain ⟨hg,hr,hd'⟩ : (hookAction cfg s a).group = s.group ∧ _ := hookAction_frame (Ne.symm hl.1) hd
    obtain ⟨hg',hr',hd''⟩ := ih hl.2 hd'
    exact ⟨hg'.trans hg,hr'.trans hr,hd''⟩

theorem enabled_hooks (hl : HookAction.setDisable true ∉ l) : reenables false l = false := by
  induction l with
  | nil => rfl
  | cons a l ih =>
    rw [mem_cons,not_or] at hl
    cases a with
    | env e | migrate t => exact ih hl.2
    | setDisable b =>
      cases b with
      | true => exact (hl.1 rfl).elim
      | false => exact ih hl.2

def Waiting (cfg : BarrierConfig) (s : BarrierSyncServer) : Prop :=
  ∀ c < cfg.numCores, s.group c = none → isCoreRunning cfg s c → s.next ≤ s.clock c

theorem reached_waiting (hm : s.fastforward = false) (h : isBarrierReached cfg s) : Waiting cfg s := by
  rw [isBarrierReached,if_neg (by simp [hm]),Bool.and_eq_true,List.all_eq_true] at h
  intro c hc hg hrun
  have hcl := h.1 c (mem_range.mpr hc)
  rw [hg,hrun] at hcl
  simpa using hcl

def startsNone (cfg : BarrierConfig) (caller : Option ThreadId) : List Round → BarrierSyncServer → Bool
  | [], _ => true
  | r :: rounds, s =>
    let u := callHooks cfg { s with globalTime := s.next } r.actions
    let w := stage cfg caller (advanceNext cfg u)
    (range cfg.numCores).all (fun c => (s.group c).isSome || !isCoreRunning cfg u c ||
      isCoreRunning cfg s c) && (w.2.1 || startsNone cfg caller rounds w.1)

theorem allReported_of (h : ∀ c < cfg.numCores, s.group c = none → isCoreRunning cfg s c →
    s.next ≤ s.reported c) : allReported cfg s := by
  rw [allReported,List.all_eq_true]
  intro c hc
  cases hg : s.group c with
  | some d => rfl
  | none =>
    cases hrun : isCoreRunning cfg s c with
    | false => rfl
    | true => simpa using h c (mem_range.mp hc) hg hrun

theorem not_running (h : s.anyThreadRunning = false) (c : CoreId) : isCoreRunning cfg s c = false := by
  have hthread : ∀ d, s.hasRunningThread d = false := by
    intro d
    rw [hasRunningThread]
    split
    · next t ht =>
      refine Bool.eq_false_iff.mpr fun hrun => ?_
      rw [isThreadRunning,beq_iff_eq] at hrun
      rw [anyThreadRunning,List.any_eq_false] at h
      exact h _ (mem_of_getElem? hrun) rfl
    · rfl
  rw [isCoreRunning,hthread c,Bool.false_or]
  refine Bool.and_eq_false_imp.mpr fun _ => List.any_eq_false.mpr fun d _ => ?_
  rw [hthread d,Bool.and_false]
  exact Bool.false_ne_true

structure Dismissed (cfg : BarrierConfig) (caller : Option (CoreId × ThreadId)) (s : BarrierSyncServer)
    (mustWait : Bool) : Prop where
  timely : Timely cfg caller s.next s
  enabled : s.disable = false
  due : ∀ c t, caller = some (c,t) → mustWait = false → s.clock c ≠ 0 →
    s.clock c < s.next ∧ s.next.toNat ≤ (s.clock c).toNat + cfg.interval.toNat

theorem pass_ahead (hb : Blocking cfg caller s) :
    ∀ c, (stage cfg caller' s).1.acquire c → (stage cfg caller' s).1.next ≤ (stage cfg caller' s).1.clock c := by
  intro c ha
  have hp := stage_pass cfg caller' s
  rw [hp.acquire c,Bool.and_eq_true] at ha
  have hc := mem_range.mpr (hb.bound c ha.1)
  rw [hp.next,hp.clock]
  have hr := ha.2
  rw [ripe,ha.1] at hr
  simpa [mem_range.mp hc] using hr

theorem startsNone_round {caller : Option ThreadId} (hu : callHooks cfg { s with globalTime := s.next } r.actions = u)
    (h : startsNone cfg caller (r :: rounds) s) :
    (∀ c < cfg.numCores, s.group c = none → isCoreRunning cfg u c → isCoreRunning cfg s c) ∧
    ((stage cfg caller (advanceNext cfg u)).2.1 = false →
      startsNone cfg caller rounds (stage cfg caller (advanceNext cfg u)).1) := by
  rw [startsNone,hu,Bool.and_eq_true,List.all_eq_true] at h
  refine ⟨fun c hc hg hrun => ?_,fun hidle => ?_⟩
  · have hs := h.1 c (mem_range.mpr hc)
    rw [hg,hrun] at hs
    simpa using hs
  · have hs := h.2
    rw [hidle] at hs
    exact hs

structure Head (cfg : BarrierConfig) (caller : Option (CoreId × ThreadId)) (cont : Bool)
    (rounds : List Round) (s : BarrierSyncServer) : Prop where
  releasing : Releasing cfg caller s
  tied : Tied cfg s
  enabled : s.disable = false
  timely : Timely cfg caller s.next s
  room : (∃ c, Pressing cfg s c) ∨ s.next.toNat + rounds.length * cfg.interval.toNat < 18446744073709551616
  waiting : cont = false → Waiting cfg s
  hooks : ∀ r ∈ rounds, HookAction.setDisable true ∉ r.actions
  starts : cont = false → startsNone cfg (caller.map (·.2)) rounds s

structure Turn (cfg : BarrierConfig) (caller : Option (CoreId × ThreadId)) (cont : Bool)
    (s u : BarrierSyncServer) : Prop where
  kept : Kept s u
  releasing : Releasing cfg caller u
  enabled : u.disable = false
  timely : Timely cfg caller u.next u
  group : u.group = s.group
  fit : u.next.toNat + cfg.interval.toNat < 18446744073709551616
  reported : cont = false ∨ u.anyThreadRunning = false → allReported cfg u

theorem Head.turn (h : Head cfg caller cont (r :: rounds) s)
    (hu : callHooks cfg { s with globalTime := s.next } r.actions = u) : Turn cfg caller cont s u := by
  have hl := h.hooks r (mem_cons_self ..)
  have hr0 : Releasing cfg caller { s with globalTime := s.next } :=
    { h.releasing with blocking := { h.releasing.blocking with } }
  have h0 : Timely cfg caller s.next { s with globalTime := s.next } :=
    { h.timely with }
  have hd0 : { s with globalTime := s.next }.disable = false := h.enabled
  have hk : Kept s u := hu ▸ hooks_kept (by rw [h.enabled]; exact enabled_hooks hl)
  obtain ⟨hg,hrep,hdu⟩ : (callHooks cfg { s with globalTime := s.next } r.actions).group = s.group ∧ _ :=
    callHooks_frame hl hd0
  rw [hu] at hg hrep hdu
  refine ⟨hk,hu ▸ hr0.callHooks r.actions,hdu,?_,hg,?_,fun hc => allReported_of fun c hcn hgc hrun => ?_⟩
  · rw [hk.next,← hu]
    exact h0.callHooks hr0 hl
  · rw [hk.next]
    rcases h.room with ⟨c,hp⟩ | hroom
    · exact h.tied.fits_next hp
    · rw [length_cons,succ_mul] at hroom
      omega
  · rcases hc with hc | hc
    · -- it ran before the callbacks, so it had reached the barrier
      have hs := (startsNone_round hu (h.starts hc)).1 c hcn (hg ▸ hgc) hrun
      have hle := h.waiting hc c hcn (hg ▸ hgc) hs
      rw [hk.next,hrep]
      exact BitVec.le_trans hle (h.timely.reported c)
    · rw [not_running hc c] at hrun
      cases hrun

namespace Turn
variable {cont : Bool}
variable (h : Turn cfg caller cont s u)
include h

theorem blocking : Blocking cfg caller (advanceNext cfg u) :=
  { h.releasing.blocking with }

theorem resume (hc : cont = false ∨ u.anyThreadRunning = false) :
    Timely cfg caller (stage cfg (caller.map (·.2)) (advanceNext cfg u)).1.next
      (stage cfg (caller.map (·.2)) (advanceNext cfg u)).1 := by
  have hle : (advanceNext cfg u).next.toNat ≤ u.next.toNat + cfg.interval.toNat := Nat.le_of_eq (next_advance h.fit)
  exact ((h.timely.advance (h.reported hc) h.fit).stage h.blocking hle).raise (pass_ahead h.blocking)

theorem dismiss (hc : cont = false ∨ u.anyThreadRunning = false)
    (hres : (stage cfg (caller.map (·.2)) (advanceNext cfg u)).2.1) :
    Dismissed cfg caller (stage cfg (caller.map (·.2)) (advanceNext cfg u)).1
      (stage cfg (caller.map (·.2)) (advanceNext cfg u)).2.2 := by
  have hst := Staged.stage h.blocking
  have hp := stage_pass cfg (caller.map (·.2)) (advanceNext cfg u)
  refine ⟨h.resume hc,hp.disable.trans h.enabled,fun c t hct hw hz => ?_⟩
  have hac := h.releasing.caller_acquired hst hres hct
  have hout := (hst.waits c t hct).1
  rw [hac,hw,hp.acquire c,hac] at hout
  have hlt : u.clock c < (advanceNext cfg u).next := by
    have hcn : c < cfg.numCores := h.blocking.bound c hac
    have hr : (advanceNext cfg u).ripe c := by simpa [hcn] using hout
    rw [ripe,Bool.and_eq_true,decide_eq_true_iff] at hr
    exact hr.1
  rw [hp.clock] at hz
  rw [hp.next,hp.clock]
  have hge : u.next ≤ u.clock c := (h.timely.floored c hac).resolve_left hz
  refine ⟨hlt,?_⟩
  rw [next_advance h.fit]
  exact Nat.add_le_add_right hge _

end Turn

theorem Head.next (h : Head cfg caller cont (r :: rounds) s)
    (hu : callHooks cfg { s with globalTime := s.next } r.actions = u) (hc : cont = false ∨ u.anyThreadRunning = false)
    (hidle : (stage cfg (caller.map (·.2)) (advanceNext cfg u)).2.1 = false) :
    Head cfg caller cont rounds (stage cfg (caller.map (·.2)) (advanceNext cfg u)).1 := by
  have ht := h.turn hu
  have hp := stage_pass cfg (caller.map (·.2)) (advanceNext cfg u)
  have hsame := (Staged.stage ht.blocking).idle hidle
  have hac : u.acquire = s.acquire := (ht.kept.enabled ht.enabled).2
  refine ⟨?_,(h.tied.kept ht.kept).advance ht.enabled ht.fit _,hp.disable.trans ht.enabled,ht.resume hc,
    ?_,fun hf c hcn hg hrun => ?_,fun r' hr' => h.hooks r' (mem_cons_of_mem r hr'),
    fun hf => (startsNone_round hu (h.starts hf)).2 hidle⟩
  · rw [hsame]
    exact { ht.releasing with blocking := ht.blocking }
  · rcases h.room with ⟨c,hpr⟩ | hroom
    · exact .inl ⟨c,pressing_advance hpr.core (hac ▸ hpr.acquired) hidle⟩
    · refine .inr ?_
      rw [hp.next,next_advance ht.fit,ht.kept.next]
      rw [length_cons,succ_mul] at hroom
      omega
  · rw [hsame] at hg hrun
    have hgs : s.group c = none := ht.group ▸ hg
    have hs := (startsNone_round hu (h.starts hf)).1 c hcn hgs hrun
    have hheld := h.tied.held h.enabled c hcn (h.waiting hf c hcn hgs hs)
    exact (pressing_advance hcn (hac ▸ hheld) hidle).reached

theorem releaseLoop_dismissed (h : Head cfg caller cont rounds s) (hcont : cont → caller = none)
    (hp : releaseLoop cfg (caller.map (·.2)) cont rounds s = .ok p) : Dismissed cfg caller p.1 (p.2.getD false) := by
  induction rounds generalizing s with
  | nil => cases hp
  | cons r rounds ih =>
    rw [releaseLoop] at hp
    dsimp only at hp
    obtain ⟨u,hu⟩ : ∃ u, callHooks cfg { s with globalTime := s.next } r.actions = u := ⟨_,rfl⟩
    rw [hu] at hp
    have ht := h.turn hu
    split_ifs at hp with hrun htime hdis hres
    · cases hp
      refine { ht with due := fun c t hct => ?_ }
      rw [hcont hrun.1] at hct
      cases hct
    · rw [ht.enabled] at hdis
      cases hdis
    all_goals
      have hc : cont = false ∨ u.anyThreadRunning = false := by
        cases cont with
        | false => exact .inl rfl
        | true => exact .inr (Bool.eq_false_iff.mpr fun hf => hrun ⟨rfl,hf⟩)
    · cases hp
      exact ht.dismiss hc hres
    · exact ih (h.next hu hc (Bool.eq_false_iff.mpr hres)) hp

theorem Dismissed.restart (h : Dismissed cfg caller s mustWait) (hb : Blocking cfg caller s)
    (ho : order.Perm s.toRelease) : Dismissed cfg caller (restart cfg s order) mustWait := by
  have ht := (h.timely.reorder ho).doRelease (hb.reorder ho) (if s.fastforward then order.length else cfg.numHostCores)
  obtain ⟨-,-,hd,hn,hk⟩ := doRelease_same (if s.fastforward then order.length else cfg.numHostCores)
    { s with toRelease := order }
  rw [BarrierSyncServer.restart]
  refine ⟨?_,hd.trans h.enabled,fun c t hct hw hz => ?_⟩
  · rwa [hn]
  · rw [hk] at hz
    rw [hn,hk]
    exact h.due c t hct hw hz

theorem barrierRelease_dismissed (h : Head cfg caller cont rounds s) (hcont : cont → caller = none)
    (hr : barrierRelease cfg s (caller.map (·.2)) cont rounds order = .ok q) : Dismissed cfg caller q.1 q.2 := by
  obtain ⟨-,p,hp,hw,hq⟩ := barrierRelease_ok hr
  rw [skipSlots_detailed h.tied.detailed] at hp
  have hdis := releaseLoop_dismissed h hcont hp
  have hrel := releaseLoop_released h.releasing hcont hp
  rw [hw] at hdis
  rcases hq with he | ⟨ho,he⟩
  · rwa [he]
  · rw [he]
    exact hdis.restart hrel.blocking ho

theorem Timely.arrive (h : Timely cfg none s.next s) (hb : Blocking cfg none s)
    (hle : s.next ≤ time) (c : CoreId) (t : ThreadId) :
    Timely cfg (some (c,t)) (s.arrive c t time).next (s.arrive c t time) := by
  have hd := (h.report c time).doRelease ({ hb with } : Blocking cfg none (s.report c time)) 1
  obtain ⟨r,q,l,he⟩ := doRelease_frame 1 (s.report c time)
  rw [arrive_next]
  refine hd.enter hle ?_ t
  rw [he]
  change time ≤ update s.reported c _ c
  rw [update_self]
  split_ifs with hlt
  · exact BitVec.le_refl _
  · exact BitVec.not_lt.mp hlt

def Steady (cfg : BarrierConfig) (s : BarrierSyncServer) : BarrierLabel → Prop
  | .synchronize c time rounds _ =>
    time.toNat + cfg.interval.toNat < 18446744073709551616 ∧ (∀ r ∈ rounds, HookAction.setDisable true ∉ r.actions) ∧
      (s.use c).thread.all (fun t => startsNone cfg (some t) rounds (s.arrive (s.masterOf c) t time))
  | .stopped t rounds _ =>
    (∀ r ∈ rounds, HookAction.setDisable true ∉ r.actions) ∧ startsNone cfg none rounds (releaseThread cfg s t)
  | .advance rounds _ =>
    s.next.toNat + rounds.length * cfg.interval.toNat < 18446744073709551616 ∧
      ∀ r ∈ rounds, HookAction.setDisable true ∉ r.actions
  | .setDisable b => b = false
  | .release | .setFastForward .. => False
  | _ => True

instance decidableSteady (cfg : BarrierConfig) (s : BarrierSyncServer) : ∀ l : BarrierLabel, Decidable (Steady cfg s l)
  | .synchronize _ _ rounds _ => inferInstanceAs
    (Decidable (_ ∧ (∀ r ∈ rounds, HookAction.setDisable true ∉ r.actions) ∧ _))
  | .stopped _ rounds _ => inferInstanceAs
    (Decidable ((∀ r ∈ rounds, HookAction.setDisable true ∉ r.actions) ∧ _))
  | .advance rounds _ => inferInstanceAs (Decidable (_ ∧ ∀ r ∈ rounds, HookAction.setDisable true ∉ r.actions))
  | .setDisable b => inferInstanceAs (Decidable (b = false))
  | .release | .setFastForward .. => isFalse id
  | .migrate _ | .setGroup .. | .env _ => isTrue trivial

structure Skew (cfg : BarrierConfig) (s : BarrierSyncServer) : Prop where
  quiet : Quiet cfg s
  tied : Tied cfg s
  enabled : s.disable = false
  positive : 0 < s.next
  timely : Timely cfg none s.next s

theorem Steady.orderly {l : BarrierLabel} (h : Steady cfg s l) (hd : s.disable = false) : Orderly cfg s l := by
  cases l with
  | synchronize c time rounds order => exact ⟨h.1,fun r hr => enabled_hooks (h.2.1 r hr)⟩
  | stopped t rounds order => exact fun r hr => enabled_hooks (h.1 r hr)
  | advance rounds order => exact ⟨h.1,fun r hr => hd ▸ enabled_hooks (h.2 r hr)⟩
  | setDisable b =>
    intro ht
    rw [hd] at ht
    cases ht
  | release | setFastForward b time => exact h.elim
  | _ => trivial

theorem arrive_clock : (s.arrive c t time).clock c = time := update_self ..

theorem time_ne_zero {next time : SubsecondTime} (h : 0 < next) (hle : next ≤ time) : time ≠ 0 := by
  rintro rfl
  exact BitVec.not_le.mpr h hle

theorem Timely.afterRelease
    (h : Dismissed cfg (some (c,t)) q.1 q.2) (hr : Released cfg (some (c,t)) q.1 q.2) (hz : time ≠ 0) :
    (afterRelease c t time q).disable = false ∧
      Timely cfg none (afterRelease c t time q).next (afterRelease c t time q) := by
  obtain ⟨u,mustWait⟩ := q
  cases mustWait with
  | true =>
    refine ⟨h.enabled,h.timely.block hr.blocking rfl fun hex => ?_⟩
    have he : u.clock c = time := by simpa using hex
    exact ⟨he.symm,hz⟩
  | false =>
    refine ⟨h.enabled,(h.timely.drop (hr.waits c t rfl)).leave fun hex => ?_⟩
    have he : u.clock c = time := by
      have hne := (Bool.or_eq_false_iff.mp hex).1
      simpa using hne
    obtain ⟨hlt,hle⟩ := h.due c t rfl rfl (fun h0 => hz (he.symm.trans h0))
    rw [he] at hlt hle
    refine ⟨hlt,fun b hb => ?_⟩
    cases hb
    exact ⟨hlt,hle⟩

namespace Skew
section
variable (h : Skew cfg s)
include h

theorem synchronize (hm : s.masterOf c < cfg.numCores)
    (hb : blocked cfg s c = false) (ho : Steady cfg s (.synchronize c time rounds order))
    (hr : synchronize cfg s c time rounds order = .ok s') : s'.disable = false ∧ Timely cfg none s'.next s' := by
  cases synchronize_entry hr with
  | ignored _ => exact ⟨h.enabled,h.timely⟩
  | early t _ _ _ hlt =>
    exact ⟨h.enabled,(h.timely.report (s.masterOf c) time).leave fun _ => ⟨hlt,by simp⟩⟩
  | blocks t ht hd ha hge _ =>
    have hle := hge h.tied.detailed
    have hblk := h.quiet.arrive hm ha (h.quiet.blocking.not_blocked hb ht) time
    have hoff : (s.arrive (s.masterOf c) t time).disable = false := arrive_disable.trans hd
    exact ⟨hoff,(h.timely.arrive h.quiet.blocking hle _ t).block hblk rfl
      fun _ => ⟨arrive_clock.symm,time_ne_zero h.positive hle⟩⟩
  | releases t ht hd ha hge hreach q hq =>
    have hle := hge h.tied.detailed
    have hn := h.quiet.blocking.not_blocked hb ht
    have hoff : (s.arrive (s.masterOf c) t time).disable = false := arrive_disable.trans hd
    have ht' := h.tied.arrive ho.1 (s.masterOf c) t
    have hhead : Head cfg (some (s.masterOf c,t)) false rounds (s.arrive (s.masterOf c) t time) := by
      refine ⟨⟨h.quiet.arrive hm ha hn time,fun hf => ?_,(barrierRelease_ok hq).1,fun d u hdu => ?_⟩,
        ht',hoff,h.timely.arrive h.quiet.blocking hle _ t,
        .inl ⟨_,pressing_arrive hm hle⟩,fun _ => reached_waiting ht'.detailed hreach,ho.2.1,fun _ => ?_⟩
      · rw [hoff] at hf
        cases hf
      · obtain ⟨rfl,rfl⟩ := Prod.mk.inj (some.inj hdu)
        exact .inl (update_self ..)
      · have hall := ho.2.2
        rw [ht] at hall
        exact hall
    exact Timely.afterRelease (barrierRelease_dismissed hhead (by simp) hq)
      (h.quiet.released_arrive hm ha hn hd hq) (time_ne_zero h.positive hle)

theorem head (hnil : s.toRelease = [])
    (hroom : (∃ c, Pressing cfg s c) ∨ s.next.toNat + rounds.length * cfg.interval.toNat < 18446744073709551616)
    (hwait : cont = false → Waiting cfg s) (hooks : ∀ r ∈ rounds, HookAction.setDisable true ∉ r.actions)
    (hst : cont = false → startsNone cfg none rounds s) : Head cfg none cont rounds s :=
  ⟨⟨h.quiet.blocking,h.quiet.off,hnil,by simp⟩,h.tied,h.enabled,h.timely,hroom,hwait,hooks,hst⟩

theorem releaseThread (t : ThreadId) : Skew cfg (releaseThread cfg s t) := by
  have hk := releaseThread_kept cfg s t
  refine ⟨h.quiet.releaseThread t,h.tied.kept hk,(releaseThread_same cfg s t).2.2.1.trans h.enabled,?_,?_⟩
  · rw [hk.next]
    exact h.positive
  · rw [hk.next]
    exact h.timely.releaseThread h.quiet.blocking t

theorem signal (hooks : ∀ r ∈ rounds, HookAction.setDisable true ∉ r.actions)
    (hst : startsNone cfg none rounds s) (hr : signal cfg s rounds order = .ok s') :
    s'.disable = false ∧ Timely cfg none s'.next s' := by
  rw [BarrierSyncServer.signal] at hr
  split_ifs at hr with hd hb
  · cases hr
    exact ⟨h.enabled,h.timely⟩
  · obtain ⟨q,hq,rfl⟩ := Outcome.map_ok hr
    have hhead : Head cfg none false rounds s := h.head (barrierRelease_ok hq).1
      (.inl (h.tied.reached h.enabled hb)) (fun _ => reached_waiting h.tied.detailed hb) hooks
      fun _ => hst
    have hdis := barrierRelease_dismissed hhead (fun _ => rfl) hq
    exact ⟨hdis.enabled,hdis.timely⟩
  · cases hr
    exact ⟨h.enabled,h.timely⟩

theorem step_timely {l : BarrierLabel} (ho : Steady cfg s l)
    (hr : step cfg s l = .ok s') : s'.disable = false ∧ Timely cfg none s'.next s' := by
  cases l with
  | synchronize c time rounds order =>
    rw [step] at hr
    split_ifs at hr with hg
    exact h.synchronize hg.2.1 hg.2.2 ho hr
  | stopped t rounds order => exact (h.releaseThread t).signal ho.1 ho.2 hr
  | migrate t =>
    cases hr
    exact ⟨(h.releaseThread t).enabled,(h.releaseThread t).timely⟩
  | setDisable b =>
    cases hr
    obtain rfl : b = false := ho
    exact ⟨rfl,{ h.timely with }⟩
  | release | setFastForward b time => exact ho.elim
  | setGroup c master =>
    rw [step,setGroup] at hr
    split_ifs at hr
    cases hr
    exact ⟨h.enabled,{ h.timely with }⟩
  | advance rounds order =>
    rw [step] at hr
    split_ifs at hr
    obtain ⟨q,hq,rfl⟩ := Outcome.map_ok hr
    have hhead : Head cfg none true rounds s := h.head (barrierRelease_ok hq).1 (.inr ho.1)
      (by simp) ho.2 (by simp)
    have hdis := barrierRelease_dismissed hhead (fun _ => rfl) hq
    exact ⟨hdis.enabled,hdis.timely⟩
  | env e =>
    cases hr
    cases e <;> exact ⟨h.enabled,{ h.timely with }⟩

theorem step {l : BarrierLabel} (ho : Steady cfg s l)
    (hr : step cfg s l = .ok s') : Skew cfg s' ∧ s.next ≤ s'.next := by
  obtain ⟨ht,hle⟩ := h.tied.step (ho.orderly h.enabled) hr
  obtain ⟨hd,htime⟩ := h.step_timely ho hr
  exact ⟨⟨h.quiet.step hr,ht,hd,Nat.lt_of_lt_of_le h.positive hle,htime⟩,hle⟩
end

theorem init (hpos : 0 < cfg.interval) : Skew cfg (init cfg) :=
  ⟨.init,.init hpos,rfl,hpos,fun _ v hv => (by cases hv),fun _ _ hc => (by cases hc),
    fun _ hc => (by cases hc),fun v hv => (by cases hv),fun _ => BitVec.le_refl _, fun p hp => (by cases hp)⟩

end Skew

theorem clock_skew_bounded (cfg : BarrierConfig) (hpos : 0 < cfg.interval) {s : BarrierSyncServer}
    (hs : Run.Reaches (step cfg) (Steady cfg) (init cfg) s) :
    (∀ l s', Steady cfg s l → step cfg s l = .ok s' → s.next ≤ s'.next) ∧
    (∀ v ∈ s.left, v.excused = false → v.time < s.next ∧ ∀ b, v.barrier = some b → v.time < b) ∧
    (∀ p ∈ s.passed, p.2 = true) ∧
    (∀ v ∈ s.left, ∀ w ∈ s.left, v.excused = false → w.excused = false → ∀ b, v.barrier = some b →
      w.barrier = some b → v.time.toNat < w.time.toNat + cfg.interval.toNat) := by
  have h : Skew cfg s := Run.Reaches.invariant (fun _ _ _ hs ho hn => (hs.step ho hn).1) (.init hpos) hs
  refine ⟨fun l s' ho hr => (h.step ho hr).2,fun v hv hex => ?_,h.timely.passed,fun v hv w hw hve hwe b hvb hwb => ?_⟩
  · obtain ⟨hlt,hb⟩ := h.timely.gone v hv hex
    exact ⟨hlt,fun b he => (hb b he).1⟩
  · have hvt : v.time.toNat < b.toNat := ((h.timely.gone v hv hve).2 b hvb).1
    exact Nat.lt_of_lt_of_le hvt ((h.timely.gone w hw hwe).2 b hwb).2

def steadyRun (cfg : BarrierConfig) (ls : List BarrierLabel) : BarrierSyncServer :=
  (Run.guided (step cfg) (Steady cfg) (init cfg) ls).getD (init cfg)

def overshoot : List BarrierLabel :=
  boot 2 ++ [.synchronize 0 110 [] [],.synchronize 1 250 [⟨[],false⟩] [0],.synchronize 0 220 [⟨[],false⟩] [1]]

theorem overshoot_leaves_within_interval : (steadyRun ⟨2,2,100⟩ overshoot).left.map (·.time) = [110,250,220] ∧
      ∀ v ∈ (steadyRun ⟨2,2,100⟩ overshoot).left, ∀ w ∈ (steadyRun ⟨2,2,100⟩ overshoot).left,
        v.excused = false → w.excused = false → ∀ b, v.barrier = some b → w.barrier = some b →
        v.time.toNat < w.time.toNat + 100 :=
  ⟨by decide,(clock_skew_bounded ⟨2,2,100⟩ (by decide) (Run.reaches_guided (by decide) :
    Run.Reaches _ _ _ (steadyRun ⟨2,2,100⟩ overshoot))).2.2.2⟩

def wokenInRelease : List BarrierLabel :=
  boot 2 ++ [.env (.setStatus 1 .stalled),.stopped 1 [] [],
    .synchronize 0 350 [⟨[.env (.setStatus 1 .running)],false⟩,⟨[],false⟩,⟨[],false⟩] []]

theorem barrier_passes_woken_core : Reachable ⟨2,2,100⟩ (runFrom ⟨2,2,100⟩ wokenInRelease) ∧
      (runFrom ⟨2,2,100⟩ wokenInRelease).passed = [(100,false),(200,false),(300,false)] ∧
      (runFrom ⟨2,2,100⟩ wokenInRelease).next = 400 ∧
      isCoreRunning ⟨2,2,100⟩ (runFrom ⟨2,2,100⟩ wokenInRelease) 1 = true ∧
      (runFrom ⟨2,2,100⟩ wokenInRelease).reported 1 = 0 :=
  ⟨Run.reaches_guided (by decide),by decide,by decide,by decide,by decide⟩

end BarrierSyncServer
