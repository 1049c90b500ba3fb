import SniperSim.Library.ExceptSpec
import SniperSim.Library.Matching
import SniperSim.System.SchedulerPinnedBase
import Mathlib.Data.Finset.Card

open Function List Option Nat ThreadManager
namespace SchedulerPinnedBase
open Matching
variable {cfg : SchedConfig} {s s' : SchedulerPinnedBase} {c d : CoreId} {t u : ThreadId}
  {P : List CoreId} {time : SubsecondTime}

def infoCore (s : SchedulerPinnedBase) (t : ThreadId) : Option CoreId := s.info[t]?.bind (·.coreRunning)

theorem infoCore_setInfo (h : s.info[t]? = some i) : (s.setInfo t j).infoCore = update s.infoCore t j.coreRunning := by
  funext u
  rw [infoCore,setInfo]
  obtain ⟨hlt,-⟩ := List.getElem?_eq_some_iff.mp h
  rcases eq_or_ne u t with rfl | hne
  · rw [update_self,getElem?_set_self hlt]
    rfl
  · rw [update_of_ne hne,getElem?_set_ne hne.symm]
    rfl

structure Consistent (P : List CoreId) (s : SchedulerPinnedBase) : Prop where
  link : Paired s.running s.infoCore
  seat : Paired s.occupant s.core
  held : ∀ c, s.occupant c = if c ∈ P then none else s.running c
  busy : ∀ c ∈ P, s.running c ≠ none
  live : ∀ t, s.runnable[t]? = some true → t < s.threads.numThreads
  known : ∀ c t, s.running c = some t → t < s.threads.numThreads

def Benign (e : SchedFault) : Prop := e ≠ .occupied ∧ e ≠ .unfinished

def Started (s : SchedulerPinnedBase) (t : ThreadId) : Prop := (s.threads.thread t).status ≠ .initializing

structure Keeps (s s' : SchedulerPinnedBase) : Prop where
  running : ∀ d t, s.running d = some t → s'.running d = some t
  started : ∀ t, s.Started t → s'.Started t

structure KeepsBut (c : CoreId) (s s' : SchedulerPinnedBase) : Prop where
  running : ∀ d t, d ≠ c → s.running d = some t → s'.running d = some t
  started : ∀ t, s.Started t → s'.Started t

theorem Keeps.refl (s : SchedulerPinnedBase) : Keeps s s := ⟨fun _ _ h => h,fun _ h => h⟩

theorem Keeps.but (h : Keeps s s') (c : CoreId) : KeepsBut c s s' :=
  ⟨fun d t _ => h.running d t,h.started⟩

theorem Keeps.trans (h : Keeps s s') (h' : Keeps s' s'') : Keeps s s'' :=
  ⟨fun d t hd => h'.running d t (h.running d t hd),fun t ht => h'.started t (h.started t ht)⟩

abbrev Safe (P : List CoreId) (s : SchedulerPinnedBase) : Result → Prop :=
  Outcome Benign fun s' => Consistent P s' ∧ Keeps s s'

abbrev SafeBut (c : CoreId) (P : List CoreId) (s : SchedulerPinnedBase) : Result → Prop :=
  Outcome Benign fun s' => Consistent P s' ∧ KeepsBut c s s'

abbrev Sound : Result → Prop := Outcome Benign (Consistent [])

theorem threadInfo_spec : Outcome Benign (fun i => s.info[t]? = some i) (s.threadInfo t) := by
  rw [threadInfo]
  split
  · next i hi => exact hi
  · exact ⟨by decide,by decide⟩

theorem checkThread_spec : Outcome Benign (fun _ => t < s.threads.numThreads) (s.checkThread t) := by
  rw [checkThread]
  split_ifs with h
  · exact h
  · exact ⟨by decide,by decide⟩

theorem findFree_spec : Outcome Benign (fun o => ∀ c, o = some c → c < cfg.numCores ∧ s.running c = none)
    (findFreeCoreForThread cfg s t) := by
  refine threadInfo_spec.bind fun i _ => ?_
  intro c hc
  have hmem := mem_of_find?_eq_some hc
  have hp := find?_some hc
  rw [Bool.and_eq_true,isNone_iff_eq_none] at hp
  exact ⟨mem_range.mp hmem,hp.2⟩

namespace Consistent

theorem setRunnable (h : Consistent P s) (b : Bool) (ht : b → t < s.threads.numThreads) :
    Outcome Benign (fun s' => Consistent P s' ∧ s'.running = s.running ∧ s'.threads = s.threads ∧
      s'.infoCore = s.infoCore ∧ s'.runnable[t]? = some b) (s.setRunnable t b) := by
  rw [SchedulerPinnedBase.setRunnable]
  split_ifs with hlt
  · refine ⟨{ h with live := fun u hu => ?_ },rfl,rfl,rfl,getElem?_set_self hlt⟩
    rcases eq_or_ne u t with rfl | hne
    · have hb : b := some.inj ((getElem?_set_self hlt).symm.trans hu)
      exact ht hb
    · exact h.live u ((getElem?_set_ne hne.symm).symm.trans hu)
  · exact ⟨by decide,by decide⟩

theorem core_of_running (h : Consistent P s) (hc : c ∉ P) (hr : s.running c = some t) : s.core t = some c := by
  refine (h.seat c t).mp ?_
  rw [h.held c,if_neg hc,hr]

theorem running_of_core (h : Consistent P s) (hc : s.core t = some c) : c ∉ P ∧ s.running c = some t := by
  have ho := (h.seat c t).mpr hc
  rw [h.held c] at ho
  split_ifs at ho with hP
  exact ⟨hP,ho⟩

theorem core_pending (h : Consistent P s) (hc : c ∈ P) (hr : s.running c = some t) : s.core t = none := by
  cases hd : s.core t with
  | none => rfl
  | some d =>
    obtain ⟨hP,hrd⟩ := h.running_of_core hd
    exact (hP (h.link.left_injective hrd hr ▸ hc)).elim

theorem settle (h : Consistent (c :: P) s) (hc : c ∉ P) (hr : s.running c = some t) :
    Outcome Benign (fun s' => Consistent P s' ∧ s'.running = s.running ∧ s'.threads = s.threads)
      (s.setCore t (some c)) := by
  have hcore := h.core_pending (mem_cons_self ..) hr
  have hocc : s.occupant c = none := by
    rw [h.held c,if_pos (mem_cons_self ..)]
  have hleave : s.leaveCore t = s := by
    rw [leaveCore,hcore]
  rw [setCore,hleave]
  dsimp only
  rw [if_pos hocc]
  refine ⟨⟨h.link,h.seat.link hocc hcore,fun d => ?_,fun d hd => h.busy d (mem_cons_of_mem c hd),
    h.live,h.known⟩,rfl,rfl⟩
  change update s.occupant c (some t) d = _
  rcases eq_or_ne d c with rfl | hne
  · rw [update_self,if_neg hc,hr]
  · rw [update_of_ne hne,h.held d]
    simp [hne]

theorem vacate (h : Consistent P s) (hr : s.core t = some c) :
    Outcome Benign (fun s' => Consistent (c :: P) s' ∧ s'.running = s.running ∧ s'.threads = s.threads ∧
      s'.infoCore = s.infoCore) (s.setCore t none) := by
  obtain ⟨hc,hrun⟩ := h.running_of_core hr
  have hleave : s.leaveCore t = { s with occupant := update s.occupant c none } := by
    rw [leaveCore,hr]
  rw [setCore,hleave]
  refine ⟨⟨h.link,h.seat.unlink ((h.seat c t).mpr hr),fun d => ?_,fun d hd => ?_,h.live,h.known⟩,rfl,rfl,rfl⟩
  · change update s.occupant c none d = _
    rcases eq_or_ne d c with rfl | hne
    · rw [update_self,if_pos (mem_cons_self ..)]
    · rw [update_of_ne hne,h.held d]
      simp [hne]
  · rcases mem_cons.mp hd with rfl | hd
    · rw [hrun]
      exact some_ne_none t
    · exact h.busy d hd

end Consistent

theorem idleCore_frame (s : SchedulerPinnedBase) (t : ThreadId) :
    ∃ coreState, s.idleCore t = { s with coreState := coreState } := by
  rw [idleCore]
  split
  · exact ⟨s.coreState,rfl⟩
  · exact ⟨_,rfl⟩

theorem Consistent.idleCore (h : Consistent P s) (t : ThreadId) : Consistent P (s.idleCore t) := by
  obtain ⟨cs,he⟩ := idleCore_frame s t
  rw [he]
  exact { h with }

structure Emptied (P : List CoreId) (c : CoreId) (s s' : SchedulerPinnedBase) : Prop where
  running : s'.running = s.running
  link : Paired (update s.running c none) s'.infoCore
  seat : Paired s'.occupant s'.core
  held : ∀ d, s'.occupant d = if d ∈ c :: P then none else s.running d
  idle : ∀ t, s.infoCore t = none → s'.infoCore t = none
  runnable : s'.runnable = s.runnable
  threads : s'.threads = s.threads

namespace Emptied

theorem free (h : Consistent P s) (hr : s.running c = none) : Emptied P c s s := by
  refine ⟨rfl,?_,h.seat,fun d => ?_,fun _ ht => ht,rfl,rfl⟩
  · rw [← hr,update_eq_self]
    exact h.link
  · rw [h.held d]
    rcases eq_or_ne d c with rfl | hne
    · simp [hr]
    · simp [hne]

end Emptied

def OffOrOn (s : SchedulerPinnedBase) (t : ThreadId) (c : CoreId) : Prop :=
  s.core t = some c ∨ s.core t = none ∧ s.occupant c = none

theorem setCore_none (h : OffOrOn s t c) :
    s.setCore t none = .ok { s with core := update s.core t none, occupant := update s.occupant c none } := by
  rw [setCore,leaveCore]
  rcases h with h | ⟨h,ho⟩
  · rw [h]
  · have hsame : update s.occupant c none = s.occupant := ho ▸ update_eq_self c s.occupant
    rw [h,hsame]

theorem OffOrOn.paired (h : OffOrOn s t c) (hp : Paired s.occupant s.core) :
    Paired (update s.occupant c none) (update s.core t none) := by
  rcases h with h | ⟨h,ho⟩
  · exact hp.unlink ((hp c t).mpr h)
  · have hocc : update s.occupant c none = s.occupant := ho ▸ update_eq_self c s.occupant
    have hcore : update s.core t none = s.core := h ▸ update_eq_self t s.core
    rwa [hocc,hcore]

def Ready (P : List CoreId) (c : CoreId) (s : SchedulerPinnedBase) : Prop := Consistent P s ∨ Consistent (c :: P) s

namespace Ready
variable (h : Ready P c s)
include h

theorem link : Paired s.running s.infoCore := h.elim (·.link) (·.link)

theorem seat : Paired s.occupant s.core := h.elim (·.seat) (·.seat)

theorem live : ∀ t, s.runnable[t]? = some true → t < s.threads.numThreads := h.elim (·.live) (·.live)

theorem known : ∀ c t, s.running c = some t → t < s.threads.numThreads := h.elim (·.known) (·.known)

theorem held (hd : d ≠ c) : s.occupant d = if d ∈ P then none else s.running d := by
  rcases h with h | h <;> simp [*,h.held d]

theorem busy (hd : d ∈ P) : s.running d ≠ none := by
  rcases h with h | h
  · exact h.busy d hd
  · exact h.busy d (mem_cons_of_mem c hd)

theorem offOrOn (hc : c ∉ P) (hr : s.running c = some t) : OffOrOn s t c := by
  rcases h with h | h
  · exact .inl (h.core_of_running hc hr)
  · refine .inr ⟨h.core_pending (mem_cons_self ..) hr,?_⟩
    rw [h.held c,if_pos (mem_cons_self ..)]

theorem unschedule (hc : c ∉ P) (hr : s.running c = some t) :
    Outcome Benign (Emptied P c s) (unschedule resume s t c time) := by
  refine threadInfo_spec.bind fun i hi => ?_
  refine checkThread_spec.bind fun _ _ => ?_
  generalize hj : { i with
    coreRunning := none
    lastScheduledOut := time + SubsecondTime.ps (BitVec.ofNat 64 c) } = j
  have hnone : j.coreRunning = none := by rw [← hj]
  have hinfo : (s.setInfo t j).infoCore = update s.infoCore t none := by
    rw [infoCore_setInfo hi,hnone]
  obtain ⟨cs,he⟩ := idleCore_frame (s.setInfo t j) t
  have hoff : OffOrOn { s.setInfo t j with coreState := cs } t c := h.offOrOn hc hr
  rw [he,setCore_none hoff]
  refine ⟨rfl,?_,hoff.paired h.seat,fun d => ?_,fun u hu => ?_,rfl,rfl⟩
  · change Paired _ (s.setInfo t j).infoCore
    rw [hinfo]
    exact h.link.unlink hr
  · change update s.occupant c none d = _
    rcases eq_or_ne d c with rfl | hne
    · rw [update_self,if_pos (mem_cons_self ..)]
    · rw [update_of_ne hne,h.held hne]
      simp [hne]
  · change (s.setInfo t j).infoCore u = none
    rw [hinfo]
    rcases eq_or_ne u t with rfl | hne <;> simp [*]

theorem unscheduleCurrent (hc : c ∉ P) : Outcome Benign (Emptied P c s) (unscheduleCurrent resume s c time) := by
  rw [SchedulerPinnedBase.unscheduleCurrent]
  split
  · next hr =>
    rcases h with h | h
    · exact Emptied.free h hr
    · exact (h.busy c (mem_cons_self ..) hr).elim
  · next t hr => exact h.unschedule hc hr

end Ready

def freeCores (cfg : SchedConfig) (s : SchedulerPinnedBase) : Finset CoreId :=
  (Finset.range cfg.numCores).filter fun c => s.running c = none

def ResumeSafe (cfg : SchedConfig) (k : Nat) (resume : Resume) : Prop :=
  ∀ P s t time, Consistent P s → (freeCores cfg s).card ≤ k →
    Outcome Benign (fun s' => Consistent P s' ∧ Keeps s s') (resume s t time)

namespace Emptied
variable {k : Nat} {resume : Resume}

theorem placed (he : Emptied P c s s') (h : Ready P c s) (hQ : ∀ d, d ∈ Q ↔ d ∈ P ∧ d ≠ c ∨ d = c ∧ new ≠ none)
    (hn : ∀ u, new = some u → u < s.threads.numThreads)
    (hl : Paired (update s.running c new) (infoCore { s' with info := is })) :
    Consistent Q { s'.setRunning c new with info := is } := by
  have hrun : update s'.running c new = update s.running c new := by rw [he.running]
  refine ⟨?_,he.seat,fun d => ?_,fun d hd => ?_,?_,fun d t hdt => ?_⟩
  · change Paired (update s'.running c new) _
    rwa [hrun]
  · change s'.occupant d = if d ∈ Q then none else update s'.running c new d
    rw [he.held d,hrun]
    rcases eq_or_ne d c with rfl | hne
    · simp [hQ,eq_comm]
    · simp [hQ,hne]
  · change update s'.running c new d ≠ none
    rw [hrun]
    rcases (hQ d).mp hd with ⟨hd,hne⟩ | ⟨rfl,hne⟩
    · rw [update_of_ne hne]
      exact h.busy hd
    · rwa [update_self]
  · change ∀ t, s'.runnable[t]? = some true → t < s'.threads.numThreads
    rw [he.runnable,he.threads]
    exact h.live
  · change update s'.running c new d = some t at hdt
    change t < s'.threads.numThreads
    rw [he.threads]
    rw [hrun] at hdt
    rcases eq_or_ne d c with rfl | hne
    · exact hn t (by rwa [update_self] at hdt)
    · rw [update_of_ne hne] at hdt
      exact h.known d t hdt

theorem assigned (he : Emptied P c s s') (h : Ready P c s) (hu : s.infoCore u = none)
    (hn : u < s.threads.numThreads) (hi : s'.info[u]? = some i) (hj : j.coreRunning = some c) :
    Consistent (c :: P) ((s'.setRunning c (some u)).setInfo u j) := by
  refine he.placed h (fun d => by grind) (fun v hv => some.inj hv ▸ hn) ?_
  change Paired _ (s'.setInfo u j).infoCore
  have hlink := he.link.link (update_self ..) (he.idle u hu)
  rwa [infoCore_setInfo hi,hj,← update_idem]

end Emptied

theorem Consistent.setCoreState (h : Consistent P s) (c : CoreId) (state : CoreState) :
    Consistent P (s.setCoreState c state) := { h with }

section
variable {k : Nat} {resume : Resume}

theorem wakeMoved_spec (hres : ResumeSafe cfg k resume) (h : Consistent P s) (hfree : (freeCores cfg s).card ≤ k) :
    Safe P s (wakeMoved resume s t time) := by
  rw [wakeMoved]
  split_ifs
  · exact hres P s t time h hfree
  · exact ⟨h,.refl s⟩

theorem enterCore_spec (h : Consistent (c :: P) s) (hc : c ∉ P) (hr : s.running c = some t) :
    Outcome Benign (fun s' => Consistent P s' ∧ s'.running = s.running ∧ s'.threads = s.threads) (s.enterCore t c) := by
  refine (h.settle hc hr).bind fun s' hs' => ?_
  split_ifs
  · exact hs'
  · exact ⟨hs'.1.setCoreState c .running,hs'.2⟩

theorem moveThread_spec (hres : ResumeSafe cfg k resume) (h : Consistent (c :: P) s) (hc : c ∉ P)
    (hr : s.running c = some t) (hfree : (freeCores cfg s).card ≤ k) :
    Safe P s (moveThread resume s t (some c) time) := by
  refine checkThread_spec.bind fun _ _ => ?_
  obtain ⟨cs,he⟩ := idleCore_frame s t
  have hidle := h.idleCore t
  rw [he] at hidle ⊢
  refine (wakeMoved_spec hres hidle hfree).bind fun s1 hs1 => ?_
  refine (enterCore_spec hs1.1 hc (hs1.2.running c t hr)).mono fun s2 hs2 => ⟨hs2.1,?_,fun v hv => ?_⟩
  · rw [hs2.2.1]
    exact hs1.2.running
  · rw [Started,hs2.2.2]
    exact hs1.2.started v hv

theorem freeCores_assigned (hr : s'.running = update s.running c (some u)) :
    freeCores cfg s' ⊆ (freeCores cfg s).erase c := by
  intro d hd
  rw [freeCores,Finset.mem_filter,hr] at hd
  have hne : d ≠ c := by
    rintro rfl
    simp at hd
  rw [update_of_ne hne] at hd
  exact Finset.mem_erase.mpr ⟨hne,Finset.mem_filter.mpr hd⟩

theorem schedule_spec (hres : ResumeSafe cfg k resume) (he : Emptied P c s s') (h : Ready P c s)
    (hc : c ∉ P) (hu : s.infoCore u = none) (hn : u < s.threads.numThreads)
    (hfree : ((freeCores cfg s).erase c).card ≤ k) :
    SafeBut c P s (schedule resume (s'.setRunning c (some u)) u c time) := by
  refine threadInfo_spec.bind fun i hi => ?_
  have hi' : s'.info[u]? = some i := hi
  have hnone : i.coreRunning = none := by
    have hidle := he.idle u hu
    rw [infoCore,hi'] at hidle
    exact hidle
  have hleave : (s'.setRunning c (some u)).leaveOld i = s'.setRunning c (some u) := by
    rw [leaveOld,hnone]
  rw [hleave]
  have hcons := he.assigned h hu hn hi' (j := { i with coreRunning := some c, lastScheduledIn := time }) rfl
  have hrun : ((s'.setRunning c (some u)).setInfo u
      { i with coreRunning := some c, lastScheduledIn := time }).running = update s.running c (some u) := by
    change update s'.running c (some u) = _
    rw [he.running]
  have hcard := le_trans (Finset.card_le_card (freeCores_assigned hrun)) hfree
  refine (moveThread_spec hres hcons hc (by rw [hrun,update_self]) hcard).mono
    fun s'' hs'' => ⟨hs''.1,fun d t hne hdt => hs''.2.running d t ?_,fun t ht => hs''.2.started t ?_⟩
  · rwa [hrun,update_of_ne hne]
  · change (s'.threads.thread t).status ≠ .initializing
    rwa [he.threads]

theorem switchThread_spec (hres : ResumeSafe cfg k resume) (h : Ready P c s) (hc : c ∉ P)
    (hnew : ∀ u, new = some u → s.infoCore u = none ∧ u < s.threads.numThreads)
    (hfree : ((freeCores cfg s).erase c).card ≤ k) : SafeBut c P s (switchThread resume s c new time) := by
  refine (h.unscheduleCurrent hc).bind fun s1 he => ?_
  cases new with
  | none =>
    refine ⟨he.placed h (fun d => by grind) (by simp) he.link,fun d t hne hdt => ?_,fun t ht => ?_⟩
    · change update s1.running c none d = some t
      rwa [update_of_ne hne,he.running]
    · change (s1.threads.thread t).status ≠ .initializing
      rwa [he.threads]
  | some u => exact schedule_spec hres he h hc (hnew u rfl).1 (hnew u rfl).2 hfree
end

def Chosen (s : SchedulerPinnedBase) (c : CoreId) (best : Choice) : Prop :=
  ∀ u, best.1 = some u → s.runnable[u]? = some true ∧ (s.infoCore u = none ∨ s.infoCore u = some c)

theorem consider_spec (h : Chosen s c best) : Outcome Benign (Chosen s c) (consider s c time best t) := by
  refine threadInfo_spec.bind fun i hi => ?_
  split_ifs with hg
  · intro u hu
    cases hu
    have hel := hg.1
    rw [ThreadInfo.eligible,Bool.and_eq_true,Bool.and_eq_true,Bool.or_eq_true] at hel
    have hinfo : s.infoCore t = i.coreRunning := by
      rw [infoCore,hi]
      rfl
    rw [hinfo]
    refine ⟨?_,?_⟩
    · have hrun := hel.1.2
      rw [getD_eq_getElem?_getD] at hrun
      cases hg : s.runnable[t]? with
      | none => simp [hg] at hrun
      | some b =>
        rw [hg] at hrun
        exact congrArg some hrun
    · rcases hel.2 with hn | hc
      · exact .inl (isNone_iff_eq_none.mp hn)
      · exact .inr (beq_iff_eq.mp hc)
  · exact h

def RescheduleSafe (cfg : SchedConfig) (k : Nat) (resched : Reschedule) : Prop :=
  ∀ P s c time, Consistent P s → c ∉ P → ((freeCores cfg s).erase c).card < k →
    Outcome Benign (fun s' => Consistent P s' ∧ KeepsBut c s s') (resched s c time)

section
variable {k : Nat} {resched : Reschedule}
variable (hsafe : RescheduleSafe cfg k resched)
include hsafe

theorem scheduleOn_free (h : Consistent P s) (hfree : (freeCores cfg s).card ≤ k)
    (ho : ∀ c, free = some c → c < cfg.numCores ∧ s.running c = none) : Safe P s (scheduleOn resched s free time) := by
  cases free with
  | none => exact ⟨h,.refl s⟩
  | some c =>
    obtain ⟨hn,hr⟩ := ho c rfl
    have hcP : c ∉ P := fun hP => h.busy c hP hr
    have hmem : c ∈ freeCores cfg s := Finset.mem_filter.mpr ⟨Finset.mem_range.mpr hn,hr⟩
    have hlt := lt_of_lt_of_le (Finset.card_erase_lt_of_mem hmem) hfree
    refine (hsafe P s c time h hcP hlt).mono fun s' hs' => ⟨hs'.1,fun d t hdt => hs'.2.running d t ?_ hdt,hs'.2.started⟩
    rintro rfl
    rw [hr] at hdt
    cases hdt

theorem threadResume_spec (h : Consistent P s) (ht : t < s.threads.numThreads) (hfree : (freeCores cfg s).card ≤ k) :
    Safe P s (threadResume cfg resched s t time) := by
  refine (h.setRunnable true fun _ => ht).bind fun s1 hs1 => ?_
  obtain ⟨hs1,hrun,hth,-⟩ := hs1
  refine findFree_spec.bind fun free ho => ?_
  have hcard : (freeCores cfg s1).card ≤ k := by
    rwa [freeCores,hrun]
  refine (scheduleOn_free hsafe hs1 hcard ho).mono fun s2 hs2 => ⟨hs2.1,.trans ⟨?_,?_⟩ hs2.2⟩
  · rw [hrun]
    exact fun _ _ hdv => hdv
  · intro v hv
    rwa [Started,hth]

theorem resumeThread_safe : ResumeSafe cfg k (resumeThread cfg resched) := by
  intro P s t time h hfree
  refine checkThread_spec.bind fun _ ht => ?_
  have hres : Consistent P (s.setThreads (s.threads.resumeThread t time false)) :=
    { h with }
  have hk : Keeps s (s.setThreads (s.threads.resumeThread t time false)) := by
    refine ⟨fun _ _ hdv => hdv,fun v hv => ?_⟩
    change ((s.threads.resumeThread t time false).thread v).status ≠ .initializing
    rcases eq_or_ne v t with rfl | hne
    · rw [resumeThread_self]
      exact by simp
    · rwa [resumeThread_of_ne hne]
  exact (threadResume_spec hsafe hres ht hfree).mono fun s' hs' => ⟨hs'.1,hk.trans hs'.2⟩
end

def Due (c : CoreId) (s : SchedulerPinnedBase) : Prop :=
  ∃ t, s.running c = some t ∧ s.Started t ∧ s.runnable[t]? ≠ some true

theorem rescheduleNested_spec (h : Consistent P s ∨ Consistent (c :: P) s ∧ Due c s) (hc : c ∉ P)
    (hfree : ((freeCores cfg s).erase c).card < k) : SafeBut c P s (rescheduleNested cfg k s c time) := by
  induction k generalizing P s c time with
  | zero => exact (not_lt_zero _ hfree).elim
  | succ k ih =>
    have hsafe : RescheduleSafe cfg k (rescheduleNested cfg k) := fun P s c time h hc hlt => ih (.inl h) hc hlt
    have hready : Ready P c s := h.imp_right (·.1)
    rw [rescheduleNested]
    split_ifs with hstart
    · rcases h with h | ⟨-,t,ht,hst,-⟩
      · exact ⟨h,(Keeps.refl s).but c⟩
      · rw [isStarting,ht,any_some,beq_iff_eq] at hstart
        exact (hst hstart).elim
    · refine (Outcome.foldlM (fun _ _ h => consider_spec h) (fun _ hu => by cases hu) _).bind fun best hbest => ?_
      suffices hs : SafeBut c P s (switchIfNew (resumeThread cfg (rescheduleNested cfg k)) s c best.1 time) from
        hs.bind fun s' hs' => ⟨{ hs'.1 with },hs'.2.running,hs'.2.started⟩
      rw [switchIfNew]
      split_ifs with hsame
      · rcases h with h | ⟨-,t,ht,-,hrun⟩
        · exact ⟨h,(Keeps.refl s).but c⟩
        · exact (hrun (hbest t (hsame ▸ ht)).1).elim
      · refine switchThread_spec (resumeThread_safe hsafe) hready hc (fun u hu => ?_) (le_of_lt_succ hfree)
        obtain ⟨hrun,hinfo⟩ := hbest u hu
        refine ⟨hinfo.resolve_right fun hi => hsame ?_,hready.live u hrun⟩
        rw [hu]
        exact (hready.link c u).mpr hi

theorem reschedule_spec (h : Consistent P s ∨ Consistent (c :: P) s ∧ Due c s) (hc : c ∉ P) :
    SafeBut c P s (reschedule cfg s c time) := by
  refine rescheduleNested_spec h hc (lt_succ_of_le ?_)
  refine le_trans (Finset.card_le_card (Finset.erase_subset ..)) ?_
  refine le_trans (Finset.card_filter_le ..) ?_
  rw [Finset.card_range]

theorem reschedule_safe (cfg : SchedConfig) : RescheduleSafe cfg (cfg.numCores + 1) (reschedule cfg) :=
  fun _ _ _ _ h hc _ => reschedule_spec (.inl h) hc

theorem freeCores_card (cfg : SchedConfig) (s : SchedulerPinnedBase) : (freeCores cfg s).card ≤ cfg.numCores + 1 := by
  refine le_succ_of_le (le_trans (Finset.card_filter_le ..) ?_)
  rw [Finset.card_range]

theorem infoCore_growInfo (s : SchedulerPinnedBase) (n : Nat) : (s.growInfo n).infoCore = s.infoCore := by
  funext t
  rw [infoCore,infoCore,growInfo]
  dsimp only
  rcases lt_or_ge t s.info.length with hlt | hge
  · rw [getElem?_append_left hlt]
  · rw [getElem?_append_right hge,getElem?_eq_none hge,getElem?_replicate]
    split_ifs <;> rfl

theorem infoCore_same (h : s.info[t]? = some i) (hj : j.coreRunning = i.coreRunning) :
    (s.setInfo t j).infoCore = s.infoCore := by
  have ht : s.infoCore t = j.coreRunning := by
    rw [infoCore,h,hj]
    rfl
  rw [infoCore_setInfo h,← ht,update_eq_self]

namespace Consistent
section
variable (h : Consistent P s)
include h

theorem setThreads (hn : m.numThreads = s.threads.numThreads) : Consistent P (s.setThreads m) :=
  { h with live := hn ▸ h.live, known := hn ▸ h.known }

theorem setQuantum (c : CoreId) (left : SubsecondTime) : Consistent P (s.setQuantum c left) := { h with }

theorem growInfo (n : Nat) : Consistent P (s.growInfo n) :=
  { h with link := (infoCore_growInfo s n).symm ▸ h.link }

theorem setInfo (hi : s.info[t]? = some i) (hj : j.coreRunning = i.coreRunning) : Consistent P (s.setInfo t j) :=
  { h with link := (infoCore_same hi hj).symm ▸ h.link }

theorem growRunnable (t : ThreadId) : Consistent P (s.growRunnable t) := by
  rw [SchedulerPinnedBase.growRunnable]
  split_ifs
  · refine { h with live := fun u hu => h.live u ?_ }
    rcases lt_or_ge u s.runnable.length with hlt | hge
    · rwa [getElem?_append_left hlt] at hu
    · rw [getElem?_append_right hge,getElem?_replicate] at hu
      split_ifs at hu
      cases hu
  · exact h

theorem moveToFree : Outcome Benign (Consistent P) (moveToFree cfg s t time) := by
  refine findFree_spec.bind fun free ho => ?_
  exact (scheduleOn_free (reschedule_safe cfg) h (freeCores_card cfg s) ho).mono fun _ hs' => hs'.1

theorem resumeThread : Safe P s (resumeThread cfg (reschedule cfg) s t time) :=
  resumeThread_safe (reschedule_safe cfg) P s t time h (freeCores_card cfg s)
end

theorem reschedule (h : Consistent [] s) (c : CoreId) : Sound (reschedule cfg s c time) :=
  (reschedule_spec (.inl h) not_mem_nil).mono fun _ hs' => hs'.1

theorem assignCore (h : Consistent [] s) (ht : s.infoCore t = none) (hn : t < s.threads.numThreads)
    (ho : ∀ c, free = some c → c < cfg.numCores ∧ s.running c = none) :
    Outcome Benign (fun s' => Consistent free.toList s' ∧ ∀ c, free = some c → s'.running c = some t)
      (assignCore cfg s t free) := by
  refine threadInfo_spec.bind fun i hi => ?_
  have hnone : i.coreRunning = none := by
    rw [infoCore,hi] at ht
    exact ht
  cases free with
  | none => exact ⟨h.setInfo hi hnone.symm,by simp⟩
  | some c =>
    have hc := (ho c rfl).2
    have hcons : Consistent [c] ((s.setRunning c (some t)).setInfo t { i with coreRunning := some c }) :=
      (Emptied.free h hc).assigned (.inl h) ht hn hi rfl
    refine ⟨{ hcons with },fun d hd => ?_⟩
    cases hd
    exact update_self ..

theorem initAffinity (h : Consistent P s) (initial : List CoreId) :
    Outcome Benign (fun s' => Consistent P s' ∧ s'.infoCore = s.infoCore ∧ s'.threads = s.threads)
      (s.initAffinity t initial) := by
  refine threadInfo_spec.bind fun i hi => ?_
  split_ifs
  · exact ⟨h,rfl,rfl⟩
  · exact ⟨h.setInfo hi rfl,infoCore_same hi rfl,rfl⟩

theorem createThread (h : Consistent [] s) (initial : List CoreId) : Sound (createThread cfg s initial) := by
  have hnew : s.infoCore s.threads.numThreads = none := by
    cases hc : s.infoCore s.threads.numThreads with
    | none => rfl
    | some c => exact (lt_irrefl _ (h.known c _ ((h.link c _).mpr hc))).elim
  have h0 : Consistent [] (s.setThreads s.threads.createThread) :=
    { h with
      live := fun t ht => lt_succ_of_lt (h.live t ht)
      known := fun c t hct => lt_succ_of_lt (h.known c t hct) }
  have h1 : Consistent [] s.registerThread ∧ s.registerThread.infoCore s.threads.numThreads = none ∧
      s.registerThread.threads.numThreads = s.threads.numThreads + 1 := by
    rw [registerThread]
    split_ifs
    · exact ⟨h0.growInfo _,by rw [infoCore_growInfo]; exact hnew,rfl⟩
    · exact ⟨h0,hnew,rfl⟩
  obtain ⟨hc1,hi1,hn1⟩ := h1
  refine (hc1.initAffinity initial).bind fun s2 hs2 => ?_
  obtain ⟨hc2,hi2,hn2⟩ := hs2
  refine findFree_spec.bind fun free ho => ?_
  refine (hc2.assignCore (hi2 ▸ hi1) (by rw [hn2,hn1]; exact lt_succ_self _) ho).bind fun s3 hs3 => ?_
  cases free with
  | none => exact hs3.1
  | some c =>
    refine (hs3.1.settle not_mem_nil (hs3.2 c rfl)).bind fun s' hs' => ?_
    exact hs'.1.setCoreState c .initializing

theorem onThreadStart (h : Consistent P s) : Outcome Benign (Consistent P) (onThreadStart cfg s t time) := by
  refine checkThread_spec.bind fun _ ht => ?_
  have h0 : Consistent P (s.setThreads (s.threads.resumeThreadAsync t)) := h.setThreads rfl
  have h1 := h0.growRunnable t
  have hn : ((s.setThreads (s.threads.resumeThreadAsync t)).growRunnable t).threads.numThreads =
      s.threads.numThreads := by
    rw [SchedulerPinnedBase.growRunnable]
    split_ifs <;> rfl
  refine (threadResume_spec (reschedule_safe cfg) h1 (hn ▸ ht) (freeCores_card cfg _)).bind fun s' hs' => ?_
  rw [SchedulerPinnedBase.settleStart]
  split
  · exact (hs'.1.setCoreState _ _).setThreads rfl
  · exact hs'.1.setThreads rfl

end Consistent

theorem rescheduleThread_spec (h : Consistent [] s ∨ ∃ c, Consistent [c] s ∧ s.running c = some t ∧ s.Started t) :
    Sound (rescheduleThread cfg s t time) := by
  rcases h with h | ⟨c,h,hr,hst⟩
  · refine (h.setRunnable false fun hf => by cases hf).bind fun s1 hs1 => ?_
    refine threadInfo_spec.bind fun i hi => ?_
    cases i.coreRunning with
    | none => exact hs1.1
    | some d => exact hs1.1.reschedule d
  · refine (h.setRunnable false fun hf => by cases hf).bind fun s1 hs1 => ?_
    obtain ⟨hc1,hr1,ht1,hi1,hf1⟩ := hs1
    refine threadInfo_spec.bind fun i hi => ?_
    have hcore : i.coreRunning = some c := by
      have hinfo : s1.infoCore t = some c := (hc1.link c t).mp (hr1 ▸ hr)
      rw [infoCore,hi] at hinfo
      exact hinfo
    rw [hcore,scheduleOn]
    have hdue : Due c s1 := by
      refine ⟨t,hr1 ▸ hr,?_,?_⟩
      · rwa [Started,ht1]
      · rw [hf1]
        exact by simp
    exact (reschedule_spec (.inr ⟨hc1,hdue⟩) not_mem_nil).mono fun _ hs' => hs'.1

theorem yieldCore_spec (h : Consistent [] s) : Sound (yieldCore cfg s t c time) := by
  refine ((h.setQuantum c 0).reschedule c).bind fun s1 h1 => ?_
  refine threadInfo_spec.bind fun i _ => ?_
  split_ifs
  · exact h1
  · exact h1.moveToFree

theorem threadYield_spec (h : Consistent [] s) : Sound (threadYield cfg s t time) := by
  refine threadInfo_spec.bind fun i _ => ?_
  split
  · exact h
  · exact yieldCore_spec h

theorem isRunnable_spec : Outcome Benign (fun _ => True) (s.isRunnable t) := by
  rw [isRunnable]
  split
  · trivial
  · exact ⟨by decide,by decide⟩

theorem applyAffinity_spec (h : Consistent [] s) : Sound (applyAffinity cfg s t i time) := by
  rw [applyAffinity]
  split
  · split_ifs
    · exact isRunnable_spec.bind fun _ _ => h
    · exact h.setQuantum _ 0
  · refine isRunnable_spec.bind fun b _ => ?_
    split_ifs
    · exact h.moveToFree
    · exact h

theorem checkMask_spec : Outcome Benign (fun _ => True) (checkMask cfg mask) := by
  cases mask with
  | none => trivial
  | some cpus =>
    rw [checkMask]
    split_ifs
    · trivial
    · exact ⟨by decide,by decide⟩

section
variable (h : Consistent [] s)
include h

theorem threadSetAffinity_spec : Sound (threadSetAffinity cfg s caller t mask time) := by
  have hroom : Consistent [] (s.makeRoom t) := by
    rw [makeRoom]
    split_ifs
    · exact h.growInfo _
    · exact h
  refine threadInfo_spec.bind fun i hi => ?_
  refine checkMask_spec.bind fun _ _ => ?_
  have hmask : (maskAffinity cfg i mask).coreRunning = i.coreRunning := by
    cases mask <;> rfl
  have hset := hroom.setInfo hi hmask
  rw [settleAffinity]
  split_ifs
  · exact hset
  · exact threadYield_spec hset
  · exact applyAffinity_spec hset

theorem onThreadExit_spec : Sound (onThreadExit cfg s t time woken) := by
  refine checkThread_spec.bind fun _ _ => ?_
  split
  · exact ⟨by decide,by decide⟩
  · next c hc =>
    split_ifs
    · have h0 : Consistent [] (s.setThreads (s.threads.modify t fun th => { th with status := .idle })) :=
        h.setThreads rfl
      refine (Outcome.foldlM (I := fun s' => Consistent [] s' ∧ Keeps _ s') (fun _ _ hs =>
        hs.1.resumeThread.mono fun _ hs' => ⟨hs'.1,hs.2.trans hs'.2⟩) ⟨h0,.refl _⟩ woken).bind fun s1 hs1 => ?_
      obtain ⟨h1,hk⟩ := hs1
      have hrun : s1.running c = some t := hk.running c t (h.running_of_core hc).2
      have hcore : (s1.setCoreState c .idle).core t = some c := h1.core_of_running not_mem_nil hrun
      refine ((h1.setCoreState c .idle).vacate hcore).bind fun s2 hs2 => ?_
      obtain ⟨h2,hr2,ht2,-⟩ := hs2
      refine rescheduleThread_spec (.inr ⟨c,h2,hr2 ▸ hrun,?_⟩)
      rw [Started,ht2]
      refine hk.started t ?_
      change ((s.threads.modify t fun th => { th with status := .idle }).thread t).status ≠ _
      rw [modify_self]
      exact by simp
    · exact ⟨by decide,by decide⟩

theorem periodic_spec : Sound (periodic cfg s time) := by
  refine Outcome.bind (Outcome.foldlM (I := Consistent []) (fun s1 c h1 => ?_) h _) fun s1 h1 => ?_
  · rw [periodicCore]
    split_ifs
    · exact h1.reschedule c
    · exact h1.setQuantum c _
  · exact { h1 with }

theorem step_spec (e : SchedEvent) : Sound (step cfg s e) := by
  cases e with
  | create initial => exact h.createThread initial
  | start t time => exact h.onThreadStart
  | stall t reason time =>
    refine checkThread_spec.bind fun _ _ => ?_
    split_ifs
    · exact h.setThreads rfl
    · exact rescheduleThread_spec (.inl (h.setThreads rfl))
  | resume t time => exact h.resumeThread.mono fun _ hs' => hs'.1
  | yield t time => exact threadYield_spec h
  | setAffinity caller t mask time => exact threadSetAffinity_spec h
  | exit t time woken => exact onThreadExit_spec h
  | periodic time => exact periodic_spec h
end

theorem Consistent.init : Consistent [] init := by
  refine ⟨fun c t => ?_,fun c t => ?_,fun _ => rfl,by simp,fun t ht => ?_,fun _ _ hr => (by cases hr)⟩
  · simp [SchedulerPinnedBase.init,infoCore]
  · simp [SchedulerPinnedBase.init]
  · change (replicate 16 false)[t]? = some true at ht
    rw [getElem?_replicate] at ht
    split_ifs at ht
    cases ht

def Reachable (cfg : SchedConfig) (s : SchedulerPinnedBase) : Prop := Run.Reaches (step cfg) (fun _ _ => True) init s

theorem scheduler_consistent (cfg : SchedConfig) {s : SchedulerPinnedBase} (hs : Reachable cfg s) :
    (∀ c t, (s.running c = some t ↔ s.infoCore t = some c) ∧
      (s.running c = some t ↔ s.core t = some c ∧ s.occupant c = some t)) ∧
    ∀ e, step cfg s e ≠ .error .occupied ∧ step cfg s e ≠ .error .unfinished := by
  have h := Run.Reaches.invariant (fun _ e _ hs _ hn => (step_spec hs e).of_ok hn) Consistent.init hs
  refine ⟨fun c t => ⟨h.link c t,?_⟩,fun e => ?_⟩
  · constructor
    · intro hr
      have hc := h.core_of_running not_mem_nil hr
      exact ⟨hc,(h.seat c t).mpr hc⟩
    · rintro ⟨hc,-⟩
      exact (h.running_of_core hc).2
  · have he : Sound (step cfg s e) := step_spec h e
    exact ⟨fun hf => (he.of_error hf).1 rfl,fun hf => (he.of_error hf).2 rfl⟩

def ranTo (cfg : SchedConfig) (es : List SchedEvent) : SchedulerPinnedBase :=
  (Run.guided (step cfg) (fun _ _ => True) init es).getD init

def timeShared : List SchedEvent := [.create [0],.create [0],.start 0 0,.start 1 0,.periodic 5000]

theorem preempting_thread_is_placed :
    (ranTo ⟨1,1000⟩ timeShared).core 1 = some 0 ∧ (ranTo ⟨1,1000⟩ timeShared).occupant 0 = some 1 :=
  ((scheduler_consistent ⟨1,1000⟩ (Run.reaches_guided (by decide) :
    Reachable ⟨1,1000⟩ (ranTo ⟨1,1000⟩ timeShared))).1 0 1).2.mp (by decide)

end SchedulerPinnedBase
