import Mathlib.Tactic.Common

open Option

abbrev SubsecondTime := BitVec 64

namespace SubsecondTime

def zero : SubsecondTime := 0

def maxTime : SubsecondTime := BitVec.allOnes 64

def ps (n : BitVec 64) : SubsecondTime := n * 1000

def ns (n : BitVec 64) : SubsecondTime := n * 1000000

def sec (n : BitVec 64) : SubsecondTime := n * 1000000000000000

end SubsecondTime

abbrev ThreadId := Nat

abbrev CoreId := Nat

inductive CoreState
  | running | initializing | stalled | sleeping | wakingUp | idle | broken
deriving DecidableEq, Repr

inductive StallType
  | unscheduled | broken | join | mutex | cond | barrier | futex | pause | sleep | syscall
deriving DecidableEq, Repr

inductive Control (κ : Type)
  | user
  | stalling (call : κ)
  | waiting (call : κ)
  | signalled (call : κ)
deriving DecidableEq, Repr

namespace Control
variable {κ : Type}

def signal : Control κ → Control κ
  | .waiting k => .signalled k
  | c => c

def pending : Control κ → Option κ
  | .user => none
  | .stalling k | .waiting k | .signalled k => some k

@[simp] theorem pending_signal (c : Control κ) : c.signal.pending = c.pending := by
  cases c <;> rfl

end Control

structure Thread (κ : Type) where
  status : CoreState
  stalledReason : StallType
  waiter : Option ThreadId
  wakeupTime : SubsecondTime
  wakeupMsg : Bool
  control : Control κ
deriving DecidableEq, Repr

namespace Thread
variable {κ : Type}

def created : Thread κ := ⟨.initializing,.unscheduled,none,0,false,.user⟩

def signal (th : Thread κ) (time : SubsecondTime) (msg : Bool) : Thread κ :=
  { th with wakeupTime := time, wakeupMsg := msg, control := th.control.signal }

def StalledFor (th : Thread κ) (r : StallType) : Prop := th.status = .stalled ∧ th.stalledReason = r

instance (th : Thread κ) (r : StallType) : Decidable (th.StalledFor r) := inferInstanceAs (Decidable (_ ∧ _))

def Callable (th : Thread κ) : Prop := th.status = .running ∧ th.control = .user

instance [DecidableEq κ] (th : Thread κ) : Decidable th.Callable := inferInstanceAs (Decidable (_ ∧ _))

theorem Callable.not_stalledFor {th : Thread κ} (h : th.Callable) (r : StallType) : ¬ th.StalledFor r := by
  rintro ⟨hs,-⟩
  rw [h.1] at hs
  cases hs

theorem StalledFor.unique {th : Thread κ} {r r' : StallType} (h : th.StalledFor r)
    (h' : th.StalledFor r') : r = r' := h.2.symm.trans h'.2

end Thread

structure ThreadManager (κ : Type) where
  thread : ThreadId → Thread κ
  numThreads : Nat
  lock : Option ThreadId

namespace ThreadManager
variable {κ : Type} {m : ThreadManager κ} {t : ThreadId}

def modify (m : ThreadManager κ) (t : ThreadId) (f : Thread κ → Thread κ) : ThreadManager κ :=
  { m with thread := Function.update m.thread t (f (m.thread t)) }

@[simp] theorem modify_self (f : Thread κ → Thread κ) : (m.modify t f).thread t = f (m.thread t) :=
  Function.update_self ..

@[simp] theorem modify_of_ne (f : Thread κ → Thread κ) (h : u ≠ t) :
    (m.modify t f).thread u = m.thread u := Function.update_of_ne h ..

def init (κ : Type) : ThreadManager κ := ⟨fun _ => .created,0,none⟩

def stallThreadAsync (m : ThreadManager κ) (t : ThreadId) (reason : StallType) : ThreadManager κ :=
  m.modify t fun th => { th with status := .stalled, stalledReason := reason }

def stallThread (m : ThreadManager κ) (t : ThreadId) (reason : StallType) (call : κ) : ThreadManager κ :=
  { (m.stallThreadAsync t reason).modify t (fun th => { th with control := .stalling call }) with
    lock := some t }

def resumeThreadAsync (m : ThreadManager κ) (t : ThreadId) : ThreadManager κ :=
  m.modify t fun th => { th with status := .running }

def resumeThread (m : ThreadManager κ) (t : ThreadId) (time : SubsecondTime) (msg : Bool) : ThreadManager κ :=
  (m.modify t (·.signal time msg)).resumeThreadAsync t

def isThreadRunning (m : ThreadManager κ) (t : ThreadId) : Bool := (m.thread t).status == .running

def isThreadInitializing (m : ThreadManager κ) (t : ThreadId) : Bool := (m.thread t).status == .initializing

def anyThreadRunning (m : ThreadManager κ) : Bool :=
  (List.range m.numThreads).any fun t => m.isThreadRunning t || m.isThreadInitializing t

def wait (m : ThreadManager κ) (t : ThreadId) (call : κ) : ThreadManager κ :=
  { m.modify t (fun th => { th with wakeupMsg := false, control := .waiting call }) with lock := none }

def leave (m : ThreadManager κ) (t : ThreadId) : ThreadManager κ :=
  { m.modify t (fun th => { th with control := .user }) with lock := none }

section
variable {r : StallType} {k : κ} {time : SubsecondTime} {msg : Bool}

@[simp] theorem stallThreadAsync_self : (m.stallThreadAsync t r).thread t =
    { m.thread t with status := .stalled, stalledReason := r } := modify_self _

@[simp] theorem stallThreadAsync_of_ne (h : u ≠ t) : (m.stallThreadAsync t r).thread u = m.thread u := modify_of_ne _ h

@[simp] theorem stallThread_self : (m.stallThread t r k).thread t =
    { m.thread t with status := .stalled, stalledReason := r, control := .stalling k } := by
  simp [stallThread]

@[simp] theorem stallThread_of_ne (h : u ≠ t) : (m.stallThread t r k).thread u = m.thread u := by
  simp [stallThread,h]

@[simp] theorem resumeThreadAsync_self :
    (m.resumeThreadAsync t).thread t = { m.thread t with status := .running } := modify_self _

@[simp] theorem resumeThreadAsync_of_ne (h : u ≠ t) : (m.resumeThreadAsync t).thread u = m.thread u := modify_of_ne _ h

@[simp] theorem resumeThread_self : (m.resumeThread t time msg).thread t =
    { (m.thread t).signal time msg with status := .running } := by
  simp [resumeThread]

@[simp] theorem resumeThread_of_ne (h : u ≠ t) : (m.resumeThread t time msg).thread u = m.thread u := by
  simp [resumeThread,h]

@[simp] theorem wait_self : (m.wait t k).thread t = { m.thread t with wakeupMsg := false, control := .waiting k } := by
  simp [wait]

@[simp] theorem wait_of_ne (h : u ≠ t) : (m.wait t k).thread u = m.thread u := by
  simp [wait,h]

@[simp] theorem leave_self : (m.leave t).thread t = { m.thread t with control := .user } := by
  simp [leave]

@[simp] theorem leave_of_ne (h : u ≠ t) : (m.leave t).thread u = m.thread u := by
  simp [leave,h]

theorem stalledFor_stallThread {r' : StallType} (hc : (m.thread t).Callable) :
    ((m.stallThread t r k).thread u).StalledFor r' ↔ (m.thread u).StalledFor r' ∨ u = t ∧ r' = r := by
  rcases eq_or_ne u t with rfl | hu
  · rw [stallThread_self]
    constructor
    · rintro ⟨-,hr⟩
      exact .inr ⟨rfl,hr.symm⟩
    · rintro (hs | ⟨-,rfl⟩)
      · exact (hc.not_stalledFor _ hs).elim
      · exact ⟨rfl,rfl⟩
  · simp [hu]

theorem stalledFor_resumeThread :
    ((m.resumeThread t time msg).thread u).StalledFor r' ↔ (m.thread u).StalledFor r' ∧ u ≠ t := by
  rcases eq_or_ne u t with rfl | hu
  · rw [resumeThread_self]
    constructor
    · rintro ⟨hs,-⟩
      cases hs
    · rintro ⟨-,hne⟩
      exact (hne rfl).elim
  · simp [hu]
end

def createThread (m : ThreadManager κ) : ThreadManager κ := { m with numThreads := m.numThreads + 1 }

inductive EnvLabel
  | stall (t : ThreadId) (reason : StallType)
  | resume (t : ThreadId) (time : SubsecondTime) (msg : Bool)
  | stallAsync (t : ThreadId) (reason : StallType)
  | resumeAsync (t : ThreadId)
  | waitForStart (t : ThreadId)
  | signalStart (t : ThreadId) (time : SubsecondTime)
  | create
  | start (t : ThreadId) (scheduled : Bool)
deriving DecidableEq, Repr

variable {th : Thread κ}
section
variable [DecidableEq κ]

def onThreadStart (m : ThreadManager κ) (t : ThreadId) (scheduled : Bool) : ThreadManager κ :=
  if scheduled then m.resumeThreadAsync t else m.stallThreadAsync t .unscheduled

def envStep (own : StallType → Bool) (other : κ) (m : ThreadManager κ) : EnvLabel → Option (ThreadManager κ)
  | .stall t r =>
    if (m.thread t).Callable ∧ m.lock = none ∧ own r = false then some (m.stallThread t r other)
    else none
  | .resume t time msg =>
    if (m.thread t).status = .stalled ∧ own (m.thread t).stalledReason = false then
      some (m.resumeThread t time msg)
    else none
  | .stallAsync t r =>
    if (m.thread t).Callable ∧ m.lock = none ∧ own r = false then some (m.stallThreadAsync t r)
    else none
  | .resumeAsync t =>
    if (m.thread t).status = .stalled ∧ own (m.thread t).stalledReason = false then
      some (m.resumeThreadAsync t)
    else none
  | .waitForStart t =>
    if (m.thread t).Callable ∧ m.lock = none then some (m.wait t other) else none
  | .signalStart t time =>
    if (m.thread t).control = .waiting other then some (m.modify t (·.signal time false)) else none
  | .create => some m.createThread
  | .start t scheduled =>
    if (m.thread t).status = .initializing ∧ t < m.numThreads ∧ m.lock = none then
      some (m.onThreadStart t scheduled)
    else none

structure Engaged (own : StallType → Bool) (other : κ) (th : Thread κ) : Prop where
  inside : ∃ k, th.control.pending = some k ∧ k ≠ other
  active : th.status = .running ∨ th.status = .stalled ∧ own th.stalledReason

structure Free (own : StallType → Bool) (other : κ) (th : Thread κ) : Prop where
  outside : ∀ k, th.control.pending = some k → k = other
  notStalled : th.status = .stalled → own th.stalledReason = false

variable {own : StallType → Bool} {other : κ} {m' : ThreadManager κ} {e : EnvLabel}

omit [DecidableEq κ] in
theorem Free.of_callable (h : th.Callable) : Free own other th :=
  ⟨fun k hk => by simp [h.2,Control.pending] at hk,fun hs => by simp [h.1] at hs⟩

omit [DecidableEq κ] in
theorem Engaged.not_callable (h : Engaged own other th) : ¬ th.Callable := by
  rintro ⟨-,hc⟩
  obtain ⟨k,hk,-⟩ := h.inside
  rw [hc] at hk
  cases hk

omit [DecidableEq κ] in
theorem Engaged.stalled_own (h : Engaged own other th) (hs : th.status = .stalled) : own th.stalledReason := by
  rcases h.active with hr | ⟨-,ho⟩
  · rw [hs] at hr
    cases hr
  · exact ho

variable (hu : own .unscheduled = false) (h : envStep own other m e = some m')
include hu h

theorem envStep_moves :
    m'.thread = m.thread ∨ ∃ u, (∀ t, t ≠ u → m'.thread t = m.thread t) ∧ ¬ Engaged own other (m.thread u) ∧
      (Free own other (m.thread u) → Free own other (m'.thread u)) := by
  cases e <;> simp only [envStep,ite_none_right_eq_some,some.injEq] at h
  case create =>
    obtain rfl := h
    exact .inl rfl
  all_goals
    obtain ⟨hg,rfl⟩ := h
    right
  case stall u r =>
    refine ⟨u,fun _ => stallThread_of_ne,fun he => he.not_callable hg.1,fun _ => ?_⟩
    rw [stallThread_self]
    exact ⟨fun k hk => (some.inj hk).symm,fun _ => hg.2.2⟩
  case resume u time msg =>
    refine ⟨u,fun _ => resumeThread_of_ne,fun he => by simp [he.stalled_own hg.1] at hg,fun hf => ?_⟩
    rw [resumeThread_self]
    exact ⟨fun k hk => hf.outside k (by simpa [Thread.signal] using hk),fun hs => by cases hs⟩
  case stallAsync u r =>
    refine ⟨u,fun _ => stallThreadAsync_of_ne,fun he => he.not_callable hg.1,fun hf => ?_⟩
    rw [stallThreadAsync_self]
    exact ⟨hf.outside,fun _ => hg.2.2⟩
  case resumeAsync u =>
    refine ⟨u,fun _ => resumeThreadAsync_of_ne,fun he => by simp [he.stalled_own hg.1] at hg,fun hf => ?_⟩
    rw [resumeThreadAsync_self]
    exact ⟨hf.outside,fun hs => by cases hs⟩
  case waitForStart u =>
    refine ⟨u,fun _ => wait_of_ne,fun he => he.not_callable hg.1,fun hf => ?_⟩
    rw [wait_self]
    exact ⟨fun k hk => (some.inj hk).symm,hf.notStalled⟩
  case signalStart u time =>
    refine ⟨u,fun _ => modify_of_ne _,?_,fun hf => ?_⟩
    · rintro ⟨⟨k,hk,hne⟩,-⟩
      rw [hg] at hk
      exact hne (some.inj hk).symm
    · rw [modify_self]
      exact ⟨fun k hk => hf.outside k (by simpa [Thread.signal] using hk),hf.notStalled⟩
  case start u scheduled =>
    have hin : ¬ Engaged own other (m.thread u) := by
      rintro ⟨-,hr | hr⟩ <;> simp [hg.1] at hr
    cases scheduled with
    | true =>
      refine ⟨u,fun _ => resumeThreadAsync_of_ne,hin,fun hf => ?_⟩
      rw [onThreadStart,if_pos rfl,resumeThreadAsync_self]
      exact ⟨hf.outside,fun hs => by cases hs⟩
    | false =>
      refine ⟨u,fun _ => stallThreadAsync_of_ne,hin,fun hf => ?_⟩
      rw [onThreadStart,if_neg (by simp),stallThreadAsync_self]
      exact ⟨hf.outside,fun _ => hu⟩

theorem envStep_engaged (hin : Engaged own other (m.thread t)) : m'.thread t = m.thread t := by
  rcases envStep_moves hu h with he | ⟨u,hne,hout,-⟩
  · rw [he]
  · refine hne t ?_
    rintro rfl
    exact hout hin

theorem envStep_free (hf : Free own other (m.thread t)) : Free own other (m'.thread t) := by
  rcases envStep_moves hu h with he | ⟨u,hne,-,hfree⟩
  · rwa [he]
  · rcases eq_or_ne t u with rfl | htu <;> simp [*]
end
end ThreadManager
