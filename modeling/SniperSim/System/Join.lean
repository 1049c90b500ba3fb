import SniperSim.Library.Run
import SniperSim.System.ThreadManager

inductive JoinCall
  | join (u : ThreadId) (core : CoreId)
  | rejoin (u : ThreadId) (core : CoreId)
  | resched (u : ThreadId)
  | start (u : ThreadId)
  | other
deriving DecidableEq, Repr

inductive JoinFault
  | multipleJoin | multipleWait | nullCore | notRunning | invalidThread | disabled
deriving DecidableEq, Repr

structure JoinSystem where
  threads : ThreadManager JoinCall
  core : ThreadId → Option CoreId
  -- ghost
  joined : List (ThreadId × ThreadId)

inductive JoinLabel
  | create (core : Option CoreId)
  | start (t : ThreadId) (time : SubsecondTime)
  | exit (t : ThreadId) (time : SubsecondTime)
  | join (t u : ThreadId)
  | waitForStart (t u : ThreadId)
  | stall (t : ThreadId) (reason : StallType)
  | stallAsync (t : ThreadId) (reason : StallType)
  | resume (t : ThreadId) (time : SubsecondTime) (msg : Bool)
  | resumeAsync (t : ThreadId)
  | setCore (t : ThreadId) (core : Option CoreId)
  | settle (t : ThreadId)
  | ret (t : ThreadId)
deriving DecidableEq, Repr

namespace JoinSystem

def init : JoinSystem := ⟨.init JoinCall,fun _ => none,[]⟩

variable (s : JoinSystem)

def setWaiter (u : ThreadId) (w : Option ThreadId) : JoinSystem :=
  { s with threads := s.threads.modify u fun th => { th with waiter := w } }

def setCore (t : ThreadId) (core : Option CoreId) : JoinSystem :=
  { s with core := Function.update s.core t core }

def createThread (core : Option CoreId) : JoinSystem :=
  { s with
    threads := s.threads.createThread
    core := Function.update s.core s.threads.numThreads core }

def signalWaiter (t : ThreadId) (time : SubsecondTime) : JoinSystem :=
  match (s.threads.thread t).waiter with
  | none => s
  | some w => { s with threads := s.threads.modify w (·.signal time false) }.setWaiter t none

def onThreadStart (t : ThreadId) (time : SubsecondTime) : JoinSystem :=
  { s with threads := s.threads.onThreadStart t (s.core t).isSome }.signalWaiter t time

def wakeUpWaiter (t : ThreadId) (time : SubsecondTime) : JoinSystem :=
  match (s.threads.thread t).waiter with
  | none => s
  | some w => { s with threads := s.threads.resumeThread w time false }.setWaiter t none

def onThreadExit (t : ThreadId) (time : SubsecondTime) : Except JoinFault JoinSystem :=
  if s.core t = none then .error .nullCore
  else if (s.threads.thread t).status = .running then
    .ok (({ s with threads := s.threads.modify t fun th => { th with status := .idle }
      }.wakeUpWaiter t time).setCore t none)
  else .error .notRunning

def record (t u : ThreadId) : JoinSystem := { s with joined := s.joined ++ [(t,u)] }

def joinThread (t u : ThreadId) : Except JoinFault JoinSystem :=
  if (s.threads.thread u).status = .idle then .ok (s.record t u)
  else
    match s.core t with
    | none => .error .nullCore
    | some c =>
      if (s.threads.thread u).waiter = none then
        let s := s.setWaiter u (some t)
        .ok { s with threads := s.threads.stallThread t .join (.join u c) }
      else .error .multipleJoin

def waitForThreadStart (t u : ThreadId) : Except JoinFault JoinSystem :=
  if (s.threads.thread u).status = .initializing then
    if (s.threads.thread u).waiter = none then
      let s := s.setWaiter u (some t)
      .ok { s with threads := s.threads.wait t (.start u) }
    else .error .multipleWait
  else .ok s

def reschedule (t u : ThreadId) : JoinSystem :=
  if s.core t = none then { s with threads := s.threads.stallThread t .unscheduled (.resched u) }
  else { s.record t u with threads := s.threads.leave t }

def finish (t : ThreadId) : JoinCall → JoinSystem
  | .join u c =>
    { s with threads :=
      { s.threads.modify t (fun th => { th with control := .signalled (.rejoin u c) }) with
        lock := none } }
  | .rejoin u _ | .resched u => s.reschedule t u
  | .start _ | .other => { s with threads := s.threads.leave t }

def Present (t : ThreadId) : Prop :=
  t < s.threads.numThreads ∧ (s.threads.thread t).control = .user ∧
    ((s.threads.thread t).status = .running ∨ (s.threads.thread t).status = .stalled)

instance decidablePresent (s : JoinSystem) (t : ThreadId) : Decidable (s.Present t) :=
  inferInstanceAs (Decidable (_ ∧ _ ∧ _))

def step : JoinLabel → Except JoinFault JoinSystem
  | .create core => if s.threads.lock = none then .ok (s.createThread core) else .error .disabled
  | .start t time =>
    if t < s.threads.numThreads ∧ (s.threads.thread t).status = .initializing ∧
        s.threads.lock = none then .ok (s.onThreadStart t time)
    else .error .disabled
  | .exit t time =>
    if s.Present t ∧ s.threads.lock = none then s.onThreadExit t time else .error .disabled
  | .join t u =>
    if s.Present t ∧ s.threads.lock = none then
      if u < s.threads.numThreads then s.joinThread t u else .error .invalidThread
    else .error .disabled
  | .waitForStart t u =>
    if s.Present t ∧ s.threads.lock = none then
      if u < s.threads.numThreads then s.waitForThreadStart t u else .error .invalidThread
    else .error .disabled
  | .stall t reason =>
    if s.Present t ∧ s.threads.lock = none then
      .ok { s with threads := s.threads.stallThread t reason .other }
    else .error .disabled
  | .stallAsync t reason => .ok { s with threads := s.threads.stallThreadAsync t reason }
  | .resume t time msg => .ok { s with threads := s.threads.resumeThread t time msg }
  | .resumeAsync t => .ok { s with threads := s.threads.resumeThreadAsync t }
  | .setCore t core => .ok (s.setCore t core)
  | .settle t =>
    match (s.threads.thread t).control with
    | .stalling k =>
      if s.threads.anyThreadRunning then
        if s.threads.isThreadRunning t then .ok (s.finish t k)
        else .ok { s with threads := s.threads.wait t k }
      else .error .disabled
    | _ => .error .disabled
  | .ret t =>
    match (s.threads.thread t).control with
    | .signalled (.rejoin u c) =>
      if s.core t = some c then
        .ok { s.record t u with threads := s.threads.modify t fun th => { th with control := .user } }
      else if s.threads.lock = none then .ok (s.reschedule t u)
      else .error .disabled
    | .signalled k => if s.threads.lock = none then .ok (s.finish t k) else .error .disabled
    | _ => .error .disabled

end JoinSystem
