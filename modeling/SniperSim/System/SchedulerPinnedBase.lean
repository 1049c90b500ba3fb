import SniperSim.Library.Run
import SniperSim.System.ThreadManager

open Function List

structure ThreadInfo where
  (hasAffinity explicitAffinity : Bool)
  affinity : CoreId → Bool
  coreRunning : Option CoreId
  (lastScheduledIn lastScheduledOut : SubsecondTime)

namespace ThreadInfo

def empty : ThreadInfo := ⟨false,false,fun _ => false,none,0,0⟩

def setAffinity (i : ThreadInfo) (cores : List CoreId) : ThreadInfo :=
  { i with hasAffinity := i.hasAffinity || !cores.isEmpty, affinity := cores.contains }

def addAffinity (i : ThreadInfo) (cores : List CoreId) : ThreadInfo :=
  { i with
    hasAffinity := i.hasAffinity || !cores.isEmpty
    affinity := fun c => cores.contains c || i.affinity c }

def getPS (time : SubsecondTime) : BitVec 64 := time / 1000

def score (i : ThreadInfo) (time : SubsecondTime) : BitVec 64 :=
  if i.coreRunning.isSome then getPS i.lastScheduledIn - getPS time
  else getPS time - getPS i.lastScheduledOut

def eligible (i : ThreadInfo) (runnable : Bool) (c : CoreId) : Bool :=
  i.affinity c && runnable && (i.coreRunning.isNone || i.coreRunning == some c)

end ThreadInfo

structure SchedConfig where
  numCores : Nat
  quantum : SubsecondTime
deriving DecidableEq, Repr

inductive SchedFault
  | outOfRange | invalidThread | invalidCore
  | occupied | noCore | notRunning | unfinished
deriving DecidableEq, Repr

structure SchedulerPinnedBase where
  info : List ThreadInfo
  running : CoreId → Option ThreadId
  quantumLeft : CoreId → SubsecondTime
  lastPeriodic : SubsecondTime
  runnable : List Bool
  threads : ThreadManager Unit
  core : ThreadId → Option CoreId
  occupant : CoreId → Option ThreadId
  coreState : CoreId → CoreState

namespace SchedulerPinnedBase

abbrev Result := Except SchedFault SchedulerPinnedBase

abbrev Resume := SchedulerPinnedBase → ThreadId → SubsecondTime → Result

abbrev Reschedule := SchedulerPinnedBase → CoreId → SubsecondTime → Result

variable (cfg : SchedConfig)

def init : SchedulerPinnedBase :=
  ⟨[],fun _ => none,fun _ => 0,0,replicate 16 false,.init Unit,fun _ => none,fun _ => none,fun _ => .idle⟩

variable (s : SchedulerPinnedBase)

def threadInfo (t : ThreadId) : Except SchedFault ThreadInfo :=
  match s.info[t]? with
  | some i => .ok i
  | none => .error .outOfRange

def setInfo (t : ThreadId) (i : ThreadInfo) : SchedulerPinnedBase :=
  { s with info := s.info.set t i }

def setRunning (c : CoreId) (t : Option ThreadId) : SchedulerPinnedBase :=
  { s with running := update s.running c t }

def setQuantum (c : CoreId) (left : SubsecondTime) : SchedulerPinnedBase :=
  { s with quantumLeft := update s.quantumLeft c left }

def setCoreState (c : CoreId) (state : CoreState) : SchedulerPinnedBase :=
  { s with coreState := update s.coreState c state }

def setThreads (m : ThreadManager Unit) : SchedulerPinnedBase :=
  { s with threads := m }

def setRunnable (t : ThreadId) (b : Bool) : Result :=
  if t < s.runnable.length then .ok { s with runnable := s.runnable.set t b } else .error .outOfRange

def checkThread (t : ThreadId) : Except SchedFault Unit :=
  if t < s.threads.numThreads then .ok () else .error .invalidThread

def findFreeCoreForThread (t : ThreadId) : Except SchedFault (Option CoreId) := do
  let i ← s.threadInfo t
  pure ((range cfg.numCores).find? fun c => i.affinity c && (s.running c).isNone)

def leaveCore (t : ThreadId) : SchedulerPinnedBase :=
  match s.core t with
  | none => s
  | some c => { s with occupant := update s.occupant c none }

def setCore (t : ThreadId) (dest : Option CoreId) : Result :=
  match dest with
  | none => .ok { s.leaveCore t with core := update s.core t none }
  | some c =>
    if (s.leaveCore t).occupant c = none then
      .ok { s.leaveCore t with
        core := update s.core t (some c)
        occupant := update (s.leaveCore t).occupant c (some t) }
    else .error .occupied

section
variable (resume : Resume) (resched : Reschedule) (s : SchedulerPinnedBase)

def idleCore (t : ThreadId) : SchedulerPinnedBase :=
  match s.core t with
  | none => s
  | some c => s.setCoreState c .idle

def wakeMoved (t : ThreadId) (time : SubsecondTime) : Result :=
  if s.core t = none ∧ (s.threads.thread t).StalledFor .unscheduled then resume s t time else .ok s

def enterCore (t : ThreadId) (c : CoreId) : Result := do
  let s ← s.setCore t (some c)
  pure (if (s.threads.thread t).status = .stalled then s else s.setCoreState c .running)

def moveThread (t : ThreadId) (dest : Option CoreId) (time : SubsecondTime) : Result := do
  s.checkThread t
  match dest with
  | none => (s.idleCore t).setCore t none
  | some c => do
    let s ← wakeMoved resume (s.idleCore t) t time
    s.enterCore t c

def scheduleOn (free : Option CoreId) (time : SubsecondTime) : Result :=
  match free with
  | none => .ok s
  | some c => resched s c time

def threadResume (t : ThreadId) (time : SubsecondTime) : Result := do
  let s ← s.setRunnable t true
  let free ← findFreeCoreForThread cfg s t
  scheduleOn resched s free time

def resumeThread (t : ThreadId) (time : SubsecondTime) : Result := do
  s.checkThread t
  threadResume cfg resched (s.setThreads (s.threads.resumeThread t time false)) t time

def unschedule (t : ThreadId) (c : CoreId) (time : SubsecondTime) : Result := do
  let i ← s.threadInfo t
  moveThread resume (s.setInfo t { i with
    coreRunning := none
    lastScheduledOut := time + SubsecondTime.ps (BitVec.ofNat 64 c) }) t none time

def leaveOld (i : ThreadInfo) : SchedulerPinnedBase :=
  match i.coreRunning with
  | none => s
  | some d => s.setRunning d none

def schedule (t : ThreadId) (c : CoreId) (time : SubsecondTime) : Result := do
  let i ← s.threadInfo t
  moveThread resume ((s.leaveOld i).setInfo t { i with
    coreRunning := some c
    lastScheduledIn := time }) t (some c) time

def unscheduleCurrent (c : CoreId) (time : SubsecondTime) : Result :=
  match s.running c with
  | none => .ok s
  | some t => unschedule resume s t c time

def scheduleNew (new : Option ThreadId) (c : CoreId) (time : SubsecondTime) : Result :=
  match new with
  | none => .ok s
  | some t => schedule resume s t c time

def switchThread (c : CoreId) (new : Option ThreadId) (time : SubsecondTime) : Result := do
  let s ← unscheduleCurrent resume s c time
  scheduleNew resume (s.setRunning c new) new c time
end

abbrev Choice := Option ThreadId × BitVec 64

def consider (c : CoreId) (time : SubsecondTime) (best : Choice) (t : ThreadId) : Except SchedFault Choice := do
  let i ← s.threadInfo t
  pure (if i.eligible (s.runnable.getD t false) c ∧ best.2.slt (i.score time) then
    (some t,i.score time)
  else best)

def pickThread (c : CoreId) (time : SubsecondTime) : Except SchedFault Choice :=
  (range s.runnable.length).foldlM (consider s c time) (none,BitVec.intMin 64)

def isStarting (c : CoreId) : Bool := (s.running c).any fun t => (s.threads.thread t).status == .initializing

def switchIfNew (resume : Resume) (s : SchedulerPinnedBase) (c : CoreId)
    (new : Option ThreadId) (time : SubsecondTime) : Result :=
  if s.running c = new then .ok s else switchThread resume s c new time

def rescheduleNested : Nat → Reschedule
  | 0, _, _, _ => .error .unfinished
  | fuel + 1, s, c, time =>
    if s.isStarting c then .ok s
    else do
      let best ← s.pickThread c time
      let s ← switchIfNew (resumeThread cfg (rescheduleNested fuel)) s c best.1 time
      pure (s.setQuantum c cfg.quantum)

def reschedule (c : CoreId) (time : SubsecondTime) : Result := rescheduleNested cfg (cfg.numCores + 1) s c time

def growInfo (size : Nat) : SchedulerPinnedBase :=
  { s with info := s.info ++ replicate (size - s.info.length) .empty }

def initAffinity (t : ThreadId) (initial : List CoreId) : Result := do
  let i ← s.threadInfo t
  pure (if i.hasAffinity then s else s.setInfo t (i.setAffinity initial))

def assignCore (t : ThreadId) (free : Option CoreId) : Result := do
  let i ← s.threadInfo t
  pure (match free with
    | none => s.setInfo t { i with coreRunning := none }
    | some c => ((s.setInfo t { i with coreRunning := some c }).setRunning c (some t)).setQuantum c cfg.quantum)

def startOn (t : ThreadId) (free : Option CoreId) : Result :=
  match free with
  | none => .ok s
  | some c => do
    let s ← s.setCore t (some c)
    pure (s.setCoreState c .initializing)

def registerThread : SchedulerPinnedBase :=
  if s.info.length ≤ s.threads.numThreads then
    (s.setThreads s.threads.createThread).growInfo (s.info.length + 16)
  else s.setThreads s.threads.createThread

def createThread (initial : List CoreId) : Result := do
  let s1 ← s.registerThread.initAffinity s.threads.numThreads initial
  let free ← findFreeCoreForThread cfg s1 s.threads.numThreads
  let s2 ← assignCore cfg s1 s.threads.numThreads free
  s2.startOn s.threads.numThreads free

def growRunnable (t : ThreadId) : SchedulerPinnedBase :=
  if s.runnable.length ≤ t then { s with runnable := s.runnable ++ replicate 16 false } else s

def settleStart (t : ThreadId) : SchedulerPinnedBase :=
  match s.core t with
  | some c => (s.setCoreState c .running).setThreads (s.threads.resumeThreadAsync t)
  | none => s.setThreads (s.threads.stallThreadAsync t .unscheduled)

def onThreadStart (t : ThreadId) (time : SubsecondTime) : Result := do
  s.checkThread t
  let s ← threadResume cfg (reschedule cfg) ((s.setThreads (s.threads.resumeThreadAsync t)).growRunnable t) t time
  pure (s.settleStart t)

def rescheduleThread (t : ThreadId) (time : SubsecondTime) : Result := do
  let s ← s.setRunnable t false
  let i ← s.threadInfo t
  scheduleOn (reschedule cfg) s i.coreRunning time

def stallThread (t : ThreadId) (reason : StallType) (time : SubsecondTime) : Result := do
  s.checkThread t
  if reason = .unscheduled then pure (s.setThreads (s.threads.stallThreadAsync t reason))
  else rescheduleThread cfg (s.setThreads (s.threads.stallThreadAsync t reason)) t time

def moveToFree (t : ThreadId) (time : SubsecondTime) : Result := do
  let free ← findFreeCoreForThread cfg s t
  scheduleOn (reschedule cfg) s free time

def yieldCore (t : ThreadId) (c : CoreId) (time : SubsecondTime) : Result := do
  let s ← reschedule cfg (s.setQuantum c 0) c time
  let i ← s.threadInfo t
  if i.affinity c then pure s else moveToFree cfg s t time

def threadYield (t : ThreadId) (time : SubsecondTime) : Result := do
  let i ← s.threadInfo t
  match i.coreRunning with
  | none => pure s
  | some c => yieldCore cfg s t c time

def checkMask (mask : Option (List CoreId)) : Except SchedFault Unit :=
  match mask with
  | none => .ok ()
  | some cpus => if cpus.all (· < cfg.numCores) then .ok () else .error .invalidCore

def maskAffinity (i : ThreadInfo) (mask : Option (List CoreId)) : ThreadInfo :=
  match mask with
  | none => { i with explicitAffinity := true }.addAffinity (range cfg.numCores)
  | some cpus => { i with explicitAffinity := true }.setAffinity cpus

def isRunnable (t : ThreadId) : Except SchedFault Bool :=
  match s.runnable[t]? with
  | some b => .ok b
  | none => .error .outOfRange

def applyAffinity (t : ThreadId) (i : ThreadInfo) (time : SubsecondTime) : Result :=
  match i.coreRunning with
  | some c => if i.affinity c then (s.isRunnable t).map fun _ => s else .ok (s.setQuantum c 0)
  | none => do
    let runnable ← s.isRunnable t
    if runnable then moveToFree cfg s t time else pure s

def makeRoom (t : ThreadId) : SchedulerPinnedBase :=
  if s.info.length ≤ t then s.growInfo (t + 16) else s

def settleAffinity (caller : Option ThreadId) (t : ThreadId) (i : ThreadInfo) (time : SubsecondTime) : Result :=
  if s.threads.numThreads ≤ t then .ok s
  else if caller = some t then threadYield cfg s t time
  else applyAffinity cfg s t i time

def threadSetAffinity (caller : Option ThreadId) (t : ThreadId)
    (mask : Option (List CoreId)) (time : SubsecondTime) : Result := do
  let i ← (s.makeRoom t).threadInfo t
  checkMask cfg mask
  settleAffinity cfg ((s.makeRoom t).setInfo t (maskAffinity cfg i mask)) caller t (maskAffinity cfg i mask) time

def resumeAll (woken : List ThreadId) (time : SubsecondTime) : Result :=
  woken.foldlM (fun s w => resumeThread cfg (reschedule cfg) s w time) s

def exitCore (t : ThreadId) (c : CoreId) (time : SubsecondTime) (woken : List ThreadId) : Result := do
  let s ← resumeAll cfg (s.setThreads (s.threads.modify t fun th => { th with status := .idle })) woken time
  let s ← (s.setCoreState c .idle).setCore t none
  rescheduleThread cfg s t time

def onThreadExit (t : ThreadId) (time : SubsecondTime) (woken : List ThreadId) : Result := do
  s.checkThread t
  match s.core t with
  | none => .error .noCore
  | some c =>
    if (s.threads.thread t).status = .running then exitCore cfg s t c time woken
    else .error .notRunning

def periodicCore (delta time : SubsecondTime) (s : SchedulerPinnedBase) (c : CoreId) : Result :=
  if s.quantumLeft c < delta ∨ s.running c = none then reschedule cfg s c time
  else .ok (s.setQuantum c (s.quantumLeft c - delta))

def periodic (time : SubsecondTime) : Result := do
  let s ← (range cfg.numCores).foldlM (periodicCore cfg (time - s.lastPeriodic) time) s
  pure { s with lastPeriodic := time }

end SchedulerPinnedBase

inductive SchedEvent
  | create (initial : List CoreId)
  | start (t : ThreadId) (time : SubsecondTime)
  | stall (t : ThreadId) (reason : StallType) (time : SubsecondTime)
  | resume (t : ThreadId) (time : SubsecondTime)
  | yield (t : ThreadId) (time : SubsecondTime)
  | setAffinity (caller : Option ThreadId) (t : ThreadId) (mask : Option (List CoreId)) (time : SubsecondTime)
  | exit (t : ThreadId) (time : SubsecondTime) (woken : List ThreadId)
  | periodic (time : SubsecondTime)
deriving DecidableEq, Repr

namespace SchedulerPinnedBase

def step (cfg : SchedConfig) (s : SchedulerPinnedBase) : SchedEvent → Result
  | .create initial => createThread cfg s initial
  | .start t time => onThreadStart cfg s t time
  | .stall t reason time => stallThread cfg s t reason time
  | .resume t time => resumeThread cfg (reschedule cfg) s t time
  | .yield t time => threadYield cfg s t time
  | .setAffinity caller t mask time => threadSetAffinity cfg s caller t mask time
  | .exit t time woken => onThreadExit cfg s t time woken
  | .periodic time => periodic cfg s time

end SchedulerPinnedBase
