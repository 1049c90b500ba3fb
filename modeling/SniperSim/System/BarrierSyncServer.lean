import SniperSim.Library.Run
import SniperSim.System.ThreadManager

open Function List

inductive CoreUse
  | running (t : ThreadId)
  | initializing (t : Option ThreadId)
  | stopped (t : Option ThreadId)
deriving DecidableEq, Repr

namespace CoreUse

def thread : CoreUse → Option ThreadId
  | .running t => some t
  | .initializing t | .stopped t => t

def started : CoreUse → Bool
  | .running _ | .initializing _ => true
  | .stopped _ => false

end CoreUse

structure Visit where
  core : CoreId
  thread : ThreadId
  time : SubsecondTime
  excused : Bool
  barrier : Option SubsecondTime
deriving DecidableEq, Repr

inductive EnvAction
  | setCore (c : CoreId) (use : CoreUse)
  | setStatus (t : ThreadId) (status : CoreState)
  | create
deriving DecidableEq, Repr

inductive HookAction
  | env (e : EnvAction)
  | migrate (t : ThreadId)
  | setDisable (b : Bool)
deriving DecidableEq, Repr

structure Round where
  actions : List HookAction
  timeout : Bool
deriving DecidableEq, Repr

inductive BarrierFault
  | notStarted | alreadyInBarrier | nullThread | notRestarted | deadlock | inBarrier | unfinished | disabled
deriving DecidableEq, Repr

structure BarrierConfig where
  (numCores numHostCores : Nat)
  interval : SubsecondTime
deriving DecidableEq, Repr

structure BarrierSyncServer where
  next : SubsecondTime
  clock : CoreId → SubsecondTime
  acquire : CoreId → Bool
  toRelease : List CoreId
  group : CoreId → Option CoreId
  coreThread : CoreId → Option ThreadId
  globalTime : SubsecondTime
  (fastforward disable : Bool)
  cond : CoreId → List Visit
  use : CoreId → CoreUse
  status : List CoreState
  -- ghost
  reported : CoreId → SubsecondTime
  left : List Visit
  passed : List (SubsecondTime × Bool)

namespace BarrierSyncServer
variable (cfg : BarrierConfig)

def init : BarrierSyncServer :=
  ⟨cfg.interval,fun _ => 0,fun _ => false,[],fun _ => none,fun _ => none,0,false,false,fun _ => [],
    fun _ => .stopped none,[],fun _ => 0,[],[]⟩

variable (s : BarrierSyncServer)

def isThreadRunning (t : ThreadId) : Bool := s.status[t]? == some .running

def anyThreadRunning : Bool := s.status.any fun st => st == .running || st == .initializing

def hasRunningThread (c : CoreId) : Bool :=
  match s.use c with
  | .running t => s.isThreadRunning t
  | _ => false

def isCoreRunning (c : CoreId) : Bool :=
  s.hasRunningThread c || (!s.fastforward &&
    (range cfg.numCores).any fun d => s.group d == some c && s.hasRunningThread d)

def masterOf (c : CoreId) : CoreId :=
  if s.fastforward then c else (s.group c).getD c

def signalCore (c : CoreId) (aborted : Bool) : BarrierSyncServer :=
  match s.cond c with
  | [] => s
  | v :: q =>
    { s with
      cond := update s.cond c q
      left := s.left ++ [{ v with excused := v.excused || aborted }] }

def doRelease : Nat → BarrierSyncServer → BarrierSyncServer
  | 0, s => s
  | n + 1, s =>
    match s.toRelease.getLast? with
    | none => s
    | some c => doRelease n ({ s with toRelease := s.toRelease.dropLast }.signalCore c false)

def resetClock (t : ThreadId) : BarrierSyncServer :=
  { s with
    clock := fun c => if c < cfg.numCores ∧ s.acquire c ∧ s.coreThread c = some t then 0 else s.clock c
    cond := fun c => (s.cond c).map fun v => { v with excused := v.excused || v.thread == t } }

def releaseThread (t : ThreadId) : BarrierSyncServer :=
  doRelease 1 (resetClock cfg s t)

def abortCore (c : CoreId) : BarrierSyncServer :=
  if s.acquire c then
    { s with acquire := update s.acquire c false }.signalCore c true
  else s

def abortBarrier : BarrierSyncServer := (range cfg.numCores).foldl abortCore s

def setDisable (b : Bool) : BarrierSyncServer :=
  if b then abortBarrier cfg { s with disable := b } else { s with disable := b }

def envAction : EnvAction → BarrierSyncServer
  | .setCore c use => { s with use := update s.use c use }
  | .setStatus t status => { s with status := s.status.set t status }
  | .create => { s with status := s.status ++ [.initializing] }

def hookAction : HookAction → BarrierSyncServer
  | .env e => s.envAction e
  | .migrate t => releaseThread cfg s t
  | .setDisable b => setDisable cfg s b

def callHooks (actions : List HookAction) : BarrierSyncServer := actions.foldl (hookAction cfg) s

def isBarrierReached : Bool :=
  if s.fastforward then
    (range cfg.numCores).all (fun c => s.acquire c || !isCoreRunning cfg s c) && (range cfg.numCores).any s.acquire
  else
    (range cfg.numCores).all (fun c => (s.group c).isSome || !isCoreRunning cfg s c ||
      !decide (s.clock c < s.next)) &&
      (range cfg.numCores).any fun c => (s.group c).isNone && isCoreRunning cfg s c

def allReported : Bool :=
  (range cfg.numCores).all fun c => (s.group c).isSome || !isCoreRunning cfg s c || decide (s.next ≤ s.reported c)

def advanceNext : BarrierSyncServer :=
  { s with
    next := s.next + cfg.interval
    passed := s.passed ++ [(s.next,allReported cfg s)] }

def stamp (c : CoreId) : List Visit :=
  match (s.cond c).getLast? with
  | none => []
  | some v => (s.cond c).dropLast ++ [{ v with barrier := some s.next }]

abbrev Staging := BarrierSyncServer × Bool × Bool

def stageCore (caller : Option ThreadId) (r : Staging) (c : CoreId) : Staging :=
  if r.1.clock c < r.1.next ∧ r.1.acquire c then
    let s := { r.1 with acquire := update r.1.acquire c false }
    if r.1.coreThread c = caller then (s,true,false)
    else ({ s with
      toRelease := s.toRelease ++ [c]
      cond := update s.cond c (s.stamp c) },true,r.2.2)
  else r

def stage (caller : Option ThreadId) (s : BarrierSyncServer) : Staging :=
  (range cfg.numCores).foldl (stageCore caller) (s,false,true)

def releaseLoop (caller : Option ThreadId) (continueUntilRelease : Bool) :
    List Round → BarrierSyncServer → Except BarrierFault (BarrierSyncServer × Option Bool)
  | [], _ => .error .unfinished
  | r :: rs, s =>
    let s := callHooks cfg { s with globalTime := s.next } r.actions
    if continueUntilRelease ∧ s.anyThreadRunning then .ok (s,none)
    else if continueUntilRelease ∧ r.timeout = false then .error .deadlock
    else if s.disable then .ok (s,none)
    else
      let r := stage cfg caller (advanceNext cfg s)
      if r.2.1 then .ok (r.1,some r.2.2) else releaseLoop caller continueUntilRelease rs r.1

def skipSlots : BarrierSyncServer :=
  let next := (range cfg.numCores).foldl (fun next c => if next < s.clock c then s.clock c else next) s.next
  if s.fastforward then { s with next := next } else s

def restart (order : List CoreId) : BarrierSyncServer :=
  doRelease (if s.fastforward then order.length else cfg.numHostCores) { s with toRelease := order }

def afterLoop (order : List CoreId) : BarrierSyncServer × Option Bool → Except BarrierFault (BarrierSyncServer × Bool)
  | (s,none) => .ok (s,false)
  | (s,some mustWait) =>
    if order.isPerm s.toRelease then .ok (restart cfg s order,mustWait) else .error .disabled

def barrierRelease (caller : Option ThreadId) (continueUntilRelease : Bool)
    (rounds : List Round) (order : List CoreId) : Except BarrierFault (BarrierSyncServer × Bool) :=
  if s.toRelease = [] then
    releaseLoop cfg caller continueUntilRelease rounds (skipSlots cfg s) >>= afterLoop cfg order
  else .error .notRestarted

def signal (rounds : List Round) (order : List CoreId) : Except BarrierFault BarrierSyncServer :=
  if s.disable then .ok s
  else if isBarrierReached cfg s then (barrierRelease cfg s none false rounds order).map (·.1)
  else .ok s

def threadStopped (t : ThreadId) (rounds : List Round) (order : List CoreId) : Except BarrierFault BarrierSyncServer :=
  signal cfg (releaseThread cfg s t) rounds order

def report (c : CoreId) (time : SubsecondTime) : BarrierSyncServer :=
  { s with
    reported := update s.reported c (if s.reported c < time then time else s.reported c) }

def leave (v : Visit) : BarrierSyncServer := { s with left := s.left ++ [v] }

def block (v : Visit) : BarrierSyncServer :=
  { s with cond := update s.cond v.core (s.cond v.core ++ [v]) }

def enterBarrier (c : CoreId) (t : ThreadId) (time : SubsecondTime) : BarrierSyncServer :=
  { s with
    clock := update s.clock c time
    acquire := update s.acquire c true
    coreThread := update s.coreThread c (some t) }

def arrive (master : CoreId) (t : ThreadId) (time : SubsecondTime) :
    BarrierSyncServer := (doRelease 1 (s.report master time)).enterBarrier master t time

def afterRelease (master : CoreId) (t : ThreadId) (time : SubsecondTime) : BarrierSyncServer × Bool → BarrierSyncServer
  | (s,true) => s.block ⟨master,t,time,s.clock master != time,none⟩
  | (s,false) => s.leave ⟨master,t,time,s.clock master != time || s.disable,some s.next⟩

def awaitBarrier (master : CoreId) (t : ThreadId) (time : SubsecondTime)
    (rounds : List Round) (order : List CoreId) : Except BarrierFault BarrierSyncServer :=
  if isBarrierReached cfg s then
    (barrierRelease cfg s (some t) false rounds order).map (afterRelease master t time)
  else .ok (s.block ⟨master,t,time,false,none⟩)

def synchronize (c : CoreId) (time : SubsecondTime) (rounds : List Round)
    (order : List CoreId) : Except BarrierFault BarrierSyncServer :=
  if s.disable then .ok s
  else
    match (s.use c).thread with
    | none => .error .nullThread
    | some t =>
      if (s.use c).started = false then .error .notStarted
      else if s.acquire (s.masterOf c) then .error .alreadyInBarrier
      else if time < s.next ∧ s.fastforward = false then
        .ok ((s.report (s.masterOf c) time).leave ⟨s.masterOf c,t,time,false,none⟩)
      else awaitBarrier cfg (s.arrive (s.masterOf c) t time) (s.masterOf c) t time rounds order

def setGroup (c : CoreId) (master : Option CoreId) : Except BarrierFault BarrierSyncServer :=
  if master.isSome ∧ s.acquire c then .error .inBarrier
  else .ok { s with group := update s.group c master }

def setFastForward (fastforward : Bool) (time : SubsecondTime) : BarrierSyncServer :=
  { s with
    fastforward := fastforward
    next := if time ≠ SubsecondTime.maxTime ∧ s.next < time then time else s.next }

end BarrierSyncServer

inductive BarrierLabel
  | synchronize (c : CoreId) (time : SubsecondTime) (rounds : List Round) (order : List CoreId)
  | stopped (t : ThreadId) (rounds : List Round) (order : List CoreId)
  | migrate (t : ThreadId)
  | setDisable (b : Bool)
  | release
  | setGroup (c : CoreId) (master : Option CoreId)
  | setFastForward (b : Bool) (time : SubsecondTime)
  | advance (rounds : List Round) (order : List CoreId)
  | env (e : EnvAction)
deriving DecidableEq, Repr

namespace BarrierSyncServer

def blocked (cfg : BarrierConfig) (s : BarrierSyncServer) (c : CoreId) : Bool :=
  (range cfg.numCores).any fun d => (s.cond d).any fun v => some v.thread == (s.use c).thread

def step (cfg : BarrierConfig) (s : BarrierSyncServer) : BarrierLabel → Except BarrierFault BarrierSyncServer
  | .synchronize c time rounds order =>
    if c < cfg.numCores ∧ s.masterOf c < cfg.numCores ∧ blocked cfg s c = false then
      synchronize cfg s c time rounds order
    else .error .disabled
  | .stopped t rounds order => threadStopped cfg s t rounds order
  | .migrate t => .ok (releaseThread cfg s t)
  | .setDisable b => .ok (setDisable cfg s b)
  | .release => .ok (abortBarrier cfg s)
  | .setGroup c master => s.setGroup c master
  | .setFastForward b time => .ok (s.setFastForward b time)
  | .advance rounds order =>
    if s.anyThreadRunning then .error .disabled
    else (barrierRelease cfg s none true rounds order).map (·.1)
  | .env e => .ok (s.envAction e)

end BarrierSyncServer
