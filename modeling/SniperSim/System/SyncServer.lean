import SniperSim.Library.Run
import SniperSim.System.ThreadManager

open Function

abbrev SyncAddress := BitVec 64

structure SimMutex where
  waiting : List ThreadId
  owner : Option ThreadId
deriving DecidableEq, Repr

structure CondWaiter where
  threadId : ThreadId
  mutex : SyncAddress
deriving DecidableEq, Repr

structure SimBarrier where
  waiting : List ThreadId
  count : BitVec 32
deriving DecidableEq, Repr

inductive SyncCall
  | lock (m : SyncAddress)
  | cond (m : SyncAddress)
  | barrier (b : Nat)
  | other
deriving DecidableEq, Repr

inductive SyncFault
  | notOwner | invalidMutex | invalidBarrier | disabled
deriving DecidableEq, Repr

structure SyncServer where
  threads : ThreadManager SyncCall
  mutexes : SyncAddress → Option SimMutex
  conds : SyncAddress → Option (List CondWaiter)
  barriers : List SimBarrier
  -- ghost
  held : SyncAddress → List ThreadId
  -- ghost
  (queued granted : SyncAddress → List ThreadId)
  -- ghost
  arrived : Nat → List ThreadId
  released : Nat → List (List ThreadId)

def SimMutex.free : SimMutex := ⟨[],none⟩

def SimMutex.isLocked (x : SimMutex) (t : ThreadId) : Bool :=
  match x.owner with
  | none => false
  | some o => o != t

namespace SyncServer

def init : SyncServer :=
  ⟨.init SyncCall,fun _ => none,fun _ => none,[],fun _ => [],fun _ => [],fun _ => [],fun _ => [],fun _ => []⟩

variable (s : SyncServer)

def mutex (m : SyncAddress) : SimMutex := (s.mutexes m).getD .free

def cond (c : SyncAddress) : List CondWaiter := (s.conds c).getD []

def setMutex (m : SyncAddress) (x : SimMutex) : SyncServer :=
  { s with mutexes := update s.mutexes m (some x) }

def setCond (c : SyncAddress) (q : List CondWaiter) : SyncServer :=
  { s with conds := update s.conds c (some q) }

def setBarrier (b : Nat) (x : SimBarrier) : SyncServer :=
  { s with barriers := s.barriers.set b x }

def stallThread (t : ThreadId) (reason : StallType) (call : SyncCall) : SyncServer :=
  { s with threads := s.threads.stallThread t reason call }

def resumeThread (t : ThreadId) (time : SubsecondTime) : SyncServer :=
  { s with threads := s.threads.resumeThread t time false }

def acquire (t : ThreadId) (m : SyncAddress) : SyncServer :=
  { s with held := update s.held m (s.held m ++ [t]) }

def yield (t : ThreadId) (m : SyncAddress) : SyncServer :=
  { s with held := update s.held m ((s.held m).filter (· ≠ t)) }

def pushWaiter (t : ThreadId) (m : SyncAddress) : SyncServer :=
  { s.setMutex m { s.mutex m with waiting := (s.mutex m).waiting ++ [t] } with
    queued := update s.queued m (s.queued m ++ [t]) }

def lock (t : ThreadId) (m : SyncAddress) (time : SubsecondTime) : SyncServer × Option SubsecondTime :=
  match (s.mutex m).owner with
  | none => ((s.setMutex m { s.mutex m with owner := some t }).acquire t m,some time)
  | some _ => ((s.pushWaiter t m).stallThread t .mutex (.lock m),none)

def lockAsync (t : ThreadId) (m : SyncAddress) (time : SubsecondTime) : SyncServer × Bool :=
  match (s.mutex m).owner with
  | none => ((s.setMutex m { s.mutex m with owner := some t }).resumeThread t time,true)
  | some _ => (s.pushWaiter t m,false)

def unlock (t : ThreadId) (m : SyncAddress) (time : SubsecondTime) : Except SyncFault (SyncServer × Option ThreadId) :=
  if (s.mutex m).owner = some t then
    match (s.mutex m).waiting with
    | [] => .ok ((s.setMutex m { s.mutex m with owner := none }).yield t m,none)
    | w :: q =>
      let s := { (s.setMutex m ⟨q,some w⟩).yield t m with
        granted := update s.granted m (s.granted m ++ [w]) }
      .ok (s.resumeThread w time,some w)
  else .error .notOwner

def getMutex (m : SyncAddress) : SyncServer :=
  if (s.mutexes m).isSome then s else s.setMutex m .free

def getCond (c : SyncAddress) : SyncServer :=
  if (s.conds c).isSome then s else s.setCond c []

def mutexLock (cost : SubsecondTime) (s : SyncServer) (t : ThreadId) (m : SyncAddress)
    (tryLock : Bool) (time : SubsecondTime) : SyncServer × Option (SubsecondTime × Bool) :=
  let s := s.getMutex m
  if tryLock && (s.mutex m).isLocked t then (s,some (time,false))
  else ((s.lock t m time).1,(s.lock t m time).2.map fun e => (e + cost,true))

def mutexUnlock (cost : SubsecondTime) (s : SyncServer) (t : ThreadId) (m : SyncAddress)
    (time : SubsecondTime) : Except SyncFault (SyncServer × SubsecondTime) :=
  if (s.mutexes m).isSome then
    (s.unlock t m (time + cost)).map fun r => (r.1,time + if r.2.isNone then 0 else cost)
  else .error .invalidMutex

def condWait (t : ThreadId) (c m : SyncAddress) (time : SubsecondTime) : Except SyncFault SyncServer :=
  (((s.getMutex m).getCond c).unlock t m time).map fun r =>
    (r.1.setCond c (r.1.cond c ++ [⟨t,m⟩])).stallThread t .cond (.cond m)

def signal (c : SyncAddress) (time : SubsecondTime) : SyncServer × Option ThreadId :=
  match s.cond c with
  | [] => (s,none)
  | w :: q =>
    let r := (s.setCond c q).lockAsync w.threadId w.mutex time
    (r.1,if r.2 then some w.threadId else none)

def condSignal (c : SyncAddress) (time : SubsecondTime) : SyncServer := ((s.getCond c).signal c time).1

def broadcast (c : SyncAddress) (time : SubsecondTime) : Nat → SyncServer → SyncServer
  | 0, s => s
  | n + 1, s =>
    match s.cond c with
    | [] => s
    | w :: q => broadcast c time n ((s.setCond c q).lockAsync w.threadId w.mutex time).1

def condBroadcast (c : SyncAddress) (time : SubsecondTime) : SyncServer :=
  broadcast c time ((s.getCond c).cond c).length (s.getCond c)

def barrierInit (count : BitVec 32) : SyncServer × Nat :=
  ({ s with barriers := s.barriers ++ [⟨[],count⟩] },s.barriers.length)

def releaseAll (b : Nat) (time : SubsecondTime) : Nat → SyncServer → SyncServer
  | 0, s => s
  | n + 1, s =>
    match s.barriers[b]? with
    | some ⟨w :: q,count⟩ => releaseAll b time n ((s.setBarrier b ⟨q,count⟩).resumeThread w time)
    | _ => s

def barrierWait (t : ThreadId) (b : Nat) (time : SubsecondTime) :
    Except SyncFault (SyncServer × Option SubsecondTime) :=
  match s.barriers[b]? with
  | none => .error .invalidBarrier
  | some x =>
    let s := { s with arrived := update s.arrived b (s.arrived b ++ [t]) }
    if x.waiting.length = (x.count - 1).toNat then
      let s := { s with released := update s.released b (s.released b ++ [x.waiting ++ [t]]) }
      .ok (releaseAll b time x.waiting.length s,some time)
    else .ok ((s.setBarrier b { x with waiting := x.waiting ++ [t] }).stallThread t .barrier (.barrier b),none)

def finish (cost : SubsecondTime) (s : SyncServer) (t : ThreadId) : SyncCall → SyncServer × SubsecondTime
  | .lock m => ({ s.acquire t m with threads := s.threads.leave t },(s.threads.thread t).wakeupTime + cost)
  | .cond m => ({ s.acquire t m with threads := s.threads.leave t },(s.threads.thread t).wakeupTime)
  | .barrier _ | .other => ({ s with threads := s.threads.leave t },(s.threads.thread t).wakeupTime)

def own (r : StallType) : Bool := r == .mutex || r == .cond || r == .barrier

end SyncServer

inductive SyncOp
  | mutexInit (m : SyncAddress)
  | mutexLock (m : SyncAddress) (tryLock : Bool)
  | mutexUnlock (m : SyncAddress)
  | condInit (c : SyncAddress)
  | condWait (c m : SyncAddress)
  | condSignal (c : SyncAddress)
  | condBroadcast (c : SyncAddress)
  | barrierInit (count : BitVec 32)
  | barrierWait (b : Nat)
deriving DecidableEq, Repr

inductive SyncLabel
  | call (t : ThreadId) (op : SyncOp) (time : SubsecondTime)
  | settle (t : ThreadId)
  | ret (t : ThreadId)
  | env (e : ThreadManager.EnvLabel)
deriving DecidableEq, Repr

namespace SyncServer

def perform (cost : SubsecondTime) (s : SyncServer) (t : ThreadId) (time : SubsecondTime) :
    SyncOp → Except SyncFault SyncServer
  | .mutexInit m => .ok (s.getMutex m)
  | .mutexLock m tryLock => .ok (mutexLock cost s t m tryLock time).1
  | .mutexUnlock m => (mutexUnlock cost s t m time).map (·.1)
  | .condInit c => .ok (s.getCond c)
  | .condWait c m => s.condWait t c m time
  | .condSignal c => .ok (s.condSignal c time)
  | .condBroadcast c => .ok (s.condBroadcast c time)
  | .barrierInit count => .ok (s.barrierInit count).1
  | .barrierWait b => (s.barrierWait t b time).map (·.1)

def step (cost : SubsecondTime) (s : SyncServer) : SyncLabel → Except SyncFault SyncServer
  | .call t op time =>
    if (s.threads.thread t).Callable ∧ s.threads.lock = none then perform cost s t time op
    else .error .disabled
  | .settle t =>
    match (s.threads.thread t).control with
    | .stalling k =>
      if s.threads.anyThreadRunning then
        if s.threads.isThreadRunning t then .ok (finish cost s t k).1
        else .ok { s with threads := s.threads.wait t k }
      else .error .disabled
    | _ => .error .disabled
  | .ret t =>
    match (s.threads.thread t).control with
    | .signalled k => if s.threads.lock = none then .ok (finish cost s t k).1 else .error .disabled
    | _ => .error .disabled
  | .env e =>
    match s.threads.envStep own .other e with
    | some threads => .ok { s with threads := threads }
    | none => .error .disabled

def Reachable (cost : SubsecondTime) (s : SyncServer) : Prop := Run.Reaches (step cost) (fun _ _ => True) init s

end SyncServer
