import SniperSim.System.ThreadManager

structure Waiter where
  threadId : ThreadId
  mask : BitVec 32
  timeout : SubsecondTime
  -- ghost
  arrival : Nat
deriving DecidableEq, Repr

namespace Futex

abbrev Address := BitVec 64

instance lawfulBEqAddress : LawfulBEq Address := inferInstance

inductive Cmd
  | wait | wake | cmpRequeue | wakeOp | waitBitset | wakeBitset
deriving DecidableEq, Repr

def privateFlag : BitVec 32 := 128

def clockRealtime : BitVec 32 := 256

def cmdMask : BitVec 32 := ~~~(privateFlag ||| clockRealtime)

def bitsetMatchAny : BitVec 32 := 0xffffffff

def cmdOf (op : BitVec 32) : Option Cmd :=
  match ((op &&& cmdMask) &&& ~~~privateFlag).toNat with
  | 0 => some .wait
  | 1 => some .wake
  | 4 => some .cmpRequeue
  | 5 => some .wakeOp
  | 9 => some .waitBitset
  | 10 => some .wakeBitset
  | _ => none

structure Timespec where
  (tvSec tvNsec : BitVec 64)
deriving DecidableEq, Repr

structure Args where
  uaddr : Address
  (op val : BitVec 32)
  timeout : Option Timespec
  val2 : BitVec 32
  uaddr2 : Address
  val3 : BitVec 32
deriving DecidableEq, Repr

structure Call where
  args : Args
  (actVal oldVal : BitVec 32)
  va2pa : Address → Address
  instructionCount : Nat

inductive Fault
  | unsupportedOp | unknownOp | unknownCmp | sameAddress | requeueDiverges | disabled
deriving DecidableEq, Repr

def eWouldBlock : Int := -11

def eAgain : Int := -11

def eTimedOut : Int := -110

def newValue (op : Nat) (oldval oparg : BitVec 32) : Except Fault (BitVec 32) :=
  match op with
  | 0 => .ok oparg
  | 1 => .ok (oldval + oparg)
  | 2 => .ok (oldval ||| oparg)
  | 3 => .ok (oldval &&& ~~~oparg)
  | 4 => .ok (oldval ^^^ oparg)
  | _ => .error .unknownOp

def compare (cmp : Nat) (oldval cmparg : BitVec 32) : Except Fault Bool :=
  match cmp with
  | 0 => .ok (oldval == cmparg)
  | 1 => .ok (oldval != cmparg)
  | 2 => .ok (oldval.slt cmparg)
  | 3 => .ok (oldval.sle cmparg)
  | 4 => .ok (cmparg.slt oldval)
  | 5 => .ok (cmparg.sle oldval)
  | _ => .error .unknownCmp

def futexDoOp (encodedOp oldval : BitVec 32) : Except Fault (BitVec 32 × Bool) := do
  let op := (encodedOp.sshiftRight 28 &&& 7).toNat
  let cmp := (encodedOp.sshiftRight 24 &&& 15).toNat
  let oparg := (encodedOp <<< 8).sshiftRight 20
  let cmparg := (encodedOp <<< 20).sshiftRight 20
  let oparg := if encodedOp &&& (8 <<< 28) = 0 then oparg else 1 <<< (oparg.toNat % 32)
  let newval ← newValue op oldval oparg
  let ret ← compare cmp oldval cmparg
  return (newval,ret)

end Futex

structure SyscallConfig where
  rescheduleCost : SubsecondTime
  osEmuTimeStart : BitVec 64

inductive ServerCall
  | futex | sleep | other
deriving DecidableEq, Repr

inductive Ended
  | wake | timeOut
deriving DecidableEq, Repr

-- ghost
inductive ServerEvent
  | stalled (reason : StallType)
  | resumed (ended : Ended)
  | returned (res : Int)
deriving DecidableEq, Repr

structure SyscallServer where
  threads : ThreadManager ServerCall
  sleeping : List Waiter
  futexes : Futex.Address → List Waiter
  keys : List Futex.Address
  arrivals : Nat
  history : ThreadId → List ServerEvent
  -- ghost
  resumes : List ThreadId

structure FutexResult where
  res : Int
  endTime : SubsecondTime
  stored : Option (Futex.Address × BitVec 32)
deriving DecidableEq, Repr

variable (cfg : SyscallConfig)
namespace SyscallServer
open Futex

def init : SyscallServer := ⟨.init ServerCall,[],fun _ => [],[],0,fun _ => [],[]⟩

variable (s : SyscallServer)

def record (t : ThreadId) (e : ServerEvent) : SyscallServer :=
  { s with history := Function.update s.history t (s.history t ++ [e]) }

def setQueue (a : Address) (q : List Waiter) : SyscallServer :=
  { s with futexes := Function.update s.futexes a q }

def stallThread (t : ThreadId) (reason : StallType) (call : ServerCall) : SyscallServer :=
  { s.record t (.stalled reason) with threads := s.threads.stallThread t reason call }

def resumeThread (t : ThreadId) (time : SubsecondTime) (ended : Ended) : SyscallServer :=
  { s.record t (.resumed ended) with
    threads := s.threads.resumeThread t time (ended == .wake), resumes := s.resumes ++ [t] }

def handleSleepCall (t : ThreadId) (wakeTime : SubsecondTime) : SyscallServer :=
  let s := { s with sleeping := s.sleeping ++ [Waiter.mk t 0 wakeTime s.arrivals], arrivals := s.arrivals + 1 }
  s.stallThread t .sleep .sleep

def applyRescheduleCost (instructionCount : Nat) (conditional : Bool) : SubsecondTime :=
  if conditional = false then 0 else if instructionCount = 0 then 0 else cfg.rescheduleCost

def findFutexByUaddr (a : Address) : SyscallServer :=
  if a ∈ s.keys then s else { s with keys := s.keys ++ [a] }

def enqueueWaiter (a : Address) (t : ThreadId) (mask : BitVec 32) (timeoutTime : SubsecondTime) : SyscallServer :=
  let s := { s.setQueue a (s.futexes a ++ [Waiter.mk t mask timeoutTime s.arrivals]) with
    arrivals := s.arrivals + 1 }
  s.stallThread t .futex .futex

def hits (mask : BitVec 32) (w : Waiter) : Bool := mask &&& w.mask != 0

def timedOut (time : SubsecondTime) (w : Waiter) : Bool := w.timeout ≤ time

def dequeueWaiter (a : Address) (mask : BitVec 32) (time : SubsecondTime) : SyscallServer × Option ThreadId :=
  match (s.futexes a).find? (hits mask) with
  | none => (s,none)
  | some w => ((s.setQueue a ((s.futexes a).eraseP (hits mask))).resumeThread w.threadId time .wake,some w.threadId)

def requeueWaiter (a b : Address) : SyscallServer × Option ThreadId :=
  match s.futexes a with
  | [] => (s,none)
  | w :: q =>
    let s := s.setQueue a q
    ({ s.setQueue b (s.futexes b ++ [{ w with arrival := s.arrivals }]) with
      arrivals := s.arrivals + 1 },some w.threadId)

def wakeTimedOut (a : Address) (time : SubsecondTime) : SyscallServer :=
  match (s.futexes a).find? (timedOut time) with
  | none => s
  | some w => (s.setQueue a ((s.futexes a).eraseP (timedOut time))).resumeThread w.threadId time .timeOut

def futexWait (t : ThreadId) (a : Address) (val actVal mask : BitVec 32)
    (currTime timeoutTime : SubsecondTime) : SyscallServer × Option FutexResult :=
  let s := s.findFutexByUaddr a
  if val ≠ actVal then (s,some ⟨eWouldBlock,currTime,none⟩)
  else (s.enqueueWaiter a t mask timeoutTime,none)

def wakeLoop (a : Address) (mask : BitVec 32) (time : SubsecondTime) : Nat → SyscallServer → SyscallServer × Nat
  | 0, s => (s,0)
  | n + 1, s =>
    match s.dequeueWaiter a mask time with
    | (s,none) => (s,0)
    | (s,some _) => ((wakeLoop a mask time n s).1,(wakeLoop a mask time n s).2 + 1)

def wakeTime (instructionCount : Nat) (currTime : SubsecondTime) :
    SubsecondTime := currTime + applyRescheduleCost cfg instructionCount true

def futexWake (s : SyscallServer) (instructionCount : Nat) (a : Address)
    (nrWake mask : BitVec 32) (currTime : SubsecondTime) : SyscallServer × FutexResult :=
  let s := s.findFutexByUaddr a
  let r := wakeLoop a mask (wakeTime cfg instructionCount currTime) nrWake.toInt.toNat s
  (r.1,⟨r.2,currTime + applyRescheduleCost cfg instructionCount (0 < r.2),none⟩)

def futexWakeOp (s : SyscallServer) (call : Call) (currTime : SubsecondTime) :
    Except Fault (SyscallServer × FutexResult) := do
  let a := call.va2pa call.args.uaddr
  let b := call.va2pa call.args.uaddr2
  let s := (s.findFutexByUaddr a).findFutexByUaddr b
  let op ← futexDoOp call.args.val3 call.oldVal
  let time := wakeTime cfg call.instructionCount currTime
  let r := wakeLoop a bitsetMatchAny time call.args.val.toInt.toNat s
  let r2 :=
    if op.2 then wakeLoop b bitsetMatchAny time call.args.val2.toInt.toNat r.1 else (r.1,0)
  let woken := r.2 + r2.2
  return (r2.1,⟨woken,currTime + applyRescheduleCost cfg call.instructionCount (0 < woken),
    some (call.args.uaddr2,op.1)⟩)

def requeueLoop (a b : Address) : Nat → SyscallServer → SyscallServer
  | 0, s => s
  | n + 1, s =>
    match s.requeueWaiter a b with
    | (s,none) => s
    | (s,some _) => requeueLoop a b n s

def futexCmpRequeue (call : Call) (currTime : SubsecondTime) : Except Fault (SyscallServer × FutexResult) :=
  let a := call.va2pa call.args.uaddr
  let s := s.findFutexByUaddr a
  if call.args.val3 ≠ call.actVal then .ok (s,⟨eAgain,currTime,none⟩)
  else
    let r := wakeLoop a bitsetMatchAny currTime call.args.val.toInt.toNat s
    let b := call.va2pa call.args.uaddr2
    let s := r.1.findFutexByUaddr b
    if a = b ∧ s.futexes a ≠ [] then .error .requeueDiverges
    else .ok (requeueLoop a b (s.futexes a).length s,⟨r.2,currTime,none⟩)

def timeoutTime (cmd : Cmd) (timeout : Option Timespec) (currTime : SubsecondTime) : SubsecondTime :=
  match timeout with
  | none => SubsecondTime.maxTime
  | some buf =>
    let timeoutVal := SubsecondTime.sec (buf.tvSec - cfg.osEmuTimeStart) + SubsecondTime.ns buf.tvNsec
    if cmd = .waitBitset then timeoutVal else currTime + timeoutVal

def handleFutexCall (s : SyscallServer) (t : ThreadId) (call : Call)
    (currTime : SubsecondTime) : Except Fault (SyscallServer × Option FutexResult) :=
  let args := call.args
  let a := call.va2pa args.uaddr
  match cmdOf args.op with
  | none => .error .unsupportedOp
  | some cmd =>
    if cmd = .wait ∨ cmd = .waitBitset then
      .ok (s.futexWait t a args.val call.actVal
        (if cmd = .waitBitset then args.val3 else bitsetMatchAny) currTime
        (timeoutTime cfg cmd args.timeout currTime))
    else if cmd = .wake ∨ cmd = .wakeBitset then
      let r := futexWake cfg s call.instructionCount a args.val
        (if cmd = .waitBitset then args.val3 else bitsetMatchAny) currTime
      .ok (r.1,some r.2)
    else if cmd = .wakeOp then (futexWakeOp cfg s call currTime).map fun r => (r.1,some r.2)
    else if args.uaddr = args.uaddr2 then .error .sameAddress
    else (futexCmpRequeue s call currTime).map fun r => (r.1,some r.2)

def wakeSleeper (time : SubsecondTime) : SyscallServer :=
  match s.sleeping.find? (timedOut time) with
  | none => s
  | some w =>
    { s with sleeping := s.sleeping.eraseP (timedOut time) }.resumeThread w.threadId time .timeOut

def futexPeriodic (time : SubsecondTime) (order : List Address) : SyscallServer :=
  order.foldl (fun s a => s.wakeTimedOut a time) (s.wakeSleeper time)

def onThreadExit (s : SyscallServer) (t : ThreadId) (instructionCount : Nat)
    (clearTid : Option Address) (time : SubsecondTime) : SyscallServer :=
  let s := { s with threads := s.threads.modify t fun th => { th with status := .idle } }
  match clearTid with
  | none => s
  | some a => (futexWake cfg s instructionCount a 1 bitsetMatchAny time).1

def finish (t : ThreadId) : ServerCall → SyscallServer
  | .futex =>
    { s.record t (.returned (if (s.threads.thread t).wakeupMsg then 0 else eTimedOut)) with
      threads := s.threads.leave t }
  | .sleep => { s.record t (.returned 0) with threads := s.threads.leave t }
  | .other => { s with threads := s.threads.leave t }

def own (r : StallType) : Bool := r == .futex || r == .sleep

end SyscallServer

inductive ServerLabel
  | futex (t : ThreadId) (call : Futex.Call) (time : SubsecondTime)
  | sleep (t : ThreadId) (wakeTime : SubsecondTime)
  | periodic (time : SubsecondTime) (order : List Futex.Address)
  | settle (t : ThreadId)
  | ret (t : ThreadId)
  | exit (t : ThreadId) (instructionCount : Nat) (clearTid : Option Futex.Address) (time : SubsecondTime)
  | env (e : ThreadManager.EnvLabel)

def ServerLabel.barrier : ServerLabel → Option SubsecondTime
  | .periodic time _ => some time
  | _ => none

namespace SyscallServer
open Futex

def step (s : SyscallServer) : ServerLabel → Except Fault SyscallServer
  | .futex t call time =>
    if (s.threads.thread t).Callable ∧ s.threads.lock = none then
      (handleFutexCall cfg s t call time).map (·.1)
    else .error .disabled
  | .sleep t wakeTime =>
    if (s.threads.thread t).Callable ∧ s.threads.lock = none then .ok (s.handleSleepCall t wakeTime)
    else .error .disabled
  | .periodic time order =>
    if order.isPerm s.keys then .ok (s.futexPeriodic time order) else .error .disabled
  | .settle t =>
    match (s.threads.thread t).control with
    | .stalling k =>
      if s.threads.anyThreadRunning then
        if s.threads.isThreadRunning t then .ok (s.finish t k)
        else .ok { s with threads := s.threads.wait t k }
      else .error .disabled
    | _ => .error .disabled
  | .ret t =>
    match (s.threads.thread t).control with
    | .signalled k => if s.threads.lock = none then .ok (s.finish t k) else .error .disabled
    | _ => .error .disabled
  | .exit t instructionCount clearTid time =>
    if (s.threads.thread t).Callable ∧ s.threads.lock = none then
      .ok (onThreadExit cfg s t instructionCount clearTid time)
    else .error .disabled
  | .env e =>
    match s.threads.envStep own .other e with
    | some threads => .ok { s with threads := threads }
    | none => .error .disabled

end SyscallServer
