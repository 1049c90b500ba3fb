import SniperSim.Coherence.Behind
import SniperSim.Coherence.Precision

open Function
namespace Coherence
variable {n : Nat} {D : Type}

def MemOp.exclusive : MemOp D → Bool
  | .read => false
  | .readEx | .write _ => true

def LlcLine.permits (b : LlcLine D) (exclusive : Bool) : Bool :=
  if exclusive then b.cstate == .exclusive || b.cstate == .modified else LlcLine.readable b.cstate

def LlcLine.acceptReply (b : LlcLine D) : DirMsg D → Except Fault (LlcLine D)
  | .exRep d => do
    b.requireWaiter
    b.insertCacheBlock .exclusive d
  | .shRep d => do
    b.requireWaiter
    b.insertCacheBlock .shared d
  | .upgradeRep => do
    b.requireWaiter
    if b.cstate = .invalid then .error .upgradeInvalid
    else if b.cstate = .sharedUpgrading then
      let (b,_) ← b.updateCacheBlock .modified false
      return b
    else .error .upgradeNotUpgrading
  | _ => .error .disabled

structure CacheDirectoryWaiter (T D : Type) where
  thread : T
  op : MemOp D
deriving DecidableEq, Repr

def CacheDirectoryWaiter.exclusive {T : Type} (w : CacheDirectoryWaiter T D) : Bool := w.op.exclusive

inductive Handover
  | user | network
deriving DecidableEq, Repr

inductive WaiterFault
  | line (f : Fault)
  | stackLocked | networkThreadBusy | notWoken | notServing | dataGone | notDirectory
deriving DecidableEq, Repr

structure WaiterSystem (Addr T : Type) (n : Nat) (D : Type) where
  lines : System Addr n D
  directoryWaiters : Addr → Fin n → List (CacheDirectoryWaiter T D)
  networkThread : Fin n → Option (Addr × Handover)
  (enqueued woken : Addr → Fin n → List (CacheDirectoryWaiter T D))

inductive WaiterLabel (Addr T : Type) (n : Nat) (D : Type)
  | core (a : Addr) (c : Fin n) (w : CacheDirectoryWaiter T D)
  | network (a : Addr) (c : Fin n) (junk : D)
  | user (c : Fin n)
  | resume (c : Fin n)
  | evict (a : Addr) (c : Fin n)
  | directory (a : Addr) (l : Label n D)

namespace WaiterSystem
variable {Addr T : Type} [DecidableEq Addr]

def initial (T : Type) (n : Nat) (contents : Addr → D) : WaiterSystem Addr T n D where
  lines := .initial n contents
  directoryWaiters := fun _ _ => []
  networkThread := fun _ => none
  enqueued := fun _ _ => []
  woken := fun _ _ => []

def put {α : Type} (f : Addr → Fin n → α) (a : Addr) (c : Fin n) (x : α) : Addr → Fin n → α :=
  update f a (update (f a) c x)

variable (s : WaiterSystem Addr T n D)

def setLine (a : Addr) (ln : Line n D) : WaiterSystem Addr T n D :=
  { s with lines := update s.lines a ln }

def enqueue (a : Addr) (c : Fin n) (w : CacheDirectoryWaiter T D) : WaiterSystem Addr T n D :=
  { s with
    directoryWaiters := put s.directoryWaiters a c (s.directoryWaiters a c ++ [w])
    enqueued := put s.enqueued a c (s.enqueued a c ++ [w]) }

def dequeue (a : Addr) (c : Fin n) : WaiterSystem Addr T n D :=
  let b := (s.lines a).llc c
  { s.setLine a ((s.lines a).setLlc c { b with waiters := b.waiters.tail } []) with
    directoryWaiters := put s.directoryWaiters a c (s.directoryWaiters a c).tail }

def setNetworkThread (c : Fin n) (r : Option (Addr × Handover)) : WaiterSystem Addr T n D :=
  { s with networkThread := update s.networkThread c r }

def wakeUpNext (a : Addr) (c : Fin n) : WaiterSystem Addr T n D :=
  let b := (s.lines a).llc c
  match s.directoryWaiters a c with
  | [] => s.setNetworkThread c none
  | w :: _ =>
    if w.exclusive ∧ b.cstate = .shared then
      (s.setLine a ((s.lines a).setLlc c { b with cstate := .sharedUpgrading } [.upgradeReq])).setNetworkThread c none
    else
      { s.setNetworkThread c (some (a,.user)) with woken := put s.woken a c (s.woken a c ++ [w]) }

variable (cfg : Config)

def stepLine (s : WaiterSystem Addr T n D) (a : Addr) (l : Label n D) : Except WaiterFault (WaiterSystem Addr T n D) :=
  match (s.lines a).step cfg l with
  | .ok ln => .ok (s.setLine a ln)
  | .error f => .error (.line f)

def handleMsgFromDramDirectory (s : WaiterSystem Addr T n D) (a : Addr) (c : Fin n)
    (junk : D) : Except WaiterFault (WaiterSystem Addr T n D) :=
  let ln := s.lines a
  match ln.toLlc c with
  | [] => .error (.line .disabled)
  | m :: ms =>
    if m.isReply then
      match (ln.llc c).acceptReply m with
      | .ok b =>
        let s := s.setLine a { ln.setLlc c b [] with toLlc := update ln.toLlc c ms }
        .ok (s.wakeUpNext a c)
      | .error f => .error (.line f)
    else s.stepLine cfg a (.deliverLlc c junk)

def processMemOpFromCore (s : WaiterSystem Addr T n D) (a : Addr) (c : Fin n)
    (w : CacheDirectoryWaiter T D) : Except WaiterFault (WaiterSystem Addr T n D) := do
  let t ← s.stepLine cfg a (.core c w.op)
  return if ((s.lines a).llc c).permits w.exclusive then t else t.enqueue a c w

def runUserThread (s : WaiterSystem Addr T n D) (a : Addr) (c : Fin n) : Except WaiterFault (WaiterSystem Addr T n D) :=
  match s.directoryWaiters a c with
  | [] => .error .notWoken
  | w :: _ =>
    if ((s.lines a).llc c).permits w.exclusive then do
      let t ← s.stepLine cfg a (.core c w.op)
      return t.setNetworkThread c (some (a,.network))
    else .error .dataGone

def step (s : WaiterSystem Addr T n D) : WaiterLabel Addr T n D → Except WaiterFault (WaiterSystem Addr T n D)
  | .core a c w =>
    if s.networkThread c = some (a,.user) then .error .stackLocked
    else s.processMemOpFromCore cfg a c w
  | .network a c junk =>
    if (s.networkThread c).isSome then .error .networkThreadBusy
    else s.handleMsgFromDramDirectory cfg a c junk
  | .user c =>
    match s.networkThread c with
    | some (a,.user) => s.runUserThread cfg a c
    | _ => .error .notWoken
  | .resume c =>
    match s.networkThread c with
    | some (a,.network) => .ok ((s.dequeue a c).wakeUpNext a c)
    | _ => .error .notServing
  | .evict a c =>
    if (s.networkThread c).isSome then .error .networkThreadBusy else s.stepLine cfg a (.evict c)
  | .directory a l => if l.llc = none then s.stepLine cfg a l else .error .notDirectory

def Reachable (contents : Addr → D) (s : WaiterSystem Addr T n D) : Prop :=
  Run.Reaches (step cfg) (fun _ _ => True) (initial T n contents) s

end WaiterSystem
end Coherence
