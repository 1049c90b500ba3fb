import SniperSim.Stack.CacheStack
import SniperSim.Coherence.LastLevel

open Coherence Function

def CacheStack.demand (s : CacheState) : DirMsg Unit → Option CacheState
  | .invReq | .flushReq => if s = .invalid then none else some .invalid
  | .wbReq => if s = .invalid then none else if s = .sharedUpgrading then none else some .shared
  | .upgradeRep => if s = .sharedUpgrading then some .modified else none
  | _ => none

def CacheStack.updateForDirectory {ι : Type} [DecidableEq ι] (H : Forest ι) (s : CacheState)
    (m : DirMsg Unit) (f : ι → CacheState) : Except StackAssertion (ι → CacheState) :=
  match demand s m with
  | none => .ok f
  | some new => updatePrevCaches H none s new (H.prev none) f

inductive StackFault
  | protocol (f : WaiterFault)
  | stack (f : CacheStack.StackAssertion)
  | notFirstLevel | coreWaiting
deriving DecidableEq, Repr

structure StackSystem (Addr ι : Type) (n : Nat) where
  protocol : WaiterSystem Addr ι n Unit
  caches : Fin n → Addr → ι → CacheState
  pending : Fin n → ι → Option Addr

inductive StackLabel (Addr ι : Type) (n : Nat)
  | core (a : Addr) (c : Fin n) (x : ι) (op : MemOp Unit) (victims : ι → Option Addr)
  | network (a : Addr) (c : Fin n)
  | user (c : Fin n) (victims : ι → Option Addr)
  | resume (c : Fin n)
  | evict (a : Addr) (c : Fin n)
  | directory (a : Addr) (l : Label n Unit)

namespace StackSystem
variable {Addr ι : Type} {n : Nat} [DecidableEq Addr] [DecidableEq ι]

def initial (Addr ι : Type) (n : Nat) : StackSystem Addr ι n where
  protocol := .initial ι n fun _ => ()
  caches := fun _ _ _ => .invalid
  pending := fun _ _ => none

def lastLevel (s : StackSystem Addr ι n) (c : Fin n) (a : Addr) : CacheState := s.protocol.lastLevel c a

def setCaches (s : StackSystem Addr ι n) (c : Fin n) (m : Addr → ι → CacheState) : StackSystem Addr ι n :=
  { s with caches := update s.caches c m }

def setPending (s : StackSystem Addr ι n) (c : Fin n) (x : ι) (r : Option Addr) : StackSystem Addr ι n :=
  { s with pending := update s.pending c (update (s.pending c) x r) }

variable (cfg : Config)

def stepProtocol (s : StackSystem Addr ι n) (l : WaiterLabel Addr ι n Unit) :
    Except StackFault (StackSystem Addr ι n) :=
  match s.protocol.step cfg l with
  | .ok p => .ok { s with protocol := p }
  | .error f => .error (.protocol f)

def onStack {α : Type} (x : Except CacheStack.StackAssertion α) : Except StackFault α :=
  match x with
  | .ok r => .ok r
  | .error f => .error (.stack f)

def processMemOpFromCore (H : Fin n → Forest ι) (s : StackSystem Addr ι n) (a : Addr)
    (c : Fin n) (x : ι) (op : MemOp Unit) (victims : ι → Option Addr) : Except StackFault (StackSystem Addr ι n) := do
  let q ← onStack (CacheStack.processMemOpFromCore (H c) (s.lastLevel c) op a victims x (s.caches c))
  let s := s.setCaches c q.1
  match q.2 with
  | .below => return s
  | .lastLevel => s.stepProtocol cfg (.core a c ⟨x,op⟩)
  | .miss => (s.setPending c x (some a)).stepProtocol cfg (.core a c ⟨x,op⟩)

def runUserThread (H : Fin n → Forest ι) (s : StackSystem Addr ι n) (a : Addr)
    (c : Fin n) (victims : ι → Option Addr) : Except StackFault (StackSystem Addr ι n) :=
  match s.protocol.directoryWaiters a c with
  | [] => .error (.protocol .notWoken)
  | w :: _ => do
    let q ← onStack (CacheStack.processMemOpAfterReply (H c) (s.lastLevel c) w.op a victims w.thread (s.caches c))
    let s := (s.setCaches c q.1).setPending c w.thread none
    match q.2 with
    | .below => return { s with protocol := s.protocol.setNetworkThread c (some (a,.network)) }
    | _ => s.stepProtocol cfg (.user c)

def handleMsgFromDramDirectory (H : Fin n → Forest ι) (s : StackSystem Addr ι n)
    (a : Addr) (c : Fin n) : Except StackFault (StackSystem Addr ι n) :=
  match (s.protocol.lines a).toLlc c with
  | [] => .error (.protocol (.line .disabled))
  | m :: _ => do
    let f ← onStack (CacheStack.updateForDirectory (H c) (s.lastLevel c a) m (s.caches c a))
    (s.setCaches c (update (s.caches c) a f)).stepProtocol cfg (.network a c ())

def evictFromLastLevel (H : Fin n → Forest ι) (s : StackSystem Addr ι n) (a : Addr)
    (c : Fin n) : Except StackFault (StackSystem Addr ι n) := do
  let f ← onStack (CacheStack.updatePrevCaches (H c) (some none) (s.lastLevel c a) .invalid
    ((H c).prev none) (s.caches c a))
  (s.setCaches c (update (s.caches c) a f)).stepProtocol cfg (.evict a c)

def step (H : Fin n → Forest ι) (s : StackSystem Addr ι n) :
    StackLabel Addr ι n → Except StackFault (StackSystem Addr ι n)
  | .core a c x op victims =>
    if (H c).prev (some x) ≠ [] then .error .notFirstLevel
    else if (s.pending c x).isSome then .error .coreWaiting
    else if s.protocol.networkThread c = some (a,.user) then .error (.protocol .stackLocked)
    else s.processMemOpFromCore cfg H a c x op victims
  | .network a c =>
    if (s.protocol.networkThread c).isSome then .error (.protocol .networkThreadBusy)
    else s.handleMsgFromDramDirectory cfg H a c
  | .user c victims =>
    match s.protocol.networkThread c with
    | some (a,.user) => s.runUserThread cfg H a c victims
    | _ => .error (.protocol .notWoken)
  | .resume c => s.stepProtocol cfg (.resume c)
  | .evict a c =>
    if (s.protocol.networkThread c).isSome then .error (.protocol .networkThreadBusy)
    else s.evictFromLastLevel cfg H a c
  | .directory a l => s.stepProtocol cfg (.directory a l)

def Reachable (H : Fin n → Forest ι) (s : StackSystem Addr ι n) : Prop :=
  Run.Reaches (step cfg H) (fun _ _ => True) (initial Addr ι n) s

end StackSystem
