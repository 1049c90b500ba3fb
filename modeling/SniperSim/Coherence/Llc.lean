import SniperSim.Coherence.Types

namespace Coherence

namespace LlcLine
variable {D : Type}

def readable (s : CacheState) : Bool := s == .modified || s == .owned || s == .shared || s == .exclusive

def writable (s : CacheState) : Bool := s == .modified

variable (b : LlcLine D)

def initiateDirectoryAccess (exclusive : Bool) : Except Fault (LlcLine D × List (LlcMsg D)) :=
  let b' := { b with waiters := b.waiters ++ [exclusive] }
  if b.waiters.isEmpty then
    if exclusive then
      if b.cstate = .shared then .ok ({ b' with cstate := .sharedUpgrading },[.upgradeReq])
      else if b.cstate = .invalid then .ok (b',[.exReq])
      else .error .exReqNotInvalid
    else .ok (b',[.shReq])
  else .ok (b',[])

def processMemOp : MemOp D → Except Fault (LlcLine D × List (LlcMsg D))
  | .read => if readable b.cstate then .ok (b,[]) else b.initiateDirectoryAccess false
  | .readEx =>
    if writable b.cstate then .ok (b,[])
    else if b.cstate = .exclusive then .ok ({ b with cstate := .modified },[])
    else b.initiateDirectoryAccess true
  | .write v =>
    if writable b.cstate then .ok ({ b with data := v },[])
    else if b.cstate = .exclusive then .ok ({ b with cstate := .modified, data := v },[])
    else b.initiateDirectoryAccess true

def written : MemOp D → Option D
  | .write v => if writable b.cstate || b.cstate == .exclusive then some v else none
  | _ => none

def insertCacheBlock (s : CacheState) (d : D) : Except Fault (LlcLine D) :=
  if b.cstate = .invalid then .ok { b with cstate := s, data := d }
  else .error .lineAlreadyPresent

def updateCacheBlock (new : CacheState) (outBuf : Bool) : Except Fault (LlcLine D × Option D) :=
  if b.cstate = .invalid then
    if outBuf then .error .outBufNotWritten else .ok (b,none)
  else if new = b.cstate ∧ outBuf then .ok (b,some b.data)
  else if b.cstate = .modified ∧ ¬ outBuf then .error .modifiedDataLost
  else
    match new with
    | .invalid => .ok ({ b with cstate := .invalid },if outBuf then some b.data else none)
    | .shared => .ok ({ b with cstate := .shared },if outBuf then some b.data else none)
    | .modified =>
      if outBuf then .error .outBufNotWritten else .ok ({ b with cstate := .modified },none)
    | _ => .error .badTransition

def wakeWaiters : CacheState → List Bool → CacheState × List Bool × List (LlcMsg D)
  | s, [] => (s,[],[])
  | s, exclusive :: rest =>
    if exclusive ∧ s = .shared then (.sharedUpgrading,exclusive :: rest,[.upgradeReq])
    else wakeWaiters (if exclusive ∧ s = .exclusive then .modified else s) rest

def wake : LlcLine D × List (LlcMsg D) :=
  let r := wakeWaiters b.cstate b.waiters
  ({ b with cstate := r.1, waiters := r.2.1 },r.2.2)

def requireWaiter : Except Fault Unit :=
  if b.waiters.isEmpty then .error .noWaiter else .ok ()

def processExRep (d : D) : Except Fault (LlcLine D × List (LlcMsg D)) := do
  b.requireWaiter
  let b ← b.insertCacheBlock .exclusive d
  return b.wake

def processShRep (d : D) : Except Fault (LlcLine D × List (LlcMsg D)) := do
  b.requireWaiter
  let b ← b.insertCacheBlock .shared d
  return b.wake

def processUpgradeRep : Except Fault (LlcLine D × List (LlcMsg D)) := do
  b.requireWaiter
  if b.cstate = .invalid then .error .upgradeInvalid
  else if b.cstate = .sharedUpgrading then
    let (b,_) ← b.updateCacheBlock .modified false
    return b.wake
  else .error .upgradeNotUpgrading

def processInvReq : Except Fault (LlcLine D × List (LlcMsg D)) :=
  if b.cstate = .invalid then .ok (b,[])
  else do
    let (b,_) ← b.updateCacheBlock .invalid false
    return (b,[.invRep])

def processFlushReq (junk : D) : Except Fault (LlcLine D × List (LlcMsg D)) :=
  if b.cstate = .invalid then .ok (b,[])
  else do
    let (b,out) ← b.updateCacheBlock .invalid true
    return (b,[.flushRep (out.getD junk)])

def processWbReq (junk : D) : Except Fault (LlcLine D × List (LlcMsg D)) :=
  if b.cstate = .invalid then .ok (b,[])
  else if b.cstate = .sharedUpgrading then .ok (b,[.wbRep junk])
  else do
    let (b,out) ← b.updateCacheBlock .shared true
    return (b,[.wbRep (out.getD junk)])

def handleMsgFromDramDirectory (junk : D) : DirMsg D → Except Fault (LlcLine D × List (LlcMsg D))
  | .exRep d => b.processExRep d
  | .shRep d => b.processShRep d
  | .upgradeRep => b.processUpgradeRep
  | .invReq => b.processInvReq
  | .flushReq => b.processFlushReq junk
  | .wbReq => b.processWbReq junk

def evict : Except Fault (LlcLine D × List (LlcMsg D)) :=
  match b.cstate with
  | .invalid => .error .disabled
  | .modified => .ok ({ b with cstate := .invalid },[.flushRep b.data])
  | .shared | .exclusive => .ok ({ b with cstate := .invalid },[.invRep])
  | .sharedUpgrading | .owned => .error .evictState

end LlcLine
end Coherence
