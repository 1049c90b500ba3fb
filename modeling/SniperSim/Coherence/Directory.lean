import SniperSim.Coherence.Types

namespace Coherence
variable {n : Nat} {D : Type}
variable (cfg : Config)
namespace DirectoryEntry

def create (forwarder : Option (Fin n)) : DirectoryEntry n := ⟨.uncached,fun _ => false, none, forwarder⟩

def hasSharer (e : DirectoryEntry n) (c : Fin n) : Bool := e.sharers c

def getSharersList (e : DirectoryEntry n) : List (Fin n) := (List.finRange n).filter e.sharers

def getNumSharers (e : DirectoryEntry n) : Nat := e.getSharersList.length

def useMaxHwSharers (n : Nat) : Nat :=
  match cfg.directoryType with
  | .fullMap => n
  | _ => cfg.maxHwSharers

def addSharer (e : DirectoryEntry n) (c : Fin n) : Except Fault (DirectoryEntry n × Bool) :=
  let added := { e with sharers := Function.update e.sharers c true }
  if e.sharers c then .error .addSharerPresent
  else if cfg.directoryType = .limitless then .ok (added,true)
  else if e.getNumSharers ≥ useMaxHwSharers cfg n then .ok (e,false)
  else .ok (added,true)

def removeSharer (e : DirectoryEntry n) (c : Fin n) : Except Fault (DirectoryEntry n) :=
  if e.sharers c then .ok { e with sharers := Function.update e.sharers c false }
  else .error .removeSharerAbsent

def setOwner (e : DirectoryEntry n) (c : Fin n) : Except Fault (DirectoryEntry n) :=
  if e.sharers c then .ok { e with owner := some c } else .error .ownerNotSharer

def getOneSharer (rand : Nat) (e : DirectoryEntry n) : Except Fault (Fin n) :=
  let index := if cfg.directoryType = .limitless then 0 else rand % e.getNumSharers
  match e.getSharersList[index]? with
  | some c => .ok c
  | none => .error .noSharers

end DirectoryEntry

namespace Line
variable (ln : Line n D)

def setEntry (e : DirectoryEntry n) : Line n D := { ln with entry := some e }

def send (c : Fin n) (m : DirMsg D) : Line n D :=
  { ln with toLlc := Function.update ln.toLlc c (ln.toLlc c ++ [m]) }

def sendAll (targets : List (Fin n × DirMsg D)) : Line n D := targets.foldl (fun ln t => ln.send t.1 t.2) ln

def sendOwner (e : DirectoryEntry n) (m : DirMsg D) : Except Fault (Line n D) :=
  match e.owner with
  | some c => .ok (ln.send c m)
  | none => .error .noReceiver

def getEntry : Except Fault (DirectoryEntry n) :=
  match ln.entry with
  | some e => .ok e
  | none => .error .noDirectoryEntry

variable (env : Env n D)

def allocateEntry (ln : Line n D) : DirectoryEntry n := ln.entry.getD (.create env.forwarder)

def setFront (req : ShmemReq n) : Line n D :=
  { ln with reqs := req :: ln.reqs.tail }

def front : Except Fault (ShmemReq n) :=
  match ln.reqs with
  | req :: _ => .ok req
  | [] => .error .noRequest

def sendDataToNUCA (d : D) : Line n D :=
  if cfg.nuca then { ln with nuca := some d } else ln

def sendDataToDram (d : D) : Line n D :=
  if cfg.nuca then ln.sendDataToNUCA cfg d else { ln with toDram := ln.toDram ++ [.writeReq d] }

theorem sendDataToNUCA_frame (d : D) : ∃ nuca, ln.sendDataToNUCA cfg d = { ln with nuca := nuca } := by
  rw [sendDataToNUCA]
  split_ifs
  · exact ⟨_,rfl⟩
  · exact ⟨_,rfl⟩

theorem sendDataToDram_frame (d : D) :
    ∃ nuca toDram, ln.sendDataToDram cfg d = { ln with nuca := nuca, toDram := toDram } := by
  obtain ⟨nuca,he⟩ := sendDataToNUCA_frame cfg ln d
  rw [sendDataToDram]
  split_ifs
  · exact ⟨nuca,_,he⟩
  · exact ⟨_,_,rfl⟩

def nucaRead : Option D := if cfg.nuca then ln.nuca else none

def retrieveDataAndSendToL2Cache (reply : D → DirMsg D) (req : ShmemReq n)
    (e : DirectoryEntry n) (cachedData : Option D) (ln : Line n D) : Line n D × Bool :=
  match cachedData with
  | some d => ((ln.setEntry { e with forwarder := some req.requester }).send req.requester (reply d),true)
  | none =>
    match ln.nucaRead cfg with
    | some d => ((ln.setEntry e).send req.requester (reply d),true)
    | none =>
      match if cfg.protocol = .mesif ∧ req.forwardingFrom = none ∧ e.dstate = .shared
          then e.forwarder else none with
      | some f => (((ln.setEntry e).setFront { req with forwardingFrom := some f }).send f .wbReq,false)
      | none =>
        ({ (ln.setEntry e).setFront { req with waitForData := true } with
          toDram := ln.toDram ++ [.readReq] },false)

def requireNoData (cachedData : Option D) : Except Fault Unit :=
  if cachedData.isSome then .error .cachedDataNotNull else .ok ()

def addOnlySharer (e : DirectoryEntry n) (c : Fin n) (dstate : DirectoryState) : Except Fault (DirectoryEntry n) := do
  let (e,added) ← e.addSharer cfg c
  if added then
    let e ← e.setOwner c
    return { e with dstate := dstate }
  else .error .addResultFalse

def processExReq (req : ShmemReq n) (cachedData : Option D) (ln : Line n D) : Except Fault (Line n D × Bool) := do
  let e := ln.allocateEntry env
  match e.dstate with
  | .exclusive | .modified =>
    requireNoData cachedData
    let ln ← (ln.setEntry e).sendOwner e .flushReq
    return (ln,false)
  | .shared =>
    requireNoData cachedData
    return ((ln.setEntry e).sendAll (e.getSharersList.map fun c => (c,.invReq)),false)
  | .uncached =>
    let e ← addOnlySharer cfg e req.requester .modified
    return ln.retrieveDataAndSendToL2Cache cfg .exRep req e cachedData
  | .owned => .error .unsupportedDirectoryState

def processShReq (req : ShmemReq n) (cachedData : Option D) (ln : Line n D) : Except Fault (Line n D × Bool) := do
  let e := ln.allocateEntry env
  match e.dstate with
  | .exclusive =>
    if e.owner = some req.requester then .error .requesterIsOwner
    requireNoData cachedData
    let ln ← (ln.setEntry e).sendOwner e .wbReq
    return (ln,false)
  | .modified =>
    requireNoData cachedData
    let ln ← (ln.setEntry e).sendOwner e .wbReq
    return (ln,false)
  | .shared =>
    if e.hasSharer req.requester then
      return ln.retrieveDataAndSendToL2Cache cfg .shRep req e cachedData
    else
      let (e',added) ← e.addSharer cfg req.requester
      if added then return ln.retrieveDataAndSendToL2Cache cfg .shRep req e' cachedData
      else
        let c ← e.getOneSharer cfg env.rand
        return ((ln.setEntry e).send c .invReq,false)
  | .uncached =>
    if cfg.protocol = .msi then
      let e ← addOnlySharer cfg e req.requester .shared
      return ln.retrieveDataAndSendToL2Cache cfg .shRep req e cachedData
    else
      let e ← addOnlySharer cfg e req.requester .exclusive
      return ln.retrieveDataAndSendToL2Cache cfg .exRep req e cachedData
  | .owned => .error .unsupportedDirectoryState

def upgradeTargets (e : DirectoryEntry n) (requester : Fin n) : List (Fin n × DirMsg D) :=
  (e.getSharersList.zipIdx.filter fun t => t.1 != requester).map fun t =>
    (t.1,if !e.hasSharer requester && t.2 == 0 then .flushReq else .invReq)

def upgradeOwned (req : ShmemReq n) (e : DirectoryEntry n) (ln : Line n D) : Except Fault (Line n D × Bool) :=
  match e.getSharersList.head? with
  | none => .error .noSharers
  | some first =>
    if first = req.requester then
      if e.owner = some req.requester then
        return ((ln.setEntry { e with dstate := .modified }).send req.requester .upgradeRep,true)
      else .error .upgradeNotByOwner
    else do
      let ln ← (ln.setEntry e).sendOwner e .flushReq
      return (ln,false)

def processUpgradeReq (req : ShmemReq n) (cachedData : Option D) (ln : Line n D) : Except Fault (Line n D × Bool) := do
  let e := ln.allocateEntry env
  match e.dstate with
  | .exclusive | .modified => ln.upgradeOwned req e
  | .shared =>
    if e.getSharersList = [req.requester] then
      let e ← e.setOwner req.requester
      return ((ln.setEntry { e with dstate := .modified }).send req.requester .upgradeRep,true)
    else return ((ln.setEntry e).sendAll (upgradeTargets e req.requester),false)
  | .uncached =>
    if e.getSharersList = [] then
      let e ← addOnlySharer cfg e req.requester .modified
      let data := cachedData.or (if req.dataBuf then some env.junk else none)
      return ln.retrieveDataAndSendToL2Cache cfg .exRep req e data
    else .error .uncachedWithSharers
  | .owned => .error .unsupportedDirectoryState

def processNullifyReq : Except Fault (Line n D × Bool) := do
  let e ← ln.getEntry
  match e.dstate with
  | .exclusive | .modified =>
    let ln ← ln.sendOwner e .flushReq
    return (ln,false)
  | .shared => return (ln.sendAll (e.getSharersList.map fun c => (c,.invReq)),false)
  | .uncached => return ({ ln with entry := none },true)
  | .owned => .error .unsupportedDirectoryState

def processReq (req : ShmemReq n) (cachedData : Option D) (ln : Line n D) : Except Fault (Line n D × Bool) :=
  match req.kind with
  | .ex => ln.processExReq cfg env req cachedData
  | .sh => ln.processShReq cfg env req cachedData
  | .upgrade => ln.processUpgradeReq cfg env req cachedData
  | .nullify => ln.processNullifyReq

def processNextReq (cfg : Config) (env : Env n D) : List (ShmemReq n) → Line n D → Except Fault (Line n D)
  | [], ln => .ok { ln with reqs := [] }
  | req :: rest, ln =>
    if req.kind = .nullify then .error .unrecognizedRequest
    else do
      let (ln,done) ← processReq cfg env req none { ln with reqs := req :: rest }
      if done then processNextReq cfg env rest ln else return ln

def runFront (cachedData : Option D) (ln : Line n D) : Except Fault (Line n D) := do
  let req ← ln.front
  let (ln,done) ← ln.processReq cfg env req cachedData
  if done then processNextReq cfg env ln.reqs.tail ln else return ln

def enqueue (req : ShmemReq n) (ln : Line n D) : Except Fault (Line n D) :=
  let ln' := { ln with reqs := ln.reqs ++ [req] }
  if ln.reqs.isEmpty then ln'.runFront cfg env none else .ok ln'

def processDRAMReply (d : D) (ln : Line n D) : Except Fault (Line n D) := do
  let req ← ln.front
  let e ← ln.getEntry
  let reply ←
    match req.kind with
    | .sh =>
      if e.dstate = .exclusive then .ok (DirMsg.exRep d)
      else if e.dstate = .shared then .ok (.shRep d)
      else .error .dramReplyState
    | .ex => if e.dstate = .modified then .ok (.exRep d) else .error .dramReplyState
    | .upgrade => .ok (.exRep d)
    | .nullify => .error .unrecognizedRequest
  processNextReq cfg env ln.reqs.tail ((ln.send req.requester reply).sendDataToNUCA cfg d)

end Line
end Coherence
