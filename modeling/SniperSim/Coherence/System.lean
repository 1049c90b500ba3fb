import SniperSim.Coherence.Llc
import SniperSim.Coherence.Directory

open Function
namespace Coherence
variable {n : Nat} {D : Type}
namespace DirectoryEntry

def dropForwarder (e : DirectoryEntry n) (c : Fin n) : DirectoryEntry n :=
  if e.forwarder = some c then { e with forwarder := none } else e

def uncacheIfEmpty (e : DirectoryEntry n) : DirectoryEntry n :=
  if e.getNumSharers = 0 then { e with dstate := .uncached } else e

end DirectoryEntry

namespace Line

def resumeAfterInvRep (cfg : Config) (env : Env n D) (sender : Fin n) (e : DirectoryEntry n)
    (ln : Line n D) : Except Fault (Line n D) :=
  match ln.reqs with
  | [] => .ok ln
  | req :: _ =>
    match req.kind with
    | .ex => if e.dstate = .uncached then ln.runFront cfg env none else .ok ln
    | .upgrade =>
      if e.getNumSharers = 1 then
        if e.hasSharer req.requester then ln.runFront cfg env none else .ok ln
      else if e.getNumSharers = 0 then ln.runFront cfg env none
      else .ok ln
    | .sh =>
      if req.waitForData then .ok ln
      else if req.forwardingFrom.isSome ∧ req.forwardingFrom ≠ some sender then .ok ln
      else ln.runFront cfg env none
    | .nullify => if e.dstate = .uncached then ln.runFront cfg env none else .ok ln

def processInvRep (cfg : Config) (env : Env n D) (sender : Fin n) (ln : Line n D) : Except Fault (Line n D) := do
  let e ← ln.getEntry
  if e.dstate ≠ .shared ∧ e.dstate ≠ .exclusive then .error .invRepState
  let e ← e.removeSharer sender
  let e := (e.dropForwarder sender).uncacheIfEmpty
  resumeAfterInvRep cfg env sender e (ln.setEntry e)

def resumeAfterFlushRep (cfg : Config) (env : Env n D) (d : D) (e : DirectoryEntry n)
    (ln : Line n D) : Except Fault (Line n D) :=
  match ln.reqs with
  | [] => .ok (ln.sendDataToDram cfg d)
  | req :: _ =>
    match req.kind with
    | .ex => ln.runFront cfg env (some d)
    | .sh => (ln.sendDataToDram cfg d).runFront cfg env (some d)
    | .upgrade =>
      if e.getNumSharers = 0 then ln.runFront cfg env (some d)
      else .ok (ln.setFront { req with dataBuf := true })
    | .nullify => (ln.sendDataToDram cfg d).runFront cfg env none

def processFlushRep (cfg : Config) (env : Env n D) (sender : Fin n) (d : D) (ln : Line n D) :
    Except Fault (Line n D) := do
  let e ← ln.getEntry
  if !e.hasSharer sender then .error .flushRepNotSharer
  let e ← e.removeSharer sender
  let e := { e with forwarder := none, owner := none }
  if e.getNumSharers ≠ 0 ∧ e.dstate ≠ .shared then .error .flushRepNotShared
  let e := e.uncacheIfEmpty
  resumeAfterFlushRep cfg env d e (ln.setEntry e)

def processWbRep (cfg : Config) (env : Env n D) (sender : Fin n) (d : D) (ln : Line n D) : Except Fault (Line n D) := do
  let e ← ln.getEntry
  if !e.hasSharer sender then .error .wbRepNotSharer
  let ln := ln.setEntry { e with owner := none, dstate := .shared }
  match ln.reqs with
  | [] => .error .wbRepNoRequest
  | req :: _ =>
    if req.kind ≠ .sh then .error .wbRepNotShReq
    ln.runFront cfg env (some d)

def handleMsgFromL2Cache (cfg : Config) (env : Env n D) (sender : Fin n) (ln : Line n D) :
    LlcMsg D → Except Fault (Line n D)
  | .exReq => ln.enqueue cfg env (.new .ex sender)
  | .shReq => ln.enqueue cfg env (.new .sh sender)
  | .upgradeReq => ln.enqueue cfg env (.new .upgrade sender)
  | .invRep => ln.processInvRep cfg env sender
  | .flushRep d => ln.processFlushRep cfg env sender d
  | .wbRep d => ln.processWbRep cfg env sender d

def setLlc (ln : Line n D) (c : Fin n) (b : LlcLine D) (out : List (LlcMsg D)) : Line n D :=
  { ln with
    llc := update ln.llc c b
    toDir := update ln.toDir c (ln.toDir c ++ out) }

def step (cfg : Config) (ln : Line n D) : Label n D → Except Fault (Line n D)
  | .core c op => do
    let (b,out) ← (ln.llc c).processMemOp op
    return { ln.setLlc c b out with lastWrite := ((ln.llc c).written op).getD ln.lastWrite }
  | .evict c => do
    let (b,out) ← (ln.llc c).evict
    return ln.setLlc c b out
  | .deliverLlc c junk =>
    match ln.toLlc c with
    | [] => .error .disabled
    | m :: ms => do
      let (b,out) ← (ln.llc c).handleMsgFromDramDirectory junk m
      return { ln.setLlc c b out with toLlc := update ln.toLlc c ms }
  | .deliverDir c env =>
    match ln.toDir c with
    | [] => .error .disabled
    | m :: ms => handleMsgFromL2Cache cfg env c { ln with toDir := update ln.toDir c ms } m
  | .dramServe =>
    match ln.toDram with
    | [] => .error .disabled
    | .readReq :: ms => .ok { ln with toDram := ms, fromDram := ln.fromDram ++ [ln.dram] }
    | .writeReq d :: ms => .ok { ln with toDram := ms, dram := d }
  | .dramReply env =>
    match ln.fromDram with
    | [] => .error .disabled
    | d :: ds => processDRAMReply cfg env d { ln with fromDram := ds }
  | .replaceEntry requester env =>
    if ln.entry.isSome ∧ ln.reqs = [] then ln.enqueue cfg env (.new .nullify requester)
    else .error .disabled
  | .nucaEvict writeback =>
    match ln.nuca with
    | none => .error .disabled
    | some d => .ok { ln with nuca := none, toDram := ln.toDram ++ if writeback then [.writeReq d] else [] }
  | .nucaStray d =>
    if cfg.nuca then .ok { ln with toDram := ln.toDram ++ [.writeReq d] } else .error .disabled

end Line

abbrev System (Addr : Type) (n : Nat) (D : Type) := Addr → Line n D

namespace System
variable {Addr : Type} [DecidableEq Addr]

def initial (n : Nat) (contents : Addr → D) : System Addr n D := fun a => .initial n (contents a)

def step (cfg : Config) (s : System Addr n D) (l : Addr × Label n D) : Except Fault (System Addr n D) := do
  let ln ← (s l.1).step cfg l.2
  return update s l.1 ln

end System
end Coherence
