import SniperSim.Cache.CacheSetLRU
import Mathlib.Data.List.FinRange

namespace Coherence

inductive DirectoryState
  | uncached | shared | exclusive | owned | modified
deriving DecidableEq, Repr

def DirectoryState.isEM (s : DirectoryState) : Bool := s == .exclusive || s == .modified

inductive CoherencyProtocol
  | msi | mesi | mesif
deriving DecidableEq, Repr

inductive DirectoryType
  | fullMap | limitedNoBroadcast | limitless
deriving DecidableEq, Repr

structure Config where
  protocol : CoherencyProtocol
  directoryType : DirectoryType
  maxHwSharers : Nat
  nuca : Bool
deriving DecidableEq, Repr

inductive Fault
  | disabled | addSharerPresent | addResultFalse | removeSharerAbsent | ownerNotSharer | noDirectoryEntry
  | noReceiver | noSharers | cachedDataNotNull | requesterIsOwner | upgradeNotByOwner | uncachedWithSharers
  | unsupportedDirectoryState | unrecognizedRequest | noRequest | dramReplyState | invRepState | flushRepNotSharer
  | flushRepNotShared | wbRepNotSharer | wbRepNotShReq | wbRepNoRequest | exReqNotInvalid | lineAlreadyPresent
  | noWaiter | upgradeInvalid | upgradeNotUpgrading | modifiedDataLost | badTransition | outBufNotWritten
  | evictState
deriving DecidableEq, Repr

inductive DirMsg (D : Type)
  | exRep (data : D)
  | shRep (data : D)
  | upgradeRep | invReq | flushReq | wbReq
deriving DecidableEq, Repr

inductive LlcMsg (D : Type)
  | exReq | shReq | upgradeReq | invRep
  | flushRep (data : D)
  | wbRep (data : D)
deriving DecidableEq, Repr

inductive DramMsg (D : Type)
  | readReq
  | writeReq (data : D)
deriving DecidableEq, Repr

inductive ReqKind
  | ex | sh | upgrade | nullify
deriving DecidableEq, Repr

structure ShmemReq (n : Nat) where
  kind : ReqKind
  requester : Fin n
  waitForData : Bool
  forwardingFrom : Option (Fin n)
  dataBuf : Bool
deriving DecidableEq, Repr

def ShmemReq.new {n : Nat} (kind : ReqKind) (requester : Fin n) : ShmemReq n := ⟨kind,requester,false,none,false⟩

structure DirectoryEntry (n : Nat) where
  dstate : DirectoryState
  sharers : Fin n → Bool
  (owner forwarder : Option (Fin n))

structure LlcLine (D : Type) where
  cstate : CacheState
  data : D
  waiters : List Bool
deriving DecidableEq, Repr

structure Line (n : Nat) (D : Type) where
  entry : Option (DirectoryEntry n)
  reqs : List (ShmemReq n)
  nuca : Option D
  llc : Fin n → LlcLine D
  toDir : Fin n → List (LlcMsg D)
  toLlc : Fin n → List (DirMsg D)
  toDram : List (DramMsg D)
  fromDram : List D
  (dram lastWrite : D)

structure Env (n : Nat) (D : Type) where
  rand : Nat
  junk : D
  forwarder : Option (Fin n)

inductive MemOp (D : Type)
  | read | readEx
  | write (data : D)
deriving DecidableEq, Repr

inductive Label (n : Nat) (D : Type)
  | core (c : Fin n) (op : MemOp D)
  | evict (c : Fin n)
  | deliverLlc (c : Fin n) (junk : D)
  | deliverDir (c : Fin n) (env : Env n D)
  | dramServe
  | dramReply (env : Env n D)
  | replaceEntry (requester : Fin n) (env : Env n D)
  | nucaEvict (writeback : Bool)
  | nucaStray (data : D)

def Line.initial (n : Nat) {D : Type} (d : D) : Line n D where
  entry := none
  reqs := []
  nuca := none
  llc := fun _ => ⟨.invalid,d,[]⟩
  toDir := fun _ => []
  toLlc := fun _ => []
  toDram := []
  fromDram := []
  dram := d
  lastWrite := d

end Coherence
