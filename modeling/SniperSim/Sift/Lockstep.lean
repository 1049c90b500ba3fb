import SniperSim.Library.Duplex
import SniperSim.Sift.Writer

open LittleEndian
namespace Sift

inductive ResponseType
  | syscallResponse | newThreadResponse | memoryRequest | memoryResponse | joinResponse | syncResponse
  | magicInstructionResponse | emuResponse | forkResponse
deriving DecidableEq, Repr

def ResponseType.code : ResponseType → Byte
  | .syscallResponse => 3
  | .newThreadResponse => 5
  | .memoryRequest => 6
  | .memoryResponse => 7
  | .joinResponse => 9
  | .syncResponse => 13
  | .magicInstructionResponse => 16
  | .emuResponse => 20
  | .forkResponse => 22

inductive MemoryLockType
  | invalidLock | noLock | lock | unlock
deriving DecidableEq, Repr

def MemoryLockType.code : MemoryLockType → Nat
  | .invalidLock => 0
  | .noLock => 1
  | .lock => 2
  | .unlock => 3

def MemoryLockType.ofCode (n : Nat) : Option MemoryLockType :=
  [.invalidLock,.noLock,.lock,.unlock].find? (·.code == n)

inductive MemoryOpType
  | invalidOp | read | write
deriving DecidableEq, Repr

def MemoryOpType.code : MemoryOpType → Nat
  | .invalidOp => 0
  | .read => 1
  | .write => 2

def MemoryOpType.ofCode (n : Nat) : Option MemoryOpType := [.invalidOp,.read,.write].find? (·.code == n)

structure RecordHeader where
  (zero type : Byte)
  size : Nat

def encodeRecord (type : Byte) (size : Nat) : List Byte := 0 :: type :: encode 4 size

def decodeRecord (bs : List Byte) : RecordHeader := ⟨bs.getD 0 0,bs.getD 1 0,decode (bs.drop 2)⟩

abbrev EmuReply := BitVec 384

def modeUnknown : BitVec 32 := 0

inductive RequestKind
  | instructionCount | newThread | syscall | join | sync | fork | magic | emulate
deriving DecidableEq, Repr

namespace RequestKind

@[reducible] def Reply : RequestKind → Type
  | .syscall | .magic => BitVec 64
  | .emulate => Bool × EmuReply
  | .instructionCount | .newThread | .join | .sync | .fork => BitVec 32

def recordType : RequestKind → RecOtherType
  | .instructionCount => .instructionCount
  | .newThread => .newThread
  | .syscall => .syscallRequest
  | .join => .join
  | .sync => .sync
  | .fork => .fork
  | .magic => .magicInstruction
  | .emulate => .emu

def ofRecordType : RecOtherType → Option RequestKind
  | .instructionCount => some .instructionCount
  | .newThread => some .newThread
  | .syscallRequest => some .syscall
  | .join => some .join
  | .sync => some .sync
  | .fork => some .fork
  | .magicInstruction => some .magic
  | .emu => some .emulate
  | _ => none

def responseType : RequestKind → ResponseType
  | .instructionCount => .syncResponse
  | .newThread => .newThreadResponse
  | .syscall => .syscallResponse
  | .join => .joinResponse
  | .sync => .syncResponse
  | .fork => .forkResponse
  | .magic => .magicInstructionResponse
  | .emulate => .emuResponse

def encodeReply : (k : RequestKind) → k.Reply → List Byte
  | .syscall, value | .magic, value => encode 8 value.toNat
  | .emulate, value => (if value.1 then 1 else 0) :: encode 48 value.2.toNat
  | .instructionCount, value | .newThread, value | .join, value | .sync, value | .fork, value => encode 4 value.toNat

def decodeReply (res : EmuReply) : (k : RequestKind) → List Byte → k.Reply
  | .syscall, bs | .magic, bs => BitVec.ofNat 64 (decode bs)
  | .emulate, bs => (bs.getD 0 0 != 0,BitVec.ofNat 384 (decode
      (bs.drop 1 ++ (encode 48 res.toNat).drop (bs.length - 1))))
  | .instructionCount, bs | .newThread, bs | .join, bs | .sync, bs | .fork, bs => BitVec.ofNat 32 (decode bs)

end RequestKind

inductive Request
  | instructionCount (icount : BitVec 32)
  | newThread
  | syscall (number : BitVec 16) (data : List Byte) (fits : data.length < 4294967296)
  | join (thread : BitVec 32)
  | sync | fork
  | magic (a b c : BitVec 64)
  | emulate (type : BitVec 16) (req : BitVec 64) (res : EmuReply)

namespace Request

def kind : Request → RequestKind
  | .instructionCount _ => .instructionCount
  | .newThread => .newThread
  | .syscall _ _ _ => .syscall
  | .join _ => .join
  | .sync => .sync
  | .fork => .fork
  | .magic _ _ _ => .magic
  | .emulate _ _ _ => .emulate

def data : Request → List Byte
  | .instructionCount icount => encode 4 icount.toNat
  | .syscall number data _ => encode 2 number.toNat ++ data
  | .join thread => encode 4 thread.toNat
  | .magic a b c => encodeAddress a ++ (encodeAddress b ++ encodeAddress c)
  | .emulate type req _ => encode 2 type.toNat ++ encode 8 req.toNat
  | .newThread | .sync | .fork => []

def record (r : Request) : List Byte := encodeOther r.kind.recordType r.data.length ++ r.data

def res : Request → EmuReply
  | .emulate _ _ res => res
  | _ => 0

end Request

def sysWrite : BitVec 16 := 1

def sysFutex : BitVec 16 := 202

def argumentOffset (number : BitVec 16) : Option Nat :=
  if number = sysFutex then some 0 else if number = sysWrite then some 8 else none

def argument (data : List Byte) (offset : Nat) : Address := decodeAddress ((data.drop offset).take 8)

-- force_read: the argument lies within the data, and an int can be read where it points
def Request.reads (readable : Address → Bool) : Request → Bool
  | .syscall number data _ => (argumentOffset number).all fun k => k + 8 ≤ data.length && readable (argument data k)
  | _ => true

def Writer.sendArgumentMapping (cfg : WriterConfig) (lookup : Address → Address) (w : Writer) :
    Request → Writer × List Byte
  | .syscall number data _ =>
    match argumentOffset number with
    | some k => w.sendVa2pa cfg lookup (argument data k)
    | none => (w,[])
  | _ => (w,[])

def Writer.send (cfg : WriterConfig) (lookup : Address → Address) (w : Writer) (r : Request) : Writer × List Byte :=
  ((w.sendArgumentMapping cfg lookup r).1,(w.sendArgumentMapping cfg lookup r).2 ++ r.record)

structure Access where
  lock : MemoryLockType
  op : MemoryOpType
  addr : Address
  buffer : List Byte
  fits : buffer.length < 4294967296

namespace Access

def payload (a : Access) : List Byte :=
  match a.op with
  | .write => a.buffer
  | _ => []

def fields (a : Access) : List Byte :=
  encodeAddress a.addr ++ (encode 4 a.buffer.length ++ (encode 4 a.lock.code ++ encode 4 a.op.code))

def request (a : Access) : List Byte :=
  encodeRecord ResponseType.memoryRequest.code (20 + a.payload.length) ++ (a.fields ++ a.payload)

end Access

inductive Handler (α : Type)
  | reply (value : α)
  | access (a : Access) (next : Bool → List Byte → Handler α)

structure MemoryCallback (M : Type) where
  run : M → Option MemoryLockType → MemoryOpType → Address → List Byte → M × List Byte
  length_run : ∀ m lock op addr data, (run m lock op addr data).2.length = data.length

structure Served where
  lock : Option MemoryLockType
  op : MemoryOpType
  addr : Address
  (data answer : List Byte)

inductive WriterPhase (k : RequestKind)
  | header
  | memoryRequest (size : Nat)
  | payload (lock : Option MemoryLockType) (addr : Address) (size : Nat)
  | reply (size : Nat)
  | returned (value : k.Reply)
  | aborted

structure ReplyLoop (k : RequestKind) where
  zeroSet : WriterPhase k
  response : ResponseType
  accepts : Nat → Bool
  rejected : WriterPhase k
  serves : Bool
  other : WriterPhase k

def instructionCountLoop : ReplyLoop .instructionCount :=
  ⟨.returned modeUnknown,.syncResponse,(· == 4),.returned modeUnknown,false,.returned modeUnknown⟩

def newThreadLoop : ReplyLoop .newThread :=
  ⟨.returned (-1),.newThreadResponse,(· == 4),.returned (-1),false,.returned (-1)⟩

def syscallLoop : ReplyLoop .syscall := ⟨.aborted,.syscallResponse,(· == 8),.returned 1,true,.header⟩

def joinLoop : ReplyLoop .join := ⟨.returned (-1),.joinResponse,(· == 4),.returned (-1),false,.returned (-1)⟩

def syncLoop : ReplyLoop .sync :=
  ⟨.returned modeUnknown,.syncResponse,(· == 4),.returned modeUnknown,true,.returned modeUnknown⟩

def forkLoop : ReplyLoop .fork := ⟨.returned (-1),.forkResponse,(· == 4),.returned (-1),false,.returned (-1)⟩

def magicLoop : ReplyLoop .magic := ⟨.aborted,.magicInstructionResponse,(· == 8),.aborted,true,.aborted⟩

def emulateLoop (res : EmuReply) : ReplyLoop .emulate :=
  ⟨.aborted,.emuResponse,(· ≤ 49),.aborted,true,.returned (false,res)⟩

def Request.loop : (r : Request) → ReplyLoop r.kind
  | .instructionCount _ => instructionCountLoop
  | .newThread => newThreadLoop
  | .syscall _ _ _ => syscallLoop
  | .join _ => joinLoop
  | .sync => syncLoop
  | .fork => forkLoop
  | .magic _ _ _ => magicLoop
  | .emulate _ _ res => emulateLoop res

def ReplyLoop.read {k : RequestKind} (l : ReplyLoop k) (rec : RecordHeader) : WriterPhase k :=
  if rec.zero ≠ 0 then l.zeroSet
  else if rec.type = l.response.code then
    if l.accepts rec.size then .reply rec.size else l.rejected
  else if l.serves ∧ rec.type = ResponseType.memoryRequest.code then
    if rec.size < 20 then .header else .memoryRequest rec.size
  else l.other

def encodeMemoryResponse (op : MemoryOpType) (addr : Address) (data : List Byte) : List Byte :=
  encodeRecord ResponseType.memoryResponse.code (12 + data.length) ++ (encodeAddress addr ++ (encode 4 op.code ++ data))

structure MemoryFields where
  addr : Address
  size : Nat
  lock : Option MemoryLockType
  op : Option MemoryOpType

def decodeFields (bs : List Byte) : MemoryFields where
  addr := decodeAddress (bs.take 8)
  size := decode ((bs.drop 8).take 4)
  lock := MemoryLockType.ofCode (decode ((bs.drop 12).take 4))
  op := MemoryOpType.ofCode (decode (bs.drop 16))

structure WriterSide (M : Type) (k : RequestKind) where
  phase : WriterPhase k
  memory : M
  served : List Served

namespace WriterSide
variable {M : Type} {k : RequestKind}

def again (w : WriterSide M k) : WriterSide M k × List Byte := ({ w with phase := .header },[])

def perform (cb : MemoryCallback M) (w : WriterSide M k) (lock : Option MemoryLockType)
    (op : MemoryOpType) (addr : Address) (data : List Byte) : WriterSide M k :=
  ⟨.header,(cb.run w.memory lock op addr data).1,
    w.served ++ [⟨lock,op,addr,data,(cb.run w.memory lock op addr data).2⟩]⟩

def answerRead (cb : MemoryCallback M) (w : WriterSide M k) (f : MemoryFields) : WriterSide M k × List Byte :=
  let data := List.replicate f.size 0
  (w.perform cb f.lock .read f.addr data,encodeMemoryResponse .read f.addr (cb.run w.memory f.lock .read f.addr data).2)

def answerWrite (cb : MemoryCallback M) (w : WriterSide M k) (lock : Option MemoryLockType)
    (addr : Address) (data : List Byte) : WriterSide M k × List Byte :=
  (w.perform cb lock .write addr data,encodeMemoryResponse .write addr [])

def handleMemoryRequest (handleAccessMemoryFunc : Option (MemoryCallback M)) (w : WriterSide M k)
    (payloadSize : Nat) (f : MemoryFields) : WriterSide M k × List Byte :=
  match handleAccessMemoryFunc, f.op with
  | some cb, some .read =>
    if payloadSize ≠ 0 then w.again else if f.size = 0 then w.again else w.answerRead cb f
  | some _, some .write =>
    if payloadSize = 0 then w.again
    else if payloadSize ≠ f.size then w.again
    else ({ w with phase := .payload f.lock f.addr payloadSize },[])
  | _, _ => w.again

def replySize : RequestKind → Nat → Nat
  | .emulate, size => 1 + (size + 18446744073709551615) % 18446744073709551616
  | _, size => size

def need (w : WriterSide M k) : Option Nat :=
  match w.phase with
  | .header => some 6
  | .memoryRequest _ => some 20
  | .payload _ _ size => some size
  | .reply size => some (replySize k size)
  | .returned _ | .aborted => none

def feed (handleAccessMemoryFunc : Option (MemoryCallback M)) (l : ReplyLoop k) (res : EmuReply)
    (w : WriterSide M k) (bs : List Byte) : WriterSide M k × List Byte :=
  match w.phase with
  | .header => ({ w with phase := l.read (decodeRecord bs) },[])
  | .memoryRequest size => w.handleMemoryRequest handleAccessMemoryFunc (size - 20) (decodeFields bs)
  | .payload lock addr _ =>
    match handleAccessMemoryFunc with
    | some cb => w.answerWrite cb lock addr bs
    | none => w.again
  | .reply _ => ({ w with phase := .returned (k.decodeReply res bs) },[])
  | .returned _ | .aborted => (w,[])

end WriterSide

def writerParty {M : Type} (handleAccessMemoryFunc : Option (MemoryCallback M)) (r : Request) :
    Duplex.Party Byte (WriterSide M r.kind) :=
  ⟨WriterSide.need,WriterSide.feed handleAccessMemoryFunc r.loop r.res⟩

structure Handlers where
  handleInstructionCount : Option (BitVec 32 → Handler (BitVec 32))
  handleNewThread : Option (Handler (BitVec 32))
  handleSyscall : Option (BitVec 16 → List Byte → Handler (BitVec 64))
  handleJoin : Option (BitVec 32 → Handler (BitVec 32))
  handleFork : Option (Handler (BitVec 32))
  handleMagic : Option (BitVec 64 → BitVec 64 → BitVec 64 → Handler (BitVec 64))
  handleEmu : Option (BitVec 16 → BitVec 64 → Handler (Bool × EmuReply))

def Handlers.handle (h : Handlers) : (k : RequestKind) → List Byte → Option (Handler k.Reply)
  | .instructionCount, bs => some ((h.handleInstructionCount.map
      (· (BitVec.ofNat 32 (decode bs)))).getD (.reply modeUnknown))
  | .newThread, _ => h.handleNewThread
  | .syscall, bs => h.handleSyscall.map (· (BitVec.ofNat 16 (decode (bs.take 2))) (bs.drop 2))
  | .join, bs => h.handleJoin.map (· (BitVec.ofNat 32 (decode bs)))
  | .sync, _ => some ((h.handleInstructionCount.map (· 0)).getD (.reply modeUnknown))
  | .fork, _ => h.handleFork
  | .magic, bs => some ((h.handleMagic.map (· (decodeAddress (bs.take 8))
      (decodeAddress ((bs.drop 8).take 8)) (decodeAddress (bs.drop 16)))).getD
      (.reply (decodeAddress (bs.take 8))))
  | .emulate, bs => some ((h.handleEmu.map (· (BitVec.ofNat 16 (decode (bs.take 2)))
      (BitVec.ofNat 64 (decode (bs.drop 2))))).getD (.reply (false,0)))

inductive ReaderPhase
  | peek | header
  | data (k : RequestKind) (size : Nat)
  | mapping
  | skip (size : Nat)
  | response (k : RequestKind) (a : Access) (next : Bool → List Byte → Handler k.Reply)
  | responseFields (k : RequestKind) (a : Access) (next : Bool → List Byte → Handler k.Reply) (size : Nat)
  | responseData (k : RequestKind) (a : Access) (next : Bool → List Byte → Handler k.Reply)
  | elsewhere | aborted

structure AccessResult where
  access : Access
  ok : Bool
  buffer : List Byte

structure ReaderSide where
  phase : ReaderPhase
  results : List AccessResult

namespace RequestKind

def accepts : RequestKind → Nat → Bool
  | .instructionCount, size | .join, size => size == 4
  | .syscall, size => 2 < size
  | .newThread, size | .sync, size | .fork, size => size == 0
  | .magic, size => size == 24
  | .emulate, size => size ≤ 10

def dataSize : RequestKind → Nat → Nat
  | .emulate, size => 2 + (size + 18446744073709551614) % 18446744073709551616
  | _, size => size

end RequestKind

namespace ReaderSide

def proceed (k : RequestKind) (results : List AccessResult) : Handler k.Reply → ReaderSide × List Byte
  | .reply value => (⟨.peek,results⟩,
      encodeRecord k.responseType.code (k.encodeReply value).length ++ k.encodeReply value)
  | .access a next => (⟨.response k a next,results⟩,a.request)

def accessed (results : List AccessResult) (k : RequestKind) (a : Access)
    (next : Bool → List Byte → Handler k.Reply) (ok : Bool) (buffer : List Byte) : ReaderSide × List Byte :=
  proceed k (results ++ [⟨a,ok,buffer⟩]) (next ok buffer)

def readOther (size : Nat) : Option RecOtherType → ReaderPhase
  | some .logical2Physical => if size = 16 then .mapping else .aborted
  | some type =>
    match RequestKind.ofRecordType type with
    | some k => if k.accepts size then .data k size else .aborted
    | none => .elsewhere
  | none => .skip size

def checkAnswer (results : List AccessResult) (k : RequestKind) (a : Access)
    (next : Bool → List Byte → Handler k.Reply) (addr : Address) (payloadSize : Nat) : ReaderSide × List Byte :=
  if addr ≠ a.addr then accessed results k a next false a.buffer
  else
    match a.op with
    | .read =>
      if a.buffer.length ≠ payloadSize then accessed results k a next false a.buffer
      else (⟨.responseData k a next,results⟩,[])
    | .write => accessed results k a next (payloadSize == 0) a.buffer
    | .invalidOp => accessed results k a next false a.buffer

def need (r : ReaderSide) : Option Nat :=
  match r.phase with
  | .peek => some 1
  | .header => some 5
  | .data k size => some (k.dataSize size)
  | .mapping => some 16
  | .skip size => some size
  | .response _ _ _ => some 6
  | .responseFields _ _ _ _ => some 12
  | .responseData _ a _ => some a.buffer.length
  | .elsewhere | .aborted => none

def feed (h : Handlers) (r : ReaderSide) (bs : List Byte) : ReaderSide × List Byte :=
  match r.phase with
  | .peek => ({ r with phase := if bs.getD 0 0 = 0 then .header else .elsewhere },[])
  | .header => ({ r with
      phase := readOther (decode (bs.drop 1)) (RecOtherType.ofCode (bs.getD 0 0)) },[])
  | .data k _ =>
    match h.handle k bs with
    | some handler => proceed k r.results handler
    | none => ({ r with phase := .aborted },[])
  | .mapping | .skip _ => ({ r with phase := .peek },[])
  | .response k a next =>
    if (decodeRecord bs).type ≠ ResponseType.memoryResponse.code then
      accessed r.results k a next false a.buffer
    else ({ r with phase := .responseFields k a next (decodeRecord bs).size },[])
  | .responseFields k a next size =>
    checkAnswer r.results k a next (decodeAddress (bs.take 8)) ((size + 4294967284) % 4294967296)
  | .responseData k a next => accessed r.results k a next true bs
  | .elsewhere | .aborted => (r,[])

end ReaderSide

def readerParty (h : Handlers) : Duplex.Party Byte ReaderSide := ⟨ReaderSide.need,ReaderSide.feed h⟩

section
variable {M : Type} (cfg : WriterConfig) (lookup : Address → Address) (readable : Address → Bool) (w : Writer)
  (handleAccessMemoryFunc : Option (MemoryCallback M)) (handlers : Handlers) (r : Request) (m : M)

abbrev Exchange (M : Type) (k : RequestKind) := Duplex.Link Byte (WriterSide M k) ReaderSide

def Exchange.start : Exchange M r.kind :=
  if r.reads readable then ⟨⟨.header,m,[]⟩,⟨.peek,[]⟩,(w.send cfg lookup r).2,[]⟩
  else ⟨⟨.aborted,m,[]⟩,⟨.peek,[]⟩,[],[]⟩

def Exchange.next : Exchange M r.kind → Duplex.Side → Option (Exchange M r.kind) :=
  Duplex.next (writerParty handleAccessMemoryFunc r) (readerParty handlers)
end
end Sift
