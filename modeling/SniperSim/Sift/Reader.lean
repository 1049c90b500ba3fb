import SniperSim.Sift.Format

open Function
namespace Sift

structure StaticInstruction where
  addr : Address
  size : Byte
  data : List Byte
  next : Option Nat

structure Instruction where
  (sinst numAddresses : Nat)
  addresses : Nat → Address
  (isBranch taken isPredicate executed : Bool)
  isa : Nat

inductive ReadFault
  | initStream | streamFailed | recordSize | pageMissing | sizeMismatch | endless
deriving DecidableEq, Repr

structure Reader where
  input : List Byte
  opened : Bool
  lastAddress : Address
  icache : Address → Option (Nat → Byte)
  sinsts : List StaticInstruction
  scache : Address → Option Nat
  vcache : Address → Option Address
  (traceHasPa seenEnd : Bool)
  lastSinst : Option Nat
  isa : Nat

namespace Reader

def create (input : List Byte) : Reader where
  input := input
  opened := false
  lastAddress := 0
  icache := fun _ => none
  sinsts := []
  scache := fun _ => none
  vcache := fun _ => none
  traceHasPa := false
  seenEnd := false
  lastSinst := none
  isa := 0

variable (r : Reader)

def take (n : Nat) : Except ReadFault (List Byte × Reader) :=
  match ByteStream.split n r.input with
  | some (bytes,rest) => .ok (bytes,{ r with input := rest })
  | none => .error .streamFailed

def takeNat (n : Nat) : Except ReadFault (Nat × Reader) := do
  let (bytes,r) ← r.take n
  return (LittleEndian.decode bytes,r)

def takeAddress : Except ReadFault (Address × Reader) := do
  let (bytes,r) ← r.take 8
  return (decodeAddress bytes,r)

def initStream : Except ReadFault Reader := do
  let (magic,r) ← r.takeNat 4
  let (_,r) ← r.takeNat 4
  let (options,r) ← r.takeNat 8
  if magic = magicNumber ∧ options / 16 = 0 ∧ options.testBit 0 = false then
    return { r with opened := true, traceHasPa := options.testBit 3 }
  else .error .initStream

def overwrite (page : Nat → Byte) (offset : Nat) (bytes : List Byte) (o : Nat) : Byte :=
  if offset ≤ o ∧ o < offset + bytes.length then bytes.getD (o - offset) 0 else page o

def readIcacheVariable (fresh : Address → Nat → Byte) : Nat → Reader → Address → Nat → Except ReadFault Reader
  | 0, r, _, sizeLeft => if sizeLeft = 0 then .ok r else .error .endless
  | fuel + 1, r, address, sizeLeft =>
    if sizeLeft = 0 then .ok r
    else do
      let baseAddr := address &&& icachePageMask
      let page := (r.icache baseAddr).getD (fresh baseAddr)
      let offset := (address &&& icacheOffsetMask).toNat
      let readAmount := min sizeLeft (icacheSize - offset)
      let (bytes,r) ← r.take readAmount
      let icache := update r.icache baseAddr (some (overwrite page offset bytes))
      readIcacheVariable fresh fuel { r with icache := icache }
        (baseAddr + BitVec.ofNat 64 icacheSize) (sizeLeft - readAmount)

def skip (n : Nat) : Except ReadFault Reader := do
  let (_,r) ← r.take n
  return r

def skipText : Except ReadFault Reader := do
  let (length,r) ← r.takeNat 2
  r.skip length

def readRoutineAnnounce : Except ReadFault Reader := do
  let r ← r.skip 8
  let r ← r.skipText
  let r ← r.skipText
  let r ← r.skip 16
  r.skipText

def checkSize (ok : Prop) [Decidable ok] (rest : Except ReadFault Reader) : Except ReadFault Reader :=
  if ok then rest else .error .recordSize

def handleOther (fresh : Address → Nat → Byte) (r : Reader) (size : Nat) : Option RecOtherType → Except ReadFault Reader
  | some .otherEnd => checkSize (size = 0) (.ok { r with seenEnd := true })
  | some .icache => checkSize (size = 8 + icacheSize) do
    let (address,r) ← r.takeAddress
    let (bytes,r) ← r.take icacheSize
    return { r with icache := update r.icache address (some fun o => bytes.getD o 0) }
  | some .icacheVariable =>
    if size < 8 then .error .streamFailed
    else do
      let (address,r) ← r.takeAddress
      readIcacheVariable fresh (size - 8) r address (size - 8)
  | some .logical2Physical => checkSize (size = 16) do
    let (vp,r) ← r.takeAddress
    let (pp,r) ← r.takeAddress
    return { r with vcache := update r.vcache vp (some pp) }
  | some .isaChange => checkSize (size = 4) do
    let (isa,r) ← r.takeNat 4
    return { r with isa := isa }
  | some .routineAnnounce => r.readRoutineAnnounce
  | some .instructionCount => checkSize (size = 4) (r.skip size)
  | some .cacheOnly => checkSize (size = 18) (r.skip size)
  | some .output => checkSize (1 < size) (r.skip size)
  | some .syscallRequest => checkSize (2 < size) (r.skip size)
  | some .newThread => checkSize (size = 0) (.ok r)
  | some .join => checkSize (size = 4) (r.skip size)
  | some .sync | some .fork => checkSize (size = 0) (.ok r)
  | some .magicInstruction => checkSize (size = 24) (r.skip size)
  | some .emu => checkSize (size ≤ 10) (r.skip size)
  | some .routineChange => checkSize (size = 25) (r.skip size)
  | none => r.skip size

def readOther (fresh : Address → Nat → Byte) (r : Reader) : Except ReadFault Reader := do
  let (head,r) ← r.take 2
  let (size,r) ← r.takeNat 4
  r.handleOther fresh size (RecOtherType.ofCode (head.getD 1 0))

def copyCode (icache : Address → Option (Nat → Byte)) : Nat → Address → Nat → Nat → Except ReadFault (List Byte)
  | 0, _, _, size => if size = 0 then .ok [] else .error .endless
  | fuel + 1, baseAddr, offset, size =>
    if size = 0 then .ok []
    else
      let size' := min size (icacheSize - offset)
      match icache baseAddr with
      | none => .error .pageMissing
      | some page => do
        let rest ← copyCode icache fuel (baseAddr + BitVec.ofNat 64 icacheSize) 0 (size - size')
        return (List.range size').map (fun i => page (offset + i)) ++ rest

def staticInfoInstruction (addr : Address) (size : Byte) : Except ReadFault StaticInstruction := do
  let data ← copyCode r.icache size.toNat (addr &&& icachePageMask) (addr &&& icacheOffsetMask).toNat size.toNat
  return ⟨addr,size,data,none⟩

def followed (addr : Address) : Option Nat := do
  let last ← r.lastSinst
  let sinst ← r.sinsts[last]?
  let next ← sinst.next
  let target ← r.sinsts[next]?
  if target.addr = addr then some next else none

def linkLast (sinst : Nat) : List StaticInstruction :=
  match r.lastSinst with
  | none => r.sinsts
  | some last => r.sinsts.modify last fun s => { s with next := s.next <|> some sinst }

def lookupStatic (addr : Address) (size : Byte) : Except ReadFault (Nat × Reader) :=
  match r.followed addr with
  | some sinst => .ok (sinst,r)
  | none =>
    match r.scache addr with
    | some sinst => if (r.sinsts[sinst]?).all (·.size == size) then .ok (sinst,r) else .error .sizeMismatch
    | none => do
      let sinst ← r.staticInfoInstruction addr size
      return (r.sinsts.length,{ r with
        sinsts := r.sinsts ++ [sinst], scache := update r.scache addr (some r.sinsts.length) })

def getStaticInstruction (addr : Address) (size : Byte) : Except ReadFault (Nat × Reader) := do
  let (sinst,r) ← r.lookupStatic addr size
  return (sinst,{ r with sinsts := r.linkLast sinst, lastSinst := some sinst })

def readAddresses : Nat → Nat → Reader → (Nat → Address) → Except ReadFault ((Nat → Address) × Reader)
  | 0, _, r, addresses => .ok (addresses,r)
  | n + 1, i, r, addresses => do
    let (address,r) ← r.takeAddress
    readAddresses n (i + 1) r (update addresses i address)

def finishInstruction (inst : Instruction) (addr : Address) (size : Byte) :
    Except ReadFault (Instruction × Reader) := do
  let r := { r with lastAddress := addr + size.setWidth 64 }
  let (addresses,r) ← readAddresses inst.numAddresses 0 r inst.addresses
  let (sinst,r) ← r.getStaticInstruction addr size
  return ({ inst with addresses := addresses, sinst := sinst },r)

def readInstruction (inst : Instruction) : Except ReadFault (Instruction × Reader) := do
  let (bytes,r) ← r.take 1
  let fields := InstructionRec.unpack (bytes.getD 0 0)
  r.finishInstruction { inst with
    numAddresses := fields.numAddresses.toNat, isBranch := fields.isBranch, taken := fields.taken,
    isPredicate := false, executed := true, isa := r.isa } r.lastAddress (fields.size.setWidth 8)

def readInstructionExt (inst : Instruction) : Except ReadFault (Instruction × Reader) := do
  let (bytes,r) ← r.take 2
  let (addr,r) ← r.takeAddress
  let flags := InstructionFlags.unpack (bytes.getD 1 0)
  r.finishInstruction { inst with
    numAddresses := flags.numAddresses.toNat, isBranch := flags.isBranch, taken := flags.taken,
    isPredicate := flags.isPredicate, executed := flags.executed, isa := r.isa } addr
    ((extSize (bytes.getD 0 0)).setWidth 8)

def readLoop (fresh : Address → Nat → Byte) :
    Nat → Reader → Instruction → Except ReadFault (Bool × Instruction × Reader)
  | 0, _, _ => .error .endless
  | fuel + 1, r, inst =>
    if r.seenEnd then .ok (true,inst,r)
    else
      match r.input.head? with
      | none => .error .streamFailed
      | some byte =>
        if byte = 0 then do
          let r ← r.readOther fresh
          if r.seenEnd then return (false,inst,r) else readLoop fresh fuel r inst
        else do
          let (inst,r) ← if byte &&& 0xf ≠ 0 then r.readInstruction inst else r.readInstructionExt inst
          return (true,inst,r)

def read (fresh : Address → Nat → Byte) (r : Reader) (inst : Instruction) :
    Except ReadFault (Bool × Instruction × Reader) := do
  let r ← if r.opened then .ok r else r.initStream
  readLoop fresh (r.input.length + 1) r inst

def va2pa (va : Address) : Address :=
  if r.traceHasPa then
    match r.vcache (va / pageSizeSift) with
    | none => 0
    | some pp => pp * pageSizeSift ||| (va &&& (pageSizeSift - 1))
  else va

end Reader
end Sift
