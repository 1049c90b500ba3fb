import SniperSim.Library.ByteStream

namespace Sift

abbrev Byte := BitVec 8

abbrev Address := BitVec 64

def magicNumber : Nat := 0x54464953

def pageSizeSift : Address := 4096

def icacheSize : Nat := 0x1000

def icacheOffsetMask : Address := Mask.low 64 12

def icachePageMask : Address := ~~~icacheOffsetMask

def maxDynamicAddresses : Nat := 2

structure Options where
  (compressionZlib archIA32 icacheVariable physicalAddress : Bool)
deriving DecidableEq, Repr

def Options.bits (o : Options) : Nat :=
  (if o.compressionZlib then 1 else 0) + (if o.archIA32 then 2 else 0) +
    (if o.icacheVariable then 4 else 0) + (if o.physicalAddress then 8 else 0)

structure InstructionRec where
  size : BitVec 4
  numAddresses : BitVec 2
  (isBranch taken : Bool)
deriving DecidableEq, Repr

def InstructionRec.pack (r : InstructionRec) : Byte :=
  BitVec.ofBool r.taken ++ BitVec.ofBool r.isBranch ++ r.numAddresses ++ r.size

def InstructionRec.unpack (b : Byte) : InstructionRec := ⟨b.extractLsb' 0 4,b.extractLsb' 4 2,b.getLsbD 6,b.getLsbD 7⟩

structure InstructionFlags where
  numAddresses : BitVec 2
  (isBranch taken isPredicate executed : Bool)
deriving DecidableEq, Repr

def InstructionFlags.pack (f : InstructionFlags) : Byte :=
  0#2 ++ BitVec.ofBool f.executed ++ BitVec.ofBool f.isPredicate ++ BitVec.ofBool f.taken ++
    BitVec.ofBool f.isBranch ++ f.numAddresses

def InstructionFlags.unpack (b : Byte) : InstructionFlags :=
  ⟨b.extractLsb' 0 2,b.getLsbD 2,b.getLsbD 3,b.getLsbD 4,b.getLsbD 5⟩

def extByte (size : BitVec 4) : Byte := size ++ 0#4

def extSize (b : Byte) : BitVec 4 := b.extractLsb' 4 4

inductive RecOtherType
  | icache | output | syscallRequest | newThread | join | icacheVariable | sync | logical2Physical
  | magicInstruction | routineChange | routineAnnounce | emu | fork | instructionCount | cacheOnly | isaChange
  | otherEnd
deriving DecidableEq, Repr

def RecOtherType.code : RecOtherType → Byte
  | .icache => 0
  | .output => 1
  | .syscallRequest => 2
  | .newThread => 4
  | .join => 8
  | .icacheVariable => 11
  | .sync => 12
  | .logical2Physical => 14
  | .magicInstruction => 15
  | .routineChange => 17
  | .routineAnnounce => 18
  | .emu => 19
  | .fork => 21
  | .instructionCount => 23
  | .cacheOnly => 24
  | .isaChange => 25
  | .otherEnd => 0xff

def RecOtherType.all : List RecOtherType :=
  [.icache,.output,.syscallRequest,.newThread,.join,.icacheVariable,.sync,.logical2Physical,
    .magicInstruction,.routineChange,.routineAnnounce,.emu,.fork,.instructionCount,.cacheOnly,.isaChange,.otherEnd]

def RecOtherType.ofCode (b : Byte) : Option RecOtherType := all.find? (·.code == b)

def encodeAddress (a : Address) : List Byte := LittleEndian.encode 8 a.toNat

def decodeAddress (bs : List Byte) : Address := BitVec.ofNat 64 (LittleEndian.decode bs)

def encodeOther (type : RecOtherType) (size : Nat) : List Byte := 0 :: type.code :: LittleEndian.encode 4 size

def encodeHeader (options : Options) : List Byte :=
  LittleEndian.encode 4 magicNumber ++ (LittleEndian.encode 4 0 ++ LittleEndian.encode 8 options.bits)

def encodeInstructionExt (size : BitVec 4) (flags : InstructionFlags) (addr : Address) : List Byte :=
  extByte size :: flags.pack :: encodeAddress addr

theorem InstructionRec.unpack_pack (r : InstructionRec) : unpack r.pack = r := by
  obtain ⟨size,numAddresses,isBranch,taken⟩ := r
  revert size numAddresses isBranch taken
  decide +kernel

theorem InstructionRec.pack_low (r : InstructionRec) (h : r.size ≠ 0) : r.pack &&& 0xf ≠ 0 := by
  obtain ⟨size,numAddresses,isBranch,taken⟩ := r
  revert size numAddresses isBranch taken
  decide +kernel

theorem InstructionFlags.unpack_pack (f : InstructionFlags) : unpack f.pack = f := by
  obtain ⟨numAddresses,isBranch,taken,isPredicate,executed⟩ := f
  revert numAddresses isBranch taken isPredicate executed
  decide +kernel

theorem extSize_extByte (size : BitVec 4) : extSize (extByte size) = size := by
  revert size
  decide

theorem extByte_low (size : BitVec 4) : extByte size &&& 0xf = 0 := by
  revert size
  decide

theorem extByte_ne (size : BitVec 4) (h : size ≠ 0) : extByte size ≠ 0 := by
  revert size
  decide

@[simp] theorem RecOtherType.ofCode_code (t : RecOtherType) : ofCode t.code = some t := by
  cases t <;> rfl

@[simp] theorem length_encodeAddress (a : Address) : (encodeAddress a).length = 8 := LittleEndian.length_encode 8 _

@[simp] theorem length_encodeOther (type : RecOtherType) (size : Nat) : (encodeOther type size).length = 6 := by
  simp [encodeOther]

@[simp] theorem decode_encodeAddress (a : Address) : decodeAddress (encodeAddress a) = a := by
  have hlt : a.toNat < 256 ^ 8 := a.isLt
  rw [decodeAddress,encodeAddress,LittleEndian.decode_encode_of_lt hlt,BitVec.ofNat_toNat,BitVec.setWidth_eq]

end Sift
