import SniperSim.Sift.Format

namespace Sift

structure WriterConfig where
  getCode : Address → Byte
  (arch32 requiresIcachePerInsn sendVa2paMapping : Bool)

structure Writer where
  lastAddress : Address
  (icache va2pa : Address → Bool)

structure InstructionCall where
  addr : Address
  size : Byte
  addresses : List Address
  (isBranch taken isPredicate executed : Bool)
  va2paLookup : Address → Address

inductive WriteFault
  | size | numAddresses | endlessPages | unreadable
deriving DecidableEq, Repr

def codeBytes (getCode : Address → Byte) (addr : Address) (size : Nat) : List Byte :=
  (List.range size).map fun i => getCode (addr + BitVec.ofNat 64 i)

def encodeAddresses (addresses : List Address) : List Byte := addresses.flatMap encodeAddress

namespace Writer
variable (cfg : WriterConfig)

def create : Writer := ⟨0,fun _ => false,fun _ => false⟩

variable (w : Writer)

def sendIcacheVariable (addr : Address) (size : Nat) : Writer × List Byte :=
  if w.icache addr then (w,[])
  else ({ w with icache := Function.update w.icache addr true },
    encodeOther .icacheVariable (8 + size) ++ (encodeAddress addr ++ codeBytes cfg.getCode addr size))

def sendIcache (baseAddr : Address) : Writer × List Byte :=
  if w.icache baseAddr then (w,[])
  else ({ w with icache := Function.update w.icache baseAddr true },
    encodeOther .icache (8 + icacheSize) ++ (encodeAddress baseAddr ++ codeBytes cfg.getCode baseAddr icacheSize))

def sendIcachePages (last : Address) : Nat → Writer → Address → Except WriteFault (Writer × List Byte)
  | 0, _, _ => .error .endlessPages
  | fuel + 1, w, baseAddr =>
    if baseAddr ≤ last then do
      let (w,bytes) := w.sendIcache cfg baseAddr
      let (w,rest) ← sendIcachePages last fuel w (baseAddr + BitVec.ofNat 64 icacheSize)
      return (w,bytes ++ rest)
    else .ok (w,[])

def numPages : Nat := 2 ^ 52

def sendCode (addr : Address) (size : Byte) : Except WriteFault (Writer × List Byte) :=
  if cfg.requiresIcachePerInsn then .ok (w.sendIcacheVariable cfg addr size.toNat)
  else sendIcachePages cfg ((addr + size.setWidth 64 - 1) &&& icachePageMask) (numPages + 1) w (addr &&& icachePageMask)

def sendVa2pa (lookup : Address → Address) (w : Writer) (va : Address) : Writer × List Byte :=
  if cfg.sendVa2paMapping then
    let vp := va / pageSizeSift
    if w.va2pa vp then (w,[])
    else
      let pp := lookup vp
      if pp = 0 then (w,[])
      else ({ w with va2pa := Function.update w.va2pa vp true },
        encodeOther .logical2Physical 16 ++ (encodeAddress vp ++ encodeAddress pp))
  else (w,[])

def sendVa2pas (lookup : Address → Address) : Writer → List Address → Writer × List Byte
  | w, [] => (w,[])
  | w, va :: vas =>
    let (w,bytes) := w.sendVa2pa cfg lookup va
    let (w,rest) := sendVa2pas lookup w vas
    (w,bytes ++ rest)

def sendRecord (c : InstructionCall) : Writer × List Byte :=
  let size := c.size.setWidth 4
  let numAddresses := BitVec.ofNat 2 c.addresses.length
  if c.addr = w.lastAddress ∧ c.isPredicate = false then
    ({ w with lastAddress := w.lastAddress + c.size.setWidth 64 },
      InstructionRec.pack ⟨size,numAddresses,c.isBranch,c.taken⟩ :: encodeAddresses c.addresses)
  else
    ({ w with lastAddress := c.addr + c.size.setWidth 64 },
      encodeInstructionExt size ⟨numAddresses,c.isBranch,c.taken,c.isPredicate,c.executed⟩ c.addr ++
        encodeAddresses c.addresses)

def instruction (c : InstructionCall) : Except WriteFault (Writer × List Byte) :=
  if 16 ≤ c.size.toNat then .error .size
  else if maxDynamicAddresses < c.addresses.length then .error .numAddresses
  else do
    let (w,code) ← w.sendCode cfg c.addr c.size
    let (w,mappings) := w.sendVa2pas cfg c.va2paLookup (c.addr :: c.addresses)
    let (w,record) := w.sendRecord c
    return (w,code ++ (mappings ++ record))

def instructions : Writer → List InstructionCall → Except WriteFault (List Byte)
  | _, [] => .ok (encodeOther .otherEnd 0)
  | w, c :: cs => do
    let (w,bytes) ← w.instruction cfg c
    let rest ← instructions w cs
    return bytes ++ rest

def trace (calls : List InstructionCall) : Except WriteFault (List Byte) := do
  let bytes ← create.instructions cfg calls
  return encodeHeader ⟨false,cfg.arch32,cfg.requiresIcachePerInsn,cfg.sendVa2paMapping⟩ ++ bytes

end Writer
end Sift
