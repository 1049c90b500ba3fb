import SniperSim.Cache.AddressHash
import SniperSim.Memory.AddressHomeLookup

open HashFunction Nat

structure CacheBase where
  (numSets blocksize : Nat)
  hash : HashFunction
  ahl : Option AddressHomeLookup
  pos : 0 < numSets
  bound : numSets < 2 ^ 32
  admitted : numSets = 2 ^ Nat.log2 numSets ∨ hash ≠ .mask

namespace CacheBase
variable (c : CacheBase) (addr : IntPtr)

def logBlocksize : Nat := Nat.log2 c.blocksize

def linearAddress : IntPtr :=
  match c.ahl with
  | some l => l.getLinearAddress addr
  | none => addr

def blockNum : Nat := (c.linearAddress addr >>> c.logBlocksize).toNat

-- none is a division by zero
def splitAddress : IntPtr × Option Nat := (addr >>> c.logBlocksize,c.hash.setIndex c.numSets (c.blockNum addr))

def tagToAddress (tag : IntPtr) : IntPtr := tag <<< c.logBlocksize

structure Split : Prop where
  index : ∃ i < c.numSets, (c.splitAddress addr).2 = some i
  again : c.splitAddress (c.tagToAddress (c.splitAddress addr).1) = c.splitAddress addr

structure Fits : Prop where
  mer : c.hash = .merMod → c.numSets ≠ 1
  xor : c.hash = .xorMod → c.numSets = 2 ^ Nat.log2 c.numSets
  whole : ∀ l ∈ c.ahl, c.logBlocksize ≤ l.ahlParam

def blockStart : IntPtr := c.tagToAddress (addr >>> c.logBlocksize)

variable {c addr}

theorem tag_again : c.blockStart addr >>> c.logBlocksize = addr >>> c.logBlocksize := by
  rw [blockStart,tagToAddress]
  ext i hi
  simp only [BitVec.getElem_ushiftRight,BitVec.getLsbD_shiftLeft,BitVec.getLsbD_ushiftRight]
  grind

theorem Fits.blockNum_again (h : c.Fits) : c.blockNum (c.blockStart addr) = c.blockNum addr := by
  rw [blockNum,blockNum,linearAddress,linearAddress]
  cases hl : c.ahl with
  | none => rw [tag_again]
  | some l => exact congrArg BitVec.toNat (AddressHomeLookup.linear_of_block (h.whole l hl) tag_again)

theorem Fits.index (h : c.Fits) (addr : IntPtr) : ∃ i < c.numSets, (c.splitAddress addr).2 = some i := by
  obtain ⟨hmer,hxor,-⟩ := h
  have hpos := c.pos
  rw [splitAddress]
  generalize c.blockNum addr = x
  generalize c.numSets = n at *
  cases hash : c.hash with
  | mask => exact ⟨_,lt_of_le_of_lt and_le_right (sub_one_lt hpos.ne'),rfl⟩
  | mod | rng1Mod | rng2Mod => exact ⟨_,mod_lt _ hpos,checkedMod_pos hpos _⟩
  | primeDis => exact ⟨_,mod_lt _ hpos,setIndex_primeDis hpos x⟩
  | xorMod =>
    have hpow := hxor hash
    refine ⟨_,?_,setIndex_xorMod hpos x⟩
    generalize log2 n = k at hpow
    rw [hpow] at hpos ⊢
    exact xor_lt_two_pow (mod_lt _ hpos) (mod_lt _ hpos)
  | merMod =>
    have hone := hmer hash
    have hlt := mod_lt x (show 0 < n - 1 by omega)
    exact ⟨_,by omega,checkedMod_pos (by omega) x⟩

def threeSets (hash : HashFunction) (h : hash ≠ .mask) : CacheBase := ⟨3,64,hash,none,by decide,by decide,.inr h⟩

end CacheBase
