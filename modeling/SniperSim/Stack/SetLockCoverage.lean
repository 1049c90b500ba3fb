import SniperSim.Cache.AddressHash
import SniperSim.Cache.CacheSetLRU

open Nat BitVec

structure CacheParameters where
  (size associativity blockSize : Nat)
  hash : HashFunction
deriving DecidableEq, Repr

namespace CacheParameters

def numSets (p : CacheParameters) : Nat := 1024 * p.size / (p.associativity * p.blockSize)

structure Admitted (p : CacheParameters) : Prop where
  fits : 1024 * p.size < 2 ^ 32
  exact : 1024 * p.size = p.numSets * p.associativity * p.blockSize
  nonempty : 0 < p.size
  powerOfTwo : p.hash = .mask → p.numSets = 2 ^ Nat.log2 p.numSets

def blockNum (p : CacheParameters) (addr : IntPtr) : Nat := (addr >>> Nat.log2 p.blockSize).toNat

def splitSetIndex (p : CacheParameters) (addr : IntPtr) : Option Nat := p.hash.setIndex p.numSets (p.blockNum addr)

end CacheParameters

structure StackConfig where
  blockSize : Nat
  masterL1d : CacheParameters
  (coreL1ds caches : List CacheParameters)
deriving DecidableEq, Repr

namespace StackConfig
variable {cfg : StackConfig}

structure Admitted (cfg : StackConfig) : Prop where
  master : cfg.masterL1d ∈ cfg.caches
  admitted : ∀ p ∈ cfg.caches, p.Admitted
  sameBlock : ∀ p ∈ cfg.caches, p.blockSize = cfg.blockSize

def checkCore (master : CacheParameters) (numSets : Nat) (p : CacheParameters) : Nat :=
  if p.size ≠ master.size ∨ p.hash ≠ .mask then 1 else numSets

def numSetLocks (cfg : StackConfig) : Nat :=
  cfg.coreL1ds.foldl (checkCore cfg.masterL1d) (if cfg.masterL1d.numSets ≠ 2 ^ Nat.log2 cfg.masterL1d.numSets then 1
      else cfg.masterL1d.numSets)

def getSetLock (cfg : StackConfig) (addr : IntPtr) : Nat :=
  (addr >>> Nat.log2 cfg.blockSize).toNat &&& (cfg.numSetLocks - 1)

def Covered (cfg : StackConfig) : Prop :=
  ∀ p ∈ cfg.caches, ∀ a b i, p.splitSetIndex a = some i → p.splitSetIndex b = some i →
    cfg.getSetLock a = cfg.getSetLock b

def Resolved (cfg : StackConfig) : Prop := ∀ p ∈ cfg.caches, p.hash.Resolves p.numSets cfg.numSetLocks

instance (cfg : StackConfig) : Decidable cfg.Resolved :=
  inferInstanceAs (Decidable (∀ p ∈ cfg.caches, p.hash.Resolves p.numSets cfg.numSetLocks))

end StackConfig

namespace CacheParameters
variable {p : CacheParameters}
section
variable (h : p.Admitted)
include h

theorem Admitted.withHash (hm : p.hash = .mask) (hash : HashFunction) : { p with hash := hash }.Admitted :=
  { h with powerOfTwo := fun _ => h.powerOfTwo hm }

theorem Admitted.numSets_pos : 0 < p.numSets := by
  refine pos_of_ne_zero fun hz => ?_
  have := h.exact
  have := h.nonempty
  rw [hz] at *
  omega

theorem Admitted.blockSize_pos : 0 < p.blockSize := by
  refine pos_of_ne_zero fun hz => ?_
  have := h.exact
  have := h.nonempty
  rw [hz] at *
  omega

theorem Admitted.span_lt : p.numSets * 2 ^ Nat.log2 p.blockSize < 2 ^ 32 := by
  have ha : 0 < p.associativity := by
    refine pos_of_ne_zero fun hz => ?_
    have := h.exact
    have := h.nonempty
    rw [hz] at *
    omega
  calc p.numSets * 2 ^ Nat.log2 p.blockSize
      ≤ p.numSets * p.blockSize := mul_le_mul_left _ (log2_self_le h.blockSize_pos.ne')
    _ ≤ p.numSets * p.associativity * p.blockSize := Nat.mul_le_mul_right _ (Nat.le_mul_of_pos_right _ ha)
    _ = 1024 * p.size := h.exact.symm
    _ < 2 ^ 32 := h.fits

theorem Admitted.numSets_lt : p.numSets < 2 ^ 32 := (Nat.le_mul_of_pos_right _ (Nat.two_pow_pos _)).trans_lt h.span_lt

theorem Admitted.small_fits (hx : HashFunction.Small p.numSets x) : x * 2 ^ Nat.log2 p.blockSize < 2 ^ 64 := by
  have hspan := h.span_lt
  rcases hx with hx | hx
  · have hb : 2 ^ Nat.log2 p.blockSize ≤ 2 ^ 32 := (Nat.le_mul_of_pos_left _ h.numSets_pos).trans hspan.le
    calc x * 2 ^ Nat.log2 p.blockSize ≤ x * 2 ^ 32 := mul_le_mul_left x hb
      _ < 2 ^ 32 * 2 ^ 32 := mul_lt_mul_of_pos_right hx (by decide)
  · calc x * 2 ^ Nat.log2 p.blockSize ≤ p.numSets * p.numSets * 2 ^ Nat.log2 p.blockSize := Nat.mul_le_mul_right _ hx
      _ = p.numSets * (p.numSets * 2 ^ Nat.log2 p.blockSize) := mul_assoc _ _ _
      _ ≤ p.numSets * 2 ^ 32 := mul_le_mul_left _ hspan.le
      _ < 2 ^ 32 * 2 ^ 32 := mul_lt_mul_of_pos_right h.numSets_lt (by decide)
end

theorem blockNum_ofNat (h : x * 2 ^ Nat.log2 p.blockSize < 2 ^ 64) :
    p.blockNum (BitVec.ofNat 64 (x * 2 ^ Nat.log2 p.blockSize)) = x := by
  rw [blockNum,toNat_ushiftRight,toNat_ofNat,mod_eq_of_lt h,
    Nat.shiftRight_eq_div_pow,Nat.mul_div_cancel _ (Nat.two_pow_pos _)]

end CacheParameters

namespace StackConfig
variable {cfg : StackConfig}

theorem foldl_checkCore (master : CacheParameters) (ps : List CacheParameters) (n : Nat) :
    ps.foldl (checkCore master) n = n ∨ ps.foldl (checkCore master) n = 1 := by
  induction ps generalizing n with
  | nil => exact .inl rfl
  | cons p ps ih =>
    rw [List.foldl_cons,checkCore]
    split
    · rcases ih 1 with h | h <;> exact .inr h
    · exact ih n

theorem Admitted.numSetLocks_eq (h : cfg.Admitted) : ∃ k ≤ 32, cfg.numSetLocks = 2 ^ k := by
  have hlt := (h.admitted _ h.master).numSets_lt
  rw [numSetLocks]
  rcases foldl_checkCore cfg.masterL1d cfg.coreL1ds (if cfg.masterL1d.numSets ≠
      2 ^ Nat.log2 cfg.masterL1d.numSets then 1 else cfg.masterL1d.numSets) with hf | hf
  · rw [hf]
    split
    · exact ⟨0,by decide,rfl⟩
    · next he =>
      have he := not_not.mp he
      refine ⟨_,?_,he⟩
      rw [he] at hlt
      exact ((Nat.pow_lt_pow_iff_right (by decide)).mp hlt).le
  · exact ⟨0,by decide,hf⟩

theorem Admitted.getSetLock_eq_iff (h : cfg.Admitted) (hp : p ∈ cfg.caches) (a b : IntPtr) :
    cfg.getSetLock a = cfg.getSetLock b ↔ p.blockNum a ≡ p.blockNum b [MOD cfg.numSetLocks] := by
  obtain ⟨k,-,hk⟩ := h.numSetLocks_eq
  rw [getSetLock,getSetLock,hk,and_two_pow_sub_one_eq_mod,and_two_pow_sub_one_eq_mod,
    CacheParameters.blockNum,CacheParameters.blockNum,h.sameBlock p hp,Nat.ModEq]

theorem covered_iff_resolved (h : cfg.Admitted) : cfg.Covered ↔ cfg.Resolved := by
  obtain ⟨k,hk,hlocks⟩ := h.numSetLocks_eq
  constructor
  · intro hc p hp
    have ha := h.admitted p hp
    rw [hlocks]
    refine HashFunction.resolves_of_modEq ha.numSets_pos ha.numSets_lt ha.powerOfTwo hk ?_
    rintro x y hx hy ⟨i,hix,hiy⟩
    have hbx := CacheParameters.blockNum_ofNat (p := p) (ha.small_fits hx)
    have hby := CacheParameters.blockNum_ofNat (p := p) (ha.small_fits hy)
    have hl := (h.getSetLock_eq_iff hp _ _).mp (hc p hp
      (BitVec.ofNat 64 (x * 2 ^ Nat.log2 p.blockSize))
      (BitVec.ofNat 64 (y * 2 ^ Nat.log2 p.blockSize)) i
      (by rw [CacheParameters.splitSetIndex,hbx,hix])
      (by rw [CacheParameters.splitSetIndex,hby,hiy]))
    rwa [hbx,hby,hlocks] at hl
  · intro hr p hp a b i hia hib
    have ha := h.admitted p hp
    have hres := hr p hp
    rw [h.getSetLock_eq_iff hp]
    rw [hlocks] at hres ⊢
    exact HashFunction.modEq_of_collide ha.numSets_pos ha.numSets_lt ha.powerOfTwo hk hres (isLt _) (isLt _) ⟨i,hia,hib⟩

def gainestown (l3Hash : HashFunction) : StackConfig where
  blockSize := 64
  masterL1d := ⟨32,8,64,.mask⟩
  coreL1ds := List.replicate 4 ⟨32,8,64,.mask⟩
  caches := [⟨32,4,64,.mask⟩,⟨32,8,64,.mask⟩,⟨256,8,64,.mask⟩,⟨8192,16,64,l3Hash⟩]

theorem admitted_gainestown (l3Hash : HashFunction) : (gainestown l3Hash).Admitted := by
  constructor
  case master => simp [gainestown]
  case admitted =>
    intro p hp
    simp only [gainestown,List.mem_cons,List.not_mem_nil,or_false] at hp
    rcases hp with rfl | rfl | rfl | rfl
    · exact ⟨by decide,by decide,by decide,fun _ => by decide +kernel⟩
    · exact ⟨by decide,by decide,by decide,fun _ => by decide +kernel⟩
    · exact ⟨by decide,by decide,by decide,fun _ => by decide +kernel⟩
    · exact CacheParameters.Admitted.withHash (p := ⟨8192,16,64,.mask⟩)
        ⟨by decide,by decide,by decide,fun _ => by decide +kernel⟩ rfl l3Hash
  case sameBlock => simp [gainestown]

theorem covered_iff_resolved_gainestown : (gainestown .mask).Covered :=
  (covered_iff_resolved (admitted_gainestown .mask)).mpr (by decide +kernel)

theorem xor_hash_not_covered : (gainestown .xorMod).Admitted ∧
      (⟨8192,16,64,.xorMod⟩ : CacheParameters) ∈ (gainestown .xorMod).caches ∧
      CacheParameters.splitSetIndex ⟨8192,16,64,.xorMod⟩ 0 = some 0 ∧
      CacheParameters.splitSetIndex ⟨8192,16,64,.xorMod⟩ 0x80040 = some 0 ∧
      (gainestown .xorMod).getSetLock 0 = 0 ∧ (gainestown .xorMod).getSetLock 0x80040 = 1 :=
  ⟨admitted_gainestown .xorMod,by decide +kernel,by decide +kernel,by decide +kernel,
    by decide +kernel,by decide +kernel⟩

end StackConfig
