import Mathlib.Algebra.Group.Int.Defs
import Mathlib.Algebra.Group.Nat.Defs
import SniperSim.Cache.CacheSetLRU
import Mathlib.Data.List.Nodup

open Nat BitVec

structure AddressHomeLookup where
  ahlParam : Nat
  coreList : List Nat
  cacheBlockSize : BitVec 32
  small : ahlParam < 31
  nonempty : 0 < coreList.length
  distinct : coreList.Nodup
  fits : cacheBlockSize.toInt ≤ 2 ^ ahlParam

namespace AddressHomeLookup
variable (l : AddressHomeLookup) (address : IntPtr)

def ahlMask : IntPtr := BitVec.ofNat 64 (2 ^ l.ahlParam - 1)

abbrev totalModules : Nat := l.coreList.length

def stripe : Nat := (address >>> l.ahlParam).toNat

def getHome : Nat := l.coreList.get ⟨l.stripe address % l.totalModules,Nat.mod_lt _ l.nonempty⟩

def getLinearBlock : IntPtr := BitVec.ofNat 64 (l.stripe address / l.totalModules)

def getLinearAddress : IntPtr := (l.getLinearBlock address <<< l.ahlParam) ||| (address &&& l.ahlMask)

def logBlocksize : Nat := Nat.log2 l.cacheBlockSize.toNat

structure Interleaved : Prop where
  unique : ∀ a b, l.getHome a = l.getHome b ∧ l.getLinearAddress a = l.getLinearAddress b ↔ a = b
  block : ∀ a b : IntPtr, a >>> l.logBlocksize = b >>> l.logBlocksize → l.getHome a = l.getHome b ∧
    (l.getLinearAddress a).toNat + b.toNat = (l.getLinearAddress b).toNat + a.toNat
  gapless : ∀ a n, n ≤ (l.getLinearBlock a).toNat → ∃ b, l.getHome b = l.getHome a ∧ (l.getLinearBlock b).toNat = n

variable {l} {a b : IntPtr}

theorem stripe_eq : l.stripe a = a.toNat / 2 ^ l.ahlParam := by
  rw [stripe,toNat_ushiftRight,shiftRight_eq_div_pow]

theorem stripe_add_low : 2 ^ l.ahlParam * l.stripe a + a.toNat % 2 ^ l.ahlParam = a.toNat := by
  rw [stripe_eq,div_add_mod]

theorem toNat_getLinearBlock : (l.getLinearBlock a).toNat = l.stripe a / l.totalModules := by
  rw [getLinearBlock,BitVec.toNat_ofNat,Nat.mod_eq_of_lt]
  exact Nat.lt_of_le_of_lt (Nat.div_le_self _ _) (isLt _)

theorem toNat_getLinearAddress : (l.getLinearAddress a).toNat =
    2 ^ l.ahlParam * (l.stripe a / l.totalModules) + a.toNat % 2 ^ l.ahlParam := by
  have hle : 2 ^ l.ahlParam * (l.stripe a / l.totalModules) ≤ a.toNat := by
    have hmul := mul_le_mul_left (2 ^ l.ahlParam) (Nat.div_le_self (l.stripe a) l.totalModules)
    have hsum := stripe_add_low (l := l) (a := a)
    omega
  have hmask : l.ahlMask.toNat = 2 ^ l.ahlParam - 1 := by
    have hpow : 2 ^ l.ahlParam < 2 ^ 31 := Nat.pow_lt_pow_right (by decide) l.small
    rw [ahlMask,BitVec.toNat_ofNat,Nat.mod_eq_of_lt (by omega)]
  rw [getLinearAddress,toNat_or,toNat_and,toNat_shiftLeft,toNat_getLinearBlock,hmask,
    Nat.and_two_pow_sub_one_eq_mod,Nat.shiftLeft_eq,Nat.mul_comm,Nat.mod_eq_of_lt (Nat.lt_of_le_of_lt hle a.isLt)]
  exact (two_pow_add_eq_or_of_lt (mod_lt _ (Nat.two_pow_pos _)) _).symm

theorem getHome_eq_iff : l.getHome a = l.getHome b ↔ l.stripe a % l.totalModules = l.stripe b % l.totalModules := by
  rw [getHome,getHome,List.nodup_iff_injective_get.mp l.distinct |>.eq_iff,Fin.mk.injEq]

theorem eq_of_home_linear (hh : l.getHome a = l.getHome b) (hl : l.getLinearAddress a = l.getLinearAddress b) :
    a = b := by
  have hn := congrArg BitVec.toNat hl
  rw [toNat_getLinearAddress,toNat_getLinearAddress] at hn
  have hlow : a.toNat % 2 ^ l.ahlParam = b.toNat % 2 ^ l.ahlParam := by
    have hmod := congrArg (· % 2 ^ l.ahlParam) hn
    simpa [mul_add_mod] using hmod
  have hblock : l.stripe a / l.totalModules = l.stripe b / l.totalModules := by
    rw [hlow] at hn
    exact Nat.eq_of_mul_eq_mul_left (Nat.two_pow_pos _) (Nat.add_right_cancel hn)
  have hstripe : l.stripe a = l.stripe b := by
    rw [← div_add_mod (l.stripe a) l.totalModules,hblock,getHome_eq_iff.mp hh,div_add_mod]
  refine BitVec.eq_of_toNat_eq ?_
  rw [← stripe_add_low (l := l),hstripe,hlow,stripe_add_low]

theorem stripe_of_block (hk : k ≤ l.ahlParam) (h : a >>> k = b >>> k) : l.stripe a = l.stripe b := by
  have hsum : l.ahlParam = k + (l.ahlParam - k) := (Nat.add_sub_cancel' hk).symm
  rw [stripe,stripe,hsum,BitVec.shiftRight_add,BitVec.shiftRight_add,h]

theorem linear_of_block (hk : k ≤ l.ahlParam) (h : a >>> k = b >>> k) :
    l.getLinearAddress a >>> k = l.getLinearAddress b >>> k := by
  rw [getLinearAddress,getLinearAddress,getLinearBlock,getLinearBlock,stripe_of_block hk h,
    ushiftRight_or_distrib,ushiftRight_or_distrib,ushiftRight_and_distrib,ushiftRight_and_distrib,h]

theorem distance_of_stripe (h : l.stripe a = l.stripe b ∨ l.totalModules = 1) : l.getHome a = l.getHome b ∧
    (l.getLinearAddress a).toNat + b.toNat = (l.getLinearAddress b).toNat + a.toNat := by
  have ha := stripe_add_low (l := l) (a := a)
  have hb := stripe_add_low (l := l) (a := b)
  rw [getHome_eq_iff,toNat_getLinearAddress,toNat_getLinearAddress]
  rcases h with h | h
  · rw [h] at ha ⊢
    exact ⟨rfl,by omega⟩
  · rw [h,Nat.mod_one,Nat.mod_one,Nat.div_one,Nat.div_one]
    exact ⟨rfl,by omega⟩

theorem logBlocksize_le (h : l.cacheBlockSize.toNat < 2 ^ 31) : l.logBlocksize ≤ l.ahlParam := by
  have hfits := l.fits
  rw [toInt_eq_toNat_of_lt (by omega)] at hfits
  rcases Nat.eq_zero_or_pos l.cacheBlockSize.toNat with hz | hpos
  · rw [logBlocksize,hz]
    exact zero_le _
  · refine (Nat.pow_le_pow_iff_right Nat.one_lt_two).mp (Nat.le_trans (Nat.log2_self_le (Nat.ne_of_gt hpos)) ?_)
    exact_mod_cast hfits

theorem huge_block_splits (hsize : 2 ^ 31 ≤ l.cacheBlockSize.toNat) (hm : l.totalModules ≠ 1) :
    ∃ a b : IntPtr, a >>> l.logBlocksize = b >>> l.logBlocksize ∧ l.getHome a ≠ l.getHome b := by
  have hpow : 2 ^ l.ahlParam < 2 ^ 31 := Nat.pow_lt_pow_right (by decide) l.small
  have hlog : 31 ≤ l.logBlocksize := (le_log2 (by omega)).mpr hsize
  have htoNat : (BitVec.ofNat 64 (2 ^ l.ahlParam)).toNat = 2 ^ l.ahlParam := by
    rw [BitVec.toNat_ofNat,Nat.mod_eq_of_lt (by omega)]
  refine ⟨0,BitVec.ofNat 64 (2 ^ l.ahlParam),BitVec.eq_of_toNat_eq ?_,fun h => ?_⟩
  · have hle := Nat.pow_le_pow_right (n := 2) (by decide) hlog
    rw [toNat_ushiftRight,toNat_ushiftRight,htoNat,shiftRight_eq_div_pow,
      shiftRight_eq_div_pow,Nat.div_eq_of_lt (show 2 ^ l.ahlParam < _ by omega)]
    exact Nat.zero_div _
  · have hpos : 0 < l.totalModules := l.nonempty
    rw [getHome_eq_iff,stripe_eq,stripe_eq,htoNat,Nat.div_self (Nat.two_pow_pos _),
      Nat.mod_eq_of_lt (show 1 < l.totalModules by omega)] at h
    simp at h

theorem exists_block_below (hn : n ≤ (l.getLinearBlock a).toNat) :
    ∃ b, l.getHome b = l.getHome a ∧ (l.getLinearBlock b).toNat = n := by
  have hlt := mod_lt (l.stripe a) l.nonempty
  have hstripe : l.totalModules * n + l.stripe a % l.totalModules ≤ l.stripe a := by
    rw [toNat_getLinearBlock] at hn
    have hmul := mul_le_mul_left l.totalModules hn
    have hdiv := div_add_mod (l.stripe a) l.totalModules
    omega
  have hbound : 2 ^ l.ahlParam * (l.totalModules * n + l.stripe a % l.totalModules) < 2 ^ 64 := by
    have hmul := mul_le_mul_left (2 ^ l.ahlParam) hstripe
    have hsum := stripe_add_low (l := l) (a := a)
    omega
  obtain ⟨b,hb⟩ : ∃ b : IntPtr, l.stripe b = l.totalModules * n + l.stripe a % l.totalModules :=
    ⟨BitVec.ofNat 64 _,by rw [stripe_eq,BitVec.toNat_ofNat,Nat.mod_eq_of_lt hbound,
      Nat.mul_div_cancel_left _ (Nat.two_pow_pos _)]⟩
  refine ⟨b,getHome_eq_iff.mpr ?_,?_⟩
  · rw [hb,mul_add_mod,mod_mod]
  · rw [toNat_getLinearBlock,hb,Nat.mul_add_div l.nonempty,Nat.div_eq_of_lt hlt,Nat.add_zero]

theorem interleaved_iff (l : AddressHomeLookup) :
    l.Interleaved ↔ l.cacheBlockSize.toNat < 2 ^ 31 ∨ l.totalModules = 1 := by
  constructor
  · intro h
    by_contra hn
    obtain ⟨hsize,hm⟩ := not_or.mp hn
    obtain ⟨a,b,hblock,hne⟩ := huge_block_splits (Nat.le_of_not_lt hsize) hm
    exact hne (h.block a b hblock).1
  · intro h
    refine ⟨fun a b => ⟨fun h => eq_of_home_linear h.1 h.2,?_⟩,fun a b hab => ?_,fun a n hn => exists_block_below hn⟩
    · rintro rfl
      exact ⟨rfl,rfl⟩
    · exact distance_of_stripe (h.imp_left fun hsize => stripe_of_block (logBlocksize_le hsize) hab)

def twoHomes (size : BitVec 32) (h : size.toInt ≤ 64) : AddressHomeLookup :=
  ⟨6,[0,1],size,by decide,by decide,by decide,h⟩

theorem half_range_block_has_two_homes : let l := twoHomes 0x80000000 (by decide)
    l.logBlocksize = 31 ∧ l.getHome 0 = 0 ∧ l.getHome 0x40 = 1 ∧ ¬l.Interleaved := by
  refine ⟨by decide +kernel,by decide,by decide,fun h => ?_⟩
  have hhome := (h.block 0 0x40 (by decide +kernel)).1
  exact absurd hhome (by decide)

end AddressHomeLookup
