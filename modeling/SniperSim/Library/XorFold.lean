import Mathlib.Algebra.Group.Nat.Defs
import Mathlib.Tactic.Common

namespace XorFold
variable {w : Nat}

def fold (bits : Nat) : Nat → BitVec w → BitVec w → BitVec w
  | 0, _, hash => hash
  | k + 1, remaining, hash => fold bits k (remaining >>> bits) (hash ^^^ remaining % (1#w <<< bits))

theorem toNat_one_shiftLeft {bits : Nat} (h : bits < w) : (1#w <<< bits).toNat = 2 ^ bits := by
  have hw : 2 ^ bits < 2 ^ w := Nat.pow_lt_pow_right (by omega) h
  have h1 : 1 < 2 ^ w := Nat.one_lt_two_pow (by omega)
  simp [BitVec.toNat_shiftLeft,Nat.shiftLeft_eq,Nat.mod_eq_of_lt hw,Nat.mod_eq_of_lt h1]

theorem toNat_fold_lt {bits : Nat} (h : bits < w) (k : Nat) (remaining hash : BitVec w)
    (hh : hash.toNat < 2 ^ bits) : (fold bits k remaining hash).toNat < 2 ^ bits := by
  induction k generalizing remaining hash with
  | zero => exact hh
  | succ k ih =>
    apply ih
    rw [BitVec.toNat_xor,BitVec.toNat_umod,toNat_one_shiftLeft h]
    exact Nat.xor_lt_two_pow hh (Nat.mod_lt _ (Nat.two_pow_pos bits))

theorem xor_umod {bits : Nat} (h : bits < w) (x y : BitVec w) :
    (x ^^^ y) % (1#w <<< bits) = x % (1#w <<< bits) ^^^ y % (1#w <<< bits) := by
  apply BitVec.eq_of_toNat_eq
  simp only [BitVec.toNat_xor,BitVec.toNat_umod,toNat_one_shiftLeft h,Nat.xor_mod_two_pow]

theorem fold_xor {bits : Nat} (h : bits < w) (k : Nat) (x y a b : BitVec w) :
    fold bits k (x ^^^ y) (a ^^^ b) = fold bits k x a ^^^ fold bits k y b := by
  induction k generalizing x y a b with
  | zero => rfl
  | succ k ih =>
    rw [fold,fold,fold,← ih,BitVec.ushiftRight_xor_distrib,xor_umod h]
    congr 1
    ac_rfl

theorem fold_zero (bits k : Nat) (hash : BitVec w) : fold bits k 0#w hash = hash := by
  induction k with
  | zero => rfl
  | succ k ih => simpa [fold] using ih

theorem fold_bit_ne_zero_iff {bits i : Nat} (h : bits < w) (hi : i < w) (k : Nat) :
    fold bits k (1#w <<< i) 0#w ≠ 0#w ↔ i < bits * k := by
  induction k generalizing i with
  | zero => simp [fold]
  | succ k ih =>
    rw [fold,BitVec.zero_xor,Nat.mul_succ]
    rcases Nat.lt_or_ge i bits with hlt | hge
    · have hpow : 2 ^ i < 2 ^ bits := Nat.pow_lt_pow_right (by omega) hlt
      have hshift : (1#w <<< i) >>> bits = 0#w := BitVec.eq_of_toNat_eq (by
        rw [BitVec.toNat_ushiftRight,toNat_one_shiftLeft hi,Nat.shiftRight_eq_div_pow,Nat.div_eq_of_lt hpow]
        rfl)
      have hmod : (1#w <<< i) % (1#w <<< bits) = 1#w <<< i := BitVec.eq_of_toNat_eq (by
        rw [BitVec.toNat_umod,toNat_one_shiftLeft hi,toNat_one_shiftLeft h,Nat.mod_eq_of_lt hpow])
      have hne : 1#w <<< i ≠ 0#w := fun h0 => by
        have := congrArg BitVec.toNat h0
        rw [toNat_one_shiftLeft hi] at this
        exact Nat.ne_of_gt (Nat.two_pow_pos i) this
      rw [hshift,hmod,fold_zero]
      exact iff_of_true hne (by omega)
    · have hshift : (1#w <<< i) >>> bits = 1#w <<< (i - bits) := BitVec.eq_of_toNat_eq (by
        rw [BitVec.toNat_ushiftRight,toNat_one_shiftLeft hi,toNat_one_shiftLeft (by omega),
          Nat.shiftRight_eq_div_pow,Nat.pow_div hge (by omega)])
      have hmod : (1#w <<< i) % (1#w <<< bits) = 0#w := BitVec.eq_of_toNat_eq (by
        rw [BitVec.toNat_umod,toNat_one_shiftLeft hi,toNat_one_shiftLeft h,
          Nat.mod_eq_zero_of_dvd (Nat.pow_dvd_pow 2 hge)]
        rfl)
      rw [hshift,hmod,ih (by omega)]
      omega

end XorFold
