import Mathlib.Tactic.Ring

open BitVec Nat
namespace LittleEndian

def encode : Nat → Nat → List (BitVec 8)
  | 0, _ => []
  | k + 1, n => BitVec.ofNat 8 n :: encode k (n / 256)

def decode : List (BitVec 8) → Nat
  | [] => 0
  | b :: bs => b.toNat + 256 * decode bs

@[simp] theorem length_encode (k n : Nat) : (encode k n).length = k := by
  induction k generalizing n with
  | zero => rfl
  | succ k ih => rw [encode,List.length_cons,ih]

theorem decode_encode (k n : Nat) : decode (encode k n) = n % 256 ^ k := by
  induction k generalizing n with
  | zero => rw [encode,decode,pow_zero,mod_one]
  | succ k ih =>
    have hb : (BitVec.ofNat 8 n).toNat = n % 256 := BitVec.toNat_ofNat n 8
    rw [encode,decode,ih,hb,pow_succ',mod_mul]

theorem decode_encode_of_lt {k n : Nat} (h : n < 256 ^ k) : decode (encode k n) = n := by
  rw [decode_encode,mod_eq_of_lt h]

theorem ofNat_decode_encode {k w : Nat} (h : w ≤ 8 * k) (v : BitVec w) :
    BitVec.ofNat w (decode (encode k v.toNat)) = v := by
  have hpow : 2 ^ w ≤ 256 ^ k := by
    calc 2 ^ w ≤ 2 ^ (8 * k) := Nat.pow_le_pow_right (by decide) h
      _ = 256 ^ k := pow_mul 2 8 k
  rw [decode_encode_of_lt (lt_of_lt_of_le v.isLt hpow),ofNat_toNat,setWidth_eq]

theorem drop_encode {k j : Nat} (h : k ≤ j) (n : Nat) : (encode k n).drop j = [] :=
  List.drop_eq_nil_of_le (by rwa [length_encode])

end LittleEndian

namespace ByteStream
variable {α : Type}

def split (n : Nat) (input : List α) : Option (List α × List α) :=
  if n ≤ input.length then some (input.splitAt n) else none

theorem split_append {n : Nat} {bs rest : List α} (h : bs.length = n) : split n (bs ++ rest) = some (bs,rest) := by
  subst h
  simp [split]

end ByteStream

namespace Mask
variable {w k : Nat}

def low (w k : Nat) : BitVec w := BitVec.ofNat w (2 ^ k - 1)

theorem low_lt (h : k ≤ w) : 2 ^ k - 1 < 2 ^ w := by
  have hle : 2 ^ k ≤ 2 ^ w := Nat.pow_le_pow_right (by decide) h
  have hpos := Nat.two_pow_pos k
  omega

theorem toNat_and_low (h : k ≤ w) (x : BitVec w) : (x &&& low w k).toNat = x.toNat % 2 ^ k := by
  rw [toNat_and,low,BitVec.toNat_ofNat,mod_eq_of_lt (low_lt h),and_two_pow_sub_one_eq_mod]

theorem and_split (x m : BitVec w) : (x &&& ~~~m) &&& (x &&& m) = 0#w ∧ (x &&& ~~~m) ||| (x &&& m) = x := by
  constructor <;>
  · ext i hi
    cases hx : x[i] <;> cases hm : m[i] <;> simp [hx,hm]

theorem high_add_low (x : BitVec w) : (x &&& ~~~(low w k)).toNat + (x &&& low w k).toNat = x.toNat := by
  obtain ⟨hand,hor⟩ := and_split x (low w k)
  rw [← toNat_add_of_and_eq_zero hand,add_eq_or_of_and_eq_zero _ _ hand,hor]

theorem toNat_and_high (h : k ≤ w) (x : BitVec w) : (x &&& ~~~(low w k)).toNat = 2 ^ k * (x.toNat / 2 ^ k) := by
  have hsum := high_add_low (k := k) x
  rw [toNat_and_low h] at hsum
  have hdiv := div_add_mod x.toNat (2 ^ k)
  omega

def Aligned (k : Nat) (x : BitVec w) : Prop := 2 ^ k ∣ x.toNat

theorem aligned_high (h : k ≤ w) (x : BitVec w) : Aligned k (x &&& ~~~(low w k)) := by
  rw [Aligned,toNat_and_high h]
  exact dvd_mul_right _ _

variable {base : BitVec w} {o : Nat}

theorem Aligned.toNat_add (h : k ≤ w) (hb : Aligned k base) (ho : o < 2 ^ k) :
    (base + BitVec.ofNat w o).toNat = base.toNat + o := by
  obtain ⟨q,hq⟩ := hb
  have hpow : 2 ^ w = 2 ^ k * 2 ^ (w - k) := by rw [← Nat.pow_add,Nat.add_sub_cancel' h]
  have hlt : q < 2 ^ (w - k) := by
    have := base.isLt
    rw [hq,hpow] at this
    exact Nat.lt_of_mul_lt_mul_left this
  have hfit : base.toNat + o < 2 ^ w := by
    rw [hq,hpow]
    calc 2 ^ k * q + o < 2 ^ k * q + 2 ^ k := Nat.add_lt_add_left ho _
      _ = 2 ^ k * (q + 1) := (mul_succ _ _).symm
      _ ≤ 2 ^ k * 2 ^ (w - k) := mul_le_mul_left _ hlt
  have hle : o < 2 ^ w := lt_of_le_of_lt (le_add_left _ _) hfit
  rw [BitVec.toNat_add,BitVec.toNat_ofNat,mod_eq_of_lt hle,mod_eq_of_lt hfit]

theorem Aligned.high (h : k ≤ w) (hb : Aligned k base) (ho : o < 2 ^ k) :
    (base + BitVec.ofNat w o) &&& ~~~(low w k) = base := by
  apply eq_of_toNat_eq
  rw [toNat_and_high h,hb.toNat_add h ho]
  obtain ⟨q,hq⟩ := hb
  rw [hq,Nat.mul_add_div (Nat.two_pow_pos k),Nat.div_eq_of_lt ho,Nat.add_zero]

theorem Aligned.low (h : k ≤ w) (hb : Aligned k base) (ho : o < 2 ^ k) :
    ((base + BitVec.ofNat w o) &&& low w k).toNat = o := by
  rw [toNat_and_low h,hb.toNat_add h ho]
  obtain ⟨q,hq⟩ := hb
  rw [hq,mul_add_mod,mod_eq_of_lt ho]

theorem high_add (x : BitVec w) : (x &&& ~~~(Mask.low w k)) + BitVec.ofNat w (x &&& Mask.low w k).toNat = x := by
  apply eq_of_toNat_eq
  rw [ofNat_toNat,setWidth_eq,BitVec.toNat_add,high_add_low,mod_eq_of_lt x.isLt]

end Mask
