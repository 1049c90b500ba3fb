import Mathlib.Data.Nat.ModEq

open Nat
namespace AffineMod
variable {a n w k x y r : Nat}

def value (w a c x : Nat) : Nat := (a * x + c) % 2 ^ w

theorem value_modEq (hk : k ≤ w) (a c x : Nat) : value w a c x ≡ a * x + c [MOD 2 ^ k] :=
  (mod_modEq _ _).of_dvd (pow_dvd_pow 2 hk)

theorem modEq_of_value (hk : k ≤ w) (hn : 2 ^ k ∣ n) (ha : Nat.Coprime (2 ^ k) a) {c : Nat}
    (h : value w a c x % n = value w a c y % n) : x ≡ y [MOD 2 ^ k] := by
  have hmod : a * x + c ≡ a * y + c [MOD 2 ^ k] := by
    calc a * x + c ≡ value w a c x [MOD 2 ^ k] := (value_modEq hk a c x).symm
      _ ≡ value w a c y [MOD 2 ^ k] := Nat.ModEq.of_dvd hn h
      _ ≡ a * y + c [MOD 2 ^ k] := value_modEq hk a c y
  exact Nat.ModEq.cancel_left_of_coprime ha (Nat.ModEq.add_right_cancel' c hmod)

theorem add_complement (r c : Nat) : r + (2 ^ w - c % 2 ^ w) + c ≡ r [MOD 2 ^ w] := by
  have hdiv := div_add_mod c (2 ^ w)
  have hs : r + (2 ^ w - c % 2 ^ w) + c = r + 2 ^ w * (c / 2 ^ w + 1) := by
    rw [mul_add,mul_one]
    omega
  rw [hs]
  exact add_mul_mod_self_left _ _ _

theorem surjective (hw : 0 < w) (ha : Nat.Coprime a (2 ^ w)) (c : Nat) (hr : r < 2 ^ w) :
    ∃ x < 2 ^ w, value w a c x = r := by
  have hpos := Nat.two_pow_pos w
  obtain ⟨b,-,hb⟩ := Nat.exists_mul_mod_eq_one_of_coprime ha (Nat.one_lt_two_pow hw.ne')
  have hb : a * b ≡ 1 [MOD 2 ^ w] := hb.trans (Nat.mod_eq_of_lt (Nat.one_lt_two_pow hw.ne')).symm
  refine ⟨b * (r + (2 ^ w - c % 2 ^ w)) % 2 ^ w,mod_lt _ hpos,?_⟩
  have hx : a * (b * (r + (2 ^ w - c % 2 ^ w)) % 2 ^ w) + c ≡ r [MOD 2 ^ w] := by
    calc a * (b * (r + (2 ^ w - c % 2 ^ w)) % 2 ^ w) + c
        ≡ a * (b * (r + (2 ^ w - c % 2 ^ w))) + c [MOD 2 ^ w] := ((mod_modEq _ _).mul_left a).add_right c
      _ = a * b * (r + (2 ^ w - c % 2 ^ w)) + c := by rw [mul_assoc]
      _ ≡ 1 * (r + (2 ^ w - c % 2 ^ w)) + c [MOD 2 ^ w] := (hb.mul_right _).add_right c
      _ = r + (2 ^ w - c % 2 ^ w) + c := by rw [one_mul]
      _ ≡ r [MOD 2 ^ w] := add_complement r c
  rw [value,hx,Nat.mod_eq_of_lt hr]

theorem collision (hw : 0 < w) (ha : Nat.Coprime a (2 ^ w)) (c : Nat) (hn : n < 2 ^ w) :
    ∃ x < 2 ^ w, ∃ y < 2 ^ w, value w a c x % n = 0 ∧ value w a c y % n = 0 ∧
      ∀ k ≤ w, x ≡ y [MOD 2 ^ k] → 2 ^ k ∣ n := by
  obtain ⟨x,hx,hx0⟩ := surjective hw ha c (Nat.two_pow_pos w)
  obtain ⟨y,hy,hyn⟩ := surjective hw ha c hn
  refine ⟨x,hx,y,hy,by rw [hx0,zero_mod],by rw [hyn,mod_self],fun k hk hxy => ?_⟩
  have hz : 0 ≡ n [MOD 2 ^ k] := by
    calc 0 = value w a c x := hx0.symm
      _ ≡ a * x + c [MOD 2 ^ k] := value_modEq hk a c x
      _ ≡ a * y + c [MOD 2 ^ k] := (hxy.mul_left a).add_right c
      _ ≡ value w a c y [MOD 2 ^ k] := (value_modEq hk a c y).symm
      _ = n := hyn
  exact modEq_zero_iff_dvd.mp hz.symm

end AffineMod
