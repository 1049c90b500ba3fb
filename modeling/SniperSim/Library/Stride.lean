import Mathlib.Data.Nat.ModEq
import Mathlib.Tactic.Ring

open Nat
namespace Stride
variable {N k c d j m : Nat}

def next (N k c : Nat) : Nat := if c + k < N then c + k else ((c + k) % N + 1) % k

def classes (N k : Nat) : Nat := (N - 1).gcd k

theorem next_wrap (hle : k ≤ N) (hc : c < N) (h : N ≤ c + k) : next N k c + (N - 1) ≡ c [MOD k] := by
  have hsub : (c + k) % N = c + k - N := by rw [mod_eq_sub_mod h,mod_eq_of_lt (by omega)]
  have hsum : c + k - N + 1 + (N - 1) = c + k := by omega
  rw [next,if_neg (by omega),hsub]
  refine ((mod_modEq _ _).add_right _).trans ?_
  rw [hsum]
  exact add_mod_right _ _

theorem next_modEq (hle : k ≤ N) (hc : c < N) : next N k c ≡ c [MOD classes N k] := by
  have hk : classes N k ∣ k := Nat.gcd_dvd_right _ _
  have hn : classes N k ∣ N - 1 := Nat.gcd_dvd_left _ _
  by_cases h : c + k < N
  · rw [next,if_pos h]
    exact (modEq_zero_iff_dvd.mpr hk).add_left c
  · have hw := (next_wrap hle hc (Nat.le_of_not_lt h)).of_dvd hk
    exact ((modEq_zero_iff_dvd.mpr hn).add_left _).symm.trans hw

section
variable (hk : 0 < k) (hle : k ≤ N)
include hk hle

theorem next_lt : next N k c < N := by
  have hlt := mod_lt ((c + k) % N + 1) hk
  rw [next]
  split <;> omega

omit hk hle in
theorem iterate_row (h : c + k * j < N) : (next N k)^[j] c = c + k * j := by
  induction j with
  | zero => rfl
  | succ j ih =>
    rw [mul_add_one] at h ⊢
    rw [Function.iterate_succ_apply',ih (by omega),next,if_pos (by omega),Nat.add_assoc]

theorem iterate_wrap (hc : c < N) (hd : d < N) (h : d + (N - 1) ≡ c [MOD k]) : ∃ n, (next N k)^[n + 1] c = d := by
  have hdiv := div_add_mod (N - 1 - c) k
  have hmod := mod_lt (N - 1 - c) hk
  generalize (N - 1 - c) / k = j at hdiv
  have hstart : next N k (c + k * j) = d % k := by
    have hlt : next N k (c + k * j) < k := by
      rw [next,if_neg (by omega)]
      exact mod_lt _ hk
    rw [← mod_eq_of_lt hlt]
    refine Nat.ModEq.add_right_cancel' _ ((next_wrap hle (by omega) (by omega)).trans (.trans ?_ h.symm))
    exact add_mul_mod_self_left _ _ _
  have htop : (next N k)^[j] c = c + k * j := iterate_row (by omega)
  have hd' := mod_add_div d k
  refine ⟨d / k + j,?_⟩
  rw [Nat.add_assoc,Function.iterate_add_apply,Function.iterate_succ_apply',htop,hstart,iterate_row (by omega),hd']

theorem iterate_rounds (hc : c < N) (hd : d < N) (h : d + (m + 1) * (N - 1) ≡ c [MOD k]) :
    ∃ n, (next N k)^[n + 1] c = d := by
  induction m generalizing d with
  | zero => exact iterate_wrap hk hle hc hd (by simpa using h)
  | succ m ih =>
    have hlt := mod_lt (d + (N - 1)) hk
    have hmid : (d + (N - 1)) % k + (m + 1) * (N - 1) ≡ c [MOD k] := by
      refine ((mod_modEq _ _).add_right _).trans (Eq.trans ?_ h)
      ring_nf
    obtain ⟨n,hn⟩ := ih (by omega) hmid
    obtain ⟨n',hn'⟩ := iterate_wrap hk hle (by omega) hd (mod_modEq (d + (N - 1)) k).symm
    exact ⟨n' + 1 + n,by rw [Nat.add_assoc,Function.iterate_add_apply,hn,hn']⟩

theorem iterate_of_modEq (hc : c < N) (hd : d < N) (h : d ≡ c [MOD classes N k]) : ∃ n, (next N k)^[n + 1] c = d := by
  obtain ⟨z,hz,hz'⟩ := chineseRemainder' h
  have hdle : d ≤ z + (N - 1) * (k * d) := by
    rcases Nat.eq_zero_or_pos (N - 1) with h0 | hpos
    · rw [h0] at hz
      exact le_add_right_of_le (modEq_zero_iff.mp hz).ge
    · rw [← mul_assoc]
      exact Nat.le_add_left_of_le (Nat.le_mul_of_pos_left d (Nat.mul_pos hpos hk))
  have hdz : d ≡ z + (N - 1) * (k * d) [MOD N - 1] := hz.symm.trans (add_mul_mod_self_left _ _ _).symm
  obtain ⟨q,hq⟩ := (modEq_iff_dvd' hdle).mp hdz
  obtain ⟨j,rfl⟩ := exists_eq_add_one_of_ne_zero hk.ne'
  refine iterate_rounds (m := q + j) hk hle hc hd ?_
  have hsum : d + (q + j + 1) * (N - 1) = z + (j + 1) * ((N - 1) * (d + 1)) := by
    rw [Nat.add_assoc q,Nat.add_mul,Nat.mul_comm q,← hq,← Nat.add_assoc,Nat.add_sub_cancel' hdle]
    ring
  rw [hsum]
  exact (add_mul_mod_self_left _ _ _).trans hz'
end
end Stride
