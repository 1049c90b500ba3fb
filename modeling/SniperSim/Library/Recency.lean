import Mathlib.Data.Set.Function
import Mathlib.Tactic.Common

namespace Recency
variable {ι : Type} [DecidableEq ι] {rank : ι → Nat} {S : Set ι} {i j k : ι} {n : Nat}

def promote (rank : ι → Nat) (i j : ι) : Nat :=
  if j = i then 0 else if rank j < rank i then rank j + 1 else rank j

@[simp] theorem promote_self (rank : ι → Nat) (i : ι) : promote rank i i = 0 := by
  simp [promote]

theorem promote_of_ne (h : j ≠ i) : promote rank i j = if rank j < rank i then rank j + 1 else rank j := by
  simp [promote,h]

theorem promote_pos (hinj : Set.InjOn rank S) (hi : i ∈ S) (hj : j ∈ S) (h : j ≠ i) : 0 < promote rank i j := by
  have hne := hinj.ne hj hi h
  rw [promote_of_ne h]
  split <;> omega

theorem promote_lt_iff (hinj : Set.InjOn rank S) (hi : i ∈ S) (hj : j ∈ S) (hk : k ∈ S)
    (hji : j ≠ i) (hki : k ≠ i) : promote rank i j < promote rank i k ↔ rank j < rank k := by
  have hj' := hinj.ne hj hi hji
  have hk' := hinj.ne hk hi hki
  rw [promote_of_ne hji,promote_of_ne hki]
  split <;> split <;> omega

theorem promote_lt (hi : rank i < n) (hj : rank j < n) : promote rank i j < n := by
  unfold promote
  split
  · omega
  · split <;> omega

theorem injOn_promote (hinj : Set.InjOn rank S) (hi : i ∈ S) : Set.InjOn (promote rank i) S := by
  intro j hj k hk h
  rcases eq_or_ne j i with rfl | hji
  · rcases eq_or_ne k j with rfl | hki
    · rfl
    · have := promote_pos hinj hi hk hki
      simp only [promote_self] at h
      omega
  · rcases eq_or_ne k i with rfl | hki
    · have := promote_pos hinj hi hj hji
      simp only [promote_self] at h
      omega
    · have hjk := promote_lt_iff hinj hi hj hk hji hki
      have hkj := promote_lt_iff hinj hi hk hj hki hji
      exact hinj hj hk (by omega)

end Recency
