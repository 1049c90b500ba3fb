import Mathlib.Tactic.Common

open Function
namespace Channel
variable {ι α : Type} [DecidableEq ι] {f : ι → List α} {i j : ι} {x y : α} {xs ys : List α}

theorem mem_update_append : y ∈ update f i (f i ++ xs) j ↔ y ∈ f j ∨ j = i ∧ y ∈ xs := by
  rcases eq_or_ne j i with rfl | hj
  · simp
  · simp [hj]

theorem mem_of_mem_update (h : f i = ys ++ xs) (hy : y ∈ update f i xs j) : y ∈ f j := by
  rcases eq_or_ne j i with rfl | hj
  · rw [update_self] at hy
    simp [h,hy]
  · rwa [update_of_ne hj] at hy

theorem mem_update_tail (h : f i = x :: xs) (hy : y ∈ f j) (hne : y ≠ x) : y ∈ update f i xs j := by
  rcases eq_or_ne j i with rfl | hj
  · rw [h] at hy
    rw [update_self]
    exact (List.mem_cons.mp hy).resolve_left hne
  · rwa [update_of_ne hj]

end Channel
