import Mathlib.Algebra.BigOperators.Group.Finset.Piecewise

open List
namespace Roster
variable {α : Type} {l : List α} {t : Nat} {a : α}

theorem countP_set (h : l[t]? = some a) (b : α) (p : α → Bool) :
    (l.set t b).countP p + (if p a then 1 else 0) = l.countP p + (if p b then 1 else 0) := by
  obtain ⟨hlt,hget⟩ := List.getElem?_eq_some_iff.mp h
  rw [List.countP_set hlt,hget]
  have hmem : p a → 0 < l.countP p := fun hp => countP_pos_iff.mpr ⟨a,mem_of_getElem? h,hp⟩
  split
  · next hp =>
      have := hmem hp
      omega
  · omega

theorem count_set [DecidableEq α] (h : l[t]? = some a) (b c : α) :
    (l.set t b).count c + (if a = c then 1 else 0) = l.count c + (if b = c then 1 else 0) := by
  have hset := countP_set h b (· == c)
  simpa [count_eq_countP] using hset

theorem modify_eq_set (h : l[t]? = some a) (f : α → α) : l.modify t f = l.set t (f a) := by
  rw [modify_eq_set_getElem? f t l,h]
  rfl

theorem map_modify {β : Type} (l : List α) (t : Nat) {view : α → β} {f : α → α}
    (hf : ∀ x, view (f x) = view x) : (l.modify t f).map view = l.map view := by
  refine ext_getElem? fun i => ?_
  rw [getElem?_map,getElem?_map,getElem?_modify]
  cases l[i]? with
  | none => rfl
  | some x =>
    split <;> simp [*]

end Roster

theorem Finset.sum_update_add {ι M : Type} [DecidableEq ι] [AddCommMonoid M] {s : Finset ι} {i : ι} (hi : i ∈ s)
    (f : ι → M) (d : M) : ∑ j ∈ s, Function.update f i (f i + d) j = ∑ j ∈ s, f j + d := by
  rw [sum_update_of_mem hi,sum_eq_add_sum_sdiff_singleton_of_mem hi f,add_right_comm]
