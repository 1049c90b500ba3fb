import Mathlib.Data.List.Nodup

open Function List
variable {ι α : Type} {q q' : ι → List α} {P P' : α → Prop} {i j : ι} {x y : α}

structure Parked (q : ι → List α) (P : α → Prop) : Prop where
  nodup : ∀ i, (q i).Nodup
  apart : ∀ i j x, x ∈ q i → x ∈ q j → i = j
  mem_iff : ∀ x, P x ↔ ∃ i, x ∈ q i

namespace Parked

theorem empty (hP : ∀ x, ¬ P x) : Parked (fun _ : ι => []) P :=
  ⟨fun _ => nodup_nil,fun _ _ _ hx => (not_mem_nil hx).elim,
    fun x => ⟨fun h => (hP x h).elim,fun ⟨_,hx⟩ => (not_mem_nil hx).elim⟩⟩

section
variable (h : Parked q P)
include h

theorem of_mem (hx : x ∈ q i) : P x := (h.mem_iff x).mpr ⟨i,hx⟩

theorem congr (hP : ∀ x, P' x ↔ P x) : Parked q P' :=
  ⟨h.nodup,h.apart,fun x => (hP x).trans (h.mem_iff x)⟩

theorem leave (hx : x ∈ q i) (hsub : ∀ j, (q' j).Sublist (q j)) (hmem : ∀ j y, y ∈ q j → y ≠ x → y ∈ q' j)
    (hnot : x ∉ q' i) (hP : ∀ y, P' y ↔ P y ∧ y ≠ x) : Parked q' P' := by
  refine ⟨fun j => (h.nodup j).sublist (hsub j),
    fun j k y hj hk => h.apart j k y ((hsub j).subset hj) ((hsub k).subset hk),fun y => ?_⟩
  rw [hP,h.mem_iff]
  constructor
  · rintro ⟨⟨j,hj⟩,hy⟩
    exact ⟨j,hmem j y hj hy⟩
  · rintro ⟨j,hj⟩
    refine ⟨⟨j,(hsub j).subset hj⟩,?_⟩
    rintro rfl
    exact hnot (h.apart i j y hx ((hsub j).subset hj) ▸ hj)

section
variable [DecidableEq ι]

theorem enter (hx : ¬ P x) (i : ι) (hP : ∀ y, P' y ↔ P y ∨ y = x) : Parked (update q i (q i ++ [x])) P' := by
  have hmem : ∀ j y, y ∈ update q i (q i ++ [x]) j ↔ y ∈ q j ∨ j = i ∧ y = x := by
    intro j y
    rcases eq_or_ne j i with rfl | hj
    · simp
    · simp [hj]
  have hnot : ∀ j, x ∉ q j := fun j hj => hx (h.of_mem hj)
  refine ⟨(forall_update_iff q fun _ l => l.Nodup).mpr ⟨?_,fun j _ => h.nodup j⟩,fun j k y hj hk => ?_,fun y => ?_⟩
  · exact concat_eq_append ▸ Nodup.concat (hnot i) (h.nodup i)
  · rcases (hmem j y).mp hj with hj | ⟨hji,hyx⟩ <;> rcases (hmem k y).mp hk with hk | ⟨hki,hyx'⟩
    · exact h.apart j k y hj hk
    · exact (hnot j (hyx' ▸ hj)).elim
    · exact (hnot k (hyx ▸ hk)).elim
    · exact hji.trans hki.symm
  · rw [hP,h.mem_iff]
    constructor
    · rintro (⟨j,hj⟩ | rfl)
      · exact ⟨j,(hmem j y).mpr (.inl hj)⟩
      · exact ⟨i,(hmem i y).mpr (.inr ⟨rfl,rfl⟩)⟩
    · rintro ⟨j,hj⟩
      exact ((hmem j y).mp hj).imp (fun hj => ⟨j,hj⟩) And.right

theorem remove {l l' : List α} (hq : q i = l ++ x :: l') (hP : ∀ y, P' y ↔ P y ∧ y ≠ x)
    : Parked (update q i (l ++ l')) P' := by
  have hn := h.nodup i
  rw [hq,nodup_middle,nodup_cons] at hn
  refine h.leave (i := i) (hq ▸ mem_append_right l mem_cons_self) (fun j => ?_) (fun j y hy hne => ?_) ?_ hP
  · rcases eq_or_ne j i with rfl | hj <;> simp [*]
  · rcases eq_or_ne j i with rfl | hj
    · rw [update_self]
      rw [hq,mem_append,mem_cons] at hy
      exact mem_append.mpr (hy.imp_right fun hy => hy.resolve_left hne)
    · rwa [update_of_ne hj]
  · rw [update_self]
    exact hn.1

theorem transfer {l : List α} (hq : q i = x :: l) (j : ι) (hij : i ≠ j)
    : Parked (update (update q i l) j (q j ++ [x])) P := by
  have hx : P x := h.of_mem (hq ▸ mem_cons_self)
  have hpop := h.remove (l := []) hq (fun y => Iff.rfl)
  have hent : Parked _ P := hpop.enter (fun hc => hc.2 rfl) j fun y => by
    rcases eq_or_ne y x with rfl | hy
    · simp [hx]
    · simp [hy]
  rwa [update_of_ne hij.symm] at hent
end

theorem exactly_once [DecidableEq α] : P x ↔ ∃ i, (q i).count x = 1 ∧ ∀ j, j ≠ i → x ∉ q j := by
  rw [h.mem_iff]
  constructor
  · rintro ⟨i,hi⟩
    exact ⟨i,count_eq_one_of_mem (h.nodup i) hi,fun j hj hx => hj (h.apart j i x hx hi)⟩
  · rintro ⟨i,hi,-⟩
    exact ⟨i,count_pos_iff.mp (by omega)⟩

theorem notMem (hx : ¬ P x) (i : ι) : x ∉ q i := fun hi => hx (h.of_mem hi)
end
end Parked
