import Mathlib.Data.Nat.Basic
import Mathlib.Order.Basic

open Nat
namespace LongestPath
variable (inside root : Nat → Prop) (uses : Nat → Nat → Prop) (weight : Nat → Nat)

inductive Chain : Nat → Nat → Prop
  | root {p : Nat} : inside p → root p → Chain p (weight p)
  | cons {p q n : Nat} : inside p → uses q p → Chain q n → Chain p (weight p + n)

def IsLongest (best : Nat) : Prop :=
  (best = 0 ∨ ∃ p, Chain inside root uses weight p best) ∧ ∀ p n, Chain inside root uses weight p n → n ≤ best

structure Relaxed (front : Nat) (value : Nat → Nat) (best : Nat) : Prop where
  sound : ∀ p, inside p → p < front → value p = 0 ∨ Chain inside root uses weight p (value p)
  roots : ∀ p, inside p → p < front → root p → weight p ≤ value p
  passed : ∀ q p n, front ≤ q → Chain inside root uses weight q n → uses q p → inside p →
    p < front → weight p + n ≤ value p
  visited : ∀ q n, front ≤ q → Chain inside root uses weight q n → n ≤ best
  reached : best = 0 ∨ ∃ p, Chain inside root uses weight p best

variable {inside root uses weight} {front best : Nat} {value : Nat → Nat}

theorem Chain.mem {p n : Nat} (h : Chain inside root uses weight p n) : inside p := by
  cases h with
  | root hp _ | cons hp _ _ => exact hp

theorem Chain.pos {p n : Nat} (h : Chain inside root uses weight p n)
    (hpos : ∀ p, inside p → 0 < weight p) : 0 < n := by
  cases h with
  | root hp _ => exact hpos p hp
  | cons hp _ _ => exact Nat.add_pos_left (hpos p hp) _

theorem Relaxed.start (hin : ∀ p, inside p → p < front) (hroot : ∀ p, inside p → root p → value p = weight p)
    (hzero : ∀ p, inside p → ¬root p → value p = 0) : Relaxed inside root uses weight front value 0 := by
  refine ⟨fun p hp _ => ?_,fun p hp _ hr => (hroot p hp hr).ge,fun q p n hq h => ?_,fun q n hq h => ?_,.inl rfl⟩
  · by_cases hr : root p
    · exact .inr (hroot p hp hr ▸ .root hp hr)
    · exact .inl (hzero p hp hr)
  · exact absurd (hin q h.mem) (not_lt.mpr hq)
  · exact absurd (hin q h.mem) (not_lt.mpr hq)

theorem Relaxed.le_value (h : Relaxed inside root uses weight (front + 1) value best)
    (holder : ∀ q p, uses q p → p < q) {n : Nat} (hn : Chain inside root uses weight front n) : n ≤ value front := by
  cases hn with
  | root hp hr => exact h.roots front hp (lt_succ_self front) hr
  | cons hp hu hq => exact h.passed _ front _ (holder _ _ hu) hq hu hp (lt_succ_self front)

theorem Relaxed.visit (value' : Nat → Nat) (h : Relaxed inside root uses weight (front + 1) value best)
    (holder : ∀ q p, uses q p → p < q) (hpos : ∀ p, inside p → 0 < weight p) (hin : inside front)
    (hused : ∀ p, inside p → uses front p → value front ≠ 0 → value' p = max (weight p + value front) (value p))
    (hkept : ∀ p, inside p → p < front → ¬(uses front p ∧ value front ≠ 0) → value' p = value p) :
    Relaxed inside root uses weight front value' (max best (value front)) := by
  have hfront := h.sound front hin (lt_succ_self front)
  have hge : ∀ p, inside p → p < front → value p ≤ value' p := by
    intro p hp hlt
    by_cases hu : uses front p ∧ value front ≠ 0
    · rw [hused p hp hu.1 hu.2]
      exact le_max_right _ _
    · exact (hkept p hp hlt hu).ge
  refine ⟨fun p hp hlt => ?_,fun p hp hlt hr => ?_,fun q p n hq hn hu hp hlt => ?_,fun q n hq hn => ?_,?_⟩
  · have hold := h.sound p hp (lt_succ_of_lt hlt)
    by_cases hu : uses front p ∧ value front ≠ 0
    · rw [hused p hp hu.1 hu.2]
      rcases le_total (weight p + value front) (value p) with hle | hle
      · rwa [max_eq_right hle]
      · rw [max_eq_left hle]
        exact .inr (.cons hp hu.1 (hfront.resolve_left hu.2))
    · rwa [hkept p hp hlt hu]
  · exact (h.roots p hp (lt_succ_of_lt hlt) hr).trans (hge p hp hlt)
  · rcases eq_or_lt_of_le hq with rfl | hq
    · have hle := h.le_value holder hn
      have hne : value front ≠ 0 := (lt_of_lt_of_le (hn.pos hpos) hle).ne'
      rw [hused p hp hu hne]
      exact (Nat.add_le_add_left hle _).trans (Nat.le_max_left _ _)
    · exact (h.passed q p n hq hn hu hp (lt_succ_of_lt hlt)).trans (hge p hp hlt)
  · rcases eq_or_lt_of_le hq with rfl | hq
    · exact (h.le_value holder hn).trans (le_max_right _ _)
    · exact (h.visited q n hq hn).trans (Nat.le_max_left _ _)
  · rcases le_total best (value front) with hle | hle
    · rw [max_eq_right hle]
      exact hfront.imp_right fun hc => ⟨front,hc⟩
    · rw [max_eq_left hle]
      exact h.reached

theorem Relaxed.isLongest (h : Relaxed inside root uses weight front value best)
    (hall : ∀ p, inside p → front ≤ p) : IsLongest inside root uses weight best :=
  ⟨h.reached,fun p n hn => h.visited p n (hall p hn.mem) hn⟩

end LongestPath
