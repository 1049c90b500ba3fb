import Mathlib.Order.Basic

namespace Deadline
variable {now : Nat} {a b : Option Nat}

def reached (now : Nat) : Option Nat → Bool
  | some t => decide (t ≤ now)
  | none => false

def soonest : Option Nat → Option Nat → Option Nat
  | some a, some b => some (min a b)
  | some a, none => some a
  | none, b => b

@[simp] theorem reached_none : reached now none = false := rfl

@[simp] theorem reached_some {t : Nat} : reached now (some t) ↔ t ≤ now := by
  simp [reached]

theorem reached_mono {later : Nat} (h : now ≤ later) (ha : reached now a) : reached later a := by
  cases a with
  | none => simp at ha
  | some t =>
    rw [reached_some] at ha ⊢
    exact Nat.le_trans ha h

theorem not_reached_of_le {later : Nat} (h : now ≤ later) (ha : reached later a = false) : reached now a = false := by
  by_contra hnow
  rw [Bool.not_eq_false] at hnow
  rw [reached_mono h hnow] at ha
  cases ha

theorem not_reached_soonest : reached now (soonest a b) = false ↔ reached now a = false ∧ reached now b = false := by
  cases a with
  | none => simp [soonest]
  | some s =>
    cases b with
    | none => simp [soonest]
    | some t =>
      simp only [soonest,reached,decide_eq_false_iff_not]
      omega

end Deadline
