import Mathlib.Tactic.Common

variable {ε α β : Type} {E : ε → Prop} {P Q : α → Prop} {R : β → Prop}

def Outcome (E : ε → Prop) (P : α → Prop) : Except ε α → Prop
  | .ok a => P a
  | .error e => E e

namespace Outcome
variable {a : α}

@[simp] theorem ok_iff : Outcome E P (.ok a) ↔ P a := Iff.rfl

@[simp] theorem pure_iff : Outcome E P (pure a) ↔ P a := Iff.rfl

@[simp] theorem error_iff {e : ε} : Outcome E P (.error e) ↔ E e := Iff.rfl

variable {x : Except ε α}

theorem mono (h : Outcome E P x) (hp : ∀ a, P a → Q a) : Outcome E Q x := by
  cases x with
  | ok a => exact hp a h
  | error e => exact h

theorem and (hp : Outcome E P x) (hq : Outcome E Q x) : Outcome E (fun a => P a ∧ Q a) x := by
  cases x with
  | ok a => exact ⟨hp,hq⟩
  | error e => exact hp

theorem bind {f : α → Except ε β} (h : Outcome E P x) (hf : ∀ a, P a → Outcome E R (f a)) : Outcome E R (x >>= f) := by
  cases x with
  | ok a => exact hf a h
  | error e => exact h

theorem foldlM {I : α → Prop} {f : α → β → Except ε α} (hf : ∀ a b, I a → Outcome E I (f a b))
    (h : I a) (l : List β) : Outcome E I (l.foldlM f a) := by
  induction l generalizing a with
  | nil => exact h
  | cons b l ih => exact (hf a b h).bind fun a' ha' => ih ha'

theorem of_ok (h : Outcome E P x) (hx : x = .ok a) : P a := by
  rw [hx] at h
  exact h

theorem of_error {e : ε} (h : Outcome E P x) (hx : x = .error e) : E e := by
  rw [hx] at h
  exact h

theorem map_ok {f : α → β} {y : β} (h : x.map f = .ok y) : ∃ z, x = .ok z ∧ f z = y := by
  cases x with
  | error e => cases h
  | ok z => exact ⟨z,rfl,Except.ok.inj h⟩

theorem bind_ok {f : α → Except ε β} {y : β} (h : x >>= f = .ok y) : ∃ z, x = .ok z ∧ f z = .ok y := by
  cases x with
  | error e => cases h
  | ok z => exact ⟨z,rfl,h⟩

end Outcome
