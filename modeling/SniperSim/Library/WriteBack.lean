import Mathlib.Logic.Function.Basic

open Function
namespace WriteBack

structure Entry (D : Type) where
  dirty : Bool
  data : D
deriving DecidableEq, Repr

structure Store (A D : Type) where
  cached : A → Option (Entry D)
  memory : A → D

namespace Store
variable {A D : Type} {s : Store A D} {a v : A} {d : D} {e : Entry D}

def view (s : Store A D) (a : A) : D := ((s.cached a).map Entry.data).getD (s.memory a)

def Sound (s : Store A D) : Prop := ∀ a e, s.cached a = some e → e.dirty = false → e.data = s.memory a

theorem view_of_cached (h : s.cached a = some e) : s.view a = e.data := by
  rw [view,h]
  rfl

theorem view_of_not_cached (h : s.cached a = none) : s.view a = s.memory a := by
  rw [view,h]
  rfl

theorem sound_of_empty (h : ∀ a, s.cached a = none) : s.Sound := by
  intro a e he
  rw [h a] at he
  cases he

section
variable [DecidableEq A]

def put (s : Store A D) (a : A) (e : Entry D) : Store A D :=
  { s with cached := update s.cached a (some e) }

def drop (s : Store A D) (v : A) : Store A D :=
  { s with cached := update s.cached v none }

def flush (s : Store A D) (v : A) (d : D) : Store A D where
  cached := update s.cached v none
  memory := update s.memory v d

@[simp] theorem put_put (e' : Entry D) : (s.put a e).put a e' = s.put a e' := by
  simp [put]

theorem put_self (h : s.cached a = some e) : s.put a e = s := by
  unfold put
  rw [← h,update_eq_self]

theorem view_put : (s.put a e).view = update s.view a e.data := by
  funext b
  by_cases hb : b = a
  · subst hb
    simp [view,put]
  · simp [view,put,hb]

theorem sound_put (h : s.Sound) (he : e.dirty = false → e.data = s.memory a) : (s.put a e).Sound := by
  intro b e' hb hclean
  by_cases hba : b = a
  · subst hba
    obtain rfl : e = e' := by simpa [put] using hb
    exact he hclean
  · exact h b e' (by simpa [put,hba] using hb) hclean

theorem view_fill (hd : s.view a = d) : (s.put a ⟨false,d⟩).view = s.view := by
  rw [view_put,← hd]
  exact update_eq_self a s.view

theorem sound_flush (h : s.Sound) : (s.flush v d).Sound := by
  intro b e hb hclean
  by_cases hbv : b = v
  · simp [flush,hbv] at hb
  · simpa [flush,hbv] using h b e (by simpa [flush,hbv] using hb) hclean

theorem view_flush : (s.flush v d).view = update s.view v d := by
  funext b
  by_cases hb : b = v
  · subst hb
    simp [view,flush]
  · simp [view,flush,hb]

theorem view_flush_of_cached (hv : s.cached v = some e) (hd : e.data = d) : (s.flush v d).view = s.view := by
  rw [view_flush,← hd,← view_of_cached hv]
  exact update_eq_self v s.view
end
end Store
end WriteBack
