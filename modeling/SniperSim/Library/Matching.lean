import Mathlib.Logic.Function.Basic
import Mathlib.Tactic.SplitIfs

open Function
namespace Matching
variable {α β : Type} [DecidableEq α] [DecidableEq β] {f : α → Option β} {g : β → Option α} {a a' : α} {b b' : β}

def Paired (f : α → Option β) (g : β → Option α) : Prop := ∀ a b, f a = some b ↔ g b = some a

omit [DecidableEq α] [DecidableEq β] in
theorem Paired.left_injective (h : Paired f g) (ha : f a = some b) (ha' : f a' = some b) : a = a' :=
  Option.some.inj (((h a b).mp ha).symm.trans ((h a' b).mp ha'))

theorem Paired.unlink (h : Paired f g) (hab : f a = some b) : Paired (update f a none) (update g b none) := by
  intro x y
  rw [update_apply,update_apply]
  split_ifs with hx hy hy
  · simp
  · refine ⟨by simp,fun hg => (hy ?_).elim⟩
    exact Option.some.inj (((h x y).mpr hg).symm.trans (hx ▸ hab))
  · exact ⟨fun hf => (hx (h.left_injective hf (hy ▸ hab))).elim,by simp⟩
  · exact h x y

theorem Paired.link (h : Paired f g) (ha : f a = none) (hb : g b = none) :
    Paired (update f a (some b)) (update g b (some a)) := by
  intro x y
  rw [update_apply,update_apply]
  split_ifs with hx hy hy
  · simp [hx,hy]
  · refine ⟨fun hf => (hy (Option.some.inj hf).symm).elim,fun hg => ?_⟩
    simp [← hx,(h x y).mpr hg] at ha
  · refine ⟨fun hf => ?_,fun hg => (hx (Option.some.inj hg).symm).elim⟩
    simp [← hy,(h x y).mp hf] at hb
  · exact h x y

end Matching
