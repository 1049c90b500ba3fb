import Mathlib.Logic.Basic

namespace Fuel
variable {α β : Type}

def Returns (f : Nat → Option α) (a : α) : Prop := ∃ n, ∀ fuel, n ≤ fuel → f fuel = some a

namespace Returns
variable {f : Nat → Option α} {a b : α}

theorem unique (ha : Returns f a) (hb : Returns f b) : a = b := by
  obtain ⟨n,hn⟩ := ha
  obtain ⟨m,hm⟩ := hb
  have h := hn (max n m) (Nat.le_max_left _ _)
  rw [hm (max n m) (Nat.le_max_right _ _)] at h
  exact (Option.some.inj h).symm

theorem of_succ (h : Returns (fun fuel => f (fuel + 1)) a) : Returns f a := by
  obtain ⟨n,hn⟩ := h
  refine ⟨n + 1,fun fuel hfuel => ?_⟩
  obtain ⟨m,rfl⟩ := Nat.exists_eq_add_of_le hfuel
  rw [Nat.add_right_comm]
  exact hn (n + m) (Nat.le_add_right _ _)

theorem map (g : α → β) (h : Returns f a) : Returns (fun fuel => (f fuel).map g) (g a) := by
  obtain ⟨n,hn⟩ := h
  exact ⟨n,fun fuel hfuel => congrArg (Option.map g) (hn fuel hfuel)⟩

theorem bind {g : α → Nat → Option β} {b : β} (h : Returns f a) (hg : Returns (g a) b) :
    Returns (fun fuel => (f fuel).bind fun x => g x fuel) b := by
  obtain ⟨n,hn⟩ := h
  obtain ⟨m,hm⟩ := hg
  refine ⟨max n m,fun fuel hfuel => ?_⟩
  show (f fuel).bind (fun x => g x fuel) = some b
  rw [hn fuel (Nat.le_trans (Nat.le_max_left _ _) hfuel)]
  exact hm fuel (Nat.le_trans (Nat.le_max_right _ _) hfuel)

theorem mapM {γ : Type} {g : Nat → γ → Option β} {h : γ → β} {xs : List γ}
    (hg : ∀ x ∈ xs, Returns (fun fuel => g fuel x) (h x)) : Returns (fun fuel => xs.mapM (g fuel)) (xs.map h) := by
  induction xs with
  | nil => exact ⟨0,fun _ _ => rfl⟩
  | cons x xs ih =>
    obtain ⟨n,hn⟩ := hg x List.mem_cons_self
    obtain ⟨m,hm⟩ := ih fun y hy => hg y (List.mem_cons_of_mem _ hy)
    refine ⟨max n m,fun fuel hfuel => ?_⟩
    have hx := hn fuel (Nat.le_trans (Nat.le_max_left _ _) hfuel)
    have hxs := hm fuel (Nat.le_trans (Nat.le_max_right _ _) hfuel)
    simp only [List.mapM_cons,hx,hxs,List.map_cons]
    rfl

theorem const (a : α) : Returns (fun _ => some a) a := ⟨0,fun _ _ => rfl⟩

end Returns
end Fuel
