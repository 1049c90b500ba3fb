import Mathlib.Logic.Basic
import Mathlib.Tactic.SplitIfs

namespace Shuffle
variable {V : Type}

def set (t : Nat → V) (i : Nat) (v : V) : Nat → V := fun k => if k = i then v else t k

def step (value : Nat → V) (t : Nat → V) (i j : Nat) : Nat → V := set (set t i (t j)) j (value i)

def insideOut (value : Nat → V) (memory : Nat → V) (draw : Nat → Nat) : Nat → Nat → V
  | 0 => set memory 0 (value 0)
  | n + 1 => step value (insideOut value memory draw n) (n + 1) (draw (n + 1))

structure Permutes (value : Nat → V) (n : Nat) (t : Nat → V) : Prop where
  bounded : ∀ a ≤ n, ∃ k ≤ n, t a = value k
  injective : ∀ a ≤ n, ∀ b ≤ n, t a = t b → a = b
  surjective : ∀ k ≤ n, ∃ a ≤ n, t a = value k

variable {value : Nat → V} {t memory : Nat → V} {draw : Nat → Nat} {n j : Nat}

theorem step_apply (i j k : Nat) : step value t i j k = if k = j then value i else if k = i then t j else t k := rfl

theorem Permutes.step {N : Nat} (hv : ∀ a ≤ N, ∀ b ≤ N, value a = value b → a = b)
    (h : Permutes value n t) (hn : n + 1 ≤ N) (hj : j ≤ n + 1) : Permutes value (n + 1) (step value t (n + 1) j) := by
  have hnew : ∀ a ≤ n, t a ≠ value (n + 1) := by
    intro a ha heq
    obtain ⟨k,hk,hval⟩ := h.bounded a ha
    have := hv k (by omega) (n + 1) hn (hval.symm.trans heq)
    omega
  refine ⟨?_,?_,?_⟩
  · intro a ha
    rw [step_apply]
    split_ifs with haj hai
    · exact ⟨n + 1,Nat.le_refl _,rfl⟩
    · obtain ⟨k,hk,hval⟩ := h.bounded j (by omega)
      exact ⟨k,by omega,hval⟩
    · obtain ⟨k,hk,hval⟩ := h.bounded a (by omega)
      exact ⟨k,by omega,hval⟩
  · intro a ha b hb heq
    rw [step_apply,step_apply] at heq
    split_ifs at heq with haj hbj hbi hai hbj hbi hbj hbi
    · omega
    · exact absurd heq.symm (hnew j (by omega))
    · exact absurd heq.symm (hnew b (by omega))
    · exact absurd heq (hnew j (by omega))
    · omega
    · have := h.injective j (by omega) b (by omega) heq
      omega
    · exact absurd heq (hnew a (by omega))
    · have := h.injective a (by omega) j (by omega) heq
      omega
    · exact h.injective a (by omega) b (by omega) heq
  · intro k hk
    rcases Nat.lt_or_ge n k with hlt | hle
    · obtain rfl : k = n + 1 := by omega
      exact ⟨j,hj,by rw [step_apply,if_pos rfl]⟩
    · obtain ⟨a,ha,hval⟩ := h.surjective k hle
      by_cases haj : a = j
      · refine ⟨n + 1,Nat.le_refl _,?_⟩
        rw [step_apply,if_neg (by omega),if_pos rfl,← haj,hval]
      · exact ⟨a,by omega,by rw [step_apply,if_neg haj,if_neg (by omega),hval]⟩

theorem permutes_insideOut {N : Nat} (hv : ∀ a ≤ N, ∀ b ≤ N, value a = value b → a = b)
    (hdraw : ∀ i, draw i ≤ i) (memory : Nat → V) (hn : n ≤ N) : Permutes value n (insideOut value memory draw n) := by
  induction n with
  | zero =>
    have hzero : insideOut value memory draw 0 0 = value 0 := rfl
    refine ⟨fun a ha => ?_,fun a ha b hb _ => by omega,fun k hk => ?_⟩
    · obtain rfl := Nat.le_zero.mp ha
      exact ⟨0,Nat.le_refl _,hzero⟩
    · obtain rfl := Nat.le_zero.mp hk
      exact ⟨0,Nat.le_refl _,hzero⟩
  | succ n ih => exact (ih (by omega)).step hv hn (hdraw (n + 1))

theorem insideOut_memory (hdraw : ∀ i, draw i ≤ i) (memory memory' : Nat → V) {a : Nat}
    (ha : a ≤ n) : insideOut value memory draw n a = insideOut value memory' draw n a := by
  induction n generalizing a with
  | zero =>
    obtain rfl := Nat.le_zero.mp ha
    rfl
  | succ n ih =>
    have hj := hdraw (n + 1)
    rw [insideOut,insideOut,step_apply,step_apply]
    split_ifs with haj hai
    · rfl
    · exact ih (by omega)
    · exact ih (by omega)

end Shuffle
