import SniperSim.Library.Slots
import SniperSim.Rob.MicroOp
import Mathlib.Algebra.BigOperators.Fin
import Mathlib.Tactic.Linarith

namespace RobTimer

namespace Port

def all : List Port := [.port0,.port1,.port2,.port34,.port5,.port05,.port015]

instance instFintype : Fintype Port := ⟨⟨all,by decide⟩,fun p => by cases p <;> decide⟩

def shared : Port → Bool
  | .port05 | .port015 => true
  | _ => false

def allowed : Port → Finset Port
  | .port015 => {.port0,.port1,.port5}
  | .port05 => {.port0,.port5}
  | p => {p}

theorem sum_eq (f : Port → Nat) : ∑ p, f p =
    f .port0 + (f .port1 + (f .port2 + (f .port34 + (f .port5 + (f .port05 + f .port015))))) := rfl

structure Fits (counts : Port → Nat) (n : Nat) : Prop where
  single : ∀ p, p.shared = false → counts p ≤ n
  port05 : counts .port0 + counts .port5 + counts .port05 ≤ 2 * n
  port015 : counts .port0 + counts .port1 + counts .port5 + counts .port05 + counts .port015 ≤ 3 * n

section
variable {n : Nat}

theorem demand_eq (jobs : List Port) (rs : Finset Port) : Slots.demand allowed jobs rs =
    (if .port0 ∈ rs then jobs.count .port0 else 0) + ((if .port1 ∈ rs then jobs.count .port1 else 0) +
      ((if .port2 ∈ rs then jobs.count .port2 else 0) + ((if .port34 ∈ rs then jobs.count .port34 else 0) +
      ((if .port5 ∈ rs then jobs.count .port5 else 0) +
      ((if .port0 ∈ rs ∧ .port5 ∈ rs then jobs.count .port05 else 0) +
      (if .port0 ∈ rs ∧ .port1 ∈ rs ∧ .port5 ∈ rs then jobs.count .port015 else 0)))))) := by
  rw [Slots.demand_eq_sum,sum_eq]
  simp [allowed,Finset.insert_subset_iff]

theorem Fits.demand_le (h : Fits (jobs.count ·) n) (rs : Finset Port) : Slots.demand allowed jobs rs ≤ n * rs.card := by
  have h0 := h.single .port0 rfl
  have h1 := h.single .port1 rfl
  have h5 := h.single .port5 rfl
  have h05 := h.port05
  have h015 := h.port015
  have own : ∀ p : Port, p.shared = false → (if p ∈ rs then jobs.count p else 0) ≤ if p ∈ rs then n else 0 := by
    intro p hp
    split_ifs
    · exact h.single p hp
    · exact Nat.le_refl 0
  have group : (if .port0 ∈ rs then jobs.count .port0 else 0) +
      (if .port1 ∈ rs then jobs.count .port1 else 0) +
      (if .port5 ∈ rs then jobs.count .port5 else 0) +
      (if .port0 ∈ rs ∧ .port5 ∈ rs then jobs.count .port05 else 0) +
      (if .port0 ∈ rs ∧ .port1 ∈ rs ∧ .port5 ∈ rs then jobs.count .port015 else 0) ≤
      (if .port0 ∈ rs then n else 0) + (if .port1 ∈ rs then n else 0) + if .port5 ∈ rs then n else 0 := by
    by_cases m0 : Port.port0 ∈ rs <;> by_cases m1 : Port.port1 ∈ rs <;>
      by_cases m5 : Port.port5 ∈ rs <;> simp only [m0,m1,m5,if_true,if_false,and_true,and_false] <;>
      omega
  have own2 := own .port2 rfl
  have own34 := own .port34 rfl
  rw [demand_eq,Slots.offer_eq_sum,sum_eq]
  generalize (if Port.port05 ∈ rs then n else 0) = spare05
  generalize (if Port.port015 ∈ rs then n else 0) = spare015
  linarith

theorem fits_of_schedulable (h : Slots.Schedulable allowed jobs n) : Fits (jobs.count ·) n := by
  have hle := h.demand_le
  simp only [demand_eq] at hle
  refine ⟨fun p hp => ?_,?_,?_⟩
  · cases p with
    | port05 | port015 => exact Bool.noConfusion hp
    | port0 => simpa using hle {.port0}
    | port1 => simpa using hle {.port1}
    | port2 => simpa using hle {.port2}
    | port34 => simpa using hle {.port34}
    | port5 => simpa using hle {.port5}
  · have h05 := hle {.port0,.port5}
    simp at h05
    omega
  · have h015 := hle {.port0,.port1,.port5}
    simp at h015
    omega

theorem schedulable_iff_fits : Slots.Schedulable allowed jobs n ↔ Fits (jobs.count ·) n :=
  ⟨fits_of_schedulable,fun h => Slots.schedulable_iff.mpr h.demand_le⟩
end
end Port
end RobTimer
