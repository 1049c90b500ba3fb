import Mathlib.Combinatorics.Hall.Finite
import Mathlib.Algebra.BigOperators.Group.Finset.Basic

namespace Slots
open Finset
variable {C R : Type} {a : C → Finset R} {jobs : List C} {n : Nat}

def Schedulable (allowed : C → Finset R) (jobs : List C) (n : Nat) : Prop :=
  ∃ slot : Fin jobs.length → Fin n × R,Function.Injective slot ∧ ∀ i, (slot i).2 ∈ allowed (jobs.get i)

def Assignable (allowed : C → Finset R) (jobs : List C) : Prop :=
  ∃ resource : Fin jobs.length → R,Function.Injective resource ∧ ∀ i, resource i ∈ allowed (jobs.get i)

theorem schedulable_one : Schedulable a jobs 1 ↔ Assignable a jobs := by
  constructor
  · rintro ⟨slot,hinj,hmem⟩
    exact ⟨fun i => (slot i).2,fun i j h => hinj (Prod.ext (Subsingleton.elim (slot i).1 (slot j).1) h),hmem⟩
  · rintro ⟨resource,hinj,hmem⟩
    exact ⟨fun i => (0,resource i),fun i j h => hinj (Prod.ext_iff.mp h).2,hmem⟩

variable [DecidableEq R]

def demand (allowed : C → Finset R) (jobs : List C) (rs : Finset R) : Nat :=
  jobs.countP fun c => decide (allowed c ⊆ rs)

theorem demand_eq_card (jobs : List C) (rs : Finset R) :
    demand a jobs rs = (univ.filter fun i : Fin jobs.length => a (jobs.get i) ⊆ rs).card := by
  rw [← List.toFinset_finRange,(List.nodup_finRange _).card_eq_countP,demand]
  conv_lhs => rw [← List.ofFn_get jobs,List.ofFn_eq_map,List.countP_map]
  rfl

theorem Schedulable.demand_le (h : Schedulable a jobs n) (rs : Finset R) : demand a jobs rs ≤ n * rs.card := by
  obtain ⟨slot,hinj,hmem⟩ := h
  have hmaps : ∀ i ∈ univ.filter fun i : Fin jobs.length => a (jobs.get i) ⊆ rs,
      slot i ∈ (univ : Finset (Fin n)) ×ˢ rs := by
    intro i hi
    exact mem_product.mpr ⟨mem_univ _,(mem_filter.mp hi).2 (hmem i)⟩
  calc demand a jobs rs = _ := demand_eq_card jobs rs
    _ ≤ ((univ : Finset (Fin n)) ×ˢ rs).card := card_le_card_of_injOn slot hmaps hinj.injOn
    _ = n * rs.card := by rw [card_product,card_univ,Fintype.card_fin]

theorem schedulable_iff : Schedulable a jobs n ↔ ∀ rs, demand a jobs rs ≤ n * rs.card := by
  refine ⟨Schedulable.demand_le,fun h => ?_⟩
  have hall : ∀ s : Finset (Fin jobs.length),
      s.card ≤ (s.biUnion fun i => (univ : Finset (Fin n)) ×ˢ a (jobs.get i)).card := by
    intro s
    let rs := s.biUnion fun i => a (jobs.get i)
    have hsub : s ⊆ univ.filter fun i : Fin jobs.length => a (jobs.get i) ⊆ rs := by
      intro i hi
      exact mem_filter.mpr ⟨mem_univ _,subset_biUnion_of_mem (fun i => a (jobs.get i)) hi⟩
    have hprod : (univ : Finset (Fin n)) ×ˢ rs ⊆ s.biUnion fun i => (univ : Finset (Fin n)) ×ˢ a (jobs.get i) := by
      intro slot hslot
      obtain ⟨i,hi,hr⟩ := mem_biUnion.mp (mem_product.mp hslot).2
      exact mem_biUnion.mpr ⟨i,hi,mem_product.mpr ⟨mem_univ _,hr⟩⟩
    calc s.card ≤ demand a jobs rs := by
          rw [demand_eq_card]
          exact card_le_card hsub
      _ ≤ n * rs.card := h rs
      _ = ((univ : Finset (Fin n)) ×ˢ rs).card := by
          rw [card_product,card_univ,Fintype.card_fin]
      _ ≤ _ := card_le_card hprod
  obtain ⟨slot,hinj,hmem⟩ :=
    (all_card_le_biUnion_card_iff_existsInjective'
      fun i : Fin jobs.length => (univ : Finset (Fin n)) ×ˢ a (jobs.get i)).mp hall
  exact ⟨slot,hinj,fun i => (mem_product.mp (hmem i)).2⟩

theorem demand_eq_sum [Fintype C] [DecidableEq C] (jobs : List C) (rs : Finset R) :
    demand a jobs rs = ∑ c, if a c ⊆ rs then jobs.count c else 0 := by
  rw [← sum_filter,demand,← sum_filter_count_eq_countP]
  refine sum_subset (fun c hc => ?_) fun c hc hnot => ?_
  · exact mem_filter.mpr ⟨mem_univ c,(mem_filter.mp hc).2⟩
  · refine List.count_eq_zero.mpr fun hmem => hnot (mem_filter.mpr ⟨?_,?_⟩)
    · exact List.mem_toFinset.mpr hmem
    · exact (mem_filter.mp hc).2

theorem offer_eq_sum [Fintype R] (n : Nat) (rs : Finset R) : n * rs.card = ∑ r, if r ∈ rs then n else 0 := by
  rw [sum_ite_mem_eq,sum_const,Nat.mul_comm]
  rfl

end Slots
