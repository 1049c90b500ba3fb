import SniperSim.Rob.IssueLog

open List Option
namespace RobTimer
open Deadline
variable {K : Type} {cfg : Config K} {s : State K} {p : Nat}
section
variable {req : List Nat → Option Nat → List Nat} {e : RobEntry}

def Awaits (s : State K) (e : RobEntry) (p : Nat) : Prop :=
  p ∈ e.dependencies ∨ Available s.log p (max e.readyMax s.now)

structure Waits (req : List Nat → Option Nat → List Nat) (s : State K) : Prop where
  ready : ∀ e ∈ s.rob, Ready e
  awaits : ∀ e ∈ s.rob, e.done = none → ∀ p ∈ req e.inputs e.fence, Awaits s e p
  ordered : ∀ r ∈ s.log, ∀ p ∈ req r.inputs r.fence, Available s.log p r.time

theorem Awaits.carried {s' : State K} {e e' : RobEntry} (h : Awaits s e p)
    (hlog : ∀ n t, Available s.log n t → Available s'.log n t) (hnow : s.now ≤ s'.now)
    (hc : Carries s'.log e e') : Awaits s' e' p := by
  have hmax := hc.readyMax
  rcases h with h | h
  · exact (hc.waits p h).imp id fun ha => ha.mono (Nat.le_max_left _ _)
  · exact .inr ((hlog p _ h).mono (by omega))

theorem Waits.steady {s' : State K} (h : Waits req s) (hs : Steady s s') : Waits req s' := by
  refine ⟨fun x hx => ?_,fun x hx hd p hp => ?_,?_⟩
  · obtain ⟨y,hy,hc⟩ := hs.rob.mem hx
    exact hc.ready (h.ready y hy)
  · obtain ⟨y,hy,hc⟩ := hs.rob.mem hx
    obtain ⟨-,-,hdone,hinputs,hfence⟩ := hc.fields
    rw [hinputs,hfence] at hp
    exact (h.awaits y hy (hdone ▸ hd) p hp).carried (fun n t ha => hs.log ▸ ha) hs.now (hs.log ▸ hc)
  · rw [hs.log]
    exact h.ordered

theorem Waits.available (h : Waits req s) (hi : Issues s i e) (hp : p ∈ req e.inputs e.fence) :
    Available s.log p s.now := by
  have he := mem_of_getElem? hi.entry
  have hready := hi.ready
  cases hr : e.ready with
  | none => simp [hr] at hready
  | some t =>
    rw [hr,reached_some] at hready
    obtain ⟨hnil,hmax⟩ := h.ready e he t hr
    rcases h.awaits e he hi.waiting p hp with hdep | hav
    · simp [hnil] at hdep
    · exact hav.mono (by omega)

theorem Waits.issueInstruction {i : Nat} (h : Waits req s) (hi : Issues s i e) :
    Waits req (issueInstruction cfg s i e) := by
  have hlog : ∀ n t, Available s.log n t → Available (RobTimer.issueInstruction cfg s i e).log n t :=
    fun n t ha => ha.append
  refine ⟨fun x hx => ?_,fun x hx hd p hp => ?_,fun r hr p hp => ?_⟩
  · rcases issued_mem hi.entry hx with hc | ⟨y,hy,hc⟩
    · exact hc.ready (h.ready e (mem_of_getElem? hi.entry))
    · exact hc.ready (h.ready y hy)
  · rcases issued_mem hi.entry hx with hc | ⟨y,hy,hc⟩
    · obtain ⟨-,-,hdone,-⟩ := hc.fields
      rw [hdone] at hd
      simp [issuedEntry] at hd
    · obtain ⟨-,-,hdone,hinputs,hfence⟩ := hc.fields
      rw [hinputs,hfence] at hp
      exact (h.awaits y hy (hdone ▸ hd) p hp).carried hlog (Nat.le_refl _) hc
  · rcases log_cases hr with hr | rfl
    · exact hlog p _ (h.ordered r hr p hp)
    · exact hlog p _ (h.available hi hp)

theorem Waits.doCommit (h : Waits req s) : Waits req (doCommit cfg s).1 :=
  ⟨fun e he => h.ready e (mem_of_mem_doCommit he),fun e he => h.awaits e (mem_of_mem_doCommit he),h.ordered⟩

theorem Waits.entered {uop : DynamicMicroOp} (h : Waits req s)
    (hnew : ∀ p ∈ req (newEntry cfg s uop).inputs (newEntry cfg s uop).fence,
      Awaits s (newEntry cfg s uop) p) : Waits req (entered cfg s uop) := by
  refine ⟨fun x hx => ?_,fun x hx hd p hp => ?_,h.ordered⟩
  · rcases entered_mem hx with ⟨y,hy,hc⟩ | rfl
    · exact hc.ready (h.ready y hy)
    · intro t ht
      simp only [newEntry,List.isEmpty_iff] at ht ⊢
      split_ifs at ht with hnil
      exact ⟨hnil,Nat.le_of_eq (some.inj ht)⟩
  · rcases entered_mem hx with ⟨y,hy,hc⟩ | rfl
    · obtain ⟨-,-,hdone,hinputs,hfence⟩ := hc.fields
      rw [hinputs,hfence] at hp
      exact (h.awaits y hy (hdone ▸ hd) p hp).carried (fun _ _ => id) (Nat.le_refl _) hc
    · exact hnew p hp

theorem waits_start (k : K) (loads stores : Nat) : Waits req (start k loads stores) := by
  refine ⟨?_,?_,?_⟩
  · simp [start]
  · simp [start]
  · simp [start]

theorem le_foldl_max {xs : List Nat} {x m : Nat} (h : x ∈ xs ∨ x ≤ m) : x ≤ xs.foldl max m := by
  induction xs generalizing m with
  | nil => exact h.resolve_left not_mem_nil
  | cons y xs ih =>
    refine ih ?_
    rcases h with h | h
    · rcases mem_cons.mp h with rfl | h
      · exact .inr (Nat.le_max_right _ _)
      · exact .inl h
    · exact .inr (Nat.le_trans h (Nat.le_max_left _ _))

theorem Logged.awaits_newEntry {uop : DynamicMicroOp} (h : Logged s)
    (hp : p ∈ dependenciesOf cfg s uop) : Awaits s (newEntry cfg s uop) p := by
  cases hd : doneOf s.rob p with
  | none => exact .inl (mem_filter.mpr ⟨hp,by rw [hd]; rfl⟩)
  | some d =>
    have hmax : d ≤ (newEntry cfg s uop).readyMax := le_foldl_max (.inl (mem_filterMap.mpr ⟨p,hp,hd⟩))
    obtain ⟨e,he,hdone⟩ := bind_eq_some_iff.mp hd
    obtain ⟨hmem,hseq⟩ := findEntry_mem he
    obtain ⟨q,hq,hr⟩ := h.issued e hmem (by rw [hdone]; rfl)
    obtain rfl := some.inj (hr.done.symm.trans hdone)
    refine .inr ⟨q,hq,hr.sequenceNumber.trans hseq,?_⟩
    have hle := (h.times q hq).2.1
    omega

theorem Logged.available_of_retired (h : Logged s) (hp : p < oldest s) : Available s.log p s.now := by
  obtain ⟨q,hq,hn,hd⟩ := h.retired p hp
  exact ⟨q,hq,hn,Nat.le_trans (h.times q hq).2.1 hd⟩

theorem Available.awaits (h : Available s.log p s.now) : Awaits s e p := .inr (h.mono (Nat.le_max_right _ _))
end

section
variable {uop : DynamicMicroOp}

theorem mem_producersOf : p ∈ producersOf s uop ↔ p ∈ uop.intraProducers s.nextSequenceNumber ∨
      p ∈ RegisterDependencies.sources s.registerDependencies
        (lowestValid s.rob s.nextSequenceNumber) uop.sourceRegisters ∨
      p ∈ s.memoryDependencies.dependencies uop (lowestValid s.rob s.nextSequenceNumber) := by
  rw [producersOf,mem_foldl_addDependency,mem_append]

theorem isStoreEntry_iff : isStoreEntry rob p ↔ ∃ e, findEntry rob p = some e ∧ e.uop.isStore := by
  rw [isStoreEntry,Option.any_eq_true]

theorem Consistent.barrier_not_store (h : Consistent s) (hb : s.memoryDependencies.membar = some b) :
    isStoreEntry s.rob b = false := by
  by_contra hstore
  rw [Bool.not_eq_false] at hstore
  obtain ⟨e,he,hes⟩ := isStoreEntry_iff.mp hstore
  obtain ⟨hmem,rfl⟩ := findEntry_mem he
  obtain ⟨u,hu,-,-,hus⟩ := h.tabled.barrier _ hb
  obtain ⟨-,-,-,huop⟩ := h.numbered.mem hmem
  rw [huop] at hu
  rw [some.inj hu,hus] at hes
  simp at hes

theorem mem_forward (hp : p ∈ deps) (hstore : isStoreEntry rob p = false) : p ∈ forward rob deps := by
  rw [forward]
  split
  · exact hp
  · next n hn =>
    have hne : p ≠ n := by
      rintro rfl
      rw [find?_some hn] at hstore
      simp at hstore
    split
    · exact hp
    · exact mem_foldl_addDependency.mpr (.inl ((mem_erase_of_ne hne).mpr hp))
end
end RobTimer
