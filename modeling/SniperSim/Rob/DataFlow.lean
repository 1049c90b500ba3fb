import SniperSim.Rob.Dependencies

open List Option
namespace RobTimer
variable {K : Type} {cfg : Config K} {s : State K} {uop : DynamicMicroOp} {p : Nat}

structure DataFlow (log : List Issue) : Prop where
  once : (log.map Issue.sequenceNumber).Nodup
  ordered : ∀ r ∈ log, ∀ p ∈ r.inputs, Available log p r.time

instance (log : List Issue) : Decidable (DataFlow log) :=
  decidable_of_iff ((log.map Issue.sequenceNumber).Nodup ∧ ∀ r ∈ log, ∀ p ∈ r.inputs,
    Available log p r.time) ⟨fun h => ⟨h.1,h.2⟩,fun h => ⟨h.once,h.ordered⟩⟩

def settled (s : State K) (store : RobEntry) : Bool := store.done.isSome || decide (store.readyMax ≤ s.now)

def Covered (s : State K) : Label → Prop
  | .enter uop => uop.isLoad → (∀ p ∈ operandsOf s uop, isStoreEntry s.rob p = false) ∧
      (storeBefore s.rob uop).all (settled s)
  | .execute _ => True

instance (s : State K) : (l : Label) → Decidable (Covered s l)
  | .enter uop => inferInstanceAs (Decidable (uop.isLoad → _))
  | .execute _ => inferInstanceAs (Decidable True)

theorem mem_operandsOf : p ∈ operandsOf s uop ↔ (∃ r ∈ uop.sourceRegisters, s.writers r = some p) ∨
      p ∈ uop.intraProducers s.nextSequenceNumber := by
  rw [operandsOf,mem_append,mem_filterMap]

theorem mem_sources : p ∈ RegisterDependencies.sources table low regs ↔ ∃ r ∈ regs, table r = some p ∧ low ≤ p := by
  simp [RegisterDependencies.sources,RegisterDependencies.peekProducer]

theorem Consistent.operand (h : Consistent s) (hp : p ∈ operandsOf s uop) : p ∈ producersOf s uop ∨ p < oldest s := by
  rw [mem_producersOf,h.numbered.lowestValid]
  rcases mem_operandsOf.mp hp with ⟨r,hr,hw⟩ | hintra
  · rcases h.tabled.written r p hw with htable | hlt
    · rcases Nat.lt_or_ge p (oldest s) with hlt | hge
      · exact .inr hlt
      · exact .inl (.inr (.inl (mem_sources.mpr ⟨r,hr,htable,hge⟩)))
    · exact .inr hlt
  · exact .inl (.inl hintra)

theorem Consistent.matching (h : Consistent s) : s.memoryDependencies.matching uop (oldest s) =
    (storeBefore s.rob uop).map RobEntry.sequenceNumber := by
  rw [MemoryDependencies.matching,storeBefore]
  split_ifs
  · rw [MemoryDependencies.find,h.tabled.stores,storesOf,← map_reverse,← filter_reverse,← map_reverse]
    simp only [find?_map,find?_filter,Option.map_map,Function.comp_def,tag,Bool.decide_and,Bool.decide_eq_true]
  · rfl

theorem storeBefore_mem (h : storeBefore s.rob uop = some e) : e ∈ s.rob ∧ e.uop.isStore := by
  rw [storeBefore] at h
  split_ifs at h
  have hp := find?_some h
  rw [Bool.and_eq_true] at hp
  exact ⟨mem_reverse.mp (mem_of_find?_eq_some h),hp.1⟩

theorem storeBefore_load (h : storeBefore s.rob uop = some e) : uop.isLoad := by
  by_contra hload
  simp [storeBefore,hload] at h

theorem Consistent.store_producer (h : Consistent s) (hload : uop.isLoad)
    (hoperands : ∀ q ∈ operandsOf s uop, isStoreEntry s.rob q = false)
    (hp : p ∈ producersOf s uop) (hstore : isStoreEntry s.rob p) :
    (storeBefore s.rob uop).map RobEntry.sequenceNumber = some p := by
  have hoperand : p ∉ operandsOf s uop := fun hmem => by simp [hoperands p hmem] at hstore
  rw [mem_producersOf,h.numbered.lowestValid] at hp
  rcases hp with hintra | hreg | hmem
  · exact absurd (mem_operandsOf.mpr (.inr hintra)) hoperand
  · obtain ⟨r,hr,htable,-⟩ := mem_sources.mp hreg
    exact absurd (mem_operandsOf.mpr (.inl ⟨r,hr,h.tabled.current r p htable⟩)) hoperand
  · rw [MemoryDependencies.dependencies,if_pos hload,mem_append,mem_toList,mem_toList] at hmem
    rcases hmem with hmatch | hbar
    · rwa [h.matching] at hmatch
    · rw [h.barrier_not_store (filter_eq_some_iff.mp hbar).1] at hstore
      simp at hstore

theorem forward_some (hn : n ∈ deps) (he : findEntry rob n = some e) (hstore : e.uop.isStore)
    (honly : ∀ p ∈ deps, isStoreEntry rob p → p = n) :
    forward rob deps = e.dependencies.foldl addDependency (deps.erase n) := by
  have hfind : deps.find? (isStoreEntry rob) = some n := by
    cases hf : deps.find? (isStoreEntry rob) with
    | none =>
      have hnone := find?_eq_none.mp hf n hn
      exact absurd (isStoreEntry_iff.mpr ⟨e,he,hstore⟩) hnone
    | some p => rw [honly p (mem_of_find?_eq_some hf) (find?_some hf)]
  rw [forward,hfind]
  simp only [he]

theorem Consistent.mem_forward_store (h : Consistent s)
    (hoperands : ∀ q ∈ operandsOf s uop, isStoreEntry s.rob q = false)
    (he : storeBefore s.rob uop = some e) (hp : p ∈ e.dependencies) : p ∈ forward s.rob (producersOf s uop) := by
  obtain ⟨hmem,hstore⟩ := storeBefore_mem he
  have hload := storeBefore_load he
  have hproducer : e.sequenceNumber ∈ producersOf s uop := by
    rw [mem_producersOf,h.numbered.lowestValid,MemoryDependencies.dependencies,if_pos hload,h.matching,he]
    exact .inr (.inr mem_cons_self)
  rw [forward_some hproducer (h.numbered.findEntry hmem) hstore]
  · exact mem_foldl_addDependency.mpr (.inr hp)
  · intro q hq hqs
    have hmatch := h.store_producer hload hoperands hq hqs
    rw [he] at hmatch
    exact (some.inj hmatch).symm

def inputsOnly (inputs : List Nat) (_ : Option Nat) : List Nat := inputs

theorem Consistent.awaits_store (h : Consistent s) (hw : Waits inputsOnly s) (hfwd : cfg.storeToLoadForwarding)
    (hoperands : ∀ q ∈ operandsOf s uop, isStoreEntry s.rob q = false)
    (he : storeBefore s.rob uop = some e) (hsettled : settled s e) (hp : p ∈ e.inputs) :
    Awaits s (newEntry cfg s uop) p := by
  have hmem := (storeBefore_mem he).1
  have hload := storeBefore_load he
  cases hd : e.done with
  | some d =>
    obtain ⟨q,hq,hr⟩ := h.logged.issued e hmem (by rw [hd]; rfl)
    have hav := hw.ordered q hq p (by rwa [inputsOnly,hr.inputs])
    exact (hav.mono (h.logged.times q hq).2.2).awaits
  | none =>
    have hmax : e.readyMax ≤ s.now := by simpa [settled,hd] using hsettled
    rcases hw.awaits e hmem hd p hp with hdep | hav
    · refine h.logged.awaits_newEntry ?_
      rw [dependenciesOf,hfwd,hload,Bool.and_self,if_pos rfl]
      exact h.mem_forward_store hoperands he hdep
    · exact (hav.mono (Nat.max_le.mpr ⟨hmax,Nat.le_refl _⟩)).awaits

theorem Consistent.awaits_operand (h : Consistent s)
    (hoperands : uop.isLoad → ∀ q ∈ operandsOf s uop, isStoreEntry s.rob q = false)
    (hp : p ∈ operandsOf s uop) : Awaits s (newEntry cfg s uop) p := by
  rcases h.operand hp with hprod | hlt
  · refine h.logged.awaits_newEntry ?_
    rw [dependenciesOf]
    split
    · next hcond =>
      rw [Bool.and_eq_true] at hcond
      exact mem_forward hprod (hoperands hcond.2 p hp)
    · exact hprod
  · exact (h.logged.available_of_retired hlt).awaits

theorem Consistent.awaits_inputs (h : Consistent s) (hw : Waits inputsOnly s)
    (hfwd : cfg.storeToLoadForwarding) (hc : Covered s (.enter uop))
    (hp : p ∈ (newEntry cfg s uop).inputs) : Awaits s (newEntry cfg s uop) p := by
  have hoperands : uop.isLoad → ∀ q ∈ operandsOf s uop, isStoreEntry s.rob q = false := fun hload => (hc hload).1
  rcases mem_append.mp hp with hp | hp
  · exact h.awaits_operand hoperands hp
  · cases he : storeBefore s.rob uop with
    | none => simp [he] at hp
    | some e =>
      have hload := storeBefore_load he
      have hsettled := (hc hload).2
      rw [he] at hp hsettled
      exact h.awaits_store hw hfwd (hoperands hload) he hsettled hp

theorem data_flow_order (hfwd : cfg.storeToLoadForwarding = true) {k : K} {loads stores : Nat}
    (h : Run.Reaches (next cfg) Covered (start k loads stores) s) : DataFlow s.log := by
  have hinv : Consistent s ∧ Waits inputsOnly s := by
    refine reaches_keeps (I := fun t => Consistent t ∧ Waits inputsOnly t) ?_ ?_ ?_ ?_
      ⟨consistent_start k loads stores,waits_start k loads stores⟩ h
    · exact fun t t' ht hs => ⟨ht.1.steady hs,ht.2.steady hs⟩
    · exact fun t i e ht hi => ⟨ht.1.issueInstruction hi,ht.2.issueInstruction hi⟩
    · exact fun t ht => ⟨ht.1.doCommit,ht.2.doCommit⟩
    · exact fun t uop ht hc _ => ⟨ht.1.entered uop,ht.2.entered fun p hp => ht.1.awaits_inputs ht.2 hfwd hc hp⟩
  exact ⟨hinv.1.logged.once,hinv.2.ordered⟩

def slowResult : DynamicMicroOp := { simpleUop .execute 20 with destinationRegisters := [1] }

def storeResult : DynamicMicroOp := { simpleUop .store 1 with sourceRegisters := [1] }

def forwarded : List Label :=
  ([slowResult,storeResult,simpleUop .load 4] ++ fill 9).map .enter ++ replicate 24 (.execute true)

theorem load_waits_for_stored_result : (smallCore 8 1).storeToLoadForwarding = true ∧
    ∃ s, Run.Reaches (next (smallCore 8 1)) Covered (start () 8 8) s ∧
      (∃ r ∈ s.log, r.sequenceNumber = 2 ∧ r.inputs = [0] ∧ r.time = 22) ∧ DataFlow s.log := by
  have hsome : (Run.guided (next (smallCore 8 1)) Covered (start () 8 8) forwarded).isSome := by
    decide +kernel
  have hrun := Run.reaches_guided hsome
  exact ⟨rfl,_,hrun,by decide +kernel,data_flow_order rfl hrun⟩

theorem issued_once_retired_in_order {k : K} {loads stores : Nat}
    (h : Run.Reaches (next cfg) C (start k loads stores) s) :
    (s.log.map Issue.sequenceNumber).Nodup ∧ (∀ q ∈ s.log, s.stream[q.sequenceNumber]? = some q.uop ∧
      q.time ≤ q.available ∧ q.available ≤ q.done) ∧ (∀ (j : Nat) (e : RobEntry), s.rob[j]? = some e →
      e.sequenceNumber = oldest s + j ∧ (e.done.isSome = true ↔ ∃ q ∈ s.log, q.sequenceNumber = e.sequenceNumber)) ∧
    ∀ m < oldest s, ∃ q ∈ s.log, q.sequenceNumber = m ∧ q.done ≤ s.now := by
  obtain ⟨hn,hl,-⟩ : Consistent s := reaches_keeps (fun _ _ => .steady) (fun _ _ _ => .issueInstruction)
    (fun _ => .doCommit) (fun _ uop ht _ _ => ht.entered uop) (consistent_start k loads stores) h
  refine ⟨hl.once,fun q hq => ⟨hl.uops q hq,(hl.times q hq).1,(hl.times q hq).2.1⟩,fun j e he => ?_,hl.retired⟩
  have hmem := mem_of_getElem? he
  refine ⟨(hn.entries j e he).1,fun hd => ?_,?_⟩
  · obtain ⟨q,hq,hr⟩ := hl.issued e hmem hd
    exact ⟨q,hq,hr.sequenceNumber⟩
  · rintro ⟨q,hq,hs⟩
    by_contra hd
    exact hl.waiting e hmem (by simpa using hd) q hq hs

theorem forwarded_load_issued_once : ∃ s, Run.Reaches (next (smallCore 8 1)) Covered (start () 8 8) s ∧
    s.log ≠ [] ∧ (s.log.map Issue.sequenceNumber).Nodup := by
  have hsome : (Run.guided (next (smallCore 8 1)) Covered (start () 8 8) forwarded).isSome := by decide +kernel
  have hrun := Run.reaches_guided hsome
  exact ⟨_,hrun,by decide +kernel,(issued_once_retired_in_order hrun).1⟩

def lateLoad : List (List DynamicMicroOp) := [[slowResult,storeResult] ++ fill 3,[simpleUop .load 4] ++ fill 4]

def earlyLoad : List (List DynamicMicroOp) := [[slowResult,storeResult] ++ fill 2 ++ [simpleUop .load 4],fill 5]

def issuesOf (calls : List (List DynamicMicroOp)) : Option (List Issue) :=
  (simulateAll (smallCore 8 1) true 40 (fresh (start () 8 8)) calls).map fun p => p.timer.log

theorem load_misses_issued_producer : ∃ s, Run.Reaches (next (smallCore 8 1)) (fun _ _ => True) (start () 8 8) s ∧
      (∃ r ∈ s.log, r.sequenceNumber = 5 ∧ r.uop.isLoad = true ∧ r.inputs = [0] ∧ r.time = 6) ∧
      (∃ r ∈ s.log, r.sequenceNumber = 0 ∧ r.available = 21) ∧ ¬ DataFlow s.log ∧
      ∃ log, issuesOf earlyLoad = some log ∧ DataFlow log := by
  have hlate : (issuesOf lateLoad).any (fun log => decide (
      (∃ r ∈ log, r.sequenceNumber = 5 ∧ r.uop.isLoad ∧ r.inputs = [0] ∧ r.time = 6) ∧
      (∃ r ∈ log, r.sequenceNumber = 0 ∧ r.available = 21) ∧ ¬ DataFlow log)) := by
    decide +kernel
  have hearly : (issuesOf earlyLoad).any (fun log => decide (DataFlow log)) := by
    decide +kernel
  obtain ⟨log,hlog,hbad⟩ := (Option.any_eq_true _ _).mp hlate
  obtain ⟨p,hp,rfl⟩ := map_eq_some_iff.mp hlog
  obtain ⟨log',hlog',hgood⟩ := (Option.any_eq_true _ _).mp hearly
  obtain ⟨hload,hproducer,hflow⟩ := of_decide_eq_true hbad
  exact ⟨p.timer,simulateAll_reaches hp,hload,hproducer,hflow,log',hlog',of_decide_eq_true hgood⟩

end RobTimer
