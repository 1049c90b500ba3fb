import SniperSim.Rob.Dependencies
import SniperSim.Rob.Occupancy
import Mathlib.Data.List.Nodup

open List Option
namespace RobTimer
open Deadline
variable {K : Type} {cfg : Config K} {s : State K} {uop : DynamicMicroOp} {stream : List DynamicMicroOp}
  {e : RobEntry}

def isFence (uop : DynamicMicroOp) : Bool := uop.serializing || uop.memBarrier

def heedsBarrier (uop : DynamicMicroOp) : Bool := uop.isMemory || uop.memBarrier

def Older (stream : List DynamicMicroOp) (r : Issue) (n : Nat) (u : DynamicMicroOp) : Prop :=
  n < r.sequenceNumber ∧ stream[n]? = some u

structure Drained (log : List Issue) (stream : List DynamicMicroOp) (r : Issue) : Prop where
  stores : ∀ n u, Older stream r n u → u.isStore → ∃ q ∈ log, q.sequenceNumber = n ∧ q.completion ≤ r.time
  loads : ∀ n u, Older stream r n u → u.isLoad → ∃ q ∈ log, q.sequenceNumber = n ∧ q.done ≤ r.time

structure FenceOrder (s : State K) : Prop where
  once : (s.log.map Issue.sequenceNumber).Nodup
  fences : ∀ r ∈ s.log, isFence r.uop → Drained s.log s.stream r
  barriers : ∀ r ∈ s.log, r.uop.isMemory → ∀ n u, Older s.stream r n u →
    u.memBarrier → Available s.log n r.time

def barrierIsOldest (s : State K) : Bool :=
  s.memoryDependencies.membar.any fun b => b == lowestValid s.rob s.nextSequenceNumber

def WaitsForLoad (now : Nat) (e x : RobEntry) : Prop :=
  isFence e.uop → e.done = none → x.uop.isLoad → reached now x.done

instance (now : Nat) (e x : RobEntry) : Decidable (WaitsForLoad now e x) :=
  inferInstanceAs (Decidable (_ → _ = none → _))

def LoadsDone (b : Nat) (s : State K) : Prop :=
  ∀ i < b, ∀ j < i, ∀ e ∈ s.rob[i]?, ∀ x ∈ s.rob[j]?, WaitsForLoad s.now e x

instance (b : Nat) (s : State K) : Decidable (LoadsDone b s) :=
  decidable_of_iff (∀ i < b, ∀ j < i, ∀ e ∈ s.rob[i]?.toList, ∀ x ∈ s.rob[j]?.toList, WaitsForLoad s.now e x)
    (by simp only [LoadsDone,mem_toList,mem_def])

def Separated (cfg : Config K) (s : State K) : Label → Prop
  | .enter uop => (uop.memBarrier → uop.isMemory = false) ∧ (heedsBarrier uop → barrierIsOldest s →
        Available s.log (lowestValid s.rob s.nextSequenceNumber) s.now)
  -- an execute() call can issue only what is in the window or is dispatched by it
  | .execute _ => LoadsDone (s.numInRob + cfg.dispatchWidth) s

instance (cfg : Config K) (s : State K) : (l : Label) → Decidable (Separated cfg s l)
  | .enter uop => inferInstanceAs (Decidable ((uop.memBarrier → uop.isMemory = false) ∧ _))
  | .execute _ => inferInstanceAs (Decidable (LoadsDone _ s))

def Fenced (stream : List DynamicMicroOp) (n : Nat) (uop : DynamicMicroOp) (fence : Option Nat) : Prop :=
  heedsBarrier uop → ∀ m u, m < n → stream[m]? = some u → u.memBarrier →
    ∃ b v, fence = some b ∧ m ≤ b ∧ b < n ∧ stream[b]? = some v ∧ v.memBarrier

structure Barriers (s : State K) : Prop where
  last : ∀ n u, s.stream[n]? = some u → u.memBarrier → ∃ b, s.memoryDependencies.membar = some b ∧ n ≤ b
  entries : ∀ e ∈ s.rob, Fenced s.stream e.sequenceNumber e.uop e.fence
  records : ∀ r ∈ s.log, Fenced s.stream r.sequenceNumber r.uop r.fence

theorem Fenced.append (h : Fenced stream n uop fence) (hn : n ≤ stream.length) (more : List DynamicMicroOp) :
    Fenced (stream ++ more) n uop fence := by
  intro hheeds m u hm hu hbar
  rw [getElem?_append_left (by omega)] at hu
  obtain ⟨b,v,hb,hmb,hbn,hv,hvbar⟩ := h hheeds m u hm hu hbar
  exact ⟨b,v,hb,hmb,hbn,getElem?_append_some hv,hvbar⟩

theorem Fenced.carried {log : List Issue} {e e' : RobEntry}
    (h : Fenced stream e.sequenceNumber e.uop e.fence) (hc : Carries log e e') :
    Fenced stream e'.sequenceNumber e'.uop e'.fence := by
  obtain ⟨hseq,huop,-,-,hfence⟩ := hc.fields
  rwa [hseq,huop,hfence]

theorem Barriers.steady (h : Barriers s) (hs : Steady s s') : Barriers s' := by
  refine ⟨?_,fun x hx => ?_,?_⟩
  · rw [hs.stream,hs.memoryDependencies]
    exact h.last
  · obtain ⟨y,hy,hc⟩ := hs.rob.mem hx
    rw [hs.stream]
    exact (h.entries y hy).carried hc
  · rw [hs.stream,hs.log]
    exact h.records

theorem Barriers.issueInstruction (h : Barriers s) (hi : Issues s i e) : Barriers (issueInstruction cfg s i e) := by
  have he := h.entries e (mem_of_getElem? hi.entry)
  refine ⟨h.last,fun x hx => ?_,fun r hr => ?_⟩
  · rcases issued_mem hi.entry hx with hc | ⟨y,hy,hc⟩
    · exact Fenced.carried (e := issuedEntry cfg s e) he hc
    · exact (h.entries y hy).carried hc
  · rcases log_cases hr with hr | rfl
    · exact h.records r hr
    · exact he

theorem Barriers.doCommit (h : Barriers s) : Barriers (doCommit cfg s).1 :=
  ⟨h.last,fun e he => h.entries e (mem_of_mem_doCommit he),h.records⟩

theorem Barriers.fenced_newEntry (h : Barriers s) (hc : Consistent s) :
    Fenced s.stream s.nextSequenceNumber uop (newEntry cfg s uop).fence := by
  intro hheeds m u hm hu hbar
  obtain ⟨b,hb,hmb⟩ := h.last m u hu hbar
  obtain ⟨v,hv,hvbar,-⟩ := hc.tabled.barrier b hb
  obtain ⟨hlt,-⟩ := List.getElem?_eq_some_iff.mp hv
  refine ⟨b,v,?_,hmb,hc.numbered.stream ▸ hlt,hv,hvbar⟩
  rw [newEntry,← hb]
  exact if_pos hheeds

theorem Barriers.entered (h : Barriers s) (hc : Consistent s)
    (huop : uop.memBarrier → uop.isMemory = false) : Barriers (entered cfg s uop) := by
  have hstream := hc.numbered.stream
  refine ⟨fun n u hu hbar => ?_,fun x hx => ?_,fun r hr => ?_⟩
  · simp only [RobTimer.entered] at hu ⊢
    rw [membar_update]
    obtain ⟨hlt,-⟩ := List.getElem?_eq_some_iff.mp hu
    rw [length_append,length_singleton,hstream] at hlt
    split_ifs with hlast
    · exact ⟨_,rfl,by omega⟩
    · rcases lt_or_ge n s.stream.length with hn | hn
      · rw [getElem?_append_left hn] at hu
        exact h.last n u hu hbar
      · obtain rfl : n = s.stream.length := by omega
        rw [getElem?_concat_length] at hu
        cases hu
        simp [huop hbar,hbar] at hlast
  · rcases entered_mem hx with ⟨y,hy,hcar⟩ | rfl
    · have hlt := (hc.numbered.mem hy).2.1
      exact ((h.entries y hy).append (by omega) _).carried hcar
    · exact (h.fenced_newEntry hc).append (le_of_eq hstream.symm) _
  · obtain ⟨hlt,-⟩ := List.getElem?_eq_some_iff.mp (hc.logged.uops r hr)
    exact (h.records r hr).append (le_of_lt hlt) _

def fenceOnly (_ : List Nat) (fence : Option Nat) : List Nat := fence.toList

theorem Consistent.awaits_fence (h : Consistent s) (hsep : Separated cfg s (.enter uop))
    (hp : p ∈ fenceOnly (newEntry cfg s uop).inputs (newEntry cfg s uop).fence) : Awaits s (newEntry cfg s uop) p := by
  have hlow := h.numbered.lowestValid
  simp only [fenceOnly,newEntry,mem_toList] at hp
  split_ifs at hp with hheeds
  rcases lt_trichotomy p (oldest s) with hlt | rfl | hgt
  · exact (h.logged.available_of_retired hlt).awaits
  · have hav := hsep.2 hheeds (by simp [barrierIsOldest,hp,hlow])
    rw [hlow] at hav
    exact hav.awaits
  · have hbar : p ∈ (s.memoryDependencies.barrier (oldest s)).toList := by
      rw [mem_toList,MemoryDependencies.barrier,hp]
      simpa using hgt
    have hprod : p ∈ producersOf s uop := by
      rw [mem_producersOf,hlow,MemoryDependencies.dependencies]
      split_ifs with hload hstore
      · exact .inr (.inr (mem_append_right _ hbar))
      · exact .inr (.inr hbar)
      · rw [DynamicMicroOp.isMemory,Bool.or_assoc,Bool.or_eq_true] at hheeds
        exact absurd (hheeds.resolve_left hload) hstore
    refine h.logged.awaits_newEntry ?_
    rw [dependenciesOf]
    split
    · exact mem_forward hprod (h.barrier_not_store hp)
    · exact hprod

theorem Barriers.available (h : Barriers s) (hc : Consistent s) (hw : Waits fenceOnly s) (hr : r ∈ s.log)
    (hheeds : heedsBarrier r.uop) (hn : Older s.stream r n u) (hbar : u.memBarrier) : Available s.log n r.time := by
  induction hk : r.sequenceNumber using Nat.strong_induction_on generalizing r with
  | _ k ih =>
    obtain ⟨b,v,hb,hnb,hbr,hv,hvbar⟩ := h.records r hr hheeds n u hn.1 hn.2 hbar
    have hav := hw.ordered r hr b (by rw [fenceOnly,hb]; exact mem_cons_self)
    obtain ⟨q,hq,hqb,hqr⟩ := hav
    rcases lt_or_eq_of_le hnb with hlt | rfl
    · have hqu := hc.logged.uops q hq
      rw [hqb,hv] at hqu
      have hqbar : heedsBarrier q.uop := by
        rw [heedsBarrier,← some.inj hqu,hvbar,Bool.or_true]
      have hprev := ih b (hk ▸ hbr) hq hqbar ⟨hqb ▸ hlt,hn.2⟩ hqb
      exact hprev.mono (le_trans (hc.logged.times q hq).1 hqr)
    · exact ⟨q,hq,hqb,hqr⟩

structure Drains (s : State K) : Prop where
  stores : ∀ q ∈ s.log, q.uop.isStore → q.completion ≤ s.lastStoreDone
  fences : ∀ r ∈ s.log, isFence r.uop → Drained s.log s.stream r

theorem Drained.append {log : List Issue} {r : Issue}
    (h : Drained log stream r) (hr : r.sequenceNumber ≤ stream.length) (log' : List Issue)
    (stream' : List DynamicMicroOp) : Drained (log ++ log') (stream ++ stream') r := by
  have holder : ∀ n u, Older (stream ++ stream') r n u → Older stream r n u := fun n u hn => by
    have hlt := hn.1
    have hu := hn.2
    rw [getElem?_append_left (by omega)] at hu
    exact ⟨hlt,hu⟩
  refine ⟨fun n u hn hu => ?_,fun n u hn hu => ?_⟩
  · obtain ⟨q,hq,hle⟩ := h.stores n u (holder n u hn) hu
    exact ⟨q,mem_append_left _ hq,hle⟩
  · obtain ⟨q,hq,hle⟩ := h.loads n u (holder n u hn) hu
    exact ⟨q,mem_append_left _ hq,hle⟩

theorem Drains.steady (h : Drains s) (hs : Steady s s') : Drains s' := by
  refine ⟨?_,?_⟩
  · rw [hs.log,hs.lastStoreDone]
    exact h.stores
  · rw [hs.log,hs.stream]
    exact h.fences

theorem Drains.doCommit (h : Drains s) : Drains (doCommit cfg s).1 := { h with }

theorem Drains.entered (h : Drains s) (hc : Consistent s) : Drains (entered cfg s uop) := by
  refine ⟨h.stores,fun r hr hf => ?_⟩
  obtain ⟨hlt,-⟩ := List.getElem?_eq_some_iff.mp (hc.logged.uops r hr)
  have happend := (h.fences r hr hf).append (le_of_lt hlt) [] [uop]
  rwa [append_nil] at happend

theorem Consistent.older (h : Consistent s) (he : s.rob[i]? = some e)
    (hhead : ∀ (j : Nat) (x : RobEntry), j < i → s.rob[j]? = some x → x.done.isSome) (hn : n < e.sequenceNumber)
    (hu : s.stream[n]? = some u) : ∃ q ∈ s.log, q.sequenceNumber = n ∧ q.uop = u ∧
      (q.done ≤ s.now ∨ ∃ j < i, ∃ x ∈ s.rob[j]?, Records x q ∧ x.uop = u) := by
  have huop : ∀ q ∈ s.log, q.sequenceNumber = n → q.uop = u := fun q hq hqn =>
    some.inj ((hqn ▸ h.logged.uops q hq).symm.trans hu)
  rcases lt_or_ge n (oldest s) with hlt | hge
  · obtain ⟨q,hq,hqn,hd⟩ := h.logged.retired n hlt
    exact ⟨q,hq,hqn,huop q hq hqn,.inl hd⟩
  · obtain ⟨x,hx,hxn,hxu⟩ := h.numbered.entry hu hge
    have hseq := (h.numbered.entries i e he).1
    have hj : n - oldest s < i := by omega
    obtain ⟨q,hq,hr⟩ := h.logged.issued x (mem_of_getElem? hx) (hhead _ x hj hx)
    have hqn := hr.sequenceNumber.trans hxn
    exact ⟨q,hq,hqn,huop q hq hqn,.inr ⟨_,hj,x,hx,hr,hxu⟩⟩

theorem LoadsDone.steady (h : LoadsDone b s) (hs : Steady s s') : LoadsDone b s' := by
  intro i hi j hj e he x hx hf hd hload
  obtain ⟨y,hy,hc⟩ := hs.rob.entries i e he
  obtain ⟨z,hz,hcz⟩ := hs.rob.entries j x hx
  obtain ⟨-,huop,hdone,-⟩ := hc.fields
  obtain ⟨-,huopz,hdonez,-⟩ := hcz.fields
  rw [hdonez]
  exact reached_mono hs.now (h i hi j hj y hy z hz (huop ▸ hf) (hdone ▸ hd) (huopz ▸ hload))

theorem LoadsDone.issueInstruction (h : LoadsDone b s) (hi : Issues s i e) :
    LoadsDone b (issueInstruction cfg s i e) := by
  obtain ⟨hlt,-⟩ := List.getElem?_eq_some_iff.mp hi.entry
  intro k hk j hj e' he' x hx hf hd hload
  obtain ⟨y,hy,hc⟩ := (carried_issueInstruction cfg s i e).entries k e' he'
  obtain ⟨z,hz,hcz⟩ := (carried_issueInstruction cfg s i e).entries j x hx
  obtain ⟨-,huop,hdone,-⟩ := hc.fields
  obtain ⟨-,huopz,hdonez,-⟩ := hcz.fields
  have hki : i ≠ k := by
    rintro rfl
    rw [getElem?_set_self hlt] at hy
    rw [hdone,← some.inj hy] at hd
    cases hd
  rw [getElem?_set_ne hki] at hy
  have hji : i ≠ j := by
    rintro rfl
    rw [getElem?_set_self hlt] at hz
    have hload : e.uop.isLoad := by rwa [huopz,← some.inj hz] at hload
    have hdone' := h k hk i hj y hy e hi.entry (huop ▸ hf) (hdone ▸ hd) hload
    rw [hi.waiting] at hdone'
    cases hdone'
  rw [getElem?_set_ne hji] at hz
  rw [hdonez]
  exact h k hk j hj y hy z hz (huop ▸ hf) (hdone ▸ hd) (huopz ▸ hload)

theorem Drains.drained_issueOf (h : Drains s) (hc : Consistent s) (hl : LoadsDone b s) (hb : i < b)
    (hi : Issues s i e) (hf : isFence e.uop) : Drained s.log s.stream (issueOf cfg s e) := by
  obtain ⟨hstore,hhead⟩ := hi.fence hf
  refine ⟨fun n u hn hu => ?_,fun n u hn hu => ?_⟩
  · obtain ⟨q,hq,hqn,hqu,-⟩ := hc.older hi.entry hhead hn.1 hn.2
    exact ⟨q,hq,hqn,le_trans (h.stores q hq (hqu ▸ hu)) hstore⟩
  · obtain ⟨q,hq,hqn,-,hdone | ⟨j,hj,x,hx,hr,hxu⟩⟩ := hc.older hi.entry hhead hn.1 hn.2
    · exact ⟨q,hq,hqn,hdone⟩
    · have hdone := hl i hb j hj e hi.entry x hx hf hi.waiting (hxu ▸ hu)
      rw [hr.done,reached_some] at hdone
      exact ⟨q,hq,hqn,hdone⟩

theorem Drains.issueInstruction (h : Drains s) (hc : Consistent s) (hl : LoadsDone b s) (hb : i < b)
    (hi : Issues s i e) : Drains (issueInstruction cfg s i e) := by
  have hrecord : ∀ r ∈ s.log ++ [issueOf cfg s e], s.stream[r.sequenceNumber]? = some r.uop :=
    (hc.issueInstruction hi).logged.uops
  have hlength : ∀ r ∈ s.log ++ [issueOf cfg s e], r.sequenceNumber ≤ s.stream.length :=
    fun r hr => le_of_lt (List.getElem?_eq_some_iff.mp (hrecord r hr)).1
  refine ⟨fun q hq hstore => ?_,fun r hr hf => ?_⟩
  · rcases log_cases hq with hq | rfl
    · refine le_trans (h.stores q hq hstore) ?_
      simp only [RobTimer.issueInstruction]
      split
      · exact le_max_left _ _
      · exact le_refl _
    · have hstore : e.uop.isStore := hstore
      simp only [RobTimer.issueInstruction,if_pos hstore]
      exact le_max_right _ _
  · have hdrained : Drained s.log s.stream r := by
      rcases log_cases hr with hr | rfl
      · exact h.fences r hr hf
      · exact h.drained_issueOf hc hl hb hi hf
    have happend := hdrained.append (hlength r hr) [issueOf cfg s e] []
    rwa [append_nil] at happend

structure Ordered (s : State K) : Prop where
  consistent : Consistent s
  waits : Waits fenceOnly s
  barriers : Barriers s
  drains : Drains s

theorem ordered_start (k : K) (loads stores : Nat) : Ordered (start k loads stores) := by
  refine ⟨consistent_start k loads stores,waits_start k loads stores,⟨?_,?_,?_⟩,⟨?_,?_⟩⟩
  · simp [start]
  · simp [start]
  · simp [start]
  · simp [start]
  · simp [start]

theorem Ordered.steady (h : Ordered s) (hs : Steady s s') : Ordered s' :=
  ⟨h.consistent.steady hs,h.waits.steady hs,h.barriers.steady hs,h.drains.steady hs⟩

theorem Ordered.doIssue (h : Ordered s) (hl : LoadsDone b s) (hb : s.numInRob ≤ b) : Ordered (doIssue cfg s).1 := by
  have hboth : Ordered (RobTimer.doIssue cfg s).1 ∧ LoadsDone b (RobTimer.doIssue cfg s).1 := by
    refine doIssue_keeps (I := fun t => Ordered t ∧ LoadsDone b t) (fun t t' ht hs => ?_) (fun t i e ht hi hissue => ?_)
      ⟨h,hl⟩
    · exact ⟨ht.1.steady hs,ht.2.steady hs⟩
    · obtain ⟨⟨hc,hw,hbar,hd⟩,hl⟩ := ht
      exact ⟨⟨hc.issueInstruction hissue,hw.issueInstruction hissue,hbar.issueInstruction hissue,
        hd.issueInstruction hc hl (by omega) hissue⟩,hl.issueInstruction hissue⟩
  exact hboth.1

theorem Ordered.execute (h : Ordered s) (hl : LoadsDone (s.numInRob + cfg.dispatchWidth) s) (skipping : Bool) :
    Ordered (execute cfg skipping s).1 := by
  rw [RobTimer.execute]
  split
  · exact h
  · have hsteady := steady_doDispatch cfg s
    obtain ⟨hc,hw,hb,hd⟩ := (h.steady hsteady).doIssue (hl.steady hsteady) (doDispatch_bound cfg s)
    have hcycle : Ordered (cycle cfg s).1 := ⟨hc.doCommit,hw.doCommit,hb.doCommit,hd.doCommit⟩
    refine hcycle.steady ⟨.refl _ _,rfl,?_,rfl,rfl,rfl,rfl,rfl,rfl⟩
    rw [cycle_now]
    exact Nat.le_add_right _ _

theorem reaches_ordered (h : Run.Reaches (next cfg) (Separated cfg) (start k loads stores) s) : Ordered s := by
  refine reaches_steps (fun t uop t' ht hsep he => ?_) (fun t skipping ht hsep => ht.execute hsep skipping)
    (ordered_start k loads stores) h
  refine enter_keeps ht (fun _ => ?_) he
  exact ⟨ht.consistent.entered uop,ht.waits.entered fun p hp => ht.consistent.awaits_fence hsep hp,
    ht.barriers.entered ht.consistent hsep.1,ht.drains.entered ht.consistent⟩

theorem fence_order {k : K} {loads stores : Nat}
    (h : Run.Reaches (next cfg) (Separated cfg) (start k loads stores) s) : FenceOrder s := by
  obtain ⟨hc,hw,hb,hd⟩ := reaches_ordered h
  refine ⟨hc.logged.once,hd.fences,fun r hr hmem n u hn hu => ?_⟩
  exact hb.available hc hw hr (by rw [heedsBarrier,hmem,Bool.true_or]) hn hu

def mfence : DynamicMicroOp := { simpleUop .execute 1 with memBarrier := true }

def fencedLoads : List Label :=
  ([simpleUop .load 2,simpleUop .store 6,simpleUop .execute 4,simpleUop .execute 1,mfence,simpleUop .load 4] ++
    fill 8).map .enter ++ replicate 20 (.execute true)

theorem fence_waits_for_store_and_load_for_fence : ∃ s,
    Run.Reaches (next (smallCore 8 1)) (Separated (smallCore 8 1)) (start () 8 8) s ∧
      (∃ r ∈ s.log, r.uop = mfence ∧ r.time = 9) ∧
      (∃ r ∈ s.log, r.sequenceNumber = 0 ∧ r.uop.isLoad = true ∧ r.done = 4) ∧
      (∃ r ∈ s.log, r.sequenceNumber = 1 ∧ r.uop.isStore = true ∧ r.completion = 9) ∧
      (∃ r ∈ s.log, r.sequenceNumber = 5 ∧ r.uop.isLoad = true ∧ r.time = 10) ∧ FenceOrder s := by
  have hsome : (Run.guided (next (smallCore 8 1)) (Separated (smallCore 8 1)) (start () 8 8) fencedLoads).isSome := by
    decide +kernel
  have hrun := Run.reaches_guided hsome
  exact ⟨_,hrun,by decide +kernel,by decide +kernel,by decide +kernel,by decide +kernel,fence_order hrun⟩

def ranFences (dispatchWidth : Nat) (insts : List DynamicMicroOp) : Option (State Unit) :=
  (simulateAll (smallCore 8 dispatchWidth) true 40 (fresh (start () 8 8)) [insts]).map Progress.timer

def Passes (r q : Issue) : Prop :=
  isFence r.uop ∧ q.uop.isLoad ∧ r.time < q.done ∨
    r.uop.isMemory ∧ q.uop.memBarrier ∧ r.time < q.available

def Unordered (s : State Unit) : Prop :=
  ∃ r ∈ s.log, ∃ q ∈ s.log, Older s.stream r q.sequenceNumber q.uop ∧ Passes r q

instance (s : State Unit) : Decidable (Unordered s) :=
  inferInstanceAs (Decidable (∃ r ∈ s.log, ∃ q ∈ s.log, (_ ∧ _) ∧ (_ ∧ _ ∧ _ ∨ _ ∧ _ ∧ _)))

theorem Unordered.not_fenceOrder {s : State Unit} (h : Unordered s) : ¬ FenceOrder s := by
  intro horder
  obtain ⟨r,hr,q,hq,hold,⟨hf,hload,hlt⟩ | ⟨hmem,hbar,hlt⟩⟩ := h
  · obtain ⟨q',hq',hn,hle⟩ := (horder.fences r hr hf).loads _ _ hold hload
    rw [inj_on_of_nodup_map horder.once hq' hq hn] at hle
    omega
  · obtain ⟨q',hq',hn,hle⟩ := horder.barriers r hr hmem _ _ hold hbar
    rw [inj_on_of_nodup_map horder.once hq' hq hn] at hle
    omega

def FencePassed (dispatchWidth : Nat) (insts : List DynamicMicroOp) : Prop := ∃ s,
  ranFences dispatchWidth (insts ++ fill 8) = some s ∧
    Run.Reaches (next (smallCore 8 dispatchWidth)) (fun _ _ => True) (start () 8 8) s ∧ ¬ FenceOrder s

theorem fencePassed_of_unordered {dispatchWidth : Nat} {insts : List DynamicMicroOp}
    (h : (ranFences dispatchWidth (insts ++ fill 8)).any fun s => decide (Unordered s)) :
    FencePassed dispatchWidth insts := by
  obtain ⟨s,hs,hu⟩ := (Option.any_eq_true _ _).mp h
  obtain ⟨p,hp,rfl⟩ := map_eq_some_iff.mp hs
  exact ⟨_,hs,simulateAll_reaches hp,(of_decide_eq_true hu).not_fenceOrder⟩

-- a fence passes a load, a load passes the fence at the front, a load passes a load that is a barrier
theorem fences_passed : FencePassed 1 [simpleUop .load 20,mfence] ∧ FencePassed 2 [mfence,simpleUop .load 4] ∧
    FencePassed 1 (fill 1 ++ [{ simpleUop .load 20 with memBarrier := true },simpleUop .load 4]) := by
  refine ⟨?_,?_,?_⟩ <;> exact fencePassed_of_unordered (by decide +kernel)

end RobTimer
