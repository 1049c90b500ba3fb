import SniperSim.Rob.RobTimer

open List Option Nat
namespace RobTimer
open Deadline
variable {K : Type} {cfg : Config K} {s : State K} {s' : State K}
section
def view (e : RobEntry) : Nat × DynamicMicroOp × Option Nat × List Nat × Option Nat :=
  (e.sequenceNumber,e.uop,e.done,e.inputs,e.fence)

def Available (log : List Issue) (n t : Nat) : Prop := ∃ q ∈ log, q.sequenceNumber = n ∧ q.available ≤ t

instance (log : List Issue) (n t : Nat) : Decidable (Available log n t) :=
  inferInstanceAs (Decidable (∃ q ∈ log, q.sequenceNumber = n ∧ q.available ≤ t))

def Ready (e : RobEntry) : Prop := ∀ t, e.ready = some t → e.dependencies = [] ∧ e.readyMax ≤ t

structure Carries (log : List Issue) (e e' : RobEntry) : Prop where
  view_eq : view e' = view e
  ready : Ready e → Ready e'
  readyMax : e.readyMax ≤ e'.readyMax
  waits : ∀ p ∈ e.dependencies, p ∈ e'.dependencies ∨ Available log p e'.readyMax

variable {log : List Issue} {e e' : RobEntry} {n t : Nat}

theorem Available.mono (h : Available log n t) (ht : t ≤ t') : Available log n t' := by
  obtain ⟨q,hq,hn,hle⟩ := h
  exact ⟨q,hq,hn,Nat.le_trans hle ht⟩

theorem Available.append (h : Available log n t) : Available (log ++ log') n t := by
  obtain ⟨q,hq,hn⟩ := h
  exact ⟨q,mem_append_left _ hq,hn⟩

theorem Carries.fields (h : Carries log e e') : e'.sequenceNumber = e.sequenceNumber ∧
    e'.uop = e.uop ∧ e'.done = e.done ∧ e'.inputs = e.inputs ∧ e'.fence = e.fence := by
  simpa [view] using h.view_eq

theorem Carries.refl (log : List Issue) (e : RobEntry) : Carries log e e := ⟨rfl,id,Nat.le_refl _,fun _ => .inl⟩

theorem Carries.trans (h : Carries log e e') (h' : Carries log e' e'') : Carries log e e'' := by
  refine ⟨h'.view_eq.trans h.view_eq,h'.ready ∘ h.ready,Nat.le_trans h.readyMax h'.readyMax,fun p hp => ?_⟩
  rcases h.waits p hp with hp | hp
  · exact h'.waits p hp
  · exact .inr (hp.mono h'.readyMax)

theorem carries_resolve (h : Available log n t) (e : RobEntry) : Carries log e (resolve n t e) := by
  refine ⟨rfl,fun hr r heq => ?_,Nat.le_max_left _ _,fun p hp => ?_⟩
  · simp only [resolve,List.isEmpty_iff] at heq ⊢
    by_cases hnil : e.dependencies.erase n = []
    · rw [if_pos hnil] at heq
      exact ⟨hnil,Nat.le_of_eq (some.inj heq)⟩
    · rw [if_neg hnil] at heq
      simp [(hr r heq).1] at hnil
  · by_cases hpn : p = n
    · exact .inr (hpn ▸ h.mono (Nat.le_max_right _ _))
    · exact .inl ((mem_erase_of_ne hpn).mpr hp)

theorem carries_resolveAddress (rob : List RobEntry) (e : RobEntry) : Carries log e (resolveAddress rob n t e) := by
  rw [resolveAddress]
  split
  · exact ⟨rfl,id,Nat.le_refl _,fun _ => .inl⟩
  · exact Carries.refl log e

theorem carries_dispatched (now : Nat) (e : RobEntry) :
    Carries log e { e with dispatched := r, ready := e.ready.map fun t => max t (now + 1) } := by
  refine ⟨rfl,fun hr u hu => ?_,Nat.le_refl _,fun _ => .inl⟩
  obtain ⟨t,ht,rfl⟩ := map_eq_some_iff.mp hu
  exact ⟨(hr t ht).1,Nat.le_trans (hr t ht).2 (Nat.le_max_left _ _)⟩

theorem carries_addDependant (waits : List Nat) (n : Nat) (e : RobEntry) : Carries log e (addDependant waits n e) := by
  rw [addDependant]
  split_ifs
  · exact ⟨rfl,id,Nat.le_refl _,fun _ => .inl⟩
  · exact Carries.refl log e

structure Carried (log : List Issue) (rob rob' : List RobEntry) : Prop where
  length : rob'.length = rob.length
  entries : ∀ (j : Nat) (e' : RobEntry), rob'[j]? = some e' → ∃ e, rob[j]? = some e ∧ Carries log e e'

variable {rob rob' : List RobEntry}

theorem Carried.mem (h : Carried log rob rob') (he' : e' ∈ rob') : ∃ e ∈ rob, Carries log e e' := by
  obtain ⟨j,hj⟩ := mem_iff_getElem?.mp he'
  obtain ⟨e,he,hc⟩ := h.entries j e' hj
  exact ⟨e,mem_of_getElem? he,hc⟩

theorem Carried.refl (log : List Issue) (rob : List RobEntry) : Carried log rob rob :=
  ⟨rfl,fun _ e he => ⟨e,he,.refl log e⟩⟩

theorem Carried.trans (h : Carried log rob rob') (h' : Carried log rob' rob'') : Carried log rob rob'' := by
  refine ⟨h'.length.trans h.length,fun j e'' he'' => ?_⟩
  obtain ⟨e',he',hc'⟩ := h'.entries j e'' he''
  obtain ⟨e,he,hc⟩ := h.entries j e' he'
  exact ⟨e,he,hc.trans hc'⟩

theorem carried_map (hf : ∀ e, Carries log e (f e)) : Carried log rob (rob.map f) := by
  refine ⟨length_map _,fun j e' he' => ?_⟩
  rw [getElem?_map] at he'
  obtain ⟨e,he,rfl⟩ := map_eq_some_iff.mp he'
  exact ⟨e,he,hf e⟩

theorem carried_set (hi : rob[i]? = some e) (h : Carries log e e') : Carried log rob (rob.set i e') := by
  refine ⟨length_set,fun j x hx => ?_⟩
  by_cases hij : i = j
  · subst hij
    obtain ⟨hlt,-⟩ := List.getElem?_eq_some_iff.mp hi
    rw [getElem?_set_self hlt] at hx
    cases hx
    exact ⟨e,hi,h⟩
  · rw [getElem?_set_ne hij] at hx
    exact ⟨x,hx,.refl log x⟩

theorem carried_resolveDependant (h : Available log n t) (rob : List RobEntry) (d : Nat) :
    Carried log rob (resolveDependant n t rob d) := by
  refine carried_map fun e => ?_
  split_ifs
  · exact (carries_resolve h e).trans (carries_resolveAddress rob _)
  · exact .refl log e

theorem carried_resolved (h : Available log n t) (ds : List Nat) (rob : List RobEntry) :
    Carried log rob (ds.foldl (resolveDependant n t) rob) := by
  induction ds generalizing rob with
  | nil => exact .refl log rob
  | cons d ds ih => exact (carried_resolveDependant h rob d).trans (ih _)

theorem Carried.map_of_view (f : Nat × DynamicMicroOp × Option Nat × List Nat × Option Nat → α)
    (h : Carried log rob rob') : (rob'.map fun e => f (view e)) = rob.map fun e => f (view e) := by
  refine ext_getElem? fun j => ?_
  rw [getElem?_map,getElem?_map]
  cases he' : rob'[j]? with
  | none =>
    have hj : rob.length ≤ j := h.length ▸ List.getElem?_eq_none_iff.mp he'
    rw [getElem?_eq_none hj]
  | some e' =>
    obtain ⟨e,he,hc⟩ := h.entries j e' he'
    rw [he,map_some,map_some,hc.view_eq]

theorem carried_issueInstruction (cfg : Config K) (s : State K) (i : Nat) (e : RobEntry) :
    Carried (issueInstruction cfg s i e).log (s.rob.set i (issuedEntry cfg s e)) (issueInstruction cfg s i e).rob :=
  carried_resolved ⟨issueOf cfg s e,mem_append_right _ mem_cons_self,rfl,Nat.le_refl _⟩ _ _
end

structure Staged (s : State K) : Prop where
  length : s.numInRob ≤ s.rob.length
  waiting : ∀ e ∈ s.rob.drop s.numInRob, e.done = none

section
structure Steady (s s' : State K) : Prop where
  rob : Carried s.log s.rob s'.rob
  log : s'.log = s.log
  now : s.now ≤ s'.now
  lastStoreDone : s'.lastStoreDone = s.lastStoreDone
  nextSequenceNumber : s'.nextSequenceNumber = s.nextSequenceNumber
  registerDependencies : s'.registerDependencies = s.registerDependencies
  memoryDependencies : s'.memoryDependencies = s.memoryDependencies
  writers : s'.writers = s.writers
  stream : s'.stream = s.stream

theorem Steady.refl (s : State K) : Steady s s := ⟨.refl s.log s.rob,rfl,Nat.le_refl _,rfl,rfl,rfl,rfl,rfl,rfl⟩

theorem Steady.trans (h : Steady s s') (h' : Steady s' s'') : Steady s s'' :=
  ⟨h.rob.trans (h.log ▸ h'.rob),h'.log.trans h.log,Nat.le_trans h.now h'.now,
    h'.lastStoreDone.trans h.lastStoreDone,h'.nextSequenceNumber.trans h.nextSequenceNumber,
    h'.registerDependencies.trans h.registerDependencies,
    h'.memoryDependencies.trans h.memoryDependencies,h'.writers.trans h.writers,h'.stream.trans h.stream⟩

theorem steady_doDispatch (cfg : Config K) (s : State K) : Steady s (doDispatch cfg s).1 := by
  have hdispatch : ∀ t e, Steady s t → t.rob[t.numInRob]? = some e → Steady s (dispatchEntry t e) := fun t e ht he =>
    ht.trans ⟨carried_set he (carries_dispatched t.now e),rfl,Nat.le_refl _,rfl,rfl,rfl,rfl,rfl,rfl⟩
  have hsame : ∀ t stall miss, Steady s t →
      Steady s { t with frontendStalledUntil := stall, inICacheMiss := miss } := fun t stall miss ht =>
    ht.trans ⟨.refl _ _,rfl,Nat.le_refl _,rfl,rfl,rfl,rfl,rfl,rfl⟩
  simp only [doDispatch]
  split
  · exact dispatchLoop_keeps (P := Steady s) (fun t e ht => hsame t _ _ ht)
      (fun t e ht => hsame t _ _ ht) (fun t e ht he _ _ => hdispatch t e ht he) (.refl s) _ _
  · exact .refl s

structure Issues (s : State K) (i : Nat) (e : RobEntry) : Prop where
  entry : s.rob[i]? = some e
  waiting : e.done = none
  ready : reached s.now e.ready
  fence : (e.uop.serializing || e.uop.memBarrier) → s.lastStoreDone ≤ s.now ∧
    ∀ (j : Nat) (x : RobEntry), j < i → s.rob[j]? = some x → x.done.isSome

variable {e : RobEntry}

theorem ready_of_verdict (h : verdict cfg s w e = .issue) : reached s.now e.ready := by
  by_contra hr
  rw [Bool.not_eq_true] at hr
  simp [verdict,hr] at h

theorem head_of_verdict (h : verdict cfg s w e = .issue) (hf : (e.uop.serializing || e.uop.memBarrier)) :
    w.headOfQueue ∧ s.lastStoreDone ≤ s.now := by
  rw [verdict] at h
  split at h
  · simp at h
  · split at h
    · simp at h
    · rcases Bool.or_eq_true_iff.mp hf with hs | hm
      · rw [if_pos hs] at h
        simpa using h
      · split at h
        · simpa using h
        · simpa using h

variable {I : State K → Prop}

theorem doIssue_keeps (hsteady : ∀ t t', I t → Steady t t' → I t')
    (hissue : ∀ t i e, I t → i < s.numInRob → Issues t i e → I (issueInstruction cfg t i e)) (h : I s) :
    I (doIssue cfg s).1 := by
  let P : State K → Walk → Nat → Prop := fun t w i => I t ∧ (w.headOfQueue →
    ∀ (j : Nat) (x : RobEntry), j < i → t.rob[j]? = some x → x.done.isSome)
  have hrun : ∃ w i, P (doIssue cfg s).1 w i := by
    refine doIssue_rule (P := P) ?_ ?_ ?_ ?_ ⟨h,fun _ j x hj => absurd hj (not_lt_zero j)⟩
    · refine fun t w i e hp he hd => ⟨hp.1,fun hw j x hj hx => ?_⟩
      rcases Nat.lt_succ_iff_lt_or_eq.mp hj with hj | rfl
      · exact hp.2 hw j x hj hx
      · rwa [← some.inj (he.symm.trans hx)]
    · exact fun t w i e fenced hp he hd => ⟨hp.1,fun hw => absurd hw (by simp [passOver])⟩
    · refine fun t w i k hp => ⟨hsteady t _ hp.1 ?_,hp.2⟩
      exact ⟨.refl _ _,rfl,Nat.le_refl _,rfl,rfl,rfl,rfl,rfl,rfl⟩
    · refine fun t w i e hp hi he hd hv w' hw' => ⟨hissue t i e hp.1 hi ?_,fun hw j x hj hx => ?_⟩
      · refine ⟨he,hd,ready_of_verdict hv,fun hf => ?_⟩
        obtain ⟨hhead,hstore⟩ := head_of_verdict hv hf
        exact ⟨hstore,hp.2 hhead⟩
      · obtain ⟨x',hx',hc⟩ := (carried_issueInstruction cfg t i e).entries j x hx
        obtain ⟨-,-,hdone,-⟩ := hc.fields
        rw [hdone]
        rcases Nat.lt_succ_iff_lt_or_eq.mp hj with hj | rfl
        · rw [getElem?_set_ne (Nat.ne_of_gt hj)] at hx'
          exact hp.2 (hw' ▸ hw) j x' hj hx'
        · obtain ⟨hlt,-⟩ := List.getElem?_eq_some_iff.mp he
          rw [getElem?_set_self hlt] at hx'
          rw [← some.inj hx']
          rfl
  obtain ⟨-,-,hs,-⟩ := hrun
  exact hs

theorem doDispatch_now : (doDispatch cfg s).1.now = s.now := by
  rw [doDispatch]
  simp only
  split_ifs
  · exact dispatchLoop_keeps (P := fun s' => s'.now = s.now) (fun _ _ h => h) (fun _ _ h => h)
      (fun _ _ h _ _ _ => h) rfl _ _
  · rfl

theorem doIssue_now : (doIssue cfg s).1.now = s.now := by
  have hrun : ∃ (_ : Walk) (_ : Nat), (doIssue cfg s).1.now = s.now :=
    doIssue_rule (P := fun t _ _ => t.now = s.now) (fun _ _ _ _ hp _ _ => hp)
      (fun _ _ _ _ _ hp _ _ => hp) (fun _ _ _ _ hp => hp) (fun _ _ _ _ hp _ _ _ _ _ _ => hp) rfl
  obtain ⟨-,-,hnow⟩ := hrun
  exact hnow

theorem cycle_now : (cycle cfg s).1.now = s.now := doIssue_now.trans doDispatch_now

theorem doCommit_rob (cfg : Config K) (s : State K) : ∃ k ≤ s.rob.length, (doCommit cfg s).1.rob = s.rob.drop k ∧
      ∀ (j : Nat) (e : RobEntry), j < k → s.rob[j]? = some e → reached s.now e.done := by
  have happend := commitLoop_append cfg.commitWidth s.now 0 s.rob
  have hreached := fun e => @commitLoop_reached cfg.commitWidth s.now 0 s.rob e
  simp only [doCommit]
  generalize commitLoop cfg.commitWidth s.now 0 s.rob = r at happend hreached ⊢
  refine ⟨r.1.length,?_,?_,fun j e hj he => hreached e ?_⟩
  · rw [← happend,length_append]
    exact le_add_right _ _
  · rw [← happend,drop_left]
  · rw [← happend,getElem?_append_left hj] at he
    exact mem_of_getElem? he

theorem mem_of_mem_doCommit (h : e ∈ (doCommit cfg s).1.rob) : e ∈ s.rob := by
  obtain ⟨k,-,hrob,-⟩ := doCommit_rob cfg s
  exact mem_of_mem_drop (hrob ▸ h)

theorem execute_keeps (hsteady : ∀ t t', I t → Steady t t' → I t')
    (hissue : ∀ t i e, I t → Issues t i e → I (issueInstruction cfg t i e))
    (hcommit : ∀ t, I t → I (doCommit cfg t).1) (h : I s) (skipping : Bool) : I (execute cfg skipping s).1 := by
  rw [execute]
  split
  · exact h
  · have hcycle : I (cycle cfg s).1 :=
      hcommit _ (doIssue_keeps hsteady (fun t i e ht _ => hissue t i e ht) (hsteady _ _ h (steady_doDispatch cfg s)))
    refine hsteady _ _ hcycle ⟨.refl _ _,rfl,?_,rfl,rfl,rfl,rfl,rfl,rfl⟩
    rw [cycle_now]
    exact le_add_right _ _

theorem enter_keeps (h : I s) (hentered : (∀ p ∈ uop.intraProducers s.nextSequenceNumber, (findEntry s.rob p).isSome) →
      I (entered cfg s uop)) (he : enter cfg s uop = some s') : I s' := by
  rw [enter] at he
  split_ifs at he with hsquash hall
  · rwa [← some.inj he]
  · rw [← some.inj he]
    exact hentered (List.all_eq_true.mp hall)

theorem reaches_steps (henter : ∀ t uop t', I t → C t (.enter uop) → enter cfg t uop = some t' → I t')
    (hexecute : ∀ t skipping, I t → C t (.execute skipping) → I (execute cfg skipping t).1) (h : I s)
    (hrun : Run.Reaches (next cfg) C s s') : I s' := by
  refine hrun.invariant (fun t l t' ht hc hn => ?_) h
  cases l with
  | enter uop =>
    cases he : enter cfg t uop with
    | none => simp [next,he] at hn
    | some u =>
      simp only [next,he,elim_some,Except.ok.injEq] at hn
      subst hn
      exact henter t uop u ht hc he
  | execute skipping =>
    simp only [next,Except.ok.injEq] at hn
    subst hn
    exact hexecute t skipping ht hc

theorem reaches_keeps (hsteady : ∀ t t', I t → Steady t t' → I t')
    (hissue : ∀ t i e, I t → Issues t i e → I (issueInstruction cfg t i e))
    (hcommit : ∀ t, I t → I (doCommit cfg t).1) (henter : ∀ t uop, I t → C t (.enter uop) →
      (∀ p ∈ uop.intraProducers t.nextSequenceNumber, (findEntry t.rob p).isSome) →
      I (entered cfg t uop)) (h : I s) (hrun : Run.Reaches (next cfg) C s s') : I s' :=
  reaches_steps (fun t uop _ ht hc he => enter_keeps ht (henter t uop ht hc) he)
    (fun _ skipping ht _ => execute_keeps hsteady hissue hcommit ht skipping) h hrun
end
end RobTimer
