import SniperSim.Rob.Buffer
import Mathlib.Data.List.TakeWhile

open List Option Nat
namespace RobTimer
open Deadline
variable {K : Type} {cfg : Config K} {s : State K} {x : RobEntry} {α : Type} {n : Nat}

def oldest (s : State K) : Nat := s.nextSequenceNumber - s.rob.length

def tag (e : RobEntry) : Nat × DynamicMicroOp := (e.sequenceNumber,e.uop)

def storesOf (rob : List RobEntry) : List (Nat × Nat) :=
  ((rob.map tag).filter fun x => x.2.isStore).map fun x => (x.1,x.2.phys)

structure Numbered (s : State K) : Prop where
  length : s.rob.length ≤ s.nextSequenceNumber
  stream : s.stream.length = s.nextSequenceNumber
  entries : ∀ (j : Nat) (e : RobEntry), s.rob[j]? = some e →
    e.sequenceNumber = oldest s + j ∧ s.stream[e.sequenceNumber]? = some e.uop

structure Records (e : RobEntry) (q : Issue) : Prop where
  sequenceNumber : q.sequenceNumber = e.sequenceNumber
  done : e.done = some q.done
  inputs : q.inputs = e.inputs
  fence : q.fence = e.fence

structure Logged (s : State K) : Prop where
  uops : ∀ q ∈ s.log, s.stream[q.sequenceNumber]? = some q.uop
  times : ∀ q ∈ s.log, q.time ≤ q.available ∧ q.available ≤ q.done ∧ q.time ≤ s.now
  issued : ∀ e ∈ s.rob, e.done.isSome → ∃ q ∈ s.log, Records e q
  waiting : ∀ e ∈ s.rob, e.done = none → ∀ q ∈ s.log, q.sequenceNumber ≠ e.sequenceNumber
  retired : ∀ n < oldest s, ∃ q ∈ s.log, q.sequenceNumber = n ∧ q.done ≤ s.now
  once : (s.log.map Issue.sequenceNumber).Nodup

structure Tabled (s : State K) : Prop where
  current : ∀ r p, s.registerDependencies r = some p → s.writers r = some p
  written : ∀ r p, s.writers r = some p → s.registerDependencies r = some p ∨ p < oldest s
  stores : (s.memoryDependencies.clean (oldest s)).producers = storesOf s.rob
  barrier : ∀ b, s.memoryDependencies.membar = some b → ∃ u, s.stream[b]? = some u ∧
    u.memBarrier ∧ u.isLoad = false ∧ u.isStore = false

structure Consistent (s : State K) : Prop where
  numbered : Numbered s
  logged : Logged s
  tabled : Tabled s

section
variable {e : RobEntry}

theorem findEntry_mem (h : findEntry rob n = some e) : e ∈ rob ∧ e.sequenceNumber = n := by
  cases rob with
  | nil => simp [findEntry] at h
  | cons front rob =>
    obtain ⟨he,hn⟩ := filter_eq_some_iff.mp h
    exact ⟨mem_of_getElem? he,beq_iff_eq.mp hn⟩

theorem Numbered.mem (h : Numbered s) (he : e ∈ s.rob) :
    oldest s ≤ e.sequenceNumber ∧ e.sequenceNumber < s.nextSequenceNumber ∧
      s.rob[e.sequenceNumber - oldest s]? = some e ∧ s.stream[e.sequenceNumber]? = some e.uop := by
  obtain ⟨j,hj⟩ := mem_iff_getElem?.mp he
  obtain ⟨hlt,-⟩ := List.getElem?_eq_some_iff.mp hj
  obtain ⟨hn,hu⟩ := h.entries j e hj
  have hlength := h.length
  refine ⟨by omega,?_,?_,hu⟩
  · rw [hn,oldest]
    omega
  · rwa [hn,Nat.add_sub_cancel_left]

theorem Numbered.lowestValid (h : Numbered s) : lowestValid s.rob s.nextSequenceNumber = oldest s := by
  cases hrob : s.rob with
  | nil => simp [RobTimer.lowestValid,oldest,hrob]
  | cons e rob =>
    have he := (h.entries 0 e (by rw [hrob]; rfl)).1
    simpa [RobTimer.lowestValid] using he

theorem Numbered.findEntry (h : Numbered s) (he : e ∈ s.rob) : findEntry s.rob e.sequenceNumber = some e := by
  have hlow := h.lowestValid
  obtain ⟨-,-,hget,-⟩ := h.mem he
  cases hrob : s.rob with
  | nil =>
    rw [hrob] at he
    simp at he
  | cons front rob =>
    rw [hrob] at hlow hget
    simp only [RobTimer.lowestValid,head?_cons,elim_some] at hlow
    rw [RobTimer.findEntry,hlow,hget]
    simp

theorem Numbered.entry (h : Numbered s) (hu : s.stream[n]? = some u) (hn : oldest s ≤ n) :
    ∃ e, s.rob[n - oldest s]? = some e ∧ e.sequenceNumber = n ∧ e.uop = u := by
  obtain ⟨hlt,-⟩ := List.getElem?_eq_some_iff.mp hu
  rw [h.stream] at hlt
  have hj : n - oldest s < s.rob.length := by
    rw [oldest] at hn ⊢
    omega
  have hget := getElem?_eq_getElem hj
  obtain ⟨hseq,huop⟩ := h.entries _ _ hget
  have heq : (s.rob[n - oldest s]).sequenceNumber = n := by omega
  rw [heq,hu] at huop
  exact ⟨_,hget,heq,(some.inj huop).symm⟩
end

section
variable {s' : State K} {i : Nat} {e : RobEntry}

theorem Steady.tags (h : Steady s s') : s'.rob.map tag = s.rob.map tag := h.rob.map_of_view fun v => (v.1,v.2.1)

theorem tags_issueInstruction (he : s.rob[i]? = some e) : (issueInstruction cfg s i e).rob.map tag = s.rob.map tag := by
  have hview := (carried_issueInstruction cfg s i e).map_of_view fun v => (v.1,v.2.1)
  have hset : (s.rob.set i (issuedEntry cfg s e)).map tag = s.rob.map tag := by
    rw [map_set]
    refine ext_getElem? fun j => ?_
    by_cases hij : i = j
    · subst hij
      obtain ⟨hlt,-⟩ := List.getElem?_eq_some_iff.mp he
      rw [getElem?_set_self (by simpa using hlt),getElem?_map,he]
      rfl
    · rw [getElem?_set_ne hij]
  exact hview.trans hset

theorem length_of_tags (h : s'.rob.map tag = s.rob.map tag) : s'.rob.length = s.rob.length := by
  simpa using congrArg length h

theorem Numbered.of_tags (h : Numbered s) (htags : s'.rob.map tag = s.rob.map tag)
    (hnext : s'.nextSequenceNumber = s.nextSequenceNumber) (hstream : s'.stream = s.stream) : Numbered s' := by
  have hlength := length_of_tags htags
  refine ⟨by rw [hlength,hnext]; exact h.length,by rw [hstream,hnext]; exact h.stream,fun j x hx => ?_⟩
  have hj := congrArg (fun l => l[j]?) htags
  simp only [getElem?_map,hx,map_some] at hj
  obtain ⟨y,hy,htag⟩ := map_eq_some_iff.mp hj.symm
  obtain ⟨hseq,huop⟩ := Prod.mk.inj htag
  rw [oldest,hnext,hlength,hstream,← hseq,← huop]
  exact h.entries j y hy

theorem Tabled.of_tags (h : Tabled s) (htags : s'.rob.map tag = s.rob.map tag)
    (hnext : s'.nextSequenceNumber = s.nextSequenceNumber) (hstream : s'.stream = s.stream)
    (hregisters : s'.registerDependencies = s.registerDependencies)
    (hmemory : s'.memoryDependencies = s.memoryDependencies) (hwriters : s'.writers = s.writers) : Tabled s' := by
  have hold : oldest s' = oldest s := by rw [oldest,oldest,hnext,length_of_tags htags]
  refine ⟨?_,?_,?_,?_⟩
  · rw [hregisters,hwriters]
    exact h.current
  · rw [hold,hregisters,hwriters]
    exact h.written
  · rw [hold,hmemory,storesOf,htags]
    exact h.stores
  · rw [hmemory,hstream]
    exact h.barrier
end

section
variable {s' : State K} {i : Nat} {e : RobEntry}

theorem log_cases (h : q ∈ (issueInstruction cfg s i e).log) : q ∈ s.log ∨ q = issueOf cfg s e :=
  (mem_append.mp h).imp id mem_singleton.mp

theorem issued_cases (he : s.rob[i]? = some e) (hx : (issueInstruction cfg s i e).rob[j]? = some x) :
    (j = i ∧ Carries (issueInstruction cfg s i e).log (issuedEntry cfg s e) x) ∨
      j ≠ i ∧ ∃ y, s.rob[j]? = some y ∧ Carries (issueInstruction cfg s i e).log y x := by
  obtain ⟨y,hy,hc⟩ := (carried_issueInstruction cfg s i e).entries j x hx
  by_cases hij : i = j
  · subst hij
    obtain ⟨hlt,-⟩ := List.getElem?_eq_some_iff.mp he
    rw [getElem?_set_self hlt] at hy
    exact .inl ⟨rfl,some.inj hy ▸ hc⟩
  · rw [getElem?_set_ne hij] at hy
    exact .inr ⟨Ne.symm hij,y,hy,hc⟩

theorem issued_mem (he : s.rob[i]? = some e) (hx : x ∈ (issueInstruction cfg s i e).rob) :
    Carries (issueInstruction cfg s i e).log (issuedEntry cfg s e) x ∨
      ∃ y ∈ s.rob, Carries (issueInstruction cfg s i e).log y x := by
  obtain ⟨j,hj⟩ := mem_iff_getElem?.mp hx
  rcases issued_cases he hj with ⟨-,hc⟩ | ⟨-,y,hy,hc⟩
  · exact .inl hc
  · exact .inr ⟨y,mem_of_getElem? hy,hc⟩

theorem Records.carried {log : List Issue} {e' : RobEntry} {q : Issue} (h : Records e q)
    (hc : Carries log e e') : Records e' q := by
  obtain ⟨hseq,-,hdone,hinputs,hfence⟩ := hc.fields
  exact ⟨hseq ▸ h.sequenceNumber,hdone ▸ h.done,hinputs ▸ h.inputs,hfence ▸ h.fence⟩

theorem Logged.steady (h : Logged s) (hs : Steady s s') : Logged s' := by
  have hold : oldest s' = oldest s := by
    rw [oldest,oldest,hs.nextSequenceNumber,hs.rob.length]
  refine ⟨?_,fun q hq => ?_,fun x hx hd => ?_,fun x hx hd => ?_,fun n hn => ?_,?_⟩
  · rw [hs.log,hs.stream]
    exact h.uops
  · obtain ⟨ht,ha,hn⟩ := h.times q (hs.log ▸ hq)
    exact ⟨ht,ha,hn.trans hs.now⟩
  · obtain ⟨y,hy,hc⟩ := hs.rob.mem hx
    obtain ⟨-,-,hdone,-⟩ := hc.fields
    obtain ⟨q,hq,hr⟩ := h.issued y hy (hdone ▸ hd)
    exact ⟨q,hs.log ▸ hq,hr.carried hc⟩
  · obtain ⟨y,hy,hc⟩ := hs.rob.mem hx
    obtain ⟨hseq,-,hdone,-⟩ := hc.fields
    rw [hs.log,hseq]
    exact h.waiting y hy (hdone ▸ hd)
  · obtain ⟨q,hq,hqn,hd⟩ := h.retired n (hold ▸ hn)
    exact ⟨q,hs.log ▸ hq,hqn,hd.trans hs.now⟩
  · rw [hs.log]
    exact h.once

theorem now_le_cycleDepend (cfg : Config K) (s : State K) (e : RobEntry) :
    s.now ≤ cycleDepend cfg s e ∧ cycleDepend cfg s e ≤ cycleDone cfg s e := by
  rw [cycleDepend,cycleDone]
  split
  · omega
  · omega

theorem Logged.issueInstruction (h : Logged s) (hn : Numbered s) (hi : Issues s i e) :
    Logged (issueInstruction cfg s i e) := by
  have hlog : (RobTimer.issueInstruction cfg s i e).log = s.log ++ [issueOf cfg s e] := rfl
  have hold : oldest (RobTimer.issueInstruction cfg s i e) = oldest s := by
    rw [oldest,oldest,length_of_tags (tags_issueInstruction hi.entry)]
    rfl
  have hentry := hn.entries i e hi.entry
  have hwaiting := h.waiting e (mem_of_getElem? hi.entry) hi.waiting
  refine ⟨fun q hq => ?_,fun q hq => ?_,fun x hx hd => ?_,fun x hx hd q hq => ?_,fun n hlt => ?_,?_⟩
  · rcases log_cases hq with hq | rfl
    · exact h.uops q hq
    · exact hentry.2
  · rcases log_cases hq with hq | rfl
    · exact h.times q hq
    · obtain ⟨htime,havail⟩ := now_le_cycleDepend cfg s e
      exact ⟨htime,havail,le_refl _⟩
  · rcases issued_mem hi.entry hx with hc | ⟨y,hy,hc⟩
    · exact ⟨_,mem_append_right _ mem_cons_self,Records.carried (e := issuedEntry cfg s e) ⟨rfl,rfl,rfl,rfl⟩ hc⟩
    · obtain ⟨-,-,hdone,-⟩ := hc.fields
      obtain ⟨q,hq,hr⟩ := h.issued y hy (hdone ▸ hd)
      exact ⟨q,mem_append_left _ hq,hr.carried hc⟩
  · obtain ⟨j,hj⟩ := mem_iff_getElem?.mp hx
    rcases issued_cases hi.entry hj with ⟨-,hc⟩ | ⟨hne,y,hy,hc⟩
    · obtain ⟨-,-,hdone,-⟩ := hc.fields
      rw [hdone] at hd
      simp [issuedEntry] at hd
    · obtain ⟨hseq,-,hdone,-⟩ := hc.fields
      rw [hseq]
      rcases log_cases hq with hq | rfl
      · exact h.waiting y (mem_of_getElem? hy) (hdone ▸ hd) q hq
      · rw [(hn.entries j y hy).1]
        show e.sequenceNumber ≠ oldest s + j
        omega
  · obtain ⟨q,hq,hqn⟩ := h.retired n (hold ▸ hlt)
    exact ⟨q,mem_append_left _ hq,hqn⟩
  · rw [hlog,map_append,map_singleton,nodup_append]
    refine ⟨h.once,by simp,fun n hmem m hm => ?_⟩
    obtain ⟨q,hq,rfl⟩ := List.mem_map.mp hmem
    rw [mem_singleton.mp hm]
    exact hwaiting q hq
end

theorem oldest_doCommit (h : Numbered s) (hk : k ≤ s.rob.length) (hrob : (doCommit cfg s).1.rob = s.rob.drop k) :
    oldest (doCommit cfg s).1 = oldest s + k := by
  have hlength := h.length
  have hnext : (doCommit cfg s).1.nextSequenceNumber = s.nextSequenceNumber := rfl
  rw [oldest,oldest,hrob,hnext,length_drop]
  omega

theorem Numbered.doCommit (h : Numbered s) : Numbered (doCommit cfg s).1 := by
  obtain ⟨k,hk,hrob,-⟩ := doCommit_rob cfg s
  have hlength := h.length
  refine ⟨?_,h.stream,fun j e he => ?_⟩
  · rw [hrob,length_drop]
    exact le_trans (sub_le _ _) hlength
  · rw [hrob,getElem?_drop] at he
    obtain ⟨hseq,huop⟩ := h.entries (k + j) e he
    rw [oldest_doCommit h hk hrob,Nat.add_assoc]
    exact ⟨hseq,huop⟩

theorem Logged.doCommit (h : Logged s) (hn : Numbered s) : Logged (doCommit cfg s).1 := by
  obtain ⟨k,hk,hrob,hdone⟩ := doCommit_rob cfg s
  refine ⟨h.uops,h.times,fun e he => h.issued e (mem_of_mem_doCommit he),
    fun e he => h.waiting e (mem_of_mem_doCommit he),fun n hlt => ?_,h.once⟩
  rw [oldest_doCommit hn hk hrob] at hlt
  by_cases hold : n < oldest s
  · exact h.retired n hold
  · have hj : n - oldest s < s.rob.length := by omega
    have hget := getElem?_eq_getElem hj
    obtain ⟨hseq,-⟩ := hn.entries _ _ hget
    have hreached := hdone _ _ (by omega) hget
    obtain ⟨q,hq,hr⟩ := h.issued _ (mem_of_getElem? hget) (by cases hd : (s.rob[n - oldest s]).done <;> simp_all)
    rw [hr.done,reached_some] at hreached
    exact ⟨q,hq,by rw [hr.sequenceNumber]; omega,hreached⟩

theorem mem_storesOf {rob : List RobEntry} {x : Nat × Nat} (h : x ∈ storesOf rob) :
    ∃ e ∈ rob, x.1 = e.sequenceNumber := by
  simp only [storesOf,List.mem_map,mem_filter] at h
  obtain ⟨y,⟨⟨e,he,rfl⟩,-⟩,rfl⟩ := h
  exact ⟨e,he,rfl⟩

theorem storesOf_append (rob rob' : List RobEntry) : storesOf (rob ++ rob') = storesOf rob ++ storesOf rob' := by
  simp [storesOf]

theorem dropWhile_dropWhile_of_imp (h : ∀ x, q x → p x) (xs : List α) :
    (xs.dropWhile q).dropWhile p = xs.dropWhile p := by
  induction xs with
  | nil => rfl
  | cons x xs ih =>
    by_cases hq : q x <;> simp [*]

theorem dropWhile_of_all_not {p : α → Bool} {xs : List α} (h : ∀ x ∈ xs, p x = false) : xs.dropWhile p = xs :=
  dropWhile_eq_self_iff.mpr fun hl => by simp [h _ (getElem_mem hl)]

theorem Tabled.doCommit (h : Tabled s) (hn : Numbered s) : Tabled (doCommit cfg s).1 := by
  obtain ⟨k,hk,hrob,-⟩ := doCommit_rob cfg s
  have hold := oldest_doCommit hn hk hrob
  refine ⟨h.current,fun r p hp => ?_,?_,h.barrier⟩
  · rw [hold]
    exact (h.written r p hp).imp id fun hlt => Nat.lt_add_right k hlt
  · have hstores : storesOf s.rob = storesOf (s.rob.take k) ++ storesOf (s.rob.drop k) := by
      rw [← storesOf_append,take_append_drop]
    rw [hold,hrob]
    change s.memoryDependencies.producers.dropWhile _ = _
    rw [← dropWhile_dropWhile_of_imp (q := fun p => decide (p.1 < oldest s)) (by simp; omega)]
    change (s.memoryDependencies.clean (oldest s)).producers.dropWhile _ = _
    rw [h.stores,hstores,dropWhile_append_of_pos,dropWhile_of_all_not]
    · intro x hx
      obtain ⟨e,he,hxe⟩ := mem_storesOf hx
      obtain ⟨j,hj⟩ := mem_iff_getElem?.mp he
      rw [getElem?_drop] at hj
      have hseq := (hn.entries (k + j) e hj).1
      simp only [decide_eq_false_iff_not]
      omega
    · intro x hx
      obtain ⟨e,he,hxe⟩ := mem_storesOf hx
      obtain ⟨j,hj⟩ := mem_iff_getElem?.mp he
      obtain ⟨hlt,-⟩ := List.getElem?_eq_some_iff.mp hj
      rw [length_take] at hlt
      rw [getElem?_take_of_lt (by omega)] at hj
      have hseq := (hn.entries j e hj).1
      simp only [decide_eq_true_eq]
      omega

section
variable {uop : DynamicMicroOp}

theorem entered_cases (hx : (entered cfg s uop).rob[j]? = some x) :
    (∃ y, s.rob[j]? = some y ∧ Carries s.log y x) ∨ j = s.rob.length ∧ x = newEntry cfg s uop := by
  have hcarried : Carried s.log s.rob (s.rob.map (addDependant (newEntry cfg s uop).dependencies
      s.nextSequenceNumber)) := carried_map (carries_addDependant _ _)
  simp only [entered] at hx
  rcases lt_or_ge j s.rob.length with hj | hj
  · rw [getElem?_append_left (by simpa using hj)] at hx
    exact .inl (hcarried.entries j x hx)
  · rw [getElem?_append_right (by simpa using hj),length_map] at hx
    obtain ⟨hlt,heq⟩ := List.getElem?_eq_some_iff.mp hx
    simp only [length_singleton,lt_one_iff] at hlt
    exact .inr ⟨by omega,by simpa using heq.symm⟩

theorem entered_mem (hx : x ∈ (entered cfg s uop).rob) : (∃ y ∈ s.rob, Carries s.log y x) ∨ x = newEntry cfg s uop := by
  obtain ⟨j,hj⟩ := mem_iff_getElem?.mp hx
  rcases entered_cases hj with ⟨y,hy,hc⟩ | ⟨-,rfl⟩
  · exact .inl ⟨y,mem_of_getElem? hy,hc⟩
  · exact .inr rfl

theorem oldest_entered : oldest (entered cfg s uop) = oldest s := by
  simp [oldest,entered]

theorem getElem?_append_some {xs ys : List α} {x : α} (h : xs[n]? = some x) : (xs ++ ys)[n]? = some x := by
  obtain ⟨hlt,-⟩ := List.getElem?_eq_some_iff.mp h
  rw [getElem?_append_left hlt,h]

theorem Numbered.entered (h : Numbered s) : Numbered (entered cfg s uop) := by
  have hlength := h.length
  have hstream := h.stream
  refine ⟨by simpa [RobTimer.entered] using hlength,by simpa [RobTimer.entered] using hstream,fun j x hx => ?_⟩
  rw [oldest_entered]
  rcases entered_cases hx with ⟨y,hy,hc⟩ | ⟨rfl,rfl⟩
  · obtain ⟨hseq,huop,-⟩ := hc.fields
    obtain ⟨hn,hu⟩ := h.entries j y hy
    rw [hseq,huop]
    exact ⟨hn,getElem?_append_some hu⟩
  · refine ⟨?_,?_⟩
    · show s.nextSequenceNumber = oldest s + s.rob.length
      rw [oldest]
      omega
    · show (s.stream ++ [uop])[s.nextSequenceNumber]? = some uop
      rw [← hstream,getElem?_concat_length]

theorem Logged.entered (h : Logged s) (hn : Numbered s) : Logged (entered cfg s uop) := by
  refine ⟨fun q hq => getElem?_append_some (h.uops q hq),h.times,fun x hx hd => ?_,
    fun x hx hd q hq => ?_,fun n hlt => h.retired n (oldest_entered ▸ hlt),h.once⟩
  · rcases entered_mem hx with ⟨y,hy,hc⟩ | rfl
    · obtain ⟨-,-,hdone,-⟩ := hc.fields
      obtain ⟨q,hq,hr⟩ := h.issued y hy (hdone ▸ hd)
      exact ⟨q,hq,hr.carried hc⟩
    · simp [newEntry] at hd
  · rcases entered_mem hx with ⟨y,hy,hc⟩ | rfl
    · obtain ⟨hseq,-,hdone,-⟩ := hc.fields
      rw [hseq]
      exact h.waiting y hy (hdone ▸ hd) q hq
    · obtain ⟨hlt,-⟩ := List.getElem?_eq_some_iff.mp (h.uops q hq)
      rw [hn.stream] at hlt
      exact Nat.ne_of_lt hlt

theorem storesOf_entered : storesOf (entered cfg s uop).rob =
    storesOf s.rob ++ if uop.isStore then [(s.nextSequenceNumber,uop.phys)] else [] := by
  have htags : (s.rob.map (addDependant (newEntry cfg s uop).dependencies
      s.nextSequenceNumber)).map tag = s.rob.map tag := by
    rw [List.map_map]
    refine map_congr_left fun e _ => ?_
    rw [Function.comp_apply,addDependant]
    split_ifs <;> rfl
  simp only [entered]
  rw [storesOf_append]
  refine congrArg₂ _ (by rw [storesOf,htags,storesOf]) ?_
  simp only [storesOf,tag,newEntry,map_singleton]
  by_cases hstore : uop.isStore <;> simp [*]

theorem not_load_of_store (h : uop.isStore) : uop.isLoad = false := by
  simp only [DynamicMicroOp.isStore,DynamicMicroOp.isLoad,beq_iff_eq] at h ⊢
  rw [h]
  rfl

theorem producers_update (mem : MemoryDependencies) (uop : DynamicMicroOp) (n low : Nat) :
    (mem.update uop n low).producers = (mem.clean low).producers ++ if uop.isStore then [(n,uop.phys)] else [] := by
  simp only [MemoryDependencies.update]
  by_cases hstore : uop.isStore
  · simp [hstore,not_load_of_store hstore]
  · simp only [hstore,Bool.false_eq_true,if_false,append_nil]
    split_ifs <;> rfl

theorem membar_update (mem : MemoryDependencies) (uop : DynamicMicroOp) (n low : Nat) :
    (mem.update uop n low).membar = if !uop.isMemory && uop.memBarrier then some n else mem.membar := by
  simp only [MemoryDependencies.update,DynamicMicroOp.isMemory]
  by_cases hload : uop.isLoad
  · simp [hload,MemoryDependencies.clean]
  · by_cases hstore : uop.isStore
    · simp [hload,hstore,MemoryDependencies.clean]
    · by_cases hbar : uop.memBarrier <;> simp [*,MemoryDependencies.clean]

theorem Tabled.entered (h : Tabled s) (hn : Numbered s) : Tabled (entered cfg s uop) := by
  have hlow := hn.lowestValid
  refine ⟨fun r p hp => ?_,fun r p hp => ?_,?_,fun b hb => ?_⟩
  · simp only [RobTimer.entered,produce,RegisterDependencies.forget] at hp ⊢
    by_cases hdst : uop.destinationRegisters.contains r
    · rwa [if_pos hdst] at hp ⊢
    · rw [if_neg hdst] at hp ⊢
      split_ifs at hp
      · exact h.current r p (filter_eq_some_iff.mp hp).1
      · exact h.current r p hp
  · rw [oldest_entered]
    simp only [RobTimer.entered,produce,RegisterDependencies.forget] at hp ⊢
    rw [hlow]
    by_cases hdst : uop.destinationRegisters.contains r
    · rw [if_pos hdst] at hp ⊢
      exact .inl hp
    · rw [if_neg hdst] at hp ⊢
      rcases h.written r p hp with hreg | hlt
      · by_cases hge : oldest s ≤ p
        · refine .inl ?_
          rw [RegisterDependencies.peekProducer,hreg]
          simp [hge]
        · exact .inr (Nat.lt_of_not_le hge)
      · exact .inr hlt
  · rw [oldest_entered,storesOf_entered]
    show (s.memoryDependencies.update uop s.nextSequenceNumber _).producers.dropWhile _ = _
    rw [producers_update,hlow,h.stores,dropWhile_of_all_not]
    intro x hx
    simp only [decide_eq_false_iff_not,not_lt]
    rcases mem_append.mp hx with hx | hx
    · obtain ⟨e,he,hxe⟩ := mem_storesOf hx
      rw [hxe]
      exact (hn.mem he).1
    · split_ifs at hx
      · rw [mem_singleton.mp hx]
        exact sub_le _ _
      · simp at hx
  · simp only [RobTimer.entered] at hb ⊢
    rw [membar_update] at hb
    split_ifs at hb with hbar
    · rw [Bool.and_eq_true,Bool.not_eq_true'] at hbar
      cases hb
      rw [← hn.stream,getElem?_concat_length]
      exact ⟨uop,rfl,hbar.2,Bool.or_eq_false_iff.mp hbar.1⟩
    · obtain ⟨u,hu,hkind⟩ := h.barrier b hb
      exact ⟨u,getElem?_append_some hu,hkind⟩
end

theorem Consistent.steady (h : Consistent s) (hs : Steady s s') : Consistent s' :=
  ⟨h.numbered.of_tags hs.tags hs.nextSequenceNumber hs.stream,h.logged.steady hs,
    h.tabled.of_tags hs.tags hs.nextSequenceNumber hs.stream hs.registerDependencies hs.memoryDependencies hs.writers⟩

theorem Consistent.issueInstruction (h : Consistent s) (hi : Issues s i e) : Consistent (issueInstruction cfg s i e) :=
  ⟨h.numbered.of_tags (tags_issueInstruction hi.entry) rfl rfl,h.logged.issueInstruction h.numbered hi,
    h.tabled.of_tags (tags_issueInstruction hi.entry) rfl rfl rfl rfl rfl⟩

theorem Consistent.doCommit (h : Consistent s) : Consistent (doCommit cfg s).1 :=
  ⟨h.numbered.doCommit,h.logged.doCommit h.numbered,h.tabled.doCommit h.numbered⟩

theorem Consistent.entered (h : Consistent s) (uop : DynamicMicroOp) : Consistent (entered cfg s uop) :=
  ⟨h.numbered.entered,h.logged.entered h.numbered,h.tabled.entered h.numbered⟩

theorem consistent_start (k : K) (loads stores : Nat) : Consistent (start k loads stores) := by
  refine ⟨⟨le_refl _,rfl,fun j e he => ?_⟩,⟨?_,?_,?_,?_,?_,nodup_nil⟩,⟨?_,?_,rfl,?_⟩⟩
  · simp [start] at he
  · simp [start]
  · simp [start]
  · simp [start]
  · simp [start]
  · simp [start,oldest]
  · simp [start]
  · simp [start]
  · simp [start]

end RobTimer
