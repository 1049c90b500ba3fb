import SniperSim.Rob.Buffer

open List Option
namespace RobTimer
open Deadline
variable {K : Type} {cfg : Config K} {s t : State K} {e : RobEntry}

def stage (e : RobEntry) : Bool × Bool × Bool := (e.dispatched.isSome,e.issued.isSome,e.done.isSome)

structure Occupied (cfg : Config K) (s : State K) : Prop where
  stages : ∃ (issued : List Bool) (m : Nat), s.rob.map stage =
    issued.map (fun b => (true,b,b)) ++ replicate m (false,false,false) ∧
    issued.length = s.numInRob ∧ issued.count false = s.rsEntriesUsed
  window : s.numInRob ≤ cfg.windowSize
  stations : s.rsEntriesUsed ≤ cfg.rsEntries
  order : s.trace.map UopTimes.uop ++ s.rob.map RobEntry.uop = s.stream

theorem map_set_same {α β : Type} {f : α → β} {l : List α} {i : Nat} {a b : α} (h : l[i]? = some a) (hf : f b = f a) :
    (l.set i b).map f = l.map f := by
  obtain ⟨hlt,rfl⟩ := List.getElem?_eq_some_iff.mp h
  rw [map_set,hf,← getElem_map f (h := by simpa),set_getElem_self]

theorem map_resolved (f : DynamicMicroOp × Bool × Bool × Bool → α) (n t : Nat) (ds : List Nat) (rob : List RobEntry) :
    ((ds.foldl (resolveDependant n t) rob).map fun e => f (e.uop,stage e)) = rob.map fun e => f (e.uop,stage e) := by
  induction ds generalizing rob with
  | nil => rfl
  | cons d ds ih =>
    rw [foldl_cons,ih,resolveDependant,updateEntry,List.map_map]
    refine map_congr_left fun e _ => congrArg f ?_
    simp only [resolveAddress]
    split_ifs <;> rfl

namespace Occupied
variable (h : Occupied cfg s)
include h

theorem dispatchEntry (he : s.rob[s.numInRob]? = some e) (hroom : s.numInRob < cfg.windowSize)
    (hfree : s.rsEntriesUsed ≠ cfg.rsEntries) : Occupied cfg (dispatchEntry s e) := by
  obtain ⟨⟨issued,m,hmap,hn,hused⟩,-,hstations,horder⟩ := h
  have hstage : (s.rob.map stage)[s.numInRob]? = some (stage e) := by rw [getElem?_map,he,map_some]
  rw [hmap,getElem?_append_right (by simp [hn]),getElem?_replicate] at hstage
  split_ifs at hstage with hm
  obtain ⟨m,rfl⟩ : ∃ k, m = k + 1 := ⟨m - 1,by omega⟩
  simp only [stage,some.injEq,Prod.mk.injEq] at hstage
  refine ⟨⟨issued ++ [false],m,?_,by simp [hn,RobTimer.dispatchEntry],by simp [hused,RobTimer.dispatchEntry]⟩,
    hroom,Nat.lt_of_le_of_ne hstations hfree,?_⟩
  · simp [RobTimer.dispatchEntry,map_set,hmap,← hn,set_append_right,replicate_succ,stage,← hstage.2.1,← hstage.2.2]
  · simpa [RobTimer.dispatchEntry,map_set_same he] using horder

theorem doDispatch : Occupied cfg (doDispatch cfg s).1 := by
  rw [RobTimer.doDispatch]
  simp only
  split_ifs
  · exact dispatchLoop_keeps (fun _ _ h => { h with }) (fun _ _ h => { h with })
      (fun _ _ h => h.dispatchEntry) h _ _
  · exact h

theorem issueInstruction {i : Nat} (hi : i < s.numInRob) (he : s.rob[i]? = some e) (hd : e.done = none) :
    Occupied cfg (issueInstruction cfg s i e) := by
  obtain ⟨⟨issued,m,hmap,hn,hused⟩,hwindow,hstations,horder⟩ := h
  have hstage : (s.rob.map stage)[i]? = some (stage e) := by rw [getElem?_map,he,map_some]
  rw [hmap,getElem?_append_left (by simpa [hn]),getElem?_map] at hstage
  obtain ⟨b,hb,hstage⟩ := map_eq_some_iff.mp hstage
  simp only [stage,hd,Prod.mk.injEq,isSome_none] at hstage
  obtain ⟨hdispatched,-,rfl⟩ := hstage
  obtain ⟨hlt,hb⟩ := List.getElem?_eq_some_iff.mp hb
  refine ⟨⟨issued.set i true,m,?_,by simp [hn,RobTimer.issueInstruction],?_⟩,hwindow,
    Nat.le_trans (Nat.sub_le _ _) hstations,?_⟩
  · simp only [RobTimer.issueInstruction]
    rw [map_resolved Prod.snd,map_set,hmap,set_append_left _ _ (by simpa),map_set]
    simp [stage,issuedEntry,hdispatched]
  · simp [RobTimer.issueInstruction,count_set,hlt,hb,hused]
  · simp only [RobTimer.issueInstruction]
    rw [map_resolved Prod.fst]
    simpa [issuedEntry,map_set_same he] using horder

theorem doIssue : Occupied cfg (doIssue cfg s).1 := by
  have hrun : ∃ (_ : Walk) (_ : Nat), Occupied cfg (RobTimer.doIssue cfg s).1 ∧
      (RobTimer.doIssue cfg s).1.numInRob = s.numInRob :=
    doIssue_rule (P := fun t _ _ => Occupied cfg t ∧ t.numInRob = s.numInRob) (fun _ _ _ _ hp _ _ => hp)
      (fun _ _ _ _ _ hp _ _ => hp) (fun _ _ _ _ hp => ⟨{ hp.1 with },hp.2⟩)
      (fun _ _ _ _ hp hi he hd _ _ _ => ⟨hp.1.issueInstruction (hp.2 ▸ hi) he hd,hp.2⟩) ⟨h,rfl⟩
  obtain ⟨-,-,hs,-⟩ := hrun
  exact hs

theorem doCommit : Occupied cfg (doCommit cfg s).1 := by
  obtain ⟨⟨issued,m,hmap,hn,hused⟩,hwindow,hstations,horder⟩ := h
  have happend := commitLoop_append cfg.commitWidth s.now 0 s.rob
  have hreached := fun e => @commitLoop_reached cfg.commitWidth s.now 0 s.rob e
  simp only [RobTimer.doCommit]
  generalize commitLoop cfg.commitWidth s.now 0 s.rob = r at happend hreached ⊢
  rw [← happend,map_append] at hmap horder
  have hdone : ∀ x ∈ r.1.map stage, x.2.2 := by
    refine List.forall_mem_map.mpr fun e he => ?_
    cases hd : e.done with
    | none => simpa [hd] using hreached e he
    | some t => simp [stage,hd]
  obtain ⟨front,rest,rfl,hfront,hrest⟩ : ∃ front rest, issued = front ++ rest ∧
      r.1.map stage = front.map (fun b => (true,b,b)) ∧
      r.2.map stage = rest.map (fun b => (true,b,b)) ++ replicate m (false,false,false) := by
    rcases append_eq_append_iff.mp hmap with ⟨as,hissued,hr⟩ | ⟨bs,hr,hm⟩
    · obtain ⟨front,rest,hi,hfront,rfl⟩ := map_eq_append_iff.mp hissued
      exact ⟨front,rest,hi,hfront.symm,hr⟩
    · cases bs with
      | nil => exact ⟨issued,[],by simp,by simpa using hr,by simpa using hm.symm⟩
      | cons b bs =>
        have hb : b = (false,false,false) := eq_of_mem_replicate (n := m) (by simp [hm])
        have := hdone b (by simp [hr])
        simp [hb] at this
  have htrue : front.count false = 0 := count_eq_zero.mpr fun hf =>
    Bool.false_ne_true (hdone (true,false,false) (hfront ▸ mem_map_of_mem hf))
  have hlen := congrArg List.length hfront
  simp only [length_map,length_append,count_append] at hlen hn hused
  refine ⟨⟨rest,m,hrest,by simp only; omega,by simp only; omega⟩,Nat.le_trans (Nat.sub_le _ _) hwindow,hstations,?_⟩
  · simpa [timesOf,Function.comp_def] using horder

theorem enter (he : enter cfg s uop = some t) : Occupied cfg t := by
  refine enter_keeps h (fun _ => ?_) he
  obtain ⟨⟨issued,m,hmap,hn,hused⟩,hwindow,hstations,horder⟩ := h
  have hkey : ∀ waits n, stage ∘ addDependant waits n = stage ∧ RobEntry.uop ∘ addDependant waits n = RobEntry.uop := by
    intro waits n
    constructor <;> funext e <;> simp only [Function.comp,addDependant] <;> split_ifs <;> rfl
  refine ⟨⟨issued,m + 1,?_,hn,hused⟩,hwindow,hstations,?_⟩
  · simp [entered,hkey,hmap,replicate_succ',newEntry,stage]
  · simp [entered,hkey,← horder,newEntry]

theorem execute (skipping : Bool) : Occupied cfg (execute cfg skipping s).1 := by
  rw [RobTimer.execute]
  split
  · exact h
  · exact { h.doDispatch.doIssue.doCommit with }

theorem staged : Staged s := by
  obtain ⟨⟨issued,m,hmap,hn,-⟩,-⟩ := h
  have hlen := congrArg List.length hmap
  simp only [length_map,length_append,hn] at hlen
  refine ⟨by omega,fun e he => ?_⟩
  have hmem : stage e ∈ (s.rob.map stage).drop s.numInRob := map_drop ▸ mem_map_of_mem he
  rw [hmap,drop_left' (by simp [hn])] at hmem
  simpa [stage] using congrArg (·.2.2) (eq_of_mem_replicate hmem)

theorem counts : s.rob.countP (·.dispatched.isSome) = s.numInRob ∧ (∀ e ∈ s.rob.take s.numInRob, e.dispatched.isSome) ∧
    (s.rob.countP fun e => e.dispatched.isSome && !e.issued.isSome) = s.rsEntriesUsed := by
  obtain ⟨⟨issued,m,hmap,hn,hused⟩,-⟩ := h
  have hcount (f : Bool × Bool × Bool → Bool) := congrArg (countP f) hmap
  simp only [countP_map,countP_append,countP_replicate,Function.comp_def,stage] at hcount
  refine ⟨by simpa [hn] using hcount Prod.fst,fun e he => ?_,
    by simpa [← hused,count] using hcount fun x => x.1 && !x.2.1⟩
  have hmem : stage e ∈ (s.rob.map stage).take s.numInRob := map_take ▸ mem_map_of_mem he
  rw [hmap,take_left' (by simp [hn])] at hmem
  obtain ⟨b,-,hb⟩ := List.mem_map.mp hmem
  exact (congrArg Prod.fst hb).symm

end Occupied

theorem start_occupied (cfg : Config K) (k : K) (loads stores : Nat) : Occupied cfg (start k loads stores) :=
  ⟨⟨[],0,rfl,rfl,rfl⟩,Nat.zero_le _,Nat.zero_le _,rfl⟩

theorem dispatchLoop_bound (width : Nat) (event : Option Nat) :
    (dispatchLoop cfg width s event).1.rob.length = s.rob.length ∧
      (dispatchLoop cfg width s event).1.numInRob ≤ s.numInRob + width := by
  induction width generalizing s event with
  | zero => exact ⟨rfl,Nat.le_refl _⟩
  | succ width ih =>
    have hle := Nat.le_add_right s.numInRob (width + 1)
    rw [dispatchLoop]
    split
    · split
      · exact ⟨rfl,hle⟩
      · next e _ =>
        split_ifs
        · exact ⟨rfl,hle⟩
        · exact ⟨rfl,hle⟩
        · exact ⟨length_set,by simp [dispatchEntry,fetched]⟩
        · obtain ⟨hlen,hn⟩ := @ih (dispatchEntry (fetched s e) e) (soonest event (dispatchReady s e))
          exact ⟨hlen.trans length_set,hn.trans_eq (Nat.add_right_comm _ _ _)⟩
    · exact ⟨rfl,hle⟩

theorem doDispatch_bound (cfg : Config K) (s : State K) :
    (doDispatch cfg s).1.numInRob ≤ s.numInRob + cfg.dispatchWidth := by
  simp only [doDispatch]
  split_ifs
  · exact (dispatchLoop_bound _ _).2
  · exact Nat.le_add_right _ _

theorem occupancy_exact {k : K} {loads stores : Nat} (hwidth : 1 ≤ cfg.dispatchWidth)
    (hrun : Run.Reaches (next cfg) (fun _ _ => True) (start k loads stores) s) :
    s.numInRob = s.rob.countP (·.dispatched.isSome) ∧ s.numInRob ≤ cfg.windowSize ∧
    (∀ e ∈ s.rob.take s.numInRob, e.dispatched.isSome) ∧
    s.rsEntriesUsed = (s.rob.countP fun e => e.dispatched.isSome && !e.issued.isSome) ∧
    s.rsEntriesUsed ≤ cfg.rsEntries ∧ s.trace.map UopTimes.uop ++ s.rob.map RobEntry.uop = s.stream ∧
    (starved cfg s = false → reached s.now s.frontendStalledUntil → ∀ width ≤ cfg.dispatchWidth,
      let t := (dispatchLoop cfg width s none).1
      t.numInRob < cfg.windowSize → t.numInRob < t.rob.length) := by
  have h : Occupied cfg s := reaches_steps (fun _ _ _ h _ => h.enter) (fun _ _ h _ => h.execute _)
    (start_occupied cfg k loads stores) hrun
  obtain ⟨hcount,hfront,hused⟩ := h.counts
  refine ⟨hcount.symm,h.window,hfront,hused.symm,h.stations,h.order,fun hs hr width hw _ => ?_⟩
  obtain ⟨hlen,hle⟩ := @dispatchLoop_bound _ cfg s width none
  simp only [starved,hr,Bool.true_and,decide_eq_false_iff_not] at hs
  omega

def sixCycles : List Label := (fill 5).map .enter ++ replicate 6 (.execute true)

theorem two_committed_one_issued : ∃ s, Run.Reaches (next (smallCore 2 1)) (fun _ _ => True) (start () 4 4) s ∧
    s.trace.length = 2 ∧ s.log.length = 3 ∧ s.numInRob = 2 ∧ s.rob.countP (·.dispatched.isSome) = 2 := by
  have hsome : (Run.guided (next (smallCore 2 1)) (fun _ _ => True) (start () 4 4) sixCycles).isSome := by decide +kernel
  have hreach := Run.reaches_guided hsome
  have htwo : ((Run.guided (next (smallCore 2 1)) (fun _ _ => True) (start () 4 4) sixCycles).getD
      (start () 4 4)).numInRob = 2 := by decide +kernel
  exact ⟨_,hreach,by decide +kernel,by decide +kernel,htwo,(occupancy_exact (by decide) hreach).1.symm.trans htwo⟩

end RobTimer
