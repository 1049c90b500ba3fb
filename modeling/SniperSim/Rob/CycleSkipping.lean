import Mathlib.Logic.Function.Iterate
import SniperSim.Library.Fuel
import SniperSim.Rob.Occupancy

open List Option
namespace RobTimer
open Deadline
variable {K : Type} {cfg : Config K} {s : State K} {t : Nat}

def Config.halts (cfg : Config K) : Bool := cfg.inorder || (cfg.robContention.isNone && cfg.dispatchWidth == 0)

def wakes (e : RobEntry) : Option Nat := if e.done.isSome then e.done else e.ready

def Asleep (halts : Bool) (t : Nat) : List RobEntry → Prop
  | [] => True
  | e :: rob => reached t (wakes e) = false ∧ ((e.done.isNone && halts) ∨ Asleep halts t rob)

def frontDone (rob : List RobEntry) : Option Nat := (rob.head?).bind RobEntry.done

structure Idle (cfg : Config K) (s : State K) (t : Nat) : Prop where
  frontend : reached t s.frontendStalledUntil = false ∨ cfg.windowSize ≤ s.numInRob
  issue : Asleep cfg.halts t (s.rob.take s.numInRob)
  commit : reached t (frontDone s.rob) = false

section
variable {w : Walk}

theorem verdict_blocked (h : reached s.now e.ready = false) : verdict cfg s w e = .blocked := by
  rw [verdict,h]
  rfl

def Unused (cfg : Config K) (k : K) (w : Walk) : Prop :=
  w.numIssued = 0 ∧ ∀ c, cfg.robContention = some c → c.noMore k = false

theorem exhausted_unused (h : Unused cfg k w) : (cfg.inorder || exhausted cfg k w) = cfg.halts := by
  rw [Config.halts,exhausted]
  cases hc : cfg.robContention with
  | none =>
    simp only [Option.elim,isNone_none,Bool.true_and,h.1]
    rw [BEq.comm (a := 0)]
  | some c => simp [h.2 c hc]

theorem consider_blocked (hu : Unused cfg s.contention w) (h : reached s.now e.ready = false) :
    consider cfg s w i e = (s,passOver s w e false,cfg.halts) := by
  have hpass : Unused cfg s.contention (passOver s w e false) := ⟨hu.1,hu.2⟩
  rw [consider,verdict_blocked h]
  simp only
  rw [exhausted_unused hpass]

theorem issueLoop_asleep (hu : Unused cfg s.contention w) (h : Asleep cfg.halts s.now ((s.rob.drop i).take left)) :
    (issueLoop cfg left i s w).1 = s := by
  induction left generalizing i w with
  | zero => rfl
  | succ left ih =>
    rw [issueLoop]
    split
    · rfl
    · next e he =>
      obtain ⟨hlt,hget⟩ := List.getElem?_eq_some_iff.mp he
      rw [drop_eq_getElem_cons hlt,take_succ_cons,hget] at h
      obtain ⟨hwake,hrest⟩ := h
      rw [examine]
      cases hd : e.done with
      | some d => refine ih ⟨hu.1,hu.2⟩ (hrest.resolve_left (by simp [hd]))
      | none =>
        simp only [wakes,hd,isSome_none,Bool.false_eq_true,if_false] at hwake ⊢
        have hnote : Unused cfg s.contention (w.note e.ready) := ⟨hu.1,hu.2⟩
        rw [consider_blocked hnote hwake]
        simp only
        split_ifs with hhalt
        · rfl
        · exact ih ⟨hu.1,hu.2⟩ (hrest.resolve_left (by simp [hd,hhalt]))
end

section
variable {w : Walk} {e : RobEntry}

theorem consider_event (h : reached t (consider cfg s w i e).2.1.nextEvent = false) :
    reached t w.nextEvent = false := by
  rw [consider] at h
  split at h
  · exact h
  · exact h
  · exact h
  · simp only at h
    split_ifs at h
    · exact (not_reached_soonest.mp h).1
    · exact h

theorem examine_event (h : reached t (examine cfg s w i e).2.1.nextEvent = false) :
    reached t w.nextEvent = false ∧ reached t (wakes e) = false := by
  rw [examine] at h
  rw [wakes]
  split_ifs at h ⊢ with hd
  · exact not_reached_soonest.mp h
  · exact not_reached_soonest.mp (consider_event h)

theorem issueLoop_event (h : reached t (issueLoop cfg left i s w).2.nextEvent = false) :
    reached t w.nextEvent = false := by
  induction left generalizing i s w with
  | zero => exact h
  | succ left ih =>
    rw [issueLoop] at h
    split at h
    · exact h
    · simp only at h
      split_ifs at h
      · exact (examine_event h).1
      · exact (examine_event (ih h)).1

theorem issueLoop_quiet (hu : Unused cfg s.contention w) (ht : s.now ≤ t)
    (h : reached t (issueLoop cfg left i s w).2.nextEvent = false) :
    (issueLoop cfg left i s w).1 = s ∧ Asleep cfg.halts t ((s.rob.drop i).take left) := by
  induction left generalizing i w with
  | zero => exact ⟨rfl,by simp [Asleep]⟩
  | succ left ih =>
    rw [issueLoop] at h ⊢
    cases he : s.rob[i]? with
    | none =>
      rw [drop_eq_nil_of_le (List.getElem?_eq_none_iff.mp he)]
      exact ⟨rfl,by simp [Asleep]⟩
    | some e =>
      obtain ⟨hlt,hget⟩ := List.getElem?_eq_some_iff.mp he
      rw [drop_eq_getElem_cons hlt,take_succ_cons,hget]
      simp only [he] at h ⊢
      have hwake : reached t (wakes e) = false := by
        split_ifs at h
        · exact (examine_event h).2
        · exact (examine_event (issueLoop_event h)).2
      rw [examine] at h ⊢
      cases hd : e.done with
      | some d =>
        simp only [hd,isSome_some,if_true,Bool.false_eq_true,if_false] at h ⊢
        have hnote : Unused cfg s.contention (w.note (some d)) := ⟨hu.1,hu.2⟩
        obtain ⟨hsame,hrest⟩ := ih hnote h
        exact ⟨hsame,hwake,.inr hrest⟩
      | none =>
        have hready : reached s.now e.ready = false := by
          refine not_reached_of_le ht ?_
          simpa [wakes,hd] using hwake
        have hnote : Unused cfg s.contention (w.note e.ready) := ⟨hu.1,hu.2⟩
        simp only [hd,isSome_none,Bool.false_eq_true,if_false] at h ⊢
        rw [consider_blocked hnote hready] at h ⊢
        simp only at h ⊢
        split_ifs at h ⊢ with hhalt
        · exact ⟨rfl,hwake,.inl (by simp [hd,hhalt])⟩
        · have hpass : Unused cfg s.contention (passOver s (w.note e.ready) e false) := ⟨hu.1,hu.2⟩
          obtain ⟨hsame,hrest⟩ := ih hpass h
          exact ⟨hsame,hwake,.inr hrest⟩
end

theorem commitLoop_none (h : reached now (frontDone rob) = false) : commitLoop width now n rob = ([],rob) := by
  cases rob with
  | nil => rfl
  | cons e rob =>
    simp only [frontDone,head?_cons,bind_some] at h
    simp [commitLoop,h]

theorem doCommit_none (h : reached s.now (frontDone s.rob) = false) : doCommit cfg s = (s,0,frontDone s.rob) := by
  simp [doCommit,commitLoop_none h,frontDone]

theorem unused_initCycle (cfg : Config K) (s : State K) : Unused cfg (initCycle cfg s).contention startWalk := by
  refine ⟨rfl,fun c hc => ?_⟩
  simp only [initCycle,hc,Option.elim]
  exact c.noMore_initCycle _ _

theorem frontDone_asleep (h : Staged s) (ha : Asleep halts t (s.rob.take s.numInRob)) :
    reached t (frontDone s.rob) = false := by
  cases hrob : s.rob with
  | nil => rfl
  | cons e rob =>
    simp only [frontDone,head?_cons,bind_some]
    cases hnum : s.numInRob with
    | zero =>
      rw [h.waiting e (by simp [hrob,hnum])]
      rfl
    | succ n =>
      rw [hrob,hnum,take_succ_cons] at ha
      have hwake := ha.1
      rw [wakes] at hwake
      split_ifs at hwake with hd
      · exact hwake
      · rw [not_isSome_iff_eq_none.mp hd]
        rfl

theorem doDispatch_event (h : reached t (doDispatch cfg s).2 = false) :
    reached t (doDispatch cfg s).1.frontendStalledUntil = false ∨ cfg.windowSize ≤ (doDispatch cfg s).1.numInRob := by
  by_cases hfull : (doDispatch cfg s).1.numInRob = cfg.windowSize
  · exact .inr (Nat.le_of_eq hfull.symm)
  · have hevent : (doDispatch cfg s).2 = soonest (doDispatch cfg s).1.frontendStalledUntil _ := if_neg hfull
    rw [hevent] at h
    exact .inl (not_reached_soonest.mp h).1

theorem cycle_quiet (h : Occupied cfg s) (ht : s.now ≤ t) (he : reached t (cycle cfg s).2.2 = false) :
    (cycle cfg s).1 = initCycle cfg (doDispatch cfg s).1 ∧ (cycle cfg s).2.1 = 0 ∧ Idle cfg (cycle cfg s).1 t := by
  obtain ⟨hd,hrest⟩ := not_reached_soonest.mp he
  obtain ⟨hi,-⟩ := not_reached_soonest.mp hrest
  have hnow : (initCycle cfg (doDispatch cfg s).1).now ≤ t := by
    show (doDispatch cfg s).1.now ≤ t
    rwa [doDispatch_now]
  obtain ⟨hsame,hasleep⟩ := issueLoop_quiet (unused_initCycle cfg (doDispatch cfg s).1) hnow hi
  have hissue : (doIssue cfg (doDispatch cfg s).1).1 = initCycle cfg (doDispatch cfg s).1 := hsame
  have hfront : reached t (frontDone (doDispatch cfg s).1.rob) = false := frontDone_asleep h.doDispatch.staged hasleep
  have hcommit : doCommit cfg (initCycle cfg (doDispatch cfg s).1) =
      (initCycle cfg (doDispatch cfg s).1,0,frontDone (doDispatch cfg s).1.rob) :=
    doCommit_none (not_reached_of_le hnow hfront)
  have hstate : (cycle cfg s).1 = initCycle cfg (doDispatch cfg s).1 := by
    simp only [cycle,hissue,hcommit]
  refine ⟨hstate,by simp only [cycle,hissue,hcommit],?_⟩
  rw [hstate]
  exact ⟨doDispatch_event hd,hasleep,hfront⟩

theorem dispatchLoop_full (h : cfg.windowSize ≤ s.numInRob) : dispatchLoop cfg width s event = (s,event) := by
  cases width with
  | zero => rfl
  | succ width => rw [dispatchLoop,if_neg (Nat.not_lt.mpr h)]

theorem Idle.doDispatch (h : Idle cfg s s.now) : (doDispatch cfg s).1 = s := by
  rw [RobTimer.doDispatch]
  simp only
  split_ifs with hstall
  · rw [dispatchLoop_full (h.frontend.resolve_left (by simp [hstall]))]
  · rfl

theorem Idle.cycle (h : Idle cfg s s.now) : (cycle cfg s).1 = initCycle cfg s ∧ (cycle cfg s).2.1 = 0 := by
  have hissue : (doIssue cfg s).1 = initCycle cfg s :=
    issueLoop_asleep (unused_initCycle cfg s) (by rw [drop_zero]; exact h.issue)
  have hcommit : doCommit cfg (initCycle cfg s) = (initCycle cfg s,0,frontDone s.rob) := doCommit_none h.commit
  simp only [RobTimer.cycle,h.doDispatch,hissue,hcommit,and_self]

def ports (cfg : Config K) (t : Nat) (k : K) : K := cfg.robContention.elim k fun c => c.initCycle t k

theorem ports_ports (cfg : Config K) (t t' : Nat) (k : K) : ports cfg t (ports cfg t' k) = ports cfg t k := by
  unfold ports
  cases cfg.robContention with
  | none => rfl
  | some c => exact c.initCycle_initCycle t t' k

theorem dispatchLoop_contention (cfg : Config K) (width : Nat) (s : State K) (event : Option Nat)
    (k : K) : dispatchLoop cfg width { s with contention := k } event =
      ({ (dispatchLoop cfg width s event).1 with contention := k },(dispatchLoop cfg width s event).2) := by
  induction width generalizing s event with
  | zero => rfl
  | succ width ih =>
    simp only [dispatchLoop]
    cases s.rob[s.numInRob]? with
    | none => split_ifs <;> rfl
    | some e =>
      simp only
      split_ifs <;> first | rfl | exact ih (dispatchEntry (fetched s e) e) (soonest event (dispatchReady s e))

theorem doDispatch_contention (cfg : Config K) (s : State K) (k : K) : doDispatch cfg { s with contention := k } =
      ({ (doDispatch cfg s).1 with contention := k },(doDispatch cfg s).2) := by
  simp only [doDispatch,dispatchLoop_contention]
  split_ifs <;> rfl

theorem cycle_contention (h : ports cfg s.now k = ports cfg s.now s.contention) :
    cycle cfg { s with contention := k } = cycle cfg s := by
  have hinit : initCycle cfg { (doDispatch cfg s).1 with contention := k } = initCycle cfg (doDispatch cfg s).1 := by
    have hkeep : (doDispatch cfg s).1.contention = s.contention :=
      congrArg (·.1.contention) (doDispatch_contention cfg s s.contention)
    have hports : ports cfg (doDispatch cfg s).1.now k =
        ports cfg (doDispatch cfg s).1.now (doDispatch cfg s).1.contention := by
      rw [hkeep,doDispatch_now,h]
    exact congrArg (fun k => { (doDispatch cfg s).1 with contention := k }) hports
  have hissue : doIssue cfg { (doDispatch cfg s).1 with contention := k } = doIssue cfg (doDispatch cfg s).1 := by
    simp only [doIssue,hinit]
  simp only [cycle,doDispatch_contention,hissue]

section
variable {p q p' q' : Progress K}

def advance (cfg : Config K) (skipping : Bool) (p : Progress K) : Progress K :=
  { timer := (execute cfg skipping p.timer).1
    insns := p.insns + (execute cfg skipping p.timer).2.1
    latency := p.latency + (execute cfg skipping p.timer).2.2 }

-- C is required of the state before every execute() call that advances the clock
inductive Yields (cfg : Config K) (C : State K → Prop) (skipping : Bool) : Progress K → Progress K → Prop
  | stop {p : Progress K} (h : starved cfg p.timer) : Yields cfg C skipping p p
  | step {p q : Progress K} (h : starved cfg p.timer = false) (hc : C p.timer)
      (hq : Yields cfg C skipping (advance cfg skipping p) q) : Yields cfg C skipping p q

abbrev Any (_ : State K) : Prop := True

variable {skip : Bool} {C : State K → Prop}

theorem skipTo_pos (now : Nat) (event : Option Nat) : 0 < skipTo now event := by
  cases event with
  | none => exact Nat.one_pos
  | some t =>
    rw [skipTo]
    split_ifs <;> omega

theorem execute_starved (h : starved cfg s) : execute cfg skip s = (s,0,0) := by rw [execute,if_pos h]

theorem execute_skipping (h : starved cfg s = false) : execute cfg true s =
    ({ (cycle cfg s).1 with now := s.now + skipTo s.now (cycle cfg s).2.2 },(cycle cfg s).2.1,
      skipTo s.now (cycle cfg s).2.2) := by
  simp [execute,h]

theorem execute_stepping (h : starved cfg s = false) : execute cfg false s =
    ({ (cycle cfg s).1 with now := s.now + 1 },(cycle cfg s).2.1,1) := by
  simp [execute,h]

theorem execute_latency : (execute cfg skip s).2.2 = 0 ↔ starved cfg s := by
  cases h : starved cfg s with
  | true => simp [execute_starved h]
  | false =>
    cases skip with
    | true => simp [execute_skipping h,Nat.ne_of_gt (skipTo_pos _ _)]
    | false => simp [execute_stepping h]

theorem yields_of_executeLoop (h : executeLoop cfg skip fuel p = some q) : Yields cfg Any skip p q := by
  induction fuel generalizing p with
  | zero => simp [executeLoop] at h
  | succ fuel ih =>
    simp only [executeLoop] at h
    split_ifs at h with hzero
    · have hstarved := execute_latency.mp hzero
      cases h
      have hstop : Yields cfg Any skip p p := .stop hstarved
      simpa [execute_starved hstarved] using hstop
    · refine .step ?_ trivial (ih h)
      simpa using mt execute_latency.mpr hzero

theorem Yields.returns (h : Yields cfg C skip p q) : Fuel.Returns (fun fuel => executeLoop cfg skip fuel p) q := by
  induction h with
  | stop h =>
    refine .of_succ ⟨0,fun fuel _ => ?_⟩
    simp [executeLoop,execute_starved h]
  | @step p q h _ _ ih =>
    refine .of_succ ?_
    have hne : ¬ (execute cfg skip p.timer).2.2 = 0 := fun hzero => by
      simp [execute_latency.mp hzero] at h
    simp only [executeLoop,if_neg hne]
    exact ih

structure Behind (cfg : Config K) (s s' : State K) : Prop where
  same : s' = { s with now := s'.now, contention := s'.contention }
  restart : ∀ t, ports cfg t s'.contention = ports cfg t s.contention
  le : s'.now ≤ s.now
  idle : ∀ t, s'.now ≤ t → t < s.now → Idle cfg s t

def short (cfg : Config K) (s : State K) : Bool := decide (s.rob.length < s.numInRob + 2 * cfg.dispatchWidth)

def FillsWindow (cfg : Config K) (s : State K) : Prop := s.numInRob = cfg.windowSize ∨
  reached s.now s.frontendStalledUntil ∧ cfg.windowSize ≤ s.numInRob + cfg.dispatchWidth

-- of the state before execute(): the window does not fill, or enough uops wait behind it,
-- or one in it can issue or is done by the next cycle
def Fed (cfg : Config K) (s : State K) : Prop := FillsWindow cfg s →
  cfg.windowSize + 2 * cfg.dispatchWidth ≤ s.rob.length ∨ ¬Asleep cfg.halts (s.now + 1) (s.rob.take s.numInRob)

instance decidableAsleep (halts : Bool) (t : Nat) : ∀ rob, Decidable (Asleep halts t rob)
  | [] => isTrue trivial
  | _ :: rob => @instDecidableAnd _ _ _ (@instDecidableOr _ _ _ (decidableAsleep halts t rob))

instance decidableFed (cfg : Config K) (s : State K) : Decidable (Fed cfg s) :=
  inferInstanceAs (Decidable (_ ∨ _ ∧ _ → _))

-- fed says whether the skipping run meets Fed at every step
structure Trails (cfg : Config K) (fed : Prop) (p p' : Progress K) : Prop where
  behind : Behind cfg p.timer p'.timer
  insns : p'.insns = p.insns
  latency : p.latency + p'.timer.now = p'.latency + p.timer.now
  awake : fed → ∀ t, p'.timer.now ≤ t → t < p.timer.now → starved cfg { p.timer with now := t } = false

structure Rests (cfg : Config K) (fed : Prop) (p p' : Progress K) : Prop extends Trails cfg fed p p' where
  sync : fed → p'.timer.now = p.timer.now

variable {fed : Prop}

theorem starved_eq (cfg : Config K) (s : State K) :
    starved cfg s = (reached s.now s.frontendStalledUntil && short cfg s) := rfl

theorem Behind.starved (h : Behind cfg s s') :
    starved cfg s' = (reached s'.now s.frontendStalledUntil && short cfg s) := by
  rw [h.same,starved_eq]
  rfl

theorem Behind.starved_sync (h : Behind cfg s s') (heq : s'.now = s.now) :
    RobTimer.starved cfg s' = RobTimer.starved cfg s := by
  rw [h.starved,heq,← starved_eq]

theorem Trails.stop (h : Trails cfg fed p p') (hs : starved cfg p'.timer) :
    starved cfg p.timer ∧ Rests cfg fed p p' := by
  rw [h.behind.starved] at hs
  obtain ⟨hreached,hshort⟩ := Bool.and_eq_true_iff.mp hs
  refine ⟨?_,h,fun hfed => ?_⟩
  · rw [starved_eq,reached_mono h.behind.le hreached,hshort]
    rfl
  · by_contra hne
    have hawake := h.awake hfed _ (Nat.le_refl _) (Nat.lt_of_le_of_ne h.behind.le hne)
    exact Bool.false_ne_true (hawake.symm.trans hs)

theorem advance_timer_stepping (h : starved cfg p.timer = false) :
    (advance cfg false p).timer = { (cycle cfg p.timer).1 with now := p.timer.now + 1 } := by
  rw [advance,execute_stepping h]

theorem advance_timer_skipping (h : starved cfg p.timer = false) :
    (advance cfg true p).timer = { (cycle cfg p.timer).1 with
      now := p.timer.now + skipTo p.timer.now (cycle cfg p.timer).2.2 } := by
  rw [advance,execute_skipping h]

theorem Trails.stutter (h : Trails cfg fed p p') (hlt : p'.timer.now < p.timer.now)
    (hs : starved cfg p'.timer = false) : Trails cfg fed p (advance cfg false p') := by
  have hidle : Idle cfg p'.timer p'.timer.now := by
    have hi := h.behind.idle _ (Nat.le_refl _) hlt
    rw [h.behind.same]
    exact { hi with }
  obtain ⟨hcycle,hinsns⟩ := hidle.cycle
  have htimer := advance_timer_stepping hs
  rw [hcycle] at htimer
  have hnow : (advance cfg false p').timer.now = p'.timer.now + 1 := by rw [htimer]
  refine ⟨⟨?_,fun t => ?_,by omega,fun t ht => h.behind.idle t (by omega)⟩,?_,?_,
    fun hfed t ht => h.awake hfed t (by omega)⟩
  · rw [htimer,h.behind.same]
    rfl
  · rw [htimer]
    exact (ports_ports cfg t _ _).trans (h.behind.restart t)
  · rw [advance,execute_stepping hs]
    simp [hinsns,h.insns]
  · have := h.latency
    rw [hnow,advance,execute_stepping hs]
    simp only
    omega

theorem skipTo_event (hlt : now + 1 ≤ t) (h : t < now + skipTo now event) : reached t event = false := by
  cases event with
  | none => rfl
  | some e =>
    rw [skipTo] at h
    split_ifs at h with hskip
    · simp only [reached,decide_eq_false_iff_not]
      omega
    · omega

theorem Asleep.take (h : Asleep halts t rob) (n : Nat) : Asleep halts t (rob.take n) := by
  induction rob generalizing n with
  | nil => rwa [take_nil]
  | cons e rob ih =>
    cases n with
    | zero => trivial
    | succ n => exact ⟨h.1,h.2.imp id fun hrest => ih hrest n⟩

theorem doDispatch_front (cfg : Config K) (s : State K) :
    (doDispatch cfg s).1.rob.take s.numInRob = s.rob.take s.numInRob ∧ s.numInRob ≤ (doDispatch cfg s).1.numInRob := by
  simp only [doDispatch]
  split_ifs
  · refine dispatchLoop_keeps (P := fun t => t.rob.take s.numInRob = s.rob.take s.numInRob ∧ s.numInRob ≤ t.numInRob)
      (fun _ _ h => h) (fun _ _ h => h) (fun t e h _ _ _ => ⟨?_,Nat.le_succ_of_le h.2⟩) ⟨rfl,Nat.le_refl _⟩ _ _
    rw [← h.1]
    exact take_set_of_le h.2
  · exact ⟨rfl,Nat.le_refl _⟩

theorem doDispatch_fills (hocc : Occupied cfg s) (hfull : cfg.windowSize ≤ (doDispatch cfg s).1.numInRob) :
    (doDispatch cfg s).1.rob.length = s.rob.length ∧ FillsWindow cfg s := by
  have hwindow := hocc.doDispatch.window
  simp only [doDispatch] at hwindow hfull ⊢
  split_ifs at hwindow hfull ⊢ with hstalled
  · obtain ⟨hlen,hnum⟩ := @dispatchLoop_bound _ cfg s cfg.dispatchWidth none
    exact ⟨hlen,.inr ⟨hstalled,by omega⟩⟩
  · exact ⟨rfl,.inl (Nat.le_antisymm hwindow hfull)⟩

theorem Fed.awake (h : Fed cfg s) (hocc : Occupied cfg s) (hlt : s.now + 1 ≤ t)
    (ht : t < s.now + skipTo s.now (cycle cfg s).2.2) : starved cfg { (cycle cfg s).1 with now := t } = false := by
  obtain ⟨hstate,-,hidle⟩ := cycle_quiet hocc (by omega) (skipTo_event hlt ht)
  obtain ⟨-,-,hnext⟩ := cycle_quiet hocc (Nat.le_succ _) (skipTo_event (Nat.le_refl _) (by omega))
  rw [hstate] at hidle hnext ⊢
  rcases hidle.frontend with hstall | hfull
  · simp [starved,hstall]
  · obtain ⟨hlen,hfills⟩ := doDispatch_fills hocc hfull
    obtain ⟨hfront,hle⟩ := doDispatch_front cfg s
    have hasleep : Asleep cfg.halts (s.now + 1) (s.rob.take s.numInRob) := by
      have htake := hnext.issue.take s.numInRob
      rwa [take_take,Nat.min_eq_left (show _ ≤ (initCycle cfg _).numInRob from hle),initCycle,hfront] at htake
    have hroom := (h hfills).resolve_right (not_not.mpr hasleep)
    have hwindow := hocc.doDispatch.window
    have hlong : ¬(doDispatch cfg s).1.rob.length < (doDispatch cfg s).1.numInRob + 2 * cfg.dispatchWidth := by omega
    simp [starved,initCycle,hlong]

theorem Trails.move (h : Trails cfg fed p p') (hocc : Occupied cfg p.timer) (heq : p'.timer.now = p.timer.now)
    (hs : starved cfg p.timer = false) (hfed : fed → Fed cfg p.timer) :
    Trails cfg fed (advance cfg true p) (advance cfg false p') := by
  have hs' := (h.behind.starved_sync heq).trans hs
  have hcycle : cycle cfg p'.timer = cycle cfg p.timer := by
    have hsame := h.behind.same
    rw [heq] at hsame
    rw [hsame]
    exact cycle_contention (h.behind.restart _)
  have hnow' := congrArg State.now (advance_timer_stepping hs')
  have hnow := congrArg State.now (advance_timer_skipping hs)
  simp only at hnow hnow'
  have hpos := skipTo_pos p.timer.now (cycle cfg p.timer).2.2
  refine ⟨⟨?_,fun t => ?_,by omega,fun t ht hlt => ?_⟩,?_,?_,fun hf t ht hlt => ?_⟩
  · rw [advance_timer_stepping hs',advance_timer_skipping hs,hcycle]
  · rw [advance_timer_stepping hs',advance_timer_skipping hs,hcycle]
  · rw [hnow] at hlt
    have hquiet := cycle_quiet hocc (by omega) (skipTo_event (by omega) hlt)
    rw [advance_timer_skipping hs]
    exact { hquiet.2.2 with }
  · rw [advance,advance,execute_stepping hs',execute_skipping hs]
    simp only [hcycle,h.insns]
  · have hlat := h.latency
    rw [hnow,hnow',advance,advance,execute_stepping hs',execute_skipping hs]
    simp only
    omega
  · rw [hnow] at hlt
    rw [advance_timer_skipping hs]
    exact (hfed hf).awake hocc (by omega) hlt

theorem Trails.catch_up (h : Trails cfg fed p p') : ∃ p'', Trails cfg fed p p'' ∧
    (starved cfg p''.timer ∨ p''.timer.now = p.timer.now) ∧
    ∀ q', Yields cfg Any false p'' q' → Yields cfg Any false p' q' := by
  generalize hn : p.timer.now - p'.timer.now = n
  induction n generalizing p' with
  | zero =>
    have := h.behind.le
    exact ⟨p',h,.inr (by omega),fun _ hy => hy⟩
  | succ n ih =>
    cases hs : starved cfg p'.timer with
    | true => exact ⟨p',h,.inl hs,fun _ hy => hy⟩
    | false =>
      have hnow : (RobTimer.advance cfg false p').timer.now = p'.timer.now + 1 := by
        rw [advance_timer_stepping hs]
      obtain ⟨p'',ht,hend,hback⟩ := ih (h.stutter (by omega) hs) (by omega)
      exact ⟨p'',ht,hend,fun q' hy => .step hs trivial (hback q' hy)⟩

theorem Yields.stepping (hC : ∀ s, C s → fed → Fed cfg s) (hy : Yields cfg C true p q) (hocc : Occupied cfg p.timer)
    (h : Trails cfg fed p p') : ∃ q', Yields cfg Any false p' q' ∧ Rests cfg fed q q' := by
  induction hy generalizing p' with
  | @stop p hp =>
    obtain ⟨p'',ht,hend,hback⟩ := h.catch_up
    have hstop : starved cfg p''.timer := hend.elim id fun heq => (ht.behind.starved_sync heq).trans hp
    exact ⟨p'',hback _ (.stop hstop),(ht.stop hstop).2⟩
  | @step p q hp hc _ ih =>
    obtain ⟨p'',ht,hend,hback⟩ := h.catch_up
    have heq : p''.timer.now = p.timer.now := by
      refine hend.resolve_left fun hstop => ?_
      rw [(ht.stop hstop).1] at hp
      cases hp
    obtain ⟨q',hy',hr⟩ := ih (hocc.execute _) (ht.move hocc heq hp (hC _ hc))
    exact ⟨q',hback _ (.step ((ht.behind.starved_sync heq).trans hp) trivial hy'),hr⟩

theorem Yields.skipping (hy : Yields cfg Any false p' q') (hocc : Occupied cfg p.timer)
    (h : Trails cfg False p p') : ∃ q, Yields cfg Any true p q ∧ Rests cfg False q q' := by
  induction hy generalizing p with
  | @stop p' hs =>
    obtain ⟨hp,hr⟩ := h.stop hs
    exact ⟨p,.stop hp,hr⟩
  | @step p' q' hs _ _ ih =>
    by_cases hlt : p'.timer.now < p.timer.now
    · exact ih hocc (h.stutter hlt hs)
    · have heq : p'.timer.now = p.timer.now := by
        have := h.behind.le
        omega
      have hp := (h.behind.starved_sync heq).symm.trans hs
      obtain ⟨q,hy,hr⟩ := ih (hocc.execute _) (h.move hocc heq hp nofun)
      exact ⟨q,.step hp trivial hy,hr⟩
end

section
variable {p q p' q' : Progress K} {skip : Bool} {C : State K → Prop} {fed : Prop}

theorem enter_same (cfg : Config K) (s : State K) (uop : DynamicMicroOp) (n : Nat) (k : K) :
    enter cfg { s with now := n, contention := k } uop =
      (enter cfg s uop).map fun s => { s with now := n, contention := k } := by
  simp only [enter]
  split_ifs <;> rfl

theorem wakes_addDependant (waits : List Nat) (n : Nat) (e : RobEntry) :
    (addDependant waits n e).done = e.done ∧ wakes (addDependant waits n e) = wakes e := by
  rw [addDependant]
  split_ifs <;> exact ⟨rfl,rfl⟩

theorem Asleep.map (h : Asleep halts t rob) (waits : List Nat) (n : Nat) :
    Asleep halts t (rob.map (addDependant waits n)) := by
  induction rob with
  | nil => trivial
  | cons e rob ih =>
    obtain ⟨hdone,hwakes⟩ := wakes_addDependant waits n e
    rw [map_cons,Asleep,hwakes,hdone]
    exact ⟨h.1,h.2.imp id ih⟩

theorem Idle.enter (h : Idle cfg s t) (hstaged : Staged s) (he : enter cfg s uop = some s') : Idle cfg s' t := by
  simp only [RobTimer.enter,entered] at he
  split_ifs at he
  · cases he
    exact h
  · cases he
    refine ⟨h.frontend,?_,?_⟩
    · simp only
      rw [take_append_of_le_length (by simpa using hstaged.length),← map_take]
      exact h.issue.map _ _
    · have hcommit := h.commit
      cases hrob : s.rob with
      | nil => rfl
      | cons e rob =>
        rw [hrob] at hcommit
        simp only [frontDone,head?_cons,bind_some,map_cons,cons_append] at hcommit ⊢
        rwa [(wakes_addDependant _ _ e).1]

theorem Behind.enter (h : Behind cfg s s') (hocc : Occupied cfg s) (he : enter cfg s uop = some r) :
    ∃ r', enter cfg s' uop = some r' ∧ Behind cfg r r' ∧ r.now = s.now ∧ r'.now = s'.now := by
  have hkeep : r.now = s.now ∧ r.contention = s.contention := by
    simp only [RobTimer.enter,entered] at he
    split_ifs at he <;> obtain rfl := some.inj he <;> exact ⟨rfl,rfl⟩
  refine ⟨{ r with now := s'.now, contention := s'.contention },?_,⟨rfl,fun t => ?_,?_,fun t ht hlt => ?_⟩,hkeep.1,rfl⟩
  · rw [h.same,enter_same,he]
    rfl
  · rw [hkeep.2]
    exact h.restart t
  · rw [hkeep.1]
    exact h.le
  · exact (h.idle t ht (by rwa [hkeep.1] at hlt)).enter hocc.staged he

theorem Rests.enterAll {insts : List DynamicMicroOp} {r : State K} (h : Rests cfg fed p p')
    (hocc : Occupied cfg p.timer) (he : insts.foldlM (enter cfg) p.timer = some r) :
    ∃ r', insts.foldlM (enter cfg) p'.timer = some r' ∧ Occupied cfg r ∧
      Rests cfg fed { p with timer := r } { p' with timer := r' } := by
  induction insts generalizing p p' with
  | nil =>
    cases he
    exact ⟨p'.timer,rfl,hocc,h⟩
  | cons uop insts ih =>
    rw [foldlM_cons] at he ⊢
    obtain ⟨s,hs,hrest⟩ := bind_eq_some_iff.mp he
    obtain ⟨s',hs',hb,hnow,hnow'⟩ := h.behind.enter hocc hs
    have hmid : Rests cfg fed { p with timer := s } { p' with timer := s' } := by
      refine ⟨⟨hb,h.insns,?_,fun hf t ht hlt => ?_⟩,?_⟩
      · simpa only [hnow,hnow'] using h.latency
      · simp only [hnow,hnow',h.sync hf] at ht hlt
        omega
      · simpa only [hnow,hnow'] using h.sync
    obtain ⟨r',hr',hsr,hr⟩ := ih hmid (hocc.enter hs) hrest
    refine ⟨r',?_,hsr,hr⟩
    rwa [hs']

def Runs (cfg : Config K) (C : State K → Prop) (skipping : Bool) :
    Progress K → List (List DynamicMicroOp) → Progress K → Prop
  | p, [], q => q = p
  | p, insts :: calls, q => ∃ s r, insts.foldlM (enter cfg) p.timer = some s ∧
      Yields cfg C skipping { p with timer := s } r ∧ Runs cfg C skipping r calls q

variable {calls : List (List DynamicMicroOp)}

theorem runs_of_simulateAll (h : simulateAll cfg skip fuel p calls = some q) : Runs cfg Any skip p calls q := by
  induction calls generalizing p with
  | nil => exact (some.inj h).symm
  | cons insts calls ih =>
    obtain ⟨r,hr,hrest⟩ := bind_eq_some_iff.mp h
    obtain ⟨s,hs,hloop⟩ := bind_eq_some_iff.mp hr
    exact ⟨s,r,hs,yields_of_executeLoop hloop,ih hrest⟩

theorem Runs.returns (h : Runs cfg C skip p calls q) :
    Fuel.Returns (fun fuel => simulateAll cfg skip fuel p calls) q := by
  induction calls generalizing p with
  | nil =>
    obtain rfl := h
    exact .const q
  | cons insts calls ih =>
    obtain ⟨s,r,hs,hy,hrest⟩ := h
    have hcall : Fuel.Returns (fun fuel => simulate cfg skip fuel p insts) r := by
      simp only [simulate,hs,bind_some]
      exact hy.returns
    exact hcall.bind (ih hrest)

theorem runs_of_returns
    (h : Fuel.Returns (fun fuel => simulateAll cfg skip fuel p calls) q) : Runs cfg Any skip p calls q := by
  obtain ⟨n,hn⟩ := h
  exact runs_of_simulateAll (hn n (Nat.le_refl n))

theorem enterAll_same (cfg : Config K) (s : State K) (insts : List DynamicMicroOp) (n : Nat) (k : K) :
    insts.foldlM (enter cfg) { s with now := n, contention := k } =
      (insts.foldlM (enter cfg) s).map fun s => { s with now := n, contention := k } := by
  induction insts generalizing s with
  | nil => rfl
  | cons uop insts ih =>
    rw [foldlM_cons,foldlM_cons,enter_same]
    cases enter cfg s uop <;> simp [*]

theorem Yields.occupied (h : Yields cfg C skip p q) (hs : Occupied cfg p.timer) : Occupied cfg q.timer := by
  induction h with
  | stop => exact hs
  | step _ _ _ ih => exact ih (hs.execute _)

theorem Runs.stepping (hC : ∀ s, C s → fed → Fed cfg s) (h : Runs cfg C true p calls q) (hocc : Occupied cfg p.timer)
    (hr : Rests cfg fed p p') : ∃ q', Runs cfg Any false p' calls q' ∧ Rests cfg fed q q' := by
  induction calls generalizing p p' with
  | nil =>
    obtain rfl := h
    exact ⟨p',rfl,hr⟩
  | cons insts calls ih =>
    obtain ⟨s,r,hs,hy,hrest⟩ := h
    obtain ⟨s',hs',hocc',hr'⟩ := hr.enterAll hocc hs
    obtain ⟨r',hy',hrr⟩ := hy.stepping hC hocc' hr'.toTrails
    obtain ⟨q',hq',hqq⟩ := ih hrest (hy.occupied hocc') hrr
    exact ⟨q',⟨s',r',hs',hy',hq'⟩,hqq⟩

theorem Runs.skipping (h : Runs cfg Any false p' calls q') (hocc : Occupied cfg p.timer)
    (hr : Rests cfg False p p') : ∃ q, Runs cfg Any true p calls q := by
  induction calls generalizing p p' with
  | nil => exact ⟨p,rfl⟩
  | cons insts calls ih =>
    obtain ⟨s',r',hs',hy',hrest⟩ := h
    have hsame := hs'
    rw [hr.behind.same,enterAll_same] at hsame
    obtain ⟨s,hs,-⟩ := map_eq_some_iff.mp hsame
    obtain ⟨x,hx,hocc',hrx⟩ := hr.enterAll hocc hs
    obtain rfl := some.inj (hs'.symm.trans hx)
    obtain ⟨r,hy,hrr⟩ := hy'.skipping hocc' hrx.toTrails
    obtain ⟨q,hq⟩ := ih hrest (hy.occupied hocc') hrr
    exact ⟨q,s,r,hs,hy,hq⟩

structure SameTiming (q q' : Progress K) : Prop where
  trace : q'.timer.trace = q.timer.trace
  rob : q'.timer.rob = q.timer.rob
  insns : q'.insns = q.insns
  latency_le : q'.latency ≤ q.latency

theorem Rests.sameTiming (h : Rests cfg fed q q') : SameTiming q q' := by
  have hlatency := h.latency
  have hle := h.behind.le
  refine ⟨?_,?_,h.insns,by omega⟩
  · rw [h.behind.same]
  · rw [h.behind.same]

theorem rests_start (cfg : Config K) (fed : Prop) (s : State K) : Rests cfg fed (fresh s) (fresh s) :=
  ⟨⟨⟨rfl,fun _ => rfl,Nat.le_refl _,fun _ ht hlt => absurd hlt (Nat.not_lt.mpr ht)⟩,rfl,rfl,
    fun _ _ ht hlt => absurd hlt (Nat.not_lt.mpr ht)⟩,fun _ => rfl⟩

theorem Runs.sameTiming {k : K} {loads stores : Nat} (h : Runs cfg Any true (fresh (start k loads stores)) calls q) :
    ∃ q', Fuel.Returns (fun fuel => simulateAll cfg false fuel (fresh (start k loads stores)) calls) q' ∧
      SameTiming q q' ∧ (Runs cfg (Fed cfg) true (fresh (start k loads stores)) calls q → q'.latency = q.latency) := by
  have hocc := start_occupied cfg k loads stores
  by_cases hfed : Runs cfg (Fed cfg) true (fresh (start k loads stores)) calls q
  · obtain ⟨q',hq',hr⟩ := hfed.stepping (fun _ hs _ => hs) hocc (rests_start cfg True _)
    have hlatency := hr.latency
    have hsync := hr.sync trivial
    exact ⟨q',hq'.returns,hr.sameTiming,fun _ => by omega⟩
  · obtain ⟨q',hq',hr⟩ := h.stepping (fun _ _ hf => hf.elim) hocc (rests_start cfg False _)
    exact ⟨q',hq'.returns,hr.sameTiming,fun hf => absurd hf hfed⟩

theorem cycle_skipping (cfg : Config K) (k : K) (loads stores : Nat) (calls : List (List DynamicMicroOp)) :
    (∀ q, Fuel.Returns (fun fuel => simulateAll cfg true fuel (fresh (start k loads stores)) calls) q →
      ∃ q', Fuel.Returns (fun fuel => simulateAll cfg false fuel (fresh (start k loads stores)) calls) q' ∧
        SameTiming q q' ∧ (Runs cfg (Fed cfg) true (fresh (start k loads stores)) calls q → q'.latency = q.latency)) ∧
    ∀ q', Fuel.Returns (fun fuel => simulateAll cfg false fuel (fresh (start k loads stores)) calls) q' →
      ∃ q, Fuel.Returns (fun fuel => simulateAll cfg true fuel (fresh (start k loads stores)) calls) q ∧
        SameTiming q q' ∧ (Runs cfg (Fed cfg) true (fresh (start k loads stores)) calls q → q'.latency = q.latency) := by
  refine ⟨fun q hq => (runs_of_returns hq).sameTiming,fun q' hq' => ?_⟩
  obtain ⟨q,hq⟩ := (runs_of_returns hq').skipping (start_occupied cfg k loads stores) (rests_start cfg False _)
  obtain ⟨r,hr,hsame⟩ := hq.sameTiming
  rw [hr.unique hq'] at hsame
  exact ⟨q,hq.returns,hsame⟩

theorem returns_of_simulateAll (h : simulateAll cfg skip fuel p calls = some q) :
    Fuel.Returns (fun fuel => simulateAll cfg skip fuel p calls) q :=
  (runs_of_simulateAll h).returns
end

def ran (skip : Bool) (windowSize : Nat) (calls : List (List DynamicMicroOp)) : Option (Progress Unit) :=
  simulateAll (smallCore windowSize 1) skip 40 (fresh (start () 4 4)) calls

theorem yields_iterate {p : Progress K} {C : State K → Prop} {skip : Bool} {n : Nat}
    (h : ∀ i < n, starved cfg ((advance cfg skip)^[i] p).timer = false ∧ C ((advance cfg skip)^[i] p).timer)
    (hstop : starved cfg ((advance cfg skip)^[n] p).timer) : Yields cfg C skip p ((advance cfg skip)^[n] p) := by
  induction n generalizing p with
  | zero => exact .stop hstop
  | succ n ih =>
    obtain ⟨hs,hc⟩ := h 0 n.succ_pos
    exact .step hs hc (ih (fun i hi => h (i + 1) (Nat.succ_lt_succ hi)) hstop)

def longLatency : List DynamicMicroOp := { simpleUop .execute 20 with destinationRegisters := [1] } ::
  replicate 5 { simpleUop .execute 1 with sourceRegisters := [1] }

def loaded : Progress Unit :=
  fresh ((longLatency.foldlM (enter (smallCore 3 1)) (start () 4 4)).getD (start () 4 4))

theorem long_latency_same_timing : ∃ q q' : Progress Unit,
    Runs (smallCore 3 1) (Fed (smallCore 3 1)) true (fresh (start () 4 4)) [longLatency] q ∧
    Fuel.Returns (fun fuel => simulateAll (smallCore 3 1) false fuel (fresh (start () 4 4)) [longLatency]) q' ∧
    SameTiming q q' ∧ q'.latency = 25 ∧ q'.insns = 3 := by
  have hrun : Runs (smallCore 3 1) (Fed (smallCore 3 1)) true (fresh (start () 4 4)) [longLatency]
      ((advance (smallCore 3 1) true)^[7] loaded) :=
    ⟨_,_,rfl,yields_iterate (p := loaded) (by decide +kernel) (by decide +kernel),rfl⟩
  obtain ⟨q',hq',hsame,hlatency⟩ := (cycle_skipping (smallCore 3 1) () 4 4 [longLatency]).1 _ hrun.returns
  have hq : ((advance (smallCore 3 1) true)^[7] loaded).latency = 25 ∧
      ((advance (smallCore 3 1) true)^[7] loaded).insns = 3 := by decide +kernel
  exact ⟨_,q',hrun,hq',hsame,(hlatency hrun).trans hq.1,hsame.insns.trans hq.2⟩

def fullWindow : List (List DynamicMicroOp) :=
  [[{ simpleUop .execute 20 with destinationRegisters := [1] },
    { simpleUop .execute 1 with sourceRegisters := [1], iCacheMiss := some 5 },simpleUop .execute 1]]

theorem skipped_request_for_uops : ∃ q q' : Progress Unit,
    Fuel.Returns (fun fuel => simulateAll (smallCore 2 1) true fuel (fresh (start () 4 4)) fullWindow) q ∧
    Fuel.Returns (fun fuel => simulateAll (smallCore 2 1) false fuel (fresh (start () 4 4)) fullWindow) q' ∧
    q.latency = 21 ∧ q'.latency = 7 := by
  have hskip : (ran true 2 fullWindow).map Progress.latency = some 21 := by decide +kernel
  have hstep : (ran false 2 fullWindow).map Progress.latency = some 7 := by decide +kernel
  obtain ⟨q,hq,hlatency⟩ := map_eq_some_iff.mp hskip
  obtain ⟨q',hq',hlatency'⟩ := map_eq_some_iff.mp hstep
  exact ⟨q,q',returns_of_simulateAll hq,returns_of_simulateAll hq',hlatency,hlatency'⟩

end RobTimer
