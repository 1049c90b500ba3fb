import SniperSim.Library.Roster
import SniperSim.Library.Run

open List Option Nat

structure Semaphore where
  (count numWaiting futx : Int)
deriving DecidableEq, Repr

namespace Semaphore

inductive Phase
  | idle | waitAcquire | signalAcquire | inside | futexCall | blocked | reacquire
deriving DecidableEq, Repr

inductive Critical
  | test | mark | reset | waitRelease | unmark | take | doneRelease | raise | wakeTest | setWord | wake
  | signalRelease
deriving DecidableEq, Repr

open Critical

def statement (sem : Semaphore) : Critical → Semaphore × (Critical ⊕ Phase)
  | .test => (sem,.inl (if sem.count ≤ 0 then .mark else .take))
  | .mark => ({ sem with numWaiting := sem.numWaiting + 1 },.inl .reset)
  | .reset => ({ sem with futx := 0 },.inl .waitRelease)
  | .waitRelease => (sem,.inr .futexCall)
  | .unmark => ({ sem with numWaiting := sem.numWaiting - 1 },.inl .test)
  | .take => ({ sem with count := sem.count - 1 },.inl .doneRelease)
  | .doneRelease => (sem,.inr .idle)
  | .raise => ({ sem with count := sem.count + 1 },.inl .wakeTest)
  | .wakeTest => (sem,.inl (if sem.numWaiting > 0 then .setWord else .signalRelease))
  | .setWord => ({ sem with futx := 1 },.inl .wake)
  | .wake => (sem,.inl .signalRelease)
  | .signalRelease => (sem,.inr .idle)

structure System where
  sem : Semaphore
  lock : Option (Nat × Critical)
  threads : List Phase
  -- ghost
  (completed signals : Nat)
deriving DecidableEq, Repr

inductive Label
  | wait (t : Nat)
  | signal (t : Nat)
  | acquire (t : Nat)
  | work
  | wake (u : Option Nat)
  | futex (t : Nat)
  | interrupt (t : Nat)
deriving DecidableEq, Repr

variable (s : System)
namespace System

def init (count : Int) (n : Nat) : System :=
  { sem := { count, numWaiting := 0, futx := 0 }
    lock := none
    threads := replicate n .idle
    completed := 0
    signals := 0 }

def move (t : Nat) (p : Phase) : System := { s with threads := s.threads.set t p }

def goto (t : Nat) (c : Critical) : System := { s with lock := some (t,c) }

def entry : Phase → Option Critical
  | .waitAcquire => some .test
  | .signalAcquire => some .raise
  | .reacquire => some .unmark
  | _ => none

def work (t : Nat) (c : Critical) : System :=
  { sem := (statement s.sem c).1
    lock := (statement s.sem c).2.elim (fun d => some (t,d)) fun _ => none
    threads := (statement s.sem c).2.elim (fun _ => s.threads) fun p => s.threads.set t p
    completed := if c = .take then s.completed + 1 else s.completed
    signals := if c = .raise then s.signals + 1 else s.signals }

def next : Label → Except Unit System
  | .wait t => if s.threads[t]? = some .idle then .ok (s.move t .waitAcquire) else .error ()
  | .signal t => if s.threads[t]? = some .idle then .ok (s.move t .signalAcquire) else .error ()
  | .acquire t =>
    match s.lock, (s.threads[t]?).bind entry with
    | none, some c => .ok ((s.move t .inside).goto t c)
    | _, _ => .error ()
  | .work =>
    match s.lock with
    | some (t,c) => if c = .wake then .error () else .ok (s.work t c)
    | none => .error ()
  | .wake u =>
    match s.lock, u with
    | some (t,.wake), some u =>
      if s.threads[u]? = some .blocked then .ok ((s.move u .reacquire).work t .wake) else .error ()
    | some (t,.wake), none =>
      if .blocked ∈ s.threads then .error () else .ok (s.work t .wake)
    | _, _ => .error ()
  | .futex t =>
    if s.threads[t]? = some .futexCall then
      .ok (s.move t (if s.sem.futx = 0 then .blocked else .reacquire))
    else .error ()
  | .interrupt t =>
    if s.threads[t]? = some .blocked then .ok (s.move t .reacquire) else .error ()

abbrev Reachable (count : Int) (n : Nat) : System → Prop := Run.Reaches next (fun _ _ => True) (init count n)

end System

namespace Critical

def marked : Critical → Nat
  | .reset | .waitRelease | .unmark => 1
  | _ => 0

def onItsWay : Critical → Nat
  | .test | .unmark | .take => 1
  | _ => 0

def raised : Critical → Nat
  | .wakeTest | .setWord | .wake => 1
  | _ => 0

def unset : Critical → Nat
  | .wakeTest | .setWord => 1
  | _ => 0

def Admits (sem : Semaphore) : Critical → Prop
  | .mark | .reset | .waitRelease => sem.count ≤ 0
  | .take => 0 < sem.count
  | .wake => sem.futx ≠ 0
  | _ => True

end Critical

structure Balanced (sem : Semaphore) (f b r : Nat) (c : Option Critical) : Prop where
  admits : ∀ d ∈ c, d.Admits sem
  waiting : sem.numWaiting = (f + b + r + c.elim 0 marked : Nat)
  word : ((c.elim 0 unset : Nat) : Int) < sem.count → sem.numWaiting = 0 ∨ sem.futx ≠ 0
  supply : 0 < b → sem.count ≤ (f + r + c.elim 0 onItsWay + c.elim 0 raised : Nat)

namespace Balanced
variable {sem : Semaphore} {f b r : Nat} {c : Option Critical} {d : Critical}

theorem unset_le (c : Option Critical) : c.elim 0 unset ≤ c.elim 0 raised := by
  cases c with
  | none => exact Nat.le_refl _
  | some d => cases d <;> decide

theorem same (h : Balanced sem f b r c) (hf : f' = f) (hb : b' = b) (hr : r' = r) : Balanced sem f' b' r' c := by
  rwa [hf,hb,hr]

theorem block (h : Balanced sem f b r c) (hw : sem.futx = 0) (hf : f' + 1 = f) (hb : b' = b + 1) (hr : r' = r) :
    Balanced sem f' b' r' c := by
  have hwaiting := h.waiting
  have hunset := unset_le c
  have hle : sem.count ≤ ((c.elim 0 unset : Nat) : Int) := by
    refine Int.not_lt.mp fun hlt => ?_
    rcases h.word hlt with hzero | hset
    · omega
    · exact hset hw
  exact ⟨h.admits,by omega,h.word,fun _ => by omega⟩

theorem retry (h : Balanced sem f b r c) (hf : f' + 1 = f) (hb : b' = b) (hr : r' = r + 1) :
    Balanced sem f' b' r' c := by
  have hwaiting := h.waiting
  have hsupply := h.supply
  exact ⟨h.admits,by omega,h.word,fun _ => by omega⟩

theorem interrupt (h : Balanced sem f b r c) (hf : f' = f) (hb : b' + 1 = b) (hr : r' = r + 1) :
    Balanced sem f' b' r' c := by
  have hwaiting := h.waiting
  have hsupply := h.supply (by omega)
  exact ⟨h.admits,by omega,h.word,fun _ => by omega⟩

theorem acquire (h : Balanced sem f b r none) (hd : d = .test ∨ d = .raise) : Balanced sem f b r (some d) := by
  have hsupply := h.supply
  rcases hd with rfl | rfl
  · refine ⟨by simp [Admits],h.waiting,h.word,fun hb => ?_⟩
    have := hsupply hb
    simp only [Option.elim] at this ⊢
    omega
  · exact ⟨by simp [Admits],h.waiting,h.word,hsupply⟩

theorem reacquire (h : Balanced sem f b r none) (hf : f' = f) (hb : b' = b) (hr : r' + 1 = r) :
    Balanced sem f' b' r' (some .unmark) := by
  have hwaiting := h.waiting
  have hsupply := h.supply
  simp only [Option.elim] at hwaiting hsupply
  refine ⟨by simp [Admits],?_,h.word,fun _ => ?_⟩ <;> simp only [Option.elim,marked,onItsWay,raised] <;> omega

theorem of_some_iff : Balanced sem f b r (some d) ↔ d.Admits sem ∧ sem.numWaiting = (f + b + r + d.marked : Nat) ∧
    ((d.unset : Int) < sem.count → sem.numWaiting = 0 ∨ sem.futx ≠ 0) ∧
    (0 < b → sem.count ≤ (f + r + d.onItsWay + d.raised : Nat)) := by
  refine ⟨fun h => ⟨h.admits d rfl,h.waiting,h.word,h.supply⟩,?_⟩
  rintro ⟨ha,hw,hword,hs⟩
  refine ⟨fun e he => ?_,hw,hword,hs⟩
  cases he
  exact ha

theorem statement (h : Balanced sem f b r (some d)) (hd : d ≠ .wake) : (Semaphore.statement sem d).2.elim
      (fun e => Balanced (Semaphore.statement sem d).1 f b r (some e))
      fun p => Balanced (Semaphore.statement sem d).1 (f + if p = .futexCall then 1 else 0) b r none := by
  rw [of_some_iff] at h
  cases d with
  | test =>
    simp only [Semaphore.statement,Sum.elim_inl,of_some_iff]
    split_ifs with hlow
    · simp only [Admits,marked,unset,onItsWay,raised] at h ⊢
      omega
    · simp only [Admits,marked,unset,onItsWay,raised] at h ⊢
      omega
  | wakeTest =>
    simp only [Semaphore.statement,Sum.elim_inl,of_some_iff]
    split_ifs with hwait
    · simpa only [Admits,marked,unset,onItsWay,raised] using h
    · simp only [Admits,marked,unset,onItsWay,raised,true_and] at h ⊢
      omega
  | waitRelease | doneRelease | signalRelease =>
    obtain ⟨hallowed,hwaiting,hword,hsupply⟩ := h
    simp only [Admits,marked,unset,onItsWay,raised] at hallowed hwaiting hword hsupply
    refine ⟨by simp,?_,?_,?_⟩ <;> simp only [Semaphore.statement,if_true,if_false,reduceCtorEq,Option.elim] <;> omega
  | wake => exact absurd rfl hd
  | mark | reset | take | setWord | unmark | raise =>
    simp only [Semaphore.statement,Sum.elim_inl,of_some_iff,Admits,marked,unset,onItsWay,raised,true_and,ne_eq] at h ⊢
    omega

theorem wake (h : Balanced sem f b r (some .wake)) (hf : f' = f) (hb : b' + 1 = b) (hr : r' = r + 1) :
    Balanced sem f' b' r' (some .signalRelease) := by
  have hsupply := h.supply (by omega)
  rw [of_some_iff] at h ⊢
  simp only [Option.elim,Admits,marked,unset,onItsWay,raised,true_and] at h hsupply ⊢
  omega

theorem wake_nobody (h : Balanced sem f 0 r (some .wake)) : Balanced sem f 0 r (some .signalRelease) := by
  rw [of_some_iff] at h ⊢
  simp only [Admits,marked,unset,onItsWay,raised,true_and] at h ⊢
  omega

end Balanced

namespace System

def number (p : Phase) : Nat := s.threads.count p

structure Invariant (start : Int) (s : System) : Prop where
  ledger : s.sem.count + s.completed = start + s.signals
  floor : s.completed = 0 ∨ 0 ≤ s.sem.count
  inside : ∀ t, s.threads[t]? = some .inside ↔ ∃ c, s.lock = some (t,c)
  balanced : Balanced s.sem (s.number .futexCall) (s.number .blocked) (s.number .reacquire) (s.lock.map Prod.snd)

section
variable {start : Int} {s : System} {t : Nat} {a b : Phase} {c : Critical}

theorem number_move (h : s.threads[t]? = some a) (b p : Phase) :
    (s.move t b).number p + (if a = p then 1 else 0) = s.number p + (if b = p then 1 else 0) :=
  Roster.count_set h b p

theorem getElem?_move (h : s.threads[t]? = some a) (b : Phase) (u : Nat) :
    (s.move t b).threads[u]? = if t = u then some b else s.threads[u]? := by
  have hlt := (List.getElem?_eq_some_iff.mp h).1
  rw [move,getElem?_set,if_pos hlt]

theorem Invariant.move (hs : Invariant start s) (h : s.threads[t]? = some a) (ha : a ≠ .inside) (hb : b ≠ .inside)
    (hbal : Balanced s.sem ((s.move t b).number .futexCall) ((s.move t b).number .blocked)
      ((s.move t b).number .reacquire) (s.lock.map Prod.snd)) : Invariant start (s.move t b) := by
  refine ⟨hs.ledger,hs.floor,fun u => ?_,hbal⟩
  rw [getElem?_move h,show (s.move t b).lock = s.lock from rfl,← hs.inside u]
  split_ifs with hu
  · subst hu
    simp [h,ha,hb]
  · rfl

theorem Invariant.call (hs : Invariant start s) (h : s.threads[t]? = some .idle)
    (hb : b = .waitAcquire ∨ b = .signalAcquire) : Invariant start (s.move t b) := by
  have hn := number_move h b
  rcases hb with rfl | rfl
  · exact hs.move h (by simp) (by simp) (hs.balanced.same (hn .futexCall) (hn .blocked) (hn .reacquire))
  · exact hs.move h (by simp) (by simp) (hs.balanced.same (hn .futexCall) (hn .blocked) (hn .reacquire))

theorem Invariant.futex (hs : Invariant start s) (h : s.threads[t]? = some .futexCall) :
    Invariant start (s.move t (if s.sem.futx = 0 then .blocked else .reacquire)) := by
  split_ifs with hword
  · have hn := number_move h .blocked
    exact hs.move h (by simp) (by simp) (hs.balanced.block hword (hn .futexCall) (hn .blocked) (hn .reacquire))
  · have hn := number_move h .reacquire
    exact hs.move h (by simp) (by simp) (hs.balanced.retry (hn .futexCall) (hn .blocked) (hn .reacquire))

theorem Invariant.interrupt (hs : Invariant start s) (h : s.threads[t]? = some .blocked) :
    Invariant start (s.move t .reacquire) := by
  have hn := number_move h .reacquire
  exact hs.move h (by simp) (by simp) (hs.balanced.interrupt (hn .futexCall) (hn .blocked) (hn .reacquire))

theorem Invariant.acquire (hs : Invariant start s) (hl : s.lock = none)
    (h : s.threads[t]? = some a) (hc : entry a = some c) : Invariant start ((s.move t .inside).goto t c) := by
  have hbal := hs.balanced
  rw [hl] at hbal
  have hn := number_move h .inside
  have hnow : Balanced s.sem ((s.move t .inside).number .futexCall)
      ((s.move t .inside).number .blocked) ((s.move t .inside).number .reacquire) (some c) := by
    cases a <;> cases hc
    · exact (hbal.same (hn .futexCall) (hn .blocked) (hn .reacquire)).acquire (.inl rfl)
    · exact (hbal.same (hn .futexCall) (hn .blocked) (hn .reacquire)).acquire (.inr rfl)
    · exact hbal.reacquire (hn .futexCall) (hn .blocked) (hn .reacquire)
  refine ⟨hs.ledger,hs.floor,fun u => ?_,hnow⟩
  show (s.move t .inside).threads[u]? = some .inside ↔ ∃ d, some (t,c) = some (u,d)
  rw [getElem?_move h]
  split_ifs with hu <;> simp [*,hs.inside u]

theorem ledger_work (h : s.sem.count + s.completed = start + s.signals) (t : Nat) (c : Critical) :
    (s.work t c).sem.count + (s.work t c).completed = start + (s.work t c).signals := by
  cases c <;> simp only [work,statement,reduceCtorEq,if_true,if_false] <;> omega

theorem floor_work (h : s.completed = 0 ∨ 0 ≤ s.sem.count) (hc : c.Admits s.sem) (t : Nat) :
    (s.work t c).completed = 0 ∨ 0 ≤ (s.work t c).sem.count := by
  cases c <;> simp only [work,statement,Admits,reduceCtorEq,if_true,if_false] at hc ⊢ <;> omega

theorem statement_phase {sem : Semaphore} {p : Phase} (h : (statement sem c).2 = .inr p) :
    p = .futexCall ∨ p = .idle := by
  cases c <;> simp [statement] at h <;> simp [← h]

theorem inside_work (hi : ∀ u, s.threads[u]? = some .inside ↔ ∃ c, s.lock = some (u,c))
    (hl : s.lock = some (t,c)) (u : Nat) :
    (s.work t c).threads[u]? = some .inside ↔ ∃ d, (s.work t c).lock = some (u,d) := by
  have hin : s.threads[t]? = some .inside := (hi t).mpr ⟨c,hl⟩
  cases hk : (statement s.sem c).2 with
  | inl d =>
    simp only [work,hk,Sum.elim_inl]
    rw [hi u,hl]
    simp
  | inr p =>
    have hp : p ≠ .inside := by
      rcases statement_phase hk with rfl | rfl <;> simp
    simp only [work,hk,Sum.elim_inr]
    have hget := getElem?_move hin p u
    rw [move] at hget
    rw [hget]
    split_ifs with hu <;> simp [*]

section
variable (hs : Invariant start s)
include hs

theorem Invariant.work (hl : s.lock = some (t,c)) (hc : c ≠ .wake) : Invariant start (s.work t c) := by
  have hbal := hs.balanced
  rw [hl,map_some] at hbal
  have hin : s.threads[t]? = some .inside := (hs.inside t).mpr ⟨c,hl⟩
  refine ⟨ledger_work hs.ledger t c,floor_work hs.floor (hbal.admits c rfl) t,inside_work hs.inside hl,?_⟩
  have hstat := hbal.statement hc
  cases hk : (statement s.sem c).2 with
  | inl d => simpa only [System.work,hk,Sum.elim_inl,number,map_some] using hstat
  | inr p =>
    rw [hk,Sum.elim_inr] at hstat
    have hn := number_move hin p
    simp only [System.work,hk,Sum.elim_inr,map_none]
    rcases statement_phase hk with rfl | rfl <;> exact hstat.same (hn .futexCall) (hn .blocked) (hn .reacquire)

theorem Invariant.wake (hl : s.lock = some (t,.wake)) (hu : s.threads[u]? = some .blocked) :
    Invariant start ((s.move u .reacquire).work t .wake) := by
  have hbal := hs.balanced
  rw [hl,map_some] at hbal
  have hmoved := hs.interrupt hu
  refine ⟨ledger_work hmoved.ledger t .wake,floor_work hmoved.floor (hbal.admits .wake rfl) t,
    inside_work hmoved.inside hl,?_⟩
  have hn := number_move hu .reacquire
  exact hbal.wake (hn .futexCall) (hn .blocked) (hn .reacquire)

theorem Invariant.wake_nobody (hl : s.lock = some (t,.wake))
    (hu : .blocked ∉ s.threads) : Invariant start (s.work t .wake) := by
  have hbal := hs.balanced
  rw [hl,map_some] at hbal
  refine ⟨ledger_work hs.ledger t .wake,floor_work hs.floor (hbal.admits .wake rfl) t,inside_work hs.inside hl,?_⟩
  have hzero : s.number .blocked = 0 := count_eq_zero.mpr hu
  rw [hzero] at hbal
  have hwake := hbal.wake_nobody
  rw [← hzero] at hwake
  exact hwake

theorem Invariant.step (h : s.next l = .ok s') : Invariant start s' := by
  cases l with simp only [next] at h
  | wait t =>
    split_ifs at h with hp
    cases h
    exact hs.call hp (.inl rfl)
  | signal t =>
    split_ifs at h with hp
    cases h
    exact hs.call hp (.inr rfl)
  | acquire t =>
    split at h
    · next hl hb =>
        cases h
        obtain ⟨a,ha,hc⟩ := bind_eq_some_iff.mp hb
        exact hs.acquire hl ha hc
    · cases h
  | work =>
    split at h
    · next t c hl =>
        split_ifs at h with hc
        cases h
        exact hs.work hl hc
    · cases h
  | wake u =>
    split at h
    · next t u hl =>
        split_ifs at h with hu
        cases h
        exact hs.wake hl hu
    · next t hl =>
        split_ifs at h with hu
        cases h
        exact hs.wake_nobody hl hu
    · cases h
  | futex t =>
    by_cases hp : s.threads[t]? = some .futexCall
    · rw [if_pos hp] at h
      cases h
      exact hs.futex hp
    · rw [if_neg hp] at h
      cases h
  | interrupt t =>
    split_ifs at h with hp
    cases h
    exact hs.interrupt hp
end

theorem invariant_init (count : Int) (n : Nat) : Invariant count (init count n) := by
  have hzero : ∀ p, p ≠ .idle → (init count n).number p = 0 := by
    intro p hp
    exact count_eq_zero.mpr fun hmem => hp (eq_of_mem_replicate hmem)
  refine ⟨by simp [init],.inl rfl,fun t => ?_,?_⟩
  · constructor
    · intro ht
      have := eq_of_mem_replicate (mem_of_getElem? ht)
      cases this
    · rintro ⟨c,hc⟩
      cases hc
  · rw [hzero _ (by simp),hzero _ (by simp),hzero _ (by simp)]
    exact ⟨by simp [init],rfl,fun _ => .inl rfl,by simp⟩

theorem Reachable.invariant {count : Int} {n : Nat} (h : Reachable count n s) : Invariant count s :=
  Run.Reaches.invariant (fun _ _ _ hs _ hn => hs.step hn) (invariant_init count n) h

theorem length_next (h : s.next l = .ok s') : s'.threads.length = s.threads.length := by
  have hwork : ∀ s : System, ∀ t c, (s.work t c).threads.length = s.threads.length := by
    intro s t c
    cases hk : (statement s.sem c).2 <;> simp [work,hk]
  cases l <;> simp only [next] at h
  all_goals grind [move,goto]

theorem Reachable.length_threads {count : Int} {n : Nat} (h : Reachable count n s) : s.threads.length = n :=
  Run.Reaches.invariant (I := fun s : System => s.threads.length = n)
    (fun _ _ _ hs _ hn => (length_next hn).trans hs) length_replicate h
end

def OnItsWay : Prop :=
  .reacquire ∈ s.threads ∨ .futexCall ∈ s.threads ∧ s.sem.futx ≠ 0 ∨ (s.lock.map Prod.snd).elim 0 onItsWay = 1

def WakePending : Prop := (s.lock.map Prod.snd).elim 0 raised = 1

theorem Invariant.wakeup (hs : Invariant start s) (hc : 0 < s.sem.count) (hb : .blocked ∈ s.threads) :
    OnItsWay s ∨ WakePending s := by
  have hbal := hs.balanced
  have hsupply := hbal.supply (count_pos_iff.mpr hb)
  have honce : (s.lock.map Prod.snd).elim 0 onItsWay ≤ 1 ∧ (s.lock.map Prod.snd).elim 0 raised ≤ 1 := by
    cases s.lock with
    | none => exact ⟨zero_le _,zero_le _⟩
    | some h => cases hd : h.2 <;> simp [hd,onItsWay,raised]
  rcases Nat.eq_zero_or_pos ((s.lock.map Prod.snd).elim 0 raised) with hraised | hraised
  · refine .inl ?_
    rcases Nat.eq_zero_or_pos (s.number .reacquire) with hr | hr
    · rcases Nat.eq_zero_or_pos (s.number .futexCall) with hf | hf
      · exact .inr (.inr (by omega))
      · refine .inr (.inl ⟨count_pos_iff.mp hf,?_⟩)
        have hwaiting := hbal.waiting
        have hunset := Balanced.unset_le (s.lock.map Prod.snd)
        exact (hbal.word (by omega)).resolve_left (by omega)
    · exact .inl (count_pos_iff.mp hr)
  · exact .inr (Nat.le_antisymm honce.2 hraised)

end System

def InInt (x : Int) : Prop := -2147483648 ≤ x ∧ x ≤ 2147483647

theorem System.Invariant.numWaiting_le (hs : System.Invariant start s) : s.sem.numWaiting ≤ s.threads.length + 1 := by
  have hmarked : (s.lock.map Prod.snd).elim 0 marked ≤ 1 := by
    cases s.lock with
    | none => exact zero_le _
    | some h => cases hd : h.2 <;> simp [hd,marked]
  have hthree : s.number .futexCall + s.number .blocked + s.number .reacquire ≤ s.threads.length := by
    rw [System.number,System.number,System.number]
    induction s.threads with
    | nil => exact Nat.le_refl _
    | cons p ps ih => cases p <;> simp <;> omega
  have hwaiting := hs.balanced.waiting
  omega

theorem semaphore_safety (count : Int) (n : Nat) (s : System) (h : System.Reachable count n s)
    (hcount : -2147483648 ≤ count) (hsignals : count + s.signals ≤ 2147483647) (hn : n < 2147483647) :
    (InInt s.sem.count ∧ InInt s.sem.numWaiting) ∧ (s.completed = 0 ∨ (s.completed : Int) ≤ count + s.signals) ∧
    (0 ≤ count → 0 ≤ s.sem.count) ∧
    (0 < s.sem.count → .blocked ∈ s.threads → s.OnItsWay ∨ s.WakePending) := by
  have hs := h.invariant
  have hledger := hs.ledger
  have hfloor := hs.floor
  have hwaiting := hs.balanced.waiting
  have hmax := hs.numWaiting_le
  rw [h.length_threads] at hmax
  exact ⟨⟨⟨by omega,by omega⟩,by omega,by omega⟩,by omega,by omega,hs.wakeup⟩

def blockThenSignal : List Label := [.wait 0,.acquire 0,.work,.work,.work,.work,.futex 0,.signal 1,.acquire 1,.work]

def runFrom (count : Int) (n : Nat) (labels : List Label) : System :=
  (Run.guided System.next (fun _ _ => True) (.init count n) labels).getD (.init count n)

def afterWake : System := runFrom 0 2 (blockThenSignal ++ [.work,.work,.wake (some 0)])

theorem wakeup_follows_signal : System.Reachable 0 2 afterWake ∧
    (0 < afterWake.sem.count → .blocked ∈ afterWake.threads → afterWake.OnItsWay ∨ afterWake.WakePending) := by
  have hr : System.Reachable 0 2 afterWake := by
    unfold afterWake
    exact Run.reaches_guided (by decide)
  exact ⟨hr,(semaphore_safety 0 2 _ hr (by decide) (by decide) (by decide)).2.2.2⟩

theorem negative_start_and_unfinished_signal :
    ¬(((System.init (-1) 1).completed : Int) ≤ -1 + (System.init (-1) 1).signals) ∧
    System.Reachable 0 2 (runFrom 0 2 blockThenSignal) ∧ 0 < (runFrom 0 2 blockThenSignal).sem.count ∧
    .blocked ∈ (runFrom 0 2 blockThenSignal).threads ∧ ¬(runFrom 0 2 blockThenSignal).OnItsWay := by
  refine ⟨by decide,Run.reaches_guided (by decide),by decide,by decide,?_⟩
  unfold System.OnItsWay
  decide

end Semaphore
