import SniperSim.Library.Roster
import SniperSim.Library.Run
import SniperSim.System.ThreadManager

open Function Finset
namespace ThreadStatsManager

inductive ThreadStatType
  | instructions | elapsedNonidleTime
deriving DecidableEq, Repr

structure ThreadStats (C : Type) where
  coreId : Option C
  (timeByCore insnByCore : C → Nat)
  (elapsedTime unscheduledTime timeLast : Nat)
  (counts last : ThreadStatType → Nat)

def absent (status : CoreState) : Bool := status == .idle || status == .initializing

variable {T C : Type} [DecidableEq C]

def charge (perf : C → ThreadStatType → Nat) (delta : Nat) (s : ThreadStats C) : ThreadStats C :=
  match s.coreId with
  | none => { s with elapsedTime := s.elapsedTime + delta, unscheduledTime := s.unscheduledTime + delta }
  | some c => { s with
    elapsedTime := s.elapsedTime + delta
    timeByCore := update s.timeByCore c (s.timeByCore c + (perf c .elapsedNonidleTime - s.last .elapsedNonidleTime))
    insnByCore := update s.insnByCore c (s.insnByCore c + (perf c .instructions - s.last .instructions))
    counts := fun k => s.counts k + (perf c k - s.last k) }

def updateStats (perf : C → ThreadStatType → Nat) (status : CoreState) (core : Option C) (time : Nat) (init : Bool)
    (s : ThreadStats C) : ThreadStats C :=
  if absent status then s
  else { charge perf (if init || time < s.timeLast then 0 else time - s.timeLast) s with
    coreId := core
    last := core.elim s.last perf
    timeLast := max s.timeLast time }

structure ThreadState (C : Type) where
  status : CoreState
  core : Option C
  stats : ThreadStats C

structure System (T C : Type) where
  threads : T → ThreadState C
  perf : C → ThreadStatType → Nat

def System.initial : System T C :=
  ⟨fun _ => ⟨.initializing,none,none,fun _ => 0,fun _ => 0,0,0,0,fun _ => 0,fun _ => 0⟩,fun _ _ => 0⟩

inductive Event (T C : Type)
  | start (t : T) (time : Nat)
  | stall (t : T) (time : Nat)
  | resume (t : T) (time : Nat)
  | migrate (t : T) (core : Option C) (time : Nat)
  | exit (t : T) (time : Nat)
  | update (t : T) (time : Nat)
  | run (c : C) (growth : ThreadStatType → Nat)

variable [DecidableEq T]

def System.hook (s : System T C) (t : T) (status : CoreState) (core : Option C) (time : Nat) (init : Bool) : System T C :=
  { s with threads := update s.threads t ⟨status,core,updateStats s.perf status core time init (s.threads t).stats⟩ }

variable [Fintype T]

def System.next (s : System T C) : Event T C → Except Unit (System T C)
  | .start t time =>
    if (s.threads t).status = .initializing then
      .ok (s.hook t (if (s.threads t).core.isSome then .running else .stalled) (s.threads t).core time true)
    else .error ()
  | .stall t time =>
    if absent (s.threads t).status then .error () else .ok (s.hook t .stalled (s.threads t).core time false)
  | .resume t time =>
    if absent (s.threads t).status then .error () else .ok (s.hook t .running (s.threads t).core time false)
  | .migrate t core time =>
    if ∀ u ≠ t, ∀ c ∈ core, (s.threads u).core ≠ some c then .ok (s.hook t (s.threads t).status core time false)
    else .error ()
  | .exit t time => if (s.threads t).status = .running then .ok (s.hook t .idle none time false) else .error ()
  | .update t time => .ok (s.hook t (s.threads t).status (s.threads t).core time false)
  | .run c growth => .ok { s with perf := update s.perf c fun k => s.perf c k + growth k }

variable [Fintype C] {s : System T C} {t : T} {status : CoreState} {core : Option C} {time : Nat} {init : Bool}

def System.insns (s : System T C) (c : C) : Nat := ∑ t, (s.threads t).stats.insnByCore c

structure Summed (x : ThreadStats C) : Prop where
  insns : ∑ c, x.insnByCore c = x.counts .instructions
  times : ∑ c, x.timeByCore c = x.counts .elapsedNonidleTime

structure Tracked (s : System T C) (r : ThreadState C) : Prop where
  summed : Summed r.stats
  fresh : r.status = .initializing → r.stats.coreId = none
  seated : absent r.status = false → r.stats.coreId = r.core
  snapshot : absent r.status = false → ∀ c, r.core = some c →
    s.insns c ≤ r.stats.last .instructions ∧ r.stats.last .instructions ≤ s.perf c .instructions

structure Inv (s : System T C) : Prop where
  tracked : ∀ t, Tracked s (s.threads t)
  apart : ∀ t u c, (s.threads t).core = some c → (s.threads u).core = some c → t = u
  bound : ∀ c, s.insns c ≤ s.perf c .instructions

theorem Summed.updateStats (h : Summed x) (perf : C → ThreadStatType → Nat) :
    Summed (updateStats perf status core time init x) := by
  rw [ThreadStatsManager.updateStats]
  split
  · exact h
  rw [charge]
  split
  · exact { h with }
  · exact ⟨by simp [sum_update_add,h.insns],by simp [sum_update_add,h.times]⟩

omit [DecidableEq T] in
theorem Inv.charged (h : Inv s) (c : C)
    (ha : absent status = false → (s.threads t).status = .initializing ∨ absent (s.threads t).status = false) :
    ∃ pay, (updateStats s.perf status core time init (s.threads t).stats).insnByCore c =
        (s.threads t).stats.insnByCore c + pay ∧
      s.insns c + pay ≤ s.perf c .instructions ∧ (pay = 0 ∨ (s.threads t).core = some c) := by
  have ht := h.tracked t
  rw [updateStats]
  split
  · exact ⟨0,rfl,h.bound c,.inl rfl⟩
  rw [charge]
  split
  · exact ⟨0,rfl,h.bound c,.inl rfl⟩
  · next hst _ d hd =>
    have hs := (ha (by simpa using hst)).resolve_left fun hi => by simp [ht.fresh hi] at hd
    have hcore := (ht.seated hs).symm.trans hd
    rcases eq_or_ne c d with rfl | hne
    · have hsnap := ht.snapshot hs c hcore
      exact ⟨_,update_self ..,by omega,.inr hcore⟩
    · exact ⟨0,update_of_ne hne ..,h.bound c,.inl rfl⟩

omit [Fintype C] in
theorem insns_hook (h : (updateStats s.perf status core time init (s.threads t).stats).insnByCore c =
    (s.threads t).stats.insnByCore c + pay) : (s.hook t status core time init).insns c = s.insns c + pay := by
  rw [System.insns,System.insns,← sum_update_add (mem_univ t)]
  refine sum_congr rfl fun u _ => ?_
  rcases eq_or_ne u t with rfl | hu <;> simp [*,System.hook]

theorem Inv.hook (h : Inv s) (hfree : ∀ u ≠ t, ∀ c ∈ core, (s.threads u).core ≠ some c)
    (ha : absent status = false → (s.threads t).status = .initializing ∨ absent (s.threads t).status = false)
    (hi : status = .initializing → (s.threads t).status = .initializing) : Inv (s.hook t status core time init) := by
  have htotal c : (s.hook t status core time init).insns c ≤ s.perf c .instructions ∧
      ∀ u ≠ t, (s.threads u).core = some c → (s.hook t status core time init).insns c = s.insns c := by
    obtain ⟨pay,hx,hle,hpay⟩ := h.charged c ha
    refine ⟨(insns_hook hx).trans_le hle,fun u hu hc => ?_⟩
    rw [insns_hook hx,hpay.resolve_right fun ht => hu (h.apart u t c hc ht),Nat.add_zero]
  have ht := h.tracked t
  refine ⟨(forall_update_iff ..).mpr ⟨⟨ht.summed.updateStats s.perf,?_,?_,?_⟩,fun u hu => ?_⟩,
    fun u v c hu hv => ?_,fun c => (htotal c).1⟩
  · rintro rfl
    exact ht.fresh (hi rfl)
  · intro (hs : absent status = false)
    simp [updateStats,hs]
  · intro (hs : absent status = false) c (hc : core = some c)
    have hlast : (updateStats s.perf status core time init (s.threads t).stats).last = s.perf c := by
      simp [updateStats,hs,hc]
    rw [hlast]
    exact ⟨(htotal c).1,le_rfl⟩
  · have hu' := h.tracked u
    exact { hu' with snapshot := fun hs c hc => (htotal c).2 u hu hc ▸ hu'.snapshot hs c hc }
  · simp only [System.hook,update_apply] at hu hv
    split_ifs at hu hv with hut hvt hvt
    · rw [hut,hvt]
    · exact absurd hv (hfree v hvt c hu)
    · exact absurd hu (hfree u hut c hv)
    · exact h.apart u v c hu hv

omit [DecidableEq T] in
theorem Inv.run (h : Inv s) (c : C) (growth : ThreadStatType → Nat) :
    Inv { s with perf := update s.perf c fun k => s.perf c k + growth k } := by
  have hle d k : s.perf d k ≤ update s.perf c (fun k => s.perf c k + growth k) d k := by
    rcases eq_or_ne d c with rfl | hd <;> simp [*]
  refine { h with bound := fun d => (h.bound d).trans (hle d _), tracked := fun t => ?_ }
  have ht := h.tracked t
  exact { ht with snapshot := fun hs d hd => (ht.snapshot hs d hd).imp_right (·.trans (hle d _)) }

theorem Inv.next (h : Inv s) (hn : s.next e = .ok s') : Inv s' := by
  have hown t u (hu : u ≠ t) c (hc : c ∈ (s.threads t).core) (hc' : (s.threads u).core = some c) : False :=
    hu (h.apart u t c hc' hc)
  cases e with
  | run c growth =>
    cases hn
    exact h.run c growth
  | update t time =>
    cases hn
    exact h.hook (hown t) .inr id
  | start t time =>
    rw [System.next] at hn
    split at hn
    · next hg =>
      cases hn
      exact h.hook (hown t) (fun _ => .inl hg) fun _ => hg
    · cases hn
  | stall t time | resume t time =>
    rw [System.next] at hn
    split at hn
    · cases hn
    · next hg =>
      cases hn
      exact h.hook (hown t) (fun _ => .inr (by simpa using hg)) (by simp)
  | migrate t core time =>
    rw [System.next] at hn
    split at hn
    · next hg =>
      cases hn
      exact h.hook hg .inr id
    · cases hn
  | exit t time =>
    rw [System.next] at hn
    split at hn
    · cases hn
      exact h.hook (by simp) (by simp [absent]) (by simp)
    · cases hn

omit [DecidableEq C] [DecidableEq T] in
theorem Inv.initial : Inv (System.initial : System T C) := by
  refine ⟨fun _ => ⟨⟨?_,?_⟩,?_,?_,?_⟩,?_,?_⟩ <;> simp [System.initial,System.insns,absent]

theorem thread_stats_add_up (h : Run.Reaches System.next (fun _ _ => True) System.initial s) :
    (∀ t, ∑ c, (s.threads t).stats.insnByCore c = (s.threads t).stats.counts .instructions ∧
      ∑ c, (s.threads t).stats.timeByCore c = (s.threads t).stats.counts .elapsedNonidleTime) ∧
    ∀ c, ∑ t, (s.threads t).stats.insnByCore c ≤ s.perf c .instructions := by
  have hinv : Inv s := h.invariant (fun _ _ _ hi _ hn => hi.next hn) .initial
  exact ⟨fun t => ⟨(hinv.tracked t).summed.insns,(hinv.tracked t).summed.times⟩,hinv.bound⟩

def handover : List (Event Bool Bool) :=
  [.migrate false (some false) 0,.start false 0,.start true 0,.run false fun _ => 5,.migrate false (some true) 5,
    .migrate true (some false) 5,.run false fun _ => 7,.run true fun _ => 2,.update false 9,.update true 9]

def handedOver : System Bool Bool := (Run.guided System.next (fun _ _ => True) .initial handover).getD .initial

theorem handover_adds_up : ∑ t, (handedOver.threads t).stats.insnByCore false ≤ handedOver.perf false .instructions :=
  (thread_stats_add_up (Run.reaches_guided (by decide))).2 false

end ThreadStatsManager
