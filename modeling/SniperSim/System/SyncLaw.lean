import SniperSim.System.SyncSafety

open List Option Function
namespace SyncServer
variable {s : SyncServer} {t : ThreadId} {b : Nat} {cost time : SubsecondTime}

theorem Move.barriers_same (h : Move false s s') :
    s'.barriers = s.barriers ∧ s'.arrived = s.arrived ∧ s'.released = s.released := by
  cases h with
  | know m =>
    unfold getMutex
    split_ifs <;> exact ⟨rfl,rfl,rfl⟩
  | knowCond c =>
    unfold getCond
    split_ifs <;> exact ⟨rfl,rfl,rfl⟩
  | create hg | note hg | arrive hg | letGo hg => cases hg
  | @finish cost _ t k h => cases k <;> exact ⟨rfl,rfl,rfl⟩
  | _ => exact ⟨rfl,rfl,rfl⟩

theorem Moves.barriers_same (h : Moves false s s') :
    s'.barriers = s.barriers ∧ s'.arrived = s.arrived ∧ s'.released = s.released := by
  induction h with
  | refl => exact ⟨rfl,rfl,rfl⟩
  | tail _ hm ih =>
    obtain ⟨hb,ha,hr⟩ := hm.barriers_same
    exact ⟨hb.trans ih.1,ha.trans ih.2.1,hr.trans ih.2.2⟩

theorem releaseAll_barriers (b : Nat) (time : SubsecondTime) (count : BitVec 32)
    (q : List ThreadId) (s : SyncServer) (h : s.barriers[b]? = some ⟨q,count⟩) :
    (releaseAll b time q.length s).barriers = s.barriers.set b ⟨[],count⟩ ∧
      (releaseAll b time q.length s).arrived = s.arrived ∧ (releaseAll b time q.length s).released = s.released := by
  obtain ⟨hb,hget⟩ := List.getElem?_eq_some_iff.mp h
  induction q generalizing s with
  | nil =>
    refine ⟨?_,rfl,rfl⟩
    rw [← hget,set_getElem_self]
    rfl
  | cons w q ih =>
    have hset : ((s.setBarrier b ⟨q,count⟩).resumeThread w time).barriers = s.barriers.set b ⟨q,count⟩ := rfl
    have hnext : ((s.setBarrier b ⟨q,count⟩).resumeThread w time).barriers[b]? = some ⟨q,count⟩ := by
      rw [hset,getElem?_set_self hb]
    obtain ⟨hb',hget'⟩ := List.getElem?_eq_some_iff.mp hnext
    obtain ⟨h1,h2,h3⟩ := ih _ hnext hb' hget'
    rw [length_cons,releaseAll,h]
    refine ⟨?_,h2,h3⟩
    rw [h1,hset,set_set]

structure Group (x : SimBarrier) (arrived : List ThreadId) (released : List (List ThreadId)) : Prop where
  order : arrived = released.flatten ++ x.waiting
  size : ∀ g ∈ released, g.length = x.count.toNat
  filling : x.waiting.length < x.count.toNat

namespace Group
variable {x : SimBarrier} {arrived : List ThreadId} {released : List (List ThreadId)}

theorem last (h : Group x arrived released) (hx : x.waiting.length = (x.count - 1).toNat)
    (t : ThreadId) : Group ⟨[],x.count⟩ (arrived ++ [t]) (released ++ [x.waiting ++ [t]]) := by
  have hpos := Nat.lt_of_le_of_lt (Nat.zero_le _) h.filling
  refine ⟨by simp [h.order],fun g hg => ?_,hpos⟩
  rcases mem_append.mp hg with hg | hg
  · exact h.size g hg
  · rw [mem_singleton.mp hg,length_append,hx]
    simp only [length_singleton]
    bv_omega

theorem join (h : Group x arrived released) (hx : x.waiting.length ≠ (x.count - 1).toNat)
    (t : ThreadId) : Group { x with waiting := x.waiting ++ [t] } (arrived ++ [t]) released := by
  refine ⟨by simp [h.order],h.size,?_⟩
  have hlt := h.filling
  simp only [length_append,length_singleton]
  have hc : (x.count - 1).toNat = x.count.toNat - 1 := by bv_omega
  omega

end Group

structure Grouped (s : SyncServer) : Prop where
  group : ∀ b x, s.barriers[b]? = some x → 1 ≤ x.count.toNat → Group x (s.arrived b) (s.released b)
  unused : ∀ b, s.barriers.length ≤ b → s.arrived b = [] ∧ s.released b = []

namespace Grouped

theorem barrierInit (h : Grouped s) (count : BitVec 32) : Grouped (s.barrierInit count).1 := by
  refine ⟨fun b x hb hx => ?_,fun b hb => ?_⟩
  · change (s.barriers ++ [⟨[],count⟩])[b]? = some x at hb
    rcases Nat.lt_or_ge b s.barriers.length with hlt | hge
    · rw [getElem?_append_left hlt] at hb
      exact h.group b x hb hx
    · obtain ⟨ha,hr⟩ := h.unused b hge
      have hx' : x = ⟨[],count⟩ := by
        rw [getElem?_append_right hge] at hb
        exact mem_singleton.mp (mem_of_getElem? hb)
      subst hx'
      change Group _ (s.arrived b) (s.released b)
      rw [ha,hr]
      exact ⟨rfl,by simp,hx⟩
  · refine h.unused b ?_
    change (s.barriers ++ [_]).length ≤ b at hb
    rw [length_append] at hb
    omega

theorem update {x y : SimBarrier} {arrived : List ThreadId} {released : List (List ThreadId)}
    (h : Grouped s) (hb : s.barriers[b]? = some x) (hs : s'.barriers = s.barriers.set b y)
    (ha : s'.arrived = Function.update s.arrived b arrived) (hr : s'.released = Function.update s.released b released)
    (hy : 1 ≤ y.count.toNat → Group y arrived released) : Grouped s' := by
  obtain ⟨hlt,-⟩ := List.getElem?_eq_some_iff.mp hb
  refine ⟨fun b' z hz hc => ?_,fun b' hb' => ?_⟩
  · rw [hs] at hz
    rw [ha,hr]
    rcases eq_or_ne b' b with rfl | hne
    · rw [getElem?_set_self hlt] at hz
      cases hz
      simpa using hy hc
    · rw [getElem?_set_ne hne.symm] at hz
      simpa [hne] using h.group b' z hz hc
  · rw [hs,length_set] at hb'
    have hne : b' ≠ b := by omega
    rw [ha,hr]
    simpa [hne] using h.unused b' hb'

theorem barrierWait {r : SyncServer × Option SubsecondTime} (h : Grouped s)
    (hw : s.barrierWait t b time = .ok r) : Grouped r.1 := by
  rw [SyncServer.barrierWait] at hw
  split at hw
  · cases hw
  · next x hb =>
    split_ifs at hw with hx
    · cases hw
      obtain ⟨h1,h2,h3⟩ := releaseAll_barriers b time x.count x.waiting { s with
          arrived := Function.update s.arrived b (s.arrived b ++ [t])
          released := Function.update s.released b (s.released b ++ [x.waiting ++ [t]]) } hb
      exact h.update hb h1 h2 h3 fun hc => (h.group b x hb hc).last hx t
    · cases hw
      exact h.update hb rfl rfl (update_eq_self b s.released).symm fun hc => (h.group b x hb hc).join hx t

theorem moves (h : Grouped s) (hm : Moves false s s') : Grouped s' := by
  obtain ⟨hb,ha,hr⟩ := hm.barriers_same
  refine ⟨fun b x hx hc => ?_,fun b hl => ?_⟩
  · rw [hb] at hx
    rw [ha,hr]
    exact h.group b x hx hc
  · rw [hb] at hl
    rw [ha,hr]
    exact h.unused b hl

theorem step (h : Grouped s) (hs : step cost s l = .ok s') : Grouped s' := by
  cases hg : l.onBarrier with
  | false =>
    have hm := step_moves hs
    rw [hg] at hm
    exact h.moves hm
  | true =>
    cases l with
    | call t op time =>
      rw [SyncServer.step] at hs
      split_ifs at hs
      cases op with
      | barrierInit count =>
        cases hs
        exact h.barrierInit count
      | barrierWait b =>
        obtain ⟨r,hr,rfl⟩ := Outcome.map_ok hs
        exact h.barrierWait hr
      | _ => cases hg
    | _ => cases hg

theorem init : Grouped SyncServer.init := ⟨fun _ _ hb => (by cases hb),fun _ _ => ⟨rfl,rfl⟩⟩

end Grouped

theorem Orderly.stalled_at_barrier (h : Orderly s) (hb : s.barriers[b]? = some x)
    (hp : (s.threads.thread t).control.pending = some (.barrier b)) :
    SyncStalled (s.threads.thread t) ↔ t ∈ x.waiting := by
  have hq : s.queue (.barrier b) = x.waiting := barrierQueue_of_some hb
  constructor
  · intro hs
    obtain ⟨i,hi⟩ := (h.seats.parked.mem_iff t).mp hs
    obtain ⟨k,hk,ha⟩ := h.seats.waits i t hi
    obtain rfl := some.inj (hp.symm.trans hk)
    cases i with
    | mutex m | cond c => exact ha.elim
    | barrier b' =>
      obtain rfl : b = b' := ha
      exact hq ▸ hi
  · intro hx
    exact h.seats.parked.of_mem (hq ▸ hx)

theorem synchronisation_law (cost : SubsecondTime) {s : SyncServer} (hs : Reachable cost s) :
    (∀ m t u, t ∈ s.held m → u ∈ s.held m → t = u) ∧ (∀ t, (SyncStalled (s.threads.thread t) ↔
          ∃ i, (s.queue i).count t = 1 ∧ ∀ j, j ≠ i → t ∉ s.queue j) ∧
        (¬ SyncStalled (s.threads.thread t) → ∀ i, t ∉ s.queue i)) ∧
      (∀ m, (s.mutex m).waiting ≠ [] → (s.mutex m).owner ≠ none) ∧
      (∀ m, s.queued m = s.granted m ++ (s.mutex m).waiting) ∧ ∀ b x, s.barriers[b]? = some x → 1 ≤ x.count.toNat →
        s.arrived b = (s.released b).flatten ++ x.waiting ∧
        (∀ g ∈ s.released b, g.length = x.count.toNat) ∧ x.waiting.length < x.count.toNat ∧
        ∀ t, (s.threads.thread t).control.pending = some (.barrier b) →
          (SyncStalled (s.threads.thread t) ↔ t ∈ x.waiting) := by
  have h := hs.invariant Orderly.init fun _ _ _ hm => Orderly.move hm
  refine ⟨fun m t u ht hu => ?_,fun t => ⟨h.seats.parked.exactly_once,h.seats.parked.notMem⟩,
    fun m => (h.ledger m).owned,fun m => (h.ledger m).fifo,fun b x hb hx => ?_⟩
  · have ho := (h.ledger m).exclusive t ht
    rw [(h.ledger m).exclusive u hu] at ho
    exact (some.inj ho).symm
  · have hg := (Run.Reaches.invariant (fun _ _ _ hs _ hn => hs.step hn) Grouped.init hs).group b x hb hx
    exact ⟨hg.order,hg.size,hg.filling,fun t => h.stalled_at_barrier hb⟩

def runFrom (cost : SubsecondTime) (ls : List SyncLabel) : SyncServer :=
  (Run.guided (step cost) (fun _ _ => True) init ls).getD init

def startThreads : Nat → List SyncLabel
  | 0 => []
  | n + 1 => startThreads n ++ [.env .create,.env (.start n true)]

def signalledWaiter : List SyncLabel :=
  startThreads 4 ++ [.call 2 (.mutexLock 8 false) 0,.call 2 (.condWait 16 8) 0,.settle 2,
    .call 1 (.mutexLock 8 false) 0,.call 1 (.condSignal 16) 0,.call 0 (.barrierInit 2) 0,
    .call 0 (.barrierWait 0) 0,.settle 0,.call 3 (.barrierWait 0) 0]

theorem signalled_waiter_is_queued : SyncStalled ((runFrom 0 signalledWaiter).threads.thread 2) ∧
      (∃ i, ((runFrom 0 signalledWaiter).queue i).count 2 = 1 ∧ ∀ j, j ≠ i → 2 ∉ (runFrom 0 signalledWaiter).queue j) ∧
      ((runFrom 0 signalledWaiter).mutex 8).waiting = [2] ∧ (runFrom 0 signalledWaiter).held 8 = [1] ∧
      (runFrom 0 signalledWaiter).released 0 = [[0,3]] := by
  have hs : SyncStalled ((runFrom 0 signalledWaiter).threads.thread 2) := by decide
  have hlaw := synchronisation_law 0 (Run.reaches_guided (by decide) : Reachable 0 (runFrom 0 signalledWaiter))
  exact ⟨hs,(hlaw.2.1 2).1.mp hs,by decide,by decide,by decide⟩

structure TryLocks (s : SyncServer) (t : ThreadId) (m : SyncAddress)
    (r : SyncServer × Option (SubsecondTime × Bool)) : Prop where
  returns : r.2.isSome
  running : r.1.threads = s.threads
  acquires : ∀ e, r.2 = some (e,true) → s.owner m ≠ some t ∧ r.1.owner m = some t

theorem tryLock_returns_iff (cost time : SubsecondTime) (s : SyncServer) (t : ThreadId) (m : SyncAddress) :
    TryLocks s t m (mutexLock cost s t m true time) ↔ s.owner m ≠ some t := by
  have hm : (s.getMutex m).mutex m = s.mutex m := by rw [mutex_getMutex]
  have ht : (s.getMutex m).threads = s.threads := by
    unfold getMutex
    split_ifs <;> rfl
  simp only [mutexLock,lock,hm,SimMutex.isLocked]
  cases ho : (s.mutex m).owner with
  | none =>
    have hn : s.owner m ≠ some t := by rw [owner,ho]; simp
    refine ⟨fun _ => hn,fun _ => ⟨rfl,ht,fun _ _ => ⟨hn,?_⟩⟩⟩
    exact (congrFun (owner_setMutex _) m).trans (update_self ..)
  | some o =>
    by_cases hot : o = t
    · refine ⟨fun h => ?_,fun h => absurd (ho.trans (congrArg some hot)) h⟩
      simpa [hot] using h.returns
    · refine ⟨fun _ => by simpa [owner,ho] using hot,fun _ => ?_⟩
      simpa [hot] using TryLocks.mk rfl ht (by simp)

def firstLock : List SyncLabel := startThreads 2 ++ [.call 1 (.mutexLock 8 false) 0]

theorem owner_stalls_in_tryLock : Reachable 0 (runFrom 0 firstLock) ∧
    ¬ TryLocks (runFrom 0 firstLock) 1 8 (mutexLock 0 (runFrom 0 firstLock) 1 8 true 0) ∧
      SyncStalled ((mutexLock 0 (runFrom 0 firstLock) 1 8 true 0).1.threads.thread 1) := by
  have hr : Reachable 0 (runFrom 0 firstLock) := Run.reaches_guided (by decide)
  refine ⟨hr,fun h => ?_,by decide⟩
  exact absurd h.returns (by decide)

end SyncServer
