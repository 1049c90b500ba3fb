import SniperSim.Library.ExceptSpec
import SniperSim.System.SyncServer
import Mathlib.Logic.Relation

open Function List

inductive SyncQueue
  | mutex (m : SyncAddress)
  | cond (c : SyncAddress)
  | barrier (b : Nat)
deriving DecidableEq, Repr

def SyncOp.onBarrier : SyncOp → Bool
  | .barrierInit _ | .barrierWait _ => true
  | _ => false

def SyncLabel.onBarrier : SyncLabel → Bool
  | .call _ op _ => op.onBarrier
  | _ => false

variable (x : SimMutex) (q : List CondWaiter)
namespace SyncServer
open ThreadManager
variable {s : SyncServer} {t : ThreadId} {m c : SyncAddress} {b : Nat} {cost time : SubsecondTime} {w : CondWaiter}
  {g : Bool}

def barrierQueue (s : SyncServer) (b : Nat) : List ThreadId :=
  match s.barriers[b]? with
  | some x => x.waiting
  | none => []

def queue (s : SyncServer) : SyncQueue → List ThreadId
  | .mutex m => (s.mutex m).waiting
  | .cond c => (s.cond c).map (·.threadId)
  | .barrier b => s.barrierQueue b

@[simp] theorem mutex_setMutex_self : (s.setMutex m x).mutex m = x := by
  simp [mutex,setMutex]

@[simp] theorem mutex_setMutex_of_ne (h : m' ≠ m) : (s.setMutex m x).mutex m' = s.mutex m' := by
  simp [mutex,setMutex,h]

@[simp] theorem cond_setCond_self : (s.setCond c q).cond c = q := by
  simp [cond,setCond]

@[simp] theorem cond_setCond_of_ne (h : c' ≠ c) : (s.setCond c q).cond c' = s.cond c' := by
  simp [cond,setCond,h]

theorem queue_setMutex : (s.setMutex m x).queue = update s.queue (.mutex m) x.waiting := by
  funext i
  cases i with
  | mutex m' =>
    rcases eq_or_ne m' m with rfl | h
    · simp [queue]
    · simp [queue,h]
  | cond c | barrier b => rfl

theorem queue_setCond : (s.setCond c q).queue = update s.queue (.cond c) (q.map (·.threadId)) := by
  funext i
  cases i with
  | mutex m => rfl
  | cond c' =>
    rcases eq_or_ne c' c with rfl | h
    · simp [queue]
    · simp [queue,h]
  | barrier b => rfl

theorem barrierQueue_of_some {x : SimBarrier} (h : s.barriers[b]? = some x) : s.barrierQueue b = x.waiting := by
  simp [barrierQueue,h]

theorem queue_setBarrier {x y : SimBarrier} (h : s.barriers[b]? = some y) :
    (s.setBarrier b x).queue = update s.queue (.barrier b) x.waiting := by
  obtain ⟨hb,-⟩ := List.getElem?_eq_some_iff.mp h
  funext i
  cases i with
  | mutex m | cond c => rfl
  | barrier b' =>
    rcases eq_or_ne b' b with rfl | hne
    · simp [queue,barrierQueue,setBarrier,getElem?_set_self hb]
    · simp [queue,barrierQueue,setBarrier,hne,getElem?_set_ne hne.symm]

theorem queue_barrierInit (count : BitVec 32) : (s.barrierInit count).1.queue = s.queue := by
  funext i
  cases i with
  | mutex m | cond c => rfl
  | barrier b =>
    simp only [queue,barrierQueue,barrierInit]
    rcases Nat.lt_trichotomy b s.barriers.length with h | rfl | h
    · rw [getElem?_append_left h]
    · simp
    · rw [getElem?_eq_none (by simp; omega),getElem?_eq_none (by omega)]

@[simp] theorem mutex_getMutex : (s.getMutex m).mutex = s.mutex := by
  unfold getMutex
  split_ifs with h
  · rfl
  · funext m'
    rcases eq_or_ne m' m with rfl | hne
    · rw [mutex_setMutex_self,mutex,Option.not_isSome_iff_eq_none.mp h]
      rfl
    · exact mutex_setMutex_of_ne _ hne

@[simp] theorem cond_getCond : (s.getCond c).cond = s.cond := by
  unfold getCond
  split_ifs with h
  · rfl
  · funext c'
    rcases eq_or_ne c' c with rfl | hne
    · rw [cond_setCond_self,cond,Option.not_isSome_iff_eq_none.mp h]
      rfl
    · exact cond_setCond_of_ne _ hne

@[simp] theorem threads_getMutex : (s.getMutex m).threads = s.threads := by
  unfold getMutex
  split_ifs <;> rfl

@[simp] theorem threads_getCond : (s.getCond c).threads = s.threads := by
  unfold getCond
  split_ifs <;> rfl

inductive Move (g : Bool) : SyncServer → SyncServer → Prop
  | know (s : SyncServer) (m : SyncAddress) : Move g s (s.getMutex m)
  | knowCond (s : SyncServer) (c : SyncAddress) : Move g s (s.getCond c)
  | take {s : SyncServer} {t : ThreadId} {m : SyncAddress} (h : (s.threads.thread t).Callable)
      (ho : (s.mutex m).owner = none) : Move g s ((s.setMutex m { s.mutex m with owner := some t }).acquire t m)
  | enqueue {s : SyncServer} {t o : ThreadId} {m : SyncAddress} (h : (s.threads.thread t).Callable)
      (ho : (s.mutex m).owner = some o) : Move g s ((s.pushWaiter t m).stallThread t .mutex (.lock m))
  | free {s : SyncServer} {t : ThreadId} {m : SyncAddress} (h : (s.threads.thread t).Callable)
      (ho : (s.mutex m).owner = some t) (hq : (s.mutex m).waiting = []) :
      Move g s ((s.setMutex m { s.mutex m with owner := none }).yield t m)
  | handOver {s : SyncServer} {t w : ThreadId} {q : List ThreadId} {m : SyncAddress}
      (h : (s.threads.thread t).Callable) (ho : (s.mutex m).owner = some t)
      (hq : (s.mutex m).waiting = w :: q) (time : SubsecondTime) : Move g s (({ (s.setMutex m ⟨q,some w⟩).yield t m with
        granted := update s.granted m (s.granted m ++ [w]) } : SyncServer).resumeThread w time)
  | park {s : SyncServer} {t : ThreadId} (h : (s.threads.thread t).Callable) (c m : SyncAddress) :
      Move g s ((s.setCond c (s.cond c ++ [⟨t,m⟩])).stallThread t .cond (.cond m))
  | grant {s : SyncServer} {c : SyncAddress} {w : CondWaiter} {q : List CondWaiter}
      (hq : s.cond c = w :: q) (ho : (s.mutex w.mutex).owner = none) (time : SubsecondTime) :
      Move g s (((s.setCond c q).setMutex w.mutex
        { s.mutex w.mutex with owner := some w.threadId }).resumeThread w.threadId time)
  | shift {s : SyncServer} {o : ThreadId} {c : SyncAddress} {w : CondWaiter} {q : List CondWaiter}
      (hq : s.cond c = w :: q) (ho : (s.mutex w.mutex).owner = some o) :
      Move g s ((s.setCond c q).pushWaiter w.threadId w.mutex)
  | create (hg : g) (s : SyncServer) (count : BitVec 32) : Move g s (s.barrierInit count).1
  | note (hg : g) (s : SyncServer) (arrived : Nat → List ThreadId)
      (released : Nat → List (List ThreadId)) : Move g s { s with arrived := arrived, released := released }
  | arrive (hg : g) {s : SyncServer} {t : ThreadId} {b : Nat} {x : SimBarrier}
      (h : (s.threads.thread t).Callable) (hb : s.barriers[b]? = some x) :
      Move g s ((s.setBarrier b { x with waiting := x.waiting ++ [t] }).stallThread t .barrier (.barrier b))
  | letGo (hg : g) {s : SyncServer} {b : Nat} {w : ThreadId} {q : List ThreadId}
      {count : BitVec 32} (hb : s.barriers[b]? = some ⟨w :: q,count⟩) (time : SubsecondTime) :
      Move g s ((s.setBarrier b ⟨q,count⟩).resumeThread w time)
  | block {s : SyncServer} {t : ThreadId} {k : SyncCall}
      (h : (s.threads.thread t).control = .stalling k)
      (hr : (s.threads.thread t).status ≠ .running) : Move g s { s with threads := s.threads.wait t k }
  | finish (cost : SubsecondTime) {s : SyncServer} {t : ThreadId} {k : SyncCall}
      (h : (s.threads.thread t).control = .stalling k ∧ (s.threads.thread t).status = .running ∨
        (s.threads.thread t).control = .signalled k) : Move g s (finish cost s t k).1
  | env {s : SyncServer} {e : EnvLabel} {threads : ThreadManager SyncCall}
      (h : s.threads.envStep own .other e = some threads) : Move g s { s with threads := threads }

abbrev Moves (g : Bool) : SyncServer → SyncServer → Prop := Relation.ReflTransGen (Move g)

theorem lock_moves (hc : (s.threads.thread t).Callable) (m : SyncAddress) (time : SubsecondTime) :
    Moves g s (s.lock t m time).1 := by
  unfold lock
  split
  · next ho => exact .single (.take hc ho)
  · next o ho => exact .single (.enqueue hc ho)

theorem unlock_moves (hc : (s.threads.thread t).Callable) (h : s.unlock t m time = .ok r) : Moves g s r.1 := by
  unfold unlock at h
  split_ifs at h with ho
  split at h
  · next hq =>
    cases h
    exact .single (.free hc ho hq)
  · next w q hq =>
    cases h
    exact .single (.handOver hc ho hq time)

theorem wake_moves {q : List CondWaiter} (hq : s.cond c = w :: q) (time : SubsecondTime) :
    Moves g s ((s.setCond c q).lockAsync w.threadId w.mutex time).1 := by
  unfold lockAsync
  split
  · next ho => exact .single (.grant hq ho time)
  · next o ho => exact .single (.shift hq ho)

theorem signal_moves (s : SyncServer) (c : SyncAddress) (time : SubsecondTime) : Moves g s (s.signal c time).1 := by
  unfold signal
  split
  · exact .refl
  · next w q hq => exact wake_moves hq time

theorem broadcast_moves (c : SyncAddress) (time : SubsecondTime) (n : Nat) (s : SyncServer) :
    Moves g s (broadcast c time n s) := by
  induction n generalizing s with
  | zero => exact .refl
  | succ n ih =>
    rw [broadcast]
    split
    · exact .refl
    · next w q hq => exact (wake_moves hq time).trans (ih _)

theorem releaseAll_moves (b : Nat) (time : SubsecondTime) (n : Nat) (s : SyncServer) :
    Moves true s (releaseAll b time n s) := by
  induction n generalizing s with
  | zero => exact .refl
  | succ n ih =>
    rw [releaseAll]
    split
    · next w q count hb => exact .head (.letGo rfl hb time) (ih _)
    · exact .refl

section
variable (hc : (s.threads.thread t).Callable)
include hc

theorem unlock_thread (h : s.unlock t m time = .ok r) : (r.1.threads.thread t).Callable := by
  unfold unlock at h
  split_ifs at h with ho
  split at h
  · cases h
    exact hc
  · next w q hq =>
    cases h
    change ((s.threads.resumeThread w time false).thread t).Callable
    rcases eq_or_ne t w with rfl | hne
    · rw [resumeThread_self]
      exact ⟨rfl,by simp [Thread.signal,hc.2,Control.signal]⟩
    · rwa [resumeThread_of_ne hne]

theorem condWait_moves (h : s.condWait t c m time = .ok s') : Moves g s s' := by
  obtain ⟨r,hr,rfl⟩ := Outcome.map_ok h
  have hc' : (((s.getMutex m).getCond c).threads.thread t).Callable := by simpa using hc
  have hk : Moves g s ((s.getMutex m).getCond c) := .head (.know s m) (.single (.knowCond _ c))
  exact (hk.trans (unlock_moves hc' hr)).tail (.park (unlock_thread hc' hr) c m)

theorem barrierWait_moves (h : s.barrierWait t b time = .ok r) : Moves true s r.1 := by
  unfold barrierWait at h
  split at h
  · cases h
  · next x hb =>
    split_ifs at h
    · cases h
      exact .head (.note rfl s _ _) (releaseAll_moves b time _ _)
    · cases h
      exact .head (.note rfl s _ s.released) (.single (.arrive rfl hc hb))

theorem perform_moves (h : perform cost s t time op = .ok s') : Moves op.onBarrier s s' := by
  cases op with
  | mutexInit m =>
    cases h
    exact .single (.know s m)
  | mutexLock m tryLock =>
    cases h
    unfold mutexLock
    dsimp only
    split_ifs
    · exact .single (.know s m)
    · exact .head (.know s m) (lock_moves (by rwa [threads_getMutex]) m time)
  | mutexUnlock m =>
    obtain ⟨r,hr,rfl⟩ := Outcome.map_ok h
    unfold mutexUnlock at hr
    split_ifs at hr
    obtain ⟨u,hu,rfl⟩ := Outcome.map_ok hr
    exact unlock_moves hc hu
  | condInit c =>
    cases h
    exact .single (.knowCond s c)
  | condWait c m => exact condWait_moves hc h
  | condSignal c =>
    cases h
    exact .head (.knowCond s c) (signal_moves _ c time)
  | condBroadcast c =>
    cases h
    exact .head (.knowCond s c) (broadcast_moves c time _ _)
  | barrierInit count =>
    cases h
    exact .single (.create rfl s count)
  | barrierWait b =>
    obtain ⟨r,hr,rfl⟩ := Outcome.map_ok h
    exact barrierWait_moves hc hr
end

theorem step_moves (h : step cost s l = .ok s') : Moves l.onBarrier s s' := by
  cases l with rw [step] at h
  | call t op time =>
    split_ifs at h with hc
    exact perform_moves hc.1 h
  | settle t =>
    split at h
    · next k hk =>
      split_ifs at h with ha hr
      · cases h
        exact .single (.finish cost (.inl ⟨hk,eq_of_beq hr⟩))
      · cases h
        exact .single (.block hk fun he => hr (beq_iff_eq.mpr he))
    · cases h
  | ret t =>
    split at h
    · next k hk =>
      split_ifs at h
      cases h
      exact .single (.finish cost (.inr hk))
    · cases h
  | env e =>
    split at h
    · next threads he =>
      cases h
      exact .single (.env he)
    · cases h

theorem Moves.invariant {I : SyncServer → Prop} (hI : ∀ s s', Move g s s' → I s → I s')
    (h : Moves g s s') (hs : I s) : I s' := by
  induction h with
  | refl => exact hs
  | tail _ hm ih => exact hI _ _ hm ih

theorem Reachable.invariant {I : SyncServer → Prop} (h0 : I init)
    (hI : ∀ g s s', Move g s s' → I s → I s') (h : Reachable cost s) : I s :=
  Run.Reaches.invariant (fun _ _ _ hs _ hn => Moves.invariant (hI _) (step_moves hn) hs) h0 h

end SyncServer
