import SniperSim.Library.ExceptSpec
import SniperSim.Library.Run
import SniperSim.System.SyscallServer
import Mathlib.Logic.Relation

namespace SyscallServer
open Futex
variable {cfg : SyscallConfig} {s s' : SyscallServer} {t : ThreadId} {a b : Address} {n : Nat}
  {time : SubsecondTime} {mask : BitVec 32} {w : Waiter}

def release (s : SyscallServer) (a : Address) (p : Waiter → Bool) (w : Waiter)
    (time : SubsecondTime) (ended : Ended) : SyscallServer :=
  (s.setQueue a ((s.futexes a).eraseP p)).resumeThread w.threadId time ended

inductive Move (o : Option SubsecondTime) : SyscallServer → SyscallServer → Prop
  | touch (s : SyscallServer) (a : Address) : Move o s (s.findFutexByUaddr a)
  | park {s : SyscallServer} {t : ThreadId} (h : (s.threads.thread t).Callable)
      (hl : s.threads.lock = none) {a : Address} (ha : a ∈ s.keys) (mask : BitVec 32)
      (timeout : SubsecondTime) : Move o s (s.enqueueWaiter a t mask timeout)
  | doze {s : SyscallServer} {t : ThreadId} (h : (s.threads.thread t).Callable)
      (hl : s.threads.lock = none) (wakeTime : SubsecondTime) : Move o s (s.handleSleepCall t wakeTime)
  | release {s : SyscallServer} {a : Address} {p : Waiter → Bool} {w : Waiter}
      (h : (s.futexes a).find? p = some w) (time : SubsecondTime) : Move o s (s.release a p w time .wake)
  | expire {s : SyscallServer} {a : Address} {w : Waiter} {time : SubsecondTime} (ho : o = some time)
      (h : (s.futexes a).find? (timedOut time) = some w) : Move o s (s.release a (timedOut time) w time .timeOut)
  | rouse {s : SyscallServer} {w : Waiter} {time : SubsecondTime} (ho : o = some time)
      (h : s.sleeping.find? (timedOut time) = some w) :
      Move o s ({ s with sleeping := s.sleeping.eraseP (timedOut time) }.resumeThread w.threadId time .timeOut)
  | requeue {s s' : SyscallServer} {a b : Address} {t : ThreadId} (hab : a ≠ b) (hb : b ∈ s.keys)
      (h : s.requeueWaiter a b = (s',some t)) : Move o s s'
  | quit {s : SyscallServer} {t : ThreadId} (h : (s.threads.thread t).Callable) :
      Move o s { s with threads := s.threads.modify t fun th => { th with status := .idle } }
  | block {s : SyscallServer} {t : ThreadId} {k : ServerCall}
      (h : (s.threads.thread t).control = .stalling k)
      (hr : (s.threads.thread t).status ≠ .running) : Move o s { s with threads := s.threads.wait t k }
  | finish {s : SyscallServer} {t : ThreadId} {k : ServerCall}
      (h : (s.threads.thread t).control = .stalling k ∧ (s.threads.thread t).status = .running ∨
        (s.threads.thread t).control = .signalled k) : Move o s (s.finish t k)
  | env {s : SyscallServer} {e : ThreadManager.EnvLabel} {threads : ThreadManager ServerCall}
      (h : s.threads.envStep own .other e = some threads) : Move o s { s with threads := threads }

abbrev Moves (o : Option SubsecondTime) : SyscallServer → SyscallServer → Prop := Relation.ReflTransGen (Move o)

variable {o : Option SubsecondTime}

theorem dequeueWaiter_moves (s : SyscallServer) (a : Address) (mask : BitVec 32)
    (time : SubsecondTime) : Moves o s (s.dequeueWaiter a mask time).1 := by
  unfold dequeueWaiter
  split
  · exact .refl
  · next w h => exact .single (.release h time)

theorem wakeLoop_moves (a : Address) (mask : BitVec 32) (time : SubsecondTime) (n : Nat)
    (s : SyscallServer) : Moves o s (wakeLoop a mask time n s).1 := by
  induction n generalizing s with
  | zero => exact .refl
  | succ n ih =>
    have hd : Moves o s _ := dequeueWaiter_moves s a mask time
    rw [wakeLoop]
    split
    · next s' h => rwa [h] at hd
    · next s' u h =>
      rw [h] at hd
      exact hd.trans (ih s')

theorem futexWake_moves (cfg : SyscallConfig) (s : SyscallServer) (i : Nat) (a : Address)
    (nrWake mask : BitVec 32) (time : SubsecondTime) : Moves o s (futexWake cfg s i a nrWake mask time).1 :=
  .head (.touch s a) (wakeLoop_moves _ _ _ _ _)

theorem futexWakeOp_moves (h : futexWakeOp cfg s call time = .ok r) : Moves o s r.1 := by
  unfold futexWakeOp at h
  obtain ⟨op,-,h⟩ := Outcome.bind_ok h
  cases h
  have hf : Moves o s _ := .head (.touch s (call.va2pa call.args.uaddr))
    (.single (.touch _ (call.va2pa call.args.uaddr2)))
  obtain ⟨newval,ret⟩ := op
  cases ret with
  | true => exact (hf.trans (wakeLoop_moves _ _ _ _ _)).trans (wakeLoop_moves _ _ _ _ _)
  | false => exact hf.trans (wakeLoop_moves _ _ _ _ _)

theorem mem_findFutexByUaddr (s : SyscallServer) (a : Address) : a ∈ (s.findFutexByUaddr a).keys := by
  unfold findFutexByUaddr
  split_ifs with h
  · exact h
  · simp

theorem requeueWaiter_some (h : s.requeueWaiter a b = (s',some t)) : ∃ w q, s.futexes a = w :: q ∧
    s' = { (s.setQueue a q).setQueue b ((s.setQueue a q).futexes b ++ [{ w with arrival := s.arrivals }]) with
      arrivals := s.arrivals + 1 } := by
  unfold requeueWaiter at h
  split at h
  · cases (Prod.mk.inj h).2
  · next w q hq => exact ⟨w,q,hq,(Prod.mk.inj h).1.symm⟩

theorem requeueWaiter_keys (s : SyscallServer) (a b : Address) : (s.requeueWaiter a b).1.keys = s.keys := by
  unfold requeueWaiter
  split <;> rfl

theorem requeueLoop_moves (hab : a ≠ b) (n : Nat) (s : SyscallServer) (hb : b ∈ s.keys) :
    Moves o s (requeueLoop a b n s) := by
  induction n generalizing s with
  | zero => exact .refl
  | succ n ih =>
    have hkeys := requeueWaiter_keys s a b
    rw [requeueLoop]
    split
    · next s' h =>
      unfold requeueWaiter at h
      split at h
      · obtain ⟨rfl,-⟩ := Prod.mk.inj h
        exact .refl
      · cases (Prod.mk.inj h).2
    · next s' u h =>
      rw [h] at hkeys
      exact .head (.requeue hab hb h) (ih s' (hkeys ▸ hb))

theorem requeueLoop_nil (n : Nat) (h : s.futexes a = []) : requeueLoop a b n s = s := by
  cases n <;> simp [*,requeueLoop,requeueWaiter]

theorem futexCmpRequeue_moves (h : futexCmpRequeue s call time = .ok r) : Moves o s r.1 := by
  unfold futexCmpRequeue at h
  dsimp only at h
  have hf : Moves o s _ := .single (.touch s (call.va2pa call.args.uaddr))
  split_ifs at h with hv hab
  · cases h
    exact hf
  · cases h
    have hw := (hf.trans (wakeLoop_moves (call.va2pa call.args.uaddr) bitsetMatchAny time
      call.args.val.toInt.toNat _)).tail (.touch _ (call.va2pa call.args.uaddr2))
    refine hw.trans ?_
    rcases eq_or_ne (call.va2pa call.args.uaddr) (call.va2pa call.args.uaddr2) with he | hne
    · have hnil := not_not.mp (fun hq => hab ⟨he,hq⟩)
      rw [requeueLoop_nil _ hnil]
    · exact requeueLoop_moves hne _ _ (mem_findFutexByUaddr _ _)

theorem futexWait_moves (hc : (s.threads.thread t).Callable) (hl : s.threads.lock = none)
    (a : Address) (val actVal mask : BitVec 32) (time timeout : SubsecondTime) :
    Moves o s (s.futexWait t a val actVal mask time timeout).1 := by
  have hf : Moves o s (s.findFutexByUaddr a) := .single (.touch s a)
  have ht : (s.findFutexByUaddr a).threads = s.threads := by
    unfold findFutexByUaddr
    split_ifs <;> rfl
  unfold futexWait
  dsimp only
  split_ifs
  · exact hf
  · exact hf.tail (.park (by rwa [ht]) (by rwa [ht]) (mem_findFutexByUaddr s a) mask timeout)

theorem handleFutexCall_moves (hc : (s.threads.thread t).Callable) (hl : s.threads.lock = none)
    (h : handleFutexCall cfg s t call time = .ok r) : Moves o s r.1 := by
  unfold handleFutexCall at h
  dsimp only at h
  cases hcmd : cmdOf call.args.op with
  | none => simp [hcmd] at h
  | some cmd =>
    rw [hcmd] at h
    cases cmd with
    | wait | waitBitset =>
      cases h
      exact futexWait_moves hc hl _ _ _ _ _ _
    | wake | wakeBitset =>
      cases h
      exact futexWake_moves _ _ _ _ _ _ _
    | wakeOp =>
      obtain ⟨q,hq,rfl⟩ := Outcome.map_ok h
      exact futexWakeOp_moves hq
    | cmpRequeue =>
      simp only [reduceCtorEq,or_self,if_false] at h
      split_ifs at h
      obtain ⟨q,hq,rfl⟩ := Outcome.map_ok h
      exact futexCmpRequeue_moves hq

theorem wakeTimedOut_moves (s : SyscallServer) (a : Address) (time : SubsecondTime) :
    Moves (some time) s (s.wakeTimedOut a time) := by
  unfold wakeTimedOut
  split
  · exact .refl
  · next w h => exact .single (.expire rfl h)

theorem wakeSleeper_moves (s : SyscallServer) (time : SubsecondTime) : Moves (some time) s (s.wakeSleeper time) := by
  unfold wakeSleeper
  split
  · exact .refl
  · next w h => exact .single (.rouse rfl h)

theorem futexPeriodic_moves (s : SyscallServer) (time : SubsecondTime) (order : List Address) :
    Moves (some time) s (s.futexPeriodic time order) := by
  refine (wakeSleeper_moves s time).trans ?_
  rw [futexPeriodic]
  generalize s.wakeSleeper time = s'
  induction order generalizing s' with
  | nil => exact .refl
  | cons a order ih => exact (wakeTimedOut_moves s' a time).trans (ih _)

theorem step_moves (h : step cfg s l = .ok s') : Moves l.barrier s s' := by
  cases l with rw [step] at h
  | futex t call time =>
    split_ifs at h with hc
    obtain ⟨r,hr,rfl⟩ := Outcome.map_ok h
    exact handleFutexCall_moves hc.1 hc.2 hr
  | sleep t wakeTime =>
    split_ifs at h with hc
    cases h
    exact .single (.doze hc.1 hc.2 wakeTime)
  | periodic time order =>
    split_ifs at h
    cases h
    exact futexPeriodic_moves s time order
  | settle t =>
    split at h
    · next k hk =>
      split_ifs at h with ha hr
      · cases h
        exact .single (.finish (.inl ⟨hk,eq_of_beq hr⟩))
      · cases h
        exact .single (.block hk fun he => hr (beq_iff_eq.mpr he))
    · cases h
  | ret t =>
    split at h
    · next k hk =>
      split_ifs at h
      cases h
      exact .single (.finish (.inr hk))
    · cases h
  | exit t i clearTid time =>
    split_ifs at h with hc
    cases h
    cases clearTid with
    | none => exact .single (.quit hc.1)
    | some a => exact .head (.quit hc.1) (futexWake_moves _ _ _ _ _ _ _)
  | env e =>
    split at h
    · next threads he =>
      cases h
      exact .single (.env he)
    · cases h

def Reachable (cfg : SyscallConfig) (s : SyscallServer) : Prop := Run.Reaches (step cfg) (fun _ _ => True) init s

theorem Moves.invariant {I : SyscallServer → Prop} (hI : ∀ o s s', Move o s s' → I s → I s')
    (h : Moves o s s') (hs : I s) : I s' := by
  induction h with
  | refl => exact hs
  | tail _ hm ih => exact hI _ _ _ hm ih

theorem Reachable.invariant {I : SyscallServer → Prop} (h0 : I init)
    (hI : ∀ o s s', Move o s s' → I s → I s') (h : Reachable cfg s) : I s :=
  Run.Reaches.invariant (fun _ _ _ hs _ hn => Moves.invariant hI (step_moves hn) hs) h0 h

def plainConfig : SyscallConfig := ⟨0,0⟩

def runFrom (cfg : SyscallConfig) (ls : List ServerLabel) : SyscallServer :=
  (Run.guided (step cfg) (fun _ _ => True) init ls).getD init

def bitsetCall (op bitset : BitVec 32) : Call := ⟨⟨0,op,1,none,0,0,bitset⟩,1,0,id,0⟩

def startThreads : Nat → List ServerLabel
  | 0 => []
  | n + 1 => startThreads n ++ [.env .create,.env (.start n true)]

def twoBitsets : List ServerLabel :=
  startThreads 3 ++ [.futex 1 (bitsetCall 9 1) 0,.settle 1,.futex 2 (bitsetCall 9 2) 0,.settle 2]

end SyscallServer
