import SniperSim.Library.WaitQueue
import SniperSim.System.FutexMoves

open Function List
namespace SyscallServer
open WaitQueue
open Futex
variable {cfg : SyscallConfig} {s s' : SyscallServer} {t : ThreadId} {a b : Address} {n : Nat}
  {time : SubsecondTime} {mask : BitVec 32} {w : Waiter}

@[simp] theorem findFutexByUaddr_futexes : (s.findFutexByUaddr a).futexes = s.futexes := by
  unfold findFutexByUaddr
  split_ifs <;> rfl

@[simp] theorem findFutexByUaddr_resumes : (s.findFutexByUaddr a).resumes = s.resumes := by
  unfold findFutexByUaddr
  split_ifs <;> rfl

@[simp] theorem findFutexByUaddr_arrivals : (s.findFutexByUaddr a).arrivals = s.arrivals := by
  unfold findFutexByUaddr
  split_ifs <;> rfl

@[simp] theorem release_futexes (p : Waiter → Bool) (ended : Ended) :
    (s.release a p w time ended).futexes = update s.futexes a ((s.futexes a).eraseP p) := rfl

@[simp] theorem finish_futexes (k : ServerCall) : (s.finish t k).futexes = s.futexes := by
  cases k <;> rfl

@[simp] theorem finish_arrivals (k : ServerCall) : (s.finish t k).arrivals = s.arrivals := by
  cases k <;> rfl

structure Ordered (s : SyscallServer) : Prop where
  increasing : ∀ a, (s.futexes a).Pairwise (·.arrival < ·.arrival)
  past : ∀ a, ∀ w ∈ s.futexes a, w.arrival < s.arrivals

theorem Ordered.append (h : Ordered s) (hf : ∀ b, (s'.futexes b).Sublist (s.futexes b) ∨
      ∃ q, ∃ w : Waiter, q.Sublist (s.futexes b) ∧ w.arrival = s.arrivals ∧ s'.futexes b = q ++ [w])
    (ha : s'.arrivals = s.arrivals + 1) : Ordered s' := by
  constructor
  · intro b
    rcases hf b with hsub | ⟨q,w,hsub,hw,he⟩
    · exact (h.increasing b).sublist hsub
    · rw [he,pairwise_append]
      refine ⟨(h.increasing b).sublist hsub,pairwise_singleton _ _,fun x hx y hy => ?_⟩
      obtain rfl := mem_singleton.mp hy
      rw [hw]
      exact h.past b x (hsub.subset hx)
  · intro b x hx
    rw [ha]
    rcases hf b with hsub | ⟨q,w,hsub,hw,he⟩
    · exact Nat.lt_succ_of_lt (h.past b x (hsub.subset hx))
    · rw [he,mem_append,mem_singleton] at hx
      rcases hx with hx | rfl
      · exact Nat.lt_succ_of_lt (h.past b x (hsub.subset hx))
      · exact hw ▸ Nat.lt_succ_self _

theorem Ordered.same (h : Ordered s) (hf : s'.futexes = s.futexes) (ha : s.arrivals ≤ s'.arrivals) : Ordered s' :=
  ⟨hf ▸ h.increasing,fun b x hx => Nat.lt_of_lt_of_le (h.past b x (hf ▸ hx)) ha⟩

theorem Ordered.release (h : Ordered s) : Ordered (s.release a p w time ended) := by
  have hsub : ∀ b, ((s.release a p w time ended).futexes b).Sublist (s.futexes b) := by
    intro b
    rcases eq_or_ne b a with rfl | hb
    · rw [release_futexes,update_self]
      exact eraseP_sublist
    · rw [release_futexes,update_of_ne hb]
  exact ⟨fun b => (h.increasing b).sublist (hsub b),fun b x hx => h.past b x ((hsub b).subset hx)⟩

theorem Ordered.move (hm : Move o s s') (h : Ordered s) : Ordered s' := by
  cases hm with
  | touch a | finish _ => exact h.same (by simp) (by simp)
  | @park _ _ _ a _ mask timeout =>
    refine h.append (fun b => ?_) rfl
    rcases eq_or_ne b a with rfl | hb
    · exact .inr ⟨_,_,List.Sublist.refl _,rfl,update_self ..⟩
    · exact .inl (by simp [enqueueWaiter,stallThread,setQueue,record,hb])
  | doze _ _ _ => exact h.same rfl (Nat.le_succ _)
  | release _ _ | expire _ _ => exact h.release
  | rouse _ _ | quit _ | block _ _ | env _ => exact h.same rfl (Nat.le_refl _)
  | @requeue _ a b t hab _ hr =>
    obtain ⟨w,q,hq,rfl⟩ := requeueWaiter_some hr
    refine h.append (fun c => ?_) rfl
    rcases eq_or_ne c b with rfl | hc
    · refine .inr ⟨s.futexes c,{ w with arrival := s.arrivals },List.Sublist.refl _,rfl,?_⟩
      simp [setQueue,hab.symm]
    · rcases eq_or_ne c a with rfl | hca
      · refine .inl ?_
        simp [setQueue,hc,hq]
      · exact .inl (by simp [setQueue,hc,hca])

theorem Reachable.ordered (h : Reachable cfg s) : Ordered s :=
  h.invariant ⟨fun _ => .nil,fun _ _ hw => by cases hw⟩ fun _ _ _ hm => Ordered.move hm

theorem Ordered.nodup (h : Ordered s) (a : Address) : (s.futexes a).Nodup :=
  (h.increasing a).imp fun {x y} hlt (he : x = y) => Nat.lt_irrefl y.arrival (he ▸ hlt)

theorem wakeLoop_eq (a : Address) (mask : BitVec 32) (time : SubsecondTime) (n : Nat) (s : SyscallServer) :
    (wakeLoop a mask time n s).1.futexes = update s.futexes a (dequeue (hits mask) n (s.futexes a)).2 ∧
      (wakeLoop a mask time n s).1.resumes = s.resumes ++ (dequeue (hits mask) n (s.futexes a)).1.map (·.threadId) ∧
      (wakeLoop a mask time n s).2 = (dequeue (hits mask) n (s.futexes a)).1.length := by
  induction n generalizing s with
  | zero => simp [wakeLoop,dequeue]
  | succ n ih =>
    rw [wakeLoop,dequeue,dequeueWaiter]
    cases hw : (s.futexes a).find? (hits mask) with
    | none => simp
    | some w =>
      obtain ⟨hf,hr,hn⟩ := ih (s.release a (hits mask) w time .wake)
      rw [release_futexes,update_self] at hf hr hn
      refine ⟨hf.trans ?_,hr.trans ?_,congrArg (· + 1) hn⟩
      · rw [update_idem]
      · rw [map_cons,← singleton_append,← append_assoc]
        rfl

def wakes (cmd : Cmd) (val3 : BitVec 32) (w : Waiter) : Bool :=
  if cmd = .wakeBitset then w.mask &&& val3 != 0 else true

structure WakeLaw (s : SyscallServer) (a : Address) (p : Waiter → Bool) (n : Nat)
    (s' : SyscallServer) (res : Int) : Prop where
  resumed : s'.resumes = s.resumes ++ (((s.futexes a).filter p).take n).map (·.threadId)
  count : res = min n ((s.futexes a).filter p).length
  rest : s'.futexes a = (s.futexes a).filter (· ∉ ((s.futexes a).filter p).take n)
  others : ∀ b, b ≠ a → s'.futexes b = s.futexes b

theorem wakeLaw_iff (hq : (s.futexes a).Nodup) (h : WakeLaw s a r n s' res) :
    WakeLaw s a p n s' res ↔ ((s.futexes a).filter p).take n = ((s.futexes a).filter r).take n := by
  constructor
  · intro hp
    exact eq_of_filter_notMem hq
      ((take_sublist _ _).trans filter_sublist)
      ((take_sublist _ _).trans filter_sublist) (hp.rest.symm.trans h.rest)
  · intro he
    refine ⟨he ▸ h.resumed,?_,he ▸ h.rest,h.others⟩
    rw [h.count,← length_take,← length_take,he]

theorem futexWake_law (cfg : SyscallConfig) (i : Nat) (nrWake mask : BitVec 32)
    (time : SubsecondTime) (hq : (s.futexes a).Nodup) :
    WakeLaw s a (hits mask) nrWake.toInt.toNat (futexWake cfg s i a nrWake mask time).1
      (futexWake cfg s i a nrWake mask time).2.res := by
  obtain ⟨hf,hr,hn⟩ := wakeLoop_eq a mask (wakeTime cfg i time) nrWake.toInt.toNat (s.findFutexByUaddr a)
  rw [findFutexByUaddr_futexes,dequeue_fst] at hr hn
  rw [findFutexByUaddr_futexes,dequeue_snd _ _ hq] at hf
  rw [findFutexByUaddr_resumes] at hr
  refine ⟨hr,?_,?_,fun b hb => ?_⟩
  · rw [length_take] at hn
    exact congrArg Int.ofNat hn
  · exact (congrFun hf a).trans (update_self ..)
  · exact (congrFun hf b).trans (update_of_ne hb ..)

def heard (w : Waiter) : Bool := w.mask != 0

theorem hits_any (w : Waiter) : hits bitsetMatchAny w = heard w := by
  unfold hits heard
  congr 1
  have hany : bitsetMatchAny = BitVec.allOnes 32 := rfl
  rw [hany,BitVec.allOnes_and]

def Served (s : SyscallServer) (a : Address) (cmd : Cmd) (val3 : BitVec 32) (n : Nat) : Prop :=
  if cmd = .wakeBitset then ∀ w ∈ ((s.futexes a).filter heard).take n, w.mask &&& val3 ≠ 0
  else ∀ w ∈ (s.futexes a).take n, w.mask ≠ 0

instance decidableServed (cmd : Cmd) (val3 : BitVec 32) : Decidable (Served s a cmd val3 n) :=
  inferInstanceAs (Decidable (if cmd = .wakeBitset then _ else _))

theorem served_iff (cmd : Cmd) (val3 : BitVec 32) :
    ((s.futexes a).filter (wakes cmd val3)).take n = ((s.futexes a).filter heard).take n ↔ Served s a cmd val3 n := by
  unfold Served
  split_ifs with hc
  · have hp : wakes cmd val3 = fun w => w.mask &&& val3 != 0 := by
      funext w
      rw [wakes,if_pos hc]
    rw [hp,take_filter_eq_iff]
    · simp
    · intro w _ hw
      have hne : w.mask ≠ 0 := fun h0 => by simp [h0] at hw
      simpa [heard] using hne
  · have hp : (s.futexes a).filter (wakes cmd val3) = (s.futexes a).filter fun _ => true := by
      refine filter_congr fun w _ => ?_
      rw [wakes,if_neg hc]
    rw [hp,eq_comm,take_filter_eq_iff fun _ _ _ => rfl,filter_true]
    simp [heard]

theorem handleFutexCall_wake (hc : cmdOf call.args.op = some cmd) (hw : cmd = .wake ∨ cmd = .wakeBitset) :
    handleFutexCall cfg s t call time = .ok
      ((futexWake cfg s call.instructionCount (call.va2pa call.args.uaddr) call.args.val bitsetMatchAny time).1,
        some (futexWake cfg s call.instructionCount (call.va2pa call.args.uaddr) call.args.val
          bitsetMatchAny time).2) := by
  unfold handleFutexCall
  dsimp only
  rw [hc]
  rcases hw with rfl | rfl <;> rfl

theorem futex_wake_law_iff (cfg : SyscallConfig) {s : SyscallServer} (hs : Reachable cfg s)
    (t : ThreadId) (call : Call) (time : SubsecondTime) {cmd : Cmd}
    (hc : cmdOf call.args.op = some cmd) (hw : cmd = .wake ∨ cmd = .wakeBitset) :
    (s.futexes (call.va2pa call.args.uaddr)).Pairwise (·.arrival < ·.arrival) ∧
      ∃ s' r, handleFutexCall cfg s t call time = .ok (s',some r) ∧
        (WakeLaw s (call.va2pa call.args.uaddr) (wakes cmd call.args.val3) call.args.val.toInt.toNat s' r.res ↔
          Served s (call.va2pa call.args.uaddr) cmd call.args.val3 call.args.val.toInt.toNat) := by
  refine ⟨hs.ordered.increasing _,_,_,handleFutexCall_wake hc hw,?_⟩
  have hq := hs.ordered.nodup (call.va2pa call.args.uaddr)
  have hlaw := futexWake_law cfg call.instructionCount call.args.val bitsetMatchAny time hq
  rw [funext hits_any] at hlaw
  rw [wakeLaw_iff hq hlaw,served_iff]

theorem wake_bitset_wakes_another : Reachable plainConfig (runFrom plainConfig twoBitsets) ∧
      ((runFrom plainConfig twoBitsets).futexes 0).map (fun w => (w.threadId,w.mask)) = [(1,1),(2,2)] ∧
      ∃ s' r, handleFutexCall plainConfig (runFrom plainConfig twoBitsets) 0 (bitsetCall 10 2) 0 = .ok (s',some r) ∧
        s'.resumes = [1] ∧ ¬ WakeLaw (runFrom plainConfig twoBitsets) 0 (wakes .wakeBitset 2) 1 s' r.res := by
  have hcmd : cmdOf (bitsetCall 10 2).args.op = some .wakeBitset := rfl
  refine ⟨Run.reaches_guided (by decide),by decide,_,_,handleFutexCall_wake hcmd (.inr rfl),by decide,?_⟩
  intro h
  have hr := h.resumed
  revert hr
  decide

theorem wake_law_after_wait : Served (runFrom plainConfig twoBitsets) 0 .wakeBitset 1 1 ∧
      ∃ s' r, handleFutexCall plainConfig (runFrom plainConfig twoBitsets) 0 (bitsetCall 10 1) 0 = .ok (s',some r) ∧
        WakeLaw (runFrom plainConfig twoBitsets) 0 (wakes .wakeBitset 1) 1 s' r.res := by
  have hserved : Served (runFrom plainConfig twoBitsets) 0 .wakeBitset 1 1 := by decide
  have hcmd : cmdOf (bitsetCall 10 1).args.op = some .wakeBitset := rfl
  obtain ⟨-,s',r,hr,hlaw⟩ := futex_wake_law_iff plainConfig (s := runFrom plainConfig twoBitsets)
    (Run.reaches_guided (by decide)) 0 (bitsetCall 10 1) 0 hcmd (.inr rfl)
  exact ⟨hserved,s',r,hr,hlaw.mpr hserved⟩

end SyscallServer
