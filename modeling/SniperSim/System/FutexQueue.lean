import SniperSim.Library.Parking
import SniperSim.Library.WaitQueue
import SniperSim.System.FutexMoves

open Function ThreadManager

def Ended.result : Ended → Int
  | .wake => 0
  | .timeOut => Futex.eTimedOut

def StallType.serverCall : StallType → ServerCall
  | .futex => .futex
  | .sleep => .sleep
  | _ => .other

inductive ServerPhase
  | idle
  | stalled (r : StallType)
  | resumed (r : StallType) (ended : Ended)
deriving DecidableEq, Repr

variable {e : ServerEvent}
namespace ServerPhase

def next : ServerPhase → ServerEvent → Option ServerPhase
  | .idle, .stalled r => some (.stalled r)
  | .stalled r, .resumed e => some (.resumed r e)
  | .resumed r e, .returned v => if v = (if r = .futex then e.result else 0) then some .idle else none
  | _, _ => none

def after (events : List ServerEvent) : Option ServerPhase := events.foldlM next .idle

theorem after_append (h : after es = some ph) : after (es ++ [e]) = ph.next e := by
  rw [after,List.foldlM_append]
  change (after es).bind _ = _
  rw [h]
  simp

def Fits (th : Thread ServerCall) : ServerPhase → Prop
  | .idle => Free SyscallServer.own .other th
  | .stalled r =>
    SyscallServer.own r ∧ th.StalledFor r ∧
      (th.control = .stalling r.serverCall ∨ th.control = .waiting r.serverCall)
  | .resumed r e =>
    SyscallServer.own r ∧ th.status = .running ∧ th.wakeupMsg = (e == .wake) ∧
      (th.control = .stalling r.serverCall ∨ th.control = .signalled r.serverCall)

end ServerPhase

namespace SyscallServer
open Futex
variable {cfg : SyscallConfig} {s : SyscallServer} {t : ThreadId} {a b : Address} {r : StallType}
  {th : Thread ServerCall} {ph : ServerPhase} {threads : ThreadManager ServerCall}

def ids (q : List Waiter) : List ThreadId := q.map (·.threadId)

@[simp] theorem record_self : (s.record t e).history t = s.history t ++ [e] := update_self ..

@[simp] theorem record_of_ne (h : u ≠ t) : (s.record t e).history u = s.history u := update_of_ne h ..

theorem own_cases (h : own r) : r = .futex ∨ r = .sleep := by
  cases r <;> simp_all [own]

theorem serverCall_ne_other (h : own r) : r.serverCall ≠ .other := by
  rcases own_cases h with rfl | rfl <;> simp [StallType.serverCall]

theorem fits_of_callable (hc : th.Callable) (h : ph.Fits th) : ph = .idle := by
  cases ph with
  | idle => rfl
  | stalled r =>
    obtain ⟨-,⟨hs,-⟩,-⟩ := h
    simp [hc.1] at hs
  | resumed r e =>
    obtain ⟨-,-,-,hk⟩ := h
    simp [hc.2] at hk

theorem fits_of_stalledFor (hr : own r) (hs : th.StalledFor r) (h : ph.Fits th) : ph = .stalled r := by
  cases ph with
  | idle =>
    have ho := h.notStalled hs.1
    rw [hs.2,hr] at ho
    cases ho
  | stalled r' =>
    obtain ⟨-,hs',-⟩ := h
    rw [hs'.unique hs]
  | resumed r' e =>
    obtain ⟨-,hrun,-⟩ := h
    simp [hs.1] at hrun

theorem fits_stall (m : ThreadManager ServerCall) (t : ThreadId) (h : own r) :
    ServerPhase.Fits ((m.stallThread t r r.serverCall).thread t) (.stalled r) := by
  rw [stallThread_self]
  exact ⟨h,⟨rfl,rfl⟩,.inl rfl⟩

theorem fits_env {e : EnvLabel}
    (h : s.threads.envStep own .other e = some threads) (hf : ph.Fits (s.threads.thread t)) :
    ph.Fits (threads.thread t) ∧
      ∀ r, own r → ((threads.thread t).StalledFor r ↔ (s.threads.thread t).StalledFor r) := by
  cases ph with
  | idle =>
    have hf' := envStep_free rfl h hf
    refine ⟨hf',fun r hr => ⟨fun hs => ?_,fun hs => ?_⟩⟩
    · have := hf'.notStalled hs.1
      simp [hs.2,hr] at this
    · have := hf.notStalled hs.1
      simp [hs.2,hr] at this
  | stalled r =>
    have he : threads.thread t = s.threads.thread t := by
      obtain ⟨ho,hs,hk⟩ := hf
      refine envStep_engaged rfl h ⟨⟨r.serverCall,?_,serverCall_ne_other ho⟩,.inr ⟨hs.1,hs.2 ▸ ho⟩⟩
      rcases hk with hk | hk <;> rw [hk] <;> rfl
    rw [he]
    exact ⟨hf,fun _ _ => Iff.rfl⟩
  | resumed r e' =>
    have he : threads.thread t = s.threads.thread t := by
      obtain ⟨ho,hs,-,hk⟩ := hf
      refine envStep_engaged rfl h ⟨⟨r.serverCall,?_,serverCall_ne_other ho⟩,.inl hs⟩
      rcases hk with hk | hk <;> rw [hk] <;> rfl
    rw [he]
    exact ⟨hf,fun _ _ => Iff.rfl⟩

structure Conserved (s : SyscallServer) : Prop where
  phase : ∀ t, ∃ ph, ServerPhase.after (s.history t) = some ph ∧ ph.Fits (s.threads.thread t)
  futexes : Parked (fun a => ids (s.futexes a)) fun t => (s.threads.thread t).StalledFor .futex
  sleeping : Parked (fun _ : Unit => ids s.sleeping) fun t => (s.threads.thread t).StalledFor .sleep

namespace Conserved
section
variable (h : Conserved s)
include h

theorem phase_of (hf : ∀ ph : ServerPhase, ph.Fits (s.threads.thread t) → ph = .stalled r) :
    ServerPhase.after (s.history t) = some (.stalled r) ∧ ServerPhase.Fits (s.threads.thread t) (.stalled r) := by
  obtain ⟨ph,hph,hfit⟩ := h.phase t
  obtain rfl := hf ph hfit
  exact ⟨hph,hfit⟩

theorem phase_callable (hc : (s.threads.thread t).Callable) : ServerPhase.after (s.history t) = some .idle := by
  obtain ⟨ph,hph,hfit⟩ := h.phase t
  rwa [fits_of_callable hc hfit] at hph

theorem advance (hph : ServerPhase.after (s.history t) = some ph)
    (hth : ∀ u, u ≠ t → threads.thread u = s.threads.thread u) (hn : ph.next ev = some ph')
    (hf : ph'.Fits (threads.thread t)) (u : ThreadId) :
    ∃ ph, ServerPhase.after ((s.record t ev).history u) = some ph ∧ ph.Fits (threads.thread u) := by
  rcases eq_or_ne u t with rfl | hu
  · refine ⟨ph',?_,hf⟩
    rw [record_self,ServerPhase.after_append hph,hn]
  · obtain ⟨ph,hu',hfit⟩ := h.phase u
    refine ⟨ph,?_,hth u hu ▸ hfit⟩
    rwa [record_of_ne hu]

theorem park (hc : (s.threads.thread t).Callable) (a : Address)
    (mask : BitVec 32) (timeout : SubsecondTime) : Conserved (s.enqueueWaiter a t mask timeout) := by
  refine ⟨?_,?_,?_⟩
  · exact h.advance (h.phase_callable hc) (fun u hu => stallThread_of_ne hu) rfl (fits_stall s.threads t rfl)
  · have hq : (fun b => ids ((s.enqueueWaiter a t mask timeout).futexes b)) =
        update (fun b => ids (s.futexes b)) a (ids (s.futexes a) ++ [t]) := by
      funext b
      rcases eq_or_ne b a with rfl | hb
      · simp [enqueueWaiter,stallThread,setQueue,record,ids]
      · simp [enqueueWaiter,stallThread,setQueue,record,hb]
    rw [hq]
    refine h.futexes.enter (hc.not_stalledFor _) a fun u => ?_
    exact (stalledFor_stallThread hc).trans (by simp)
  · refine h.sleeping.congr fun u => ?_
    exact (stalledFor_stallThread hc).trans (by simp)

theorem doze (hc : (s.threads.thread t).Callable) (wakeTime : SubsecondTime) :
    Conserved (s.handleSleepCall t wakeTime) := by
  refine ⟨?_,?_,?_⟩
  · exact h.advance (h.phase_callable hc) (fun u hu => stallThread_of_ne hu) rfl (fits_stall s.threads t rfl)
  · refine h.futexes.congr fun u => ?_
    exact (stalledFor_stallThread hc).trans (by simp)
  · have hq : (fun _ : Unit => ids (s.handleSleepCall t wakeTime).sleeping) =
        update (fun _ : Unit => ids s.sleeping) () (ids s.sleeping ++ [t]) := by
      funext b
      simp [handleSleepCall,stallThread,record,ids]
    rw [hq]
    refine h.sleeping.enter (hc.not_stalledFor _) () fun u => ?_
    exact (stalledFor_stallThread hc).trans (by simp)

theorem resumed (hr : own r) (hs : (s.threads.thread t).StalledFor r)
    (time : SubsecondTime) (e : Ended) (u : ThreadId) :
    ∃ ph, ServerPhase.after ((s.record t (.resumed e)).history u) = some ph ∧
      ph.Fits ((s.threads.resumeThread t time (e == .wake)).thread u) := by
  obtain ⟨hph,hfit⟩ := h.phase_of fun ph => fits_of_stalledFor hr hs
  refine h.advance hph (fun u hu => resumeThread_of_ne hu) rfl ?_ u
  rw [resumeThread_self]
  obtain ⟨ho,-,hk⟩ := hfit
  refine ⟨ho,rfl,rfl,?_⟩
  rcases hk with hk | hk <;> simp [*,Thread.signal,Control.signal]

theorem release (hw : (s.futexes a).find? p = some w) (time : SubsecondTime) (e : Ended) :
    Conserved (s.release a p w time e) := by
  obtain ⟨l,l',hq,herase,-⟩ := WaitQueue.find_split hw
  have hids : ids (s.futexes a) = ids l ++ w.threadId :: ids l' := by
    rw [hq,ids,List.map_append]
    rfl
  have hs : (s.threads.thread w.threadId).StalledFor .futex := h.futexes.of_mem (i := a) (by rw [hids]; simp)
  refine ⟨h.resumed rfl hs time e,?_,?_⟩
  · have hf : (fun b => ids ((s.release a p w time e).futexes b)) =
        update (fun b => ids (s.futexes b)) a (ids l ++ ids l') := by
      funext b
      rcases eq_or_ne b a with rfl | hb
      · simp [SyscallServer.release,resumeThread,setQueue,record,herase,ids]
      · simp [SyscallServer.release,resumeThread,setQueue,record,hb]
    rw [hf]
    exact h.futexes.remove hids fun u => stalledFor_resumeThread
  · refine h.sleeping.congr fun u => stalledFor_resumeThread.trans ?_
    refine and_iff_left_of_imp fun hu he => ?_
    rw [he] at hu
    cases hu.unique hs

theorem rouse (hw : s.sleeping.find? p = some w) (time : SubsecondTime) :
    Conserved ({ s with sleeping := s.sleeping.eraseP p }.resumeThread w.threadId time .timeOut) := by
  obtain ⟨l,l',hq,herase,-⟩ := WaitQueue.find_split hw
  have hids : ids s.sleeping = ids l ++ w.threadId :: ids l' := by
    rw [hq,ids,List.map_append]
    rfl
  have hs : (s.threads.thread w.threadId).StalledFor .sleep := h.sleeping.of_mem (i := ()) (by rw [hids]; simp)
  refine ⟨h.resumed rfl hs time .timeOut,?_,?_⟩
  · refine h.futexes.congr fun u => stalledFor_resumeThread.trans ?_
    refine and_iff_left_of_imp fun hu he => ?_
    rw [he] at hu
    cases hu.unique hs
  · have hf : (fun _ : Unit => ids ({ s with sleeping := s.sleeping.eraseP p }.resumeThread
        w.threadId time .timeOut).sleeping) = update (fun _ : Unit => ids s.sleeping) () (ids l ++ ids l') := by
      funext b
      simp [resumeThread,record,herase,ids]
    rw [hf]
    exact h.sleeping.remove hids fun u => stalledFor_resumeThread

theorem requeue (hab : a ≠ b) (hr : s.requeueWaiter a b = (s',some t)) : Conserved s' := by
  obtain ⟨w,q,hq,rfl⟩ := requeueWaiter_some hr
  refine ⟨h.phase,?_,h.sleeping⟩
  have hids : (fun c => ids (s.futexes c)) a = w.threadId :: ids q := by
    dsimp only
    rw [hq,ids,List.map_cons]
    rfl
  have hmove := h.futexes.transfer hids b hab
  refine Eq.mp (congrArg (fun f => Parked f _) ?_) hmove
  funext c
  rcases eq_or_ne c b with rfl | hc
  · simp [setQueue,ids,hab.symm]
  · rcases eq_or_ne c a with rfl | hca
    · simp [setQueue,hc]
    · simp [setQueue,hc,hca]

theorem stays (hf : ∀ ph : ServerPhase, ph.Fits (s.threads.thread t) → ph.Fits (f (s.threads.thread t)))
    (hs : ∀ r, (f (s.threads.thread t)).StalledFor r ↔ (s.threads.thread t).StalledFor r) :
    Conserved { s with threads := { s.threads.modify t f with lock := l } } := by
  have hst : ∀ u r, (({ s.threads.modify t f with lock := l } : ThreadManager ServerCall).thread
      u).StalledFor r ↔ (s.threads.thread u).StalledFor r := by
    intro u r
    rcases eq_or_ne u t with rfl | hu
    · simp [hs]
    · simp [hu]
  refine ⟨fun u => ?_,h.futexes.congr fun u => hst u _,h.sleeping.congr fun u => hst u _⟩
  obtain ⟨ph,hph,hfit⟩ := h.phase u
  refine ⟨ph,hph,?_⟩
  rcases eq_or_ne u t with rfl | hu <;> simp [*]

theorem quit (hc : (s.threads.thread t).Callable) :
    Conserved { s with threads := s.threads.modify t fun th => { th with status := .idle } } := by
  refine h.stays (t := t) (f := fun th => { th with status := .idle }) (l := s.threads.lock)
    (fun ph hf => ?_) fun r => ?_
  · obtain rfl := fits_of_callable hc hf
    exact ⟨hf.outside,by simp⟩
  · exact ⟨fun hs => (by cases hs.1),fun hs => (hc.not_stalledFor r hs).elim⟩

theorem block (hk : (s.threads.thread t).control = .stalling k) (hr : (s.threads.thread t).status ≠ .running) :
    Conserved { s with threads := s.threads.wait t k } := by
  refine h.stays (fun ph hf => ?_) fun r => Iff.rfl
  cases ph with
  | idle => exact ⟨fun k' hk' => hf.outside k' (by rw [hk]; exact hk'),hf.notStalled⟩
  | stalled r =>
    obtain ⟨ho,hs,hc⟩ := hf
    refine ⟨ho,hs,.inr ?_⟩
    rw [hk] at hc
    rcases hc with hc | hc
    · rw [Control.stalling.inj hc]
    · cases hc
  | resumed r e => exact (hr hf.2.1).elim

theorem finish (hk : (s.threads.thread t).control = .stalling k ∧ (s.threads.thread t).status = .running ∨
      (s.threads.thread t).control = .signalled k) : Conserved (s.finish t k) := by
  have hst : ∀ u r, ((s.threads.leave t).thread u).StalledFor r ↔ (s.threads.thread u).StalledFor r := by
    intro u r
    rcases eq_or_ne u t with rfl | hu
    · rw [leave_self]
      rfl
    · rw [leave_of_ne hu]
  have hpend : (s.threads.thread t).control.pending = some k := by
    rcases hk with ⟨hk,-⟩ | hk <;> rw [hk] <;> rfl
  have hleave : ∀ {ev : ServerEvent} {ph : ServerPhase},
      ServerPhase.after (s.history t) = some ph → ph.next ev = some .idle → (s.threads.thread t).status = .running →
      Conserved { s.record t ev with threads := s.threads.leave t } := by
    intro ev ph hph hn hrun
    refine ⟨h.advance hph (fun u hu => leave_of_ne hu) hn ?_,
      h.futexes.congr fun u => hst u _,h.sleeping.congr fun u => hst u _⟩
    rw [leave_self]
    exact Free.of_callable ⟨hrun,rfl⟩
  obtain ⟨ph,hph,hf⟩ := h.phase t
  cases ph with
  | idle =>
    obtain rfl := hf.outside k hpend
    refine h.stays (fun ph' hf' => ?_) fun r => Iff.rfl
    have hidle : ph' = .idle := by
      cases ph' with
      | idle => rfl
      | stalled r =>
        obtain ⟨ho,hs,-⟩ := hf'
        have := hf.notStalled hs.1
        simp [hs.2,ho] at this
      | resumed r e =>
        obtain ⟨ho,-,-,hc⟩ := hf'
        refine (serverCall_ne_other ho (hf.outside _ ?_)).elim
        rcases hc with hc | hc <;> rw [hc] <;> rfl
    subst hidle
    exact ⟨fun k' hk' => (by cases hk'),hf.notStalled⟩
  | stalled r =>
    obtain ⟨-,hs,hc⟩ := hf
    rcases hk with ⟨-,hrun⟩ | hk
    · simp [hs.1] at hrun
    · simp [hk] at hc
  | resumed r e =>
    obtain ⟨ho,hrun,hmsg,hc⟩ := hf
    have hcall : k = r.serverCall := by
      rcases hc with hc | hc <;> rw [hc] at hpend <;> exact (Option.some.inj hpend).symm
    subst hcall
    rcases own_cases ho with rfl | rfl
    · refine hleave hph ?_ hrun
      rw [hmsg]
      cases e <;> rfl
    · exact hleave hph rfl hrun

theorem env {e : EnvLabel}
    (he : s.threads.envStep own .other e = some threads) : Conserved { s with threads := threads } := by
  have hst : ∀ u r, own r → ((threads.thread u).StalledFor r ↔ (s.threads.thread u).StalledFor r) := by
    intro u
    obtain ⟨ph,-,hf⟩ := h.phase u
    exact (fits_env he hf).2
  refine ⟨fun u => ?_,h.futexes.congr fun u => hst u _ rfl,h.sleeping.congr fun u => hst u _ rfl⟩
  obtain ⟨ph,hph,hf⟩ := h.phase u
  exact ⟨ph,hph,(fits_env he hf).1⟩
end

theorem move {o : Option SubsecondTime} (hm : Move o s s') (h : Conserved s) : Conserved s' := by
  cases hm with
  | touch a =>
    unfold findFutexByUaddr
    split_ifs
    · exact h
    · exact { h with }
  | park hc _ _ mask timeout => exact h.park hc _ mask timeout
  | doze hc _ wakeTime => exact h.doze hc wakeTime
  | release hw time => exact h.release hw time .wake
  | expire _ hw => exact h.release hw _ .timeOut
  | rouse _ hw => exact h.rouse hw _
  | requeue hab _ hr => exact h.requeue hab hr
  | quit hc => exact h.quit hc
  | block hk hr => exact h.block hk hr
  | finish hk => exact h.finish hk
  | env he => exact h.env he

theorem init : Conserved SyscallServer.init := by
  have hfree : ∀ r, ¬ (Thread.created : Thread ServerCall).StalledFor r := fun r hs => by cases hs.1
  refine ⟨fun t => ⟨.idle,rfl,?_⟩,Parked.empty fun t => hfree _,Parked.empty fun t => hfree _⟩
  exact ⟨fun k hk => (by cases hk),fun hs => (by cases hs)⟩

end Conserved

theorem Reachable.conserved (h : Reachable cfg s) : Conserved s :=
  h.invariant Conserved.init fun _ _ _ hm => Conserved.move hm

theorem futex_and_sleep_queues_conserved (cfg : SyscallConfig) {s : SyscallServer}
    (hs : Reachable cfg s) (t : ThreadId) : ((s.threads.thread t).StalledFor .futex ↔
        ∃ a, (ids (s.futexes a)).count t = 1 ∧ ∀ b, b ≠ a → t ∉ ids (s.futexes b)) ∧
      ((s.threads.thread t).StalledFor .sleep ↔ (ids s.sleeping).count t = 1) ∧
      (¬ (s.threads.thread t).StalledFor .futex → ∀ a, t ∉ ids (s.futexes a)) ∧
      (¬ (s.threads.thread t).StalledFor .sleep → t ∉ ids s.sleeping) ∧
      ∃ ph, ServerPhase.after (s.history t) = some ph ∧ ph.Fits (s.threads.thread t) := by
  have h := hs.conserved
  refine ⟨h.futexes.exactly_once,?_,h.futexes.notMem,fun hn => h.sleeping.notMem hn (),h.phase t⟩
  exact h.sleeping.exactly_once.trans ⟨fun ⟨_,hc,_⟩ => hc,fun hc => ⟨(),hc,fun _ hj => (hj rfl).elim⟩⟩

theorem conserved_with_two_waiters : ((runFrom plainConfig twoBitsets).threads.thread 1).StalledFor .futex ∧
      ∃ a, (ids ((runFrom plainConfig twoBitsets).futexes a)).count 1 = 1 ∧
        ∀ b, b ≠ a → 1 ∉ ids ((runFrom plainConfig twoBitsets).futexes b) := by
  have hs : ((runFrom plainConfig twoBitsets).threads.thread 1).StalledFor .futex := by decide
  exact ⟨hs,(futex_and_sleep_queues_conserved plainConfig
    (Run.reaches_guided (by decide) : Reachable plainConfig (runFrom plainConfig twoBitsets)) 1).1.mp hs⟩

end SyscallServer
