import SniperSim.Library.Channel
import SniperSim.Library.Parking
import SniperSim.System.SyncMoves

open List Option
open Function ThreadManager
variable {b : Nat}
namespace SyncCall

def mutex : SyncCall → Option SyncAddress
  | .lock m | .cond m => some m
  | .barrier _ | .other => none

def Awaits : SyncCall → SyncQueue → Prop
  | .lock m, .mutex m' | .cond m, .mutex m' => m = m'
  | .cond _, .cond _ => True
  | .barrier b, .barrier b' => b = b'
  | _, _ => False

theorem Awaits.mutex_eq {k : SyncCall} {m m' : SyncAddress} (h : k.Awaits (.mutex m))
    (hk : k.mutex = some m') : m = m' := by
  cases k with
  | lock n | cond n => exact h.symm.trans (some.inj hk)
  | barrier b | other => cases hk

theorem Awaits.barrier_mutex {k : SyncCall} (h : k.Awaits (.barrier b)) : k.mutex = none := by
  cases k with
  | lock m | cond m => exact h.elim
  | barrier b | other => rfl

end SyncCall

namespace SyncServer
variable {s s' : SyncServer} {t u : ThreadId} {m c : SyncAddress} {time : SubsecondTime} {k : SyncCall}
  {th : Thread SyncCall} {i : SyncQueue} {w : CondWaiter} {o : ThreadId}

def SyncStalled (th : Thread SyncCall) : Prop := th.status = .stalled ∧ own th.stalledReason

instance decidableSyncStalled (th : Thread SyncCall) : Decidable (SyncStalled th) := inferInstanceAs (Decidable (_ ∧ _))

theorem not_syncStalled_of_running (h : th.status = .running) : ¬ SyncStalled th := by
  rintro ⟨hs,-⟩
  rw [h] at hs
  cases hs

theorem not_syncStalled_of_free (h : Free own .other th) : ¬ SyncStalled th := by
  intro hs
  have hn := h.notStalled hs.1
  rw [hs.2] at hn
  cases hn

inductive Fits (owner : SyncAddress → Option ThreadId) (t : ThreadId) (th : Thread SyncCall) : Prop
  | outside (h : Free own .other th)
  | queued (k : SyncCall) (hk : k ≠ .other) (hs : SyncStalled th)
      (hc : th.control = .stalling k ∨ th.control = .waiting k)
  | resumed (k : SyncCall) (hk : k ≠ .other) (hr : th.status = .running)
      (hc : th.control = .stalling k ∨ th.control = .signalled k)
      (ho : ∀ m, k.mutex = some m → owner m = some t)

section
variable {owner owner' : SyncAddress → Option ThreadId}

def Keeps (owner owner' : SyncAddress → Option ThreadId) (threads : ThreadManager SyncCall) : Prop :=
  ∀ m u, owner m = some u → ¬ (threads.thread u).Callable → owner' m = some u

namespace Fits

theorem keep {threads : ThreadManager SyncCall} (h : Fits owner t (threads.thread t))
    (hk : Keeps owner owner' threads) : Fits owner' t (threads.thread t) := by
  cases h with
  | outside h => exact .outside h
  | queued k hne hs hc => exact .queued k hne hs hc
  | resumed k hne hr hc ho =>
    refine .resumed k hne hr hc fun m hm => hk m t (ho m hm) ?_
    rintro ⟨-,hu⟩
    rcases hc with hc | hc <;> rw [hu] at hc <;> cases hc

theorem of_stalled (h : Fits owner t th) (hs : SyncStalled th) :
    ∃ k, k ≠ .other ∧ (th.control = .stalling k ∨ th.control = .waiting k) := by
  cases h with
  | outside h => exact (not_syncStalled_of_free h hs).elim
  | queued k hne _ hc => exact ⟨k,hne,hc⟩
  | resumed k _ hr _ _ => exact (not_syncStalled_of_running hr hs).elim

theorem wake (h : Fits owner t th) (hs : SyncStalled th) (time : SubsecondTime)
    (ho : ∀ k m, th.control.pending = some k → k.mutex = some m → owner' m = some t) :
    Fits owner' t { th.signal time false with status := .running } := by
  obtain ⟨k,hne,hc⟩ := h.of_stalled hs
  refine .resumed k hne rfl ?_ fun m hm => ho k m ?_ hm
  · rcases hc with hc | hc <;> simp [*,Thread.signal,Control.signal]
  · rcases hc with hc | hc <;> rw [hc] <;> rfl

theorem env {threads threads' : ThreadManager SyncCall} {e : EnvLabel}
    (he : threads.envStep own .other e = some threads') (h : Fits owner t (threads.thread t)) :
    Fits owner t (threads'.thread t) ∧ (threads'.thread t = threads.thread t ∨
        ¬ SyncStalled (threads.thread t) ∧ ¬ SyncStalled (threads'.thread t)) := by
  have hpend : ∀ {k : SyncCall}, k ≠ .other →
      ((threads.thread t).control = .stalling k ∨ (threads.thread t).control = .waiting k ∨
        (threads.thread t).control = .signalled k) → ∃ k, (threads.thread t).control.pending = some k ∧ k ≠ .other := by
    intro k hne hc
    refine ⟨k,?_,hne⟩
    rcases hc with hc | hc | hc <;> rw [hc] <;> rfl
  cases h with
  | outside h =>
    have h' := envStep_free rfl he h
    exact ⟨.outside h',.inr ⟨not_syncStalled_of_free h,not_syncStalled_of_free h'⟩⟩
  | queued k hne hs hc =>
    have hsame : threads'.thread t = threads.thread t := envStep_engaged rfl he ⟨hpend hne (hc.imp_right .inl),.inr hs⟩
    rw [hsame]
    exact ⟨.queued k hne hs hc,.inl rfl⟩
  | resumed k hne hr hc ho =>
    have hsame : threads'.thread t = threads.thread t := envStep_engaged rfl he ⟨hpend hne (hc.imp_right .inr),.inl hr⟩
    rw [hsame]
    exact ⟨.resumed k hne hr hc ho,.inl rfl⟩

end Fits

structure Seats (owner : SyncAddress → Option ThreadId) (q : SyncQueue → List ThreadId)
    (names : ThreadId → SyncAddress → Prop) (threads : ThreadManager SyncCall) : Prop where
  phase : ∀ t, Fits owner t (threads.thread t)
  parked : Parked q fun t => SyncStalled (threads.thread t)
  waits : ∀ i t, t ∈ q i → ∃ k, (threads.thread t).control.pending = some k ∧ k.Awaits i
  named : ∀ t m, names t m → (threads.thread t).control.pending = some (.cond m)

namespace Seats
variable {q : SyncQueue → List ThreadId} {names : ThreadId → SyncAddress → Prop} {threads : ThreadManager SyncCall}

theorem keep (h : Seats owner q names threads) (hk : Keeps owner owner' threads) :
    Seats owner' q names threads := { h with phase := fun t => (h.phase t).keep hk }

theorem enter (h : Seats owner q names threads) (hc : (threads.thread t).Callable)
    (hr : own r) (hk : k ≠ .other) (hi : k.Awaits i)
    (hn : ∀ u m, names' u m → names u m ∧ u ≠ t ∨ u = t ∧ k = .cond m) :
    Seats owner (update q i (q i ++ [t])) names' (threads.stallThread t r k) := by
  have hst : SyncStalled ((threads.stallThread t r k).thread t) := by
    rw [stallThread_self]
    exact ⟨rfl,hr⟩
  refine ⟨fun u => ?_,?_,fun j u hu => ?_,fun u m hu => ?_⟩
  · rcases eq_or_ne u t with rfl | hne
    · refine .queued k hk hst (.inl ?_)
      rw [stallThread_self]
    · rw [stallThread_of_ne hne]
      exact h.phase u
  · refine h.parked.enter (not_syncStalled_of_running hc.1) i fun u => ?_
    rcases eq_or_ne u t with rfl | hne
    · exact ⟨fun _ => .inr rfl,fun _ => hst⟩
    · simp [hne]
  · rcases eq_or_ne u t with rfl | hne
    · have hji : j = i := by
        rcases eq_or_ne j i with hji | hji
        · exact hji
        · rw [update_of_ne hji] at hu
          exact (not_syncStalled_of_running hc.1 (h.parked.of_mem hu)).elim
      subst hji
      exact ⟨k,by rw [stallThread_self]; rfl,hi⟩
    · rw [stallThread_of_ne hne]
      refine h.waits j u ?_
      rcases eq_or_ne j i with rfl | hji
      · simpa [hne] using hu
      · rwa [update_of_ne hji] at hu
  · rcases hn u m hu with ⟨hu,hne⟩ | ⟨rfl,rfl⟩
    · rw [stallThread_of_ne hne]
      exact h.named u m hu
    · rw [stallThread_self]
      rfl

theorem pending_resume (t : ThreadId) (time : SubsecondTime) (u : ThreadId) :
    ((threads.resumeThread t time false).thread u).control.pending = (threads.thread u).control.pending := by
  rcases eq_or_ne u t with rfl | hne
  · rw [resumeThread_self]
    exact Control.pending_signal _
  · rw [resumeThread_of_ne hne]

variable (h : Seats owner q names threads)
include h

theorem leave (hq : q i = t :: l) (hk : Keeps owner owner' threads)
    (ho : ∀ k m, (threads.thread t).control.pending = some k → k.Awaits i → k.mutex = some m →
      owner' m = some t) (hn : ∀ u m, names' u m → names u m) (time : SubsecondTime) :
    Seats owner' (update q i l) names' (threads.resumeThread t time false) := by
  have hmem : t ∈ q i := hq ▸ mem_cons_self
  have hs := h.parked.of_mem hmem
  refine ⟨fun u => ?_,?_,fun j u hu => ?_,fun u m hu => ?_⟩
  · rcases eq_or_ne u t with rfl | hne
    · rw [resumeThread_self]
      obtain ⟨k,hp,hi⟩ := h.waits i u hmem
      refine (h.phase u).wake hs time fun k' m hk' hm => ?_
      obtain rfl := some.inj (hp.symm.trans hk')
      exact ho k m hp hi hm
    · rw [resumeThread_of_ne hne]
      exact (h.phase u).keep hk
  · refine h.parked.remove (l := []) hq fun u => ?_
    rcases eq_or_ne u t with rfl | hne
    · simp [SyncStalled]
    · simp [hne]
  · rw [pending_resume]
    exact h.waits j u (Channel.mem_of_mem_update (show q i = [t] ++ l from hq) hu)
  · rw [pending_resume]
    exact h.named u m (hn u m hu)

theorem transfer (hq : q i = t :: l) (hij : i ≠ j)
    (hj : ∃ k, (threads.thread t).control.pending = some k ∧ k.Awaits j) (hn : ∀ u m, names' u m → names u m) :
    Seats owner (update (update q i l) j (q j ++ [t])) names' threads := by
  refine ⟨h.phase,h.parked.transfer hq j hij,fun i' u hu => ?_,fun u m hu => h.named u m (hn u m hu)⟩
  rcases eq_or_ne i' j with rfl | hne
  · rw [update_self,mem_append,mem_singleton] at hu
    rcases hu with hu | rfl
    · exact h.waits i' u hu
    · exact hj
  · rw [update_of_ne hne] at hu
    exact h.waits i' u (Channel.mem_of_mem_update (show q i = [t] ++ l from hq) hu)

theorem pass (hf : ∀ t, Fits owner t (threads'.thread t))
    (hs : ∀ t, SyncStalled (threads'.thread t) ↔ SyncStalled (threads.thread t))
    (hp : ∀ t, SyncStalled (threads.thread t) →
      (threads'.thread t).control.pending = (threads.thread t).control.pending)
    (hn : ∀ t m, names t m → SyncStalled (threads.thread t)) : Seats owner q names threads' := by
  refine ⟨hf,h.parked.congr hs,fun i t ht => ?_,fun t m ht => ?_⟩
  · rw [hp t (h.parked.of_mem ht)]
    exact h.waits i t ht
  · rw [hp t (hn t m ht)]
    exact h.named t m ht

end Seats
end

def owner (s : SyncServer) (m : SyncAddress) : Option ThreadId := (s.mutex m).owner

def Names (s : SyncServer) (t : ThreadId) (m : SyncAddress) : Prop := ∃ c, ⟨t,m⟩ ∈ s.cond c

theorem mutex_setMutex (x : SimMutex) : (s.setMutex m x).mutex = update s.mutex m x := by
  funext m'
  rcases eq_or_ne m' m with rfl | hne
  · simp
  · simp [hne]

theorem owner_setMutex (x : SimMutex) : (s.setMutex m x).owner = update s.owner m x.owner := by
  funext m'
  rcases eq_or_ne m' m with rfl | hne
  · simp [owner]
  · simp [owner,hne]

theorem queue_setOwner (m : SyncAddress) (o : Option ThreadId) :
    (s.setMutex m { s.mutex m with owner := o }).queue = s.queue := by
  rw [queue_setMutex]
  exact update_eq_self _ _

theorem names_setCond_tail (hq : s.cond c = w :: q) (t : ThreadId) (m : SyncAddress) (h : (s.setCond c q).Names t m) :
    s.Names t m := by
  obtain ⟨c',hc'⟩ := h
  rcases eq_or_ne c' c with rfl | hne
  · rw [cond_setCond_self] at hc'
    exact ⟨c',hq ▸ mem_cons_of_mem w hc'⟩
  · rw [cond_setCond_of_ne _ hne] at hc'
    exact ⟨c',hc'⟩

structure Ledger (x : SimMutex) (held queued granted : List ThreadId) : Prop where
  exclusive : ∀ t ∈ held, x.owner = some t
  owned : x.waiting ≠ [] → x.owner ≠ none
  fifo : queued = granted ++ x.waiting

namespace Ledger
variable {x : SimMutex} {held queued granted q : List ThreadId}
variable (h : Ledger x held queued granted)
include h

theorem held_yield (ho : x.owner = some t) : held.filter (· ≠ t) = [] := by
  refine filter_eq_nil_iff.mpr fun u hu => ?_
  have hm := h.exclusive u hu
  rw [ho] at hm
  simp [some.inj hm]

theorem acquire (ho : x.owner = some t) : Ledger x (held ++ [t]) queued granted := by
  refine ⟨fun u hu => ?_,h.owned,h.fifo⟩
  rcases mem_append.mp hu with hu | hu
  · exact h.exclusive u hu
  · rw [mem_singleton.mp hu,ho]

theorem take (ho : x.owner = none) (t : ThreadId) : Ledger { x with owner := some t } held queued granted := by
  refine ⟨fun u hu => ?_,by simp,h.fifo⟩
  have hm := h.exclusive u hu
  rw [ho] at hm
  cases hm

theorem push (ho : x.owner = some o)
    (t : ThreadId) : Ledger { x with waiting := x.waiting ++ [t] } held (queued ++ [t]) granted := by
  refine ⟨h.exclusive,fun _ hn => ?_,?_⟩
  · rw [ho] at hn
    cases hn
  · rw [h.fifo,append_assoc]

theorem free (ho : x.owner = some t) (hq : x.waiting = []) :
    Ledger { x with owner := none } (held.filter (· ≠ t)) queued granted := by
  refine ⟨fun u hu => ?_,fun hw => (hw hq).elim,h.fifo⟩
  rw [h.held_yield ho] at hu
  cases hu

theorem handOver {w : ThreadId} (ho : x.owner = some t)
    (hq : x.waiting = w :: q) : Ledger ⟨q,some w⟩ (held.filter (· ≠ t)) queued (granted ++ [w]) := by
  refine ⟨fun u hu => ?_,by simp,?_⟩
  · rw [h.held_yield ho] at hu
    cases hu
  · rw [h.fifo,hq,append_assoc]
    rfl

end Ledger

structure Orderly (s : SyncServer) : Prop where
  seats : Seats s.owner s.queue s.Names s.threads
  ledger : ∀ m, Ledger (s.mutex m) (s.held m) (s.queued m) (s.granted m)

theorem keeps_take (h : s.owner m = none) (o : Option ThreadId) : Keeps s.owner (update s.owner m o) s.threads := by
  intro m' u hu _
  rcases eq_or_ne m' m with rfl | hne
  · rw [h] at hu
    cases hu
  · rwa [update_of_ne hne]

theorem keeps_yield (h : s.owner m = some t) (hc : (s.threads.thread t).Callable)
    (o : Option ThreadId) : Keeps s.owner (update s.owner m o) s.threads := by
  intro m' u hu hn
  rcases eq_or_ne m' m with rfl | hne
  · rw [h] at hu
    exact (hn (some.inj hu ▸ hc)).elim
  · rwa [update_of_ne hne]

namespace Orderly
variable {x : SimMutex} {held queued granted : List ThreadId} {q : List CondWaiter}

theorem ledger_update (h : Orderly s) (hm : s'.mutex = update s.mutex m x)
    (hh : s'.held = update s.held m held) (hq : s'.queued = update s.queued m queued)
    (hg : s'.granted = update s.granted m granted) (hx : Ledger x held queued granted)
    (m' : SyncAddress) : Ledger (s'.mutex m') (s'.held m') (s'.queued m') (s'.granted m') := by
  rw [hm,hh,hq,hg]
  rcases eq_or_ne m' m with rfl | hne
  · simpa using hx
  · simpa [hne] using h.ledger m'

theorem stay (f : SyncAddress → List ThreadId) : f = update f m (f m) := (update_eq_self m f).symm

section
variable (h : Orderly s)
include h

theorem names_stalled (t : ThreadId) (m : SyncAddress) (hn : s.Names t m) : SyncStalled (s.threads.thread t) := by
  obtain ⟨c,hc⟩ := hn
  exact h.seats.parked.of_mem (i := .cond c) (List.mem_map.mpr ⟨_,hc,rfl⟩)

theorem names_ne (hc : (s.threads.thread t).Callable) (hn : s.Names u m) : u ≠ t := by
  rintro rfl
  exact not_syncStalled_of_running hc.1 (h.names_stalled u m hn)

theorem take (ho : (s.mutex m).owner = none) (t : ThreadId) :
    Orderly ((s.setMutex m { s.mutex m with owner := some t }).acquire t m) := by
  refine ⟨?_,?_⟩
  · change Seats (s.setMutex m _).owner (s.setMutex m _).queue s.Names s.threads
    rw [owner_setMutex,queue_setOwner]
    exact h.seats.keep (keeps_take ho _)
  · exact h.ledger_update (mutex_setMutex _) rfl (stay _) (stay _) (((h.ledger m).take ho t).acquire rfl)

section
variable (hc : (s.threads.thread t).Callable)
include hc

theorem enqueue (ho : (s.mutex m).owner = some o) : Orderly ((s.pushWaiter t m).stallThread t .mutex (.lock m)) := by
  refine ⟨?_,?_⟩
  · change Seats (s.setMutex m _).owner (s.setMutex m _).queue s.Names (s.threads.stallThread t _ _)
    rw [owner_setMutex,queue_setMutex]
    have hsame : update s.owner m (s.mutex m).owner = s.owner := update_eq_self m _
    rw [hsame]
    exact h.seats.enter (i := .mutex m) hc rfl (by simp) rfl fun u m' hu => .inl ⟨hu,h.names_ne hc hu⟩
  · exact h.ledger_update (mutex_setMutex _) (stay _) rfl (stay _) ((h.ledger m).push ho t)

theorem free (ho : (s.mutex m).owner = some t) (hq : (s.mutex m).waiting = []) :
    Orderly ((s.setMutex m { s.mutex m with owner := none }).yield t m) := by
  refine ⟨?_,?_⟩
  · change Seats (s.setMutex m _).owner (s.setMutex m _).queue s.Names s.threads
    rw [owner_setMutex,queue_setOwner]
    exact h.seats.keep (keeps_yield ho hc _)
  · exact h.ledger_update (mutex_setMutex _) rfl (stay _) (stay _) ((h.ledger m).free ho hq)

theorem handOver {w : ThreadId} {q : List ThreadId} (ho : (s.mutex m).owner = some t)
    (hq : (s.mutex m).waiting = w :: q) (time : SubsecondTime) : Orderly (({ (s.setMutex m ⟨q,some w⟩).yield t m with
      granted := update s.granted m (s.granted m ++ [w]) } : SyncServer).resumeThread w time) := by
  refine ⟨?_,?_⟩
  · change Seats (s.setMutex m _).owner (s.setMutex m _).queue s.Names (s.threads.resumeThread w time false)
    rw [owner_setMutex,queue_setMutex]
    refine h.seats.leave (i := .mutex m) hq (keeps_yield ho hc _) (fun k m' _ ha hk => ?_) (fun _ _ hu => hu) time
    rw [← ha.mutex_eq hk,update_self]
  · exact h.ledger_update (mutex_setMutex _) rfl (stay _) rfl ((h.ledger m).handOver ho hq)

theorem park (c m : SyncAddress) : Orderly ((s.setCond c (s.cond c ++ [⟨t,m⟩])).stallThread t .cond (.cond m)) := by
  refine ⟨?_,h.ledger⟩
  change Seats s.owner (s.setCond c _).queue (s.setCond c _).Names (s.threads.stallThread t _ _)
  rw [queue_setCond,map_append]
  refine h.seats.enter (i := .cond c) hc rfl (by simp) trivial fun u m' hu => ?_
  have hold : s.Names u m' → s.Names u m' ∧ u ≠ t := fun hn => ⟨hn,h.names_ne hc hn⟩
  obtain ⟨c',hc'⟩ := hu
  rcases eq_or_ne c' c with rfl | hne
  · rw [cond_setCond_self,mem_append,mem_singleton] at hc'
    rcases hc' with hc' | he
    · exact .inl (hold ⟨c',hc'⟩)
    · obtain ⟨rfl,rfl⟩ := CondWaiter.mk.inj he
      exact .inr ⟨rfl,rfl⟩
  · rw [cond_setCond_of_ne _ hne] at hc'
    exact .inl (hold ⟨c',hc'⟩)
end

theorem front_pending (hq : s.cond c = w :: q) : (s.threads.thread w.threadId).control.pending = some (.cond w.mutex) :=
  h.seats.named _ _ ⟨c,hq ▸ mem_cons_self⟩
end

theorem front_queue (hq : s.cond c = w :: q) : s.queue (.cond c) = w.threadId :: q.map (·.threadId) := by
  simp [queue,hq]

section
variable (h : Orderly s)
include h

theorem grant (hq : s.cond c = w :: q) (ho : (s.mutex w.mutex).owner = none) (time : SubsecondTime) :
    Orderly (((s.setCond c q).setMutex w.mutex
      { s.mutex w.mutex with owner := some w.threadId }).resumeThread w.threadId time) := by
  refine ⟨?_,?_⟩
  · have hqueue : ((s.setCond c q).setMutex w.mutex
        { s.mutex w.mutex with owner := some w.threadId }).queue = (s.setCond c q).queue :=
      queue_setOwner w.mutex _
    change Seats ((s.setCond c q).setMutex w.mutex _).owner ((s.setCond c q).setMutex w.mutex _).queue
      (s.setCond c q).Names (s.threads.resumeThread w.threadId time false)
    rw [hqueue,owner_setMutex,queue_setCond]
    refine h.seats.leave (i := .cond c) (front_queue hq) (keeps_take ho _) (fun k m' hp _ hk => ?_)
      (names_setCond_tail hq) time
    obtain rfl := some.inj ((h.front_pending hq).symm.trans hp)
    cases hk
    rw [update_self]
  · exact h.ledger_update (mutex_setMutex _) (stay _) (stay _) (stay _) ((h.ledger _).take ho _)

theorem shift (hq : s.cond c = w :: q) (ho : (s.mutex w.mutex).owner = some o) :
    Orderly ((s.setCond c q).pushWaiter w.threadId w.mutex) := by
  refine ⟨?_,?_⟩
  · change Seats ((s.setCond c q).setMutex w.mutex _).owner ((s.setCond c q).setMutex w.mutex _).queue
      (s.setCond c q).Names s.threads
    rw [owner_setMutex,queue_setMutex,queue_setCond]
    have hsame : update (s.setCond c q).owner w.mutex ((s.setCond c q).mutex w.mutex).owner =
        s.owner := update_eq_self w.mutex s.owner
    rw [hsame]
    exact h.seats.transfer (j := .mutex w.mutex) (front_queue hq) (by simp)
      ⟨_,h.front_pending hq,rfl⟩ (names_setCond_tail hq)
  · exact h.ledger_update (mutex_setMutex _) (stay _) rfl (stay _) ((h.ledger _).push ho _)

theorem know (m : SyncAddress) : Orderly (s.getMutex m) := by
  have hq : (s.getMutex m).queue = s.queue := by
    unfold getMutex
    split_ifs with hm
    · rfl
    · have hf : s.mutex m = .free := by rw [mutex,not_isSome_iff_eq_none.mp hm]; rfl
      rw [queue_setMutex,← hf]
      exact update_eq_self _ _
  have ho : (s.getMutex m).owner = s.owner := by
    funext m'
    rw [owner,owner,mutex_getMutex]
  unfold getMutex at hq ho ⊢
  split_ifs at hq ho ⊢ with hm
  · exact h
  · refine ⟨?_,fun m' => ?_⟩
    · rw [hq,ho]
      exact h.seats
    · have hx : (s.setMutex m .free).mutex = s.mutex := by
        have hg := mutex_getMutex (s := s) (m := m)
        rwa [getMutex,if_neg hm] at hg
      rw [hx]
      exact h.ledger m'

theorem knowCond (c : SyncAddress) : Orderly (s.getCond c) := by
  unfold getCond
  split_ifs with hc
  · exact h
  · have hx : (s.setCond c []).cond = s.cond := by
      have hg := cond_getCond (s := s) (c := c)
      rwa [getCond,if_neg hc] at hg
    refine ⟨?_,h.ledger⟩
    have hq : (s.setCond c []).queue = s.queue := by
      funext i
      cases i with
      | mutex m => rfl
      | cond c' => rw [queue,queue,hx]
      | barrier b => rfl
    have hn : (s.setCond c []).Names = s.Names := by
      funext t m
      rw [Names,Names,hx]
    rw [hq,hn]
    exact h.seats

theorem arrive {x : SimBarrier} (hc : (s.threads.thread t).Callable) (hb : s.barriers[b]? = some x) :
    Orderly ((s.setBarrier b { x with waiting := x.waiting ++ [t] }).stallThread t .barrier (.barrier b)) := by
  refine ⟨?_,h.ledger⟩
  change Seats s.owner (s.setBarrier b _).queue s.Names (s.threads.stallThread t _ _)
  rw [queue_setBarrier hb,← barrierQueue_of_some hb]
  exact h.seats.enter (i := .barrier b) hc rfl (by simp) rfl fun u m hu => .inl ⟨hu,h.names_ne hc hu⟩

theorem letGo {w : ThreadId} {q : List ThreadId} {count : BitVec 32}
    (hb : s.barriers[b]? = some ⟨w :: q,count⟩) (time : SubsecondTime) :
    Orderly ((s.setBarrier b ⟨q,count⟩).resumeThread w time) := by
  refine ⟨?_,h.ledger⟩
  change Seats s.owner (s.setBarrier b _).queue s.Names (s.threads.resumeThread w time false)
  rw [queue_setBarrier hb]
  refine h.seats.leave (i := .barrier b) (barrierQueue_of_some hb) (fun m u hu _ => hu)
    (fun k m _ ha hk => ?_) (fun _ _ hu => hu) time
  rw [ha.barrier_mutex] at hk
  cases hk

theorem block (hk : (s.threads.thread t).control = .stalling k)
    (hr : (s.threads.thread t).status ≠ .running) : Orderly { s with threads := s.threads.wait t k } := by
  refine ⟨h.seats.pass (fun u => ?_) (fun u => ?_) (fun u _ => ?_) h.names_stalled,h.ledger⟩
  · rcases eq_or_ne u t with rfl | hne
    · rw [wait_self]
      cases h.seats.phase u with
      | outside hf => exact .outside ⟨fun k' hk' => hf.outside k' (by rw [hk]; exact hk'),hf.notStalled⟩
      | queued k' hne hs hc =>
        rw [hk] at hc
        rcases hc with hc | hc
        · obtain rfl := Control.stalling.inj hc
          exact .queued k hne hs (.inr rfl)
        · cases hc
      | resumed k' _ hrun _ _ => exact (hr hrun).elim
    · rw [wait_of_ne hne]
      exact h.seats.phase u
  · rcases eq_or_ne u t with rfl | hne
    · rw [wait_self]
      exact Iff.rfl
    · rw [wait_of_ne hne]
  · rcases eq_or_ne u t with rfl | hne
    · rw [wait_self,hk]
      rfl
    · rw [wait_of_ne hne]

theorem env {threads : ThreadManager SyncCall} {e : EnvLabel}
    (he : s.threads.envStep own .other e = some threads) : Orderly { s with threads := threads } := by
  have hf := fun u => (h.seats.phase u).env he
  refine ⟨h.seats.pass (fun u => (hf u).1) (fun u => ?_) (fun u hs => ?_) h.names_stalled,h.ledger⟩
  · rcases (hf u).2 with hu | ⟨hn,hn'⟩ <;> simp [*]
  · rcases (hf u).2 with hu | ⟨hn,-⟩
    · rw [hu]
    · exact (hn hs).elim

theorem leave (hn : ¬ SyncStalled (s.threads.thread t))
    (hf : Free own SyncCall.other { s.threads.thread t with control := .user }) :
    Orderly { s with threads := s.threads.leave t } := by
  refine ⟨h.seats.pass (fun u => ?_) (fun u => ?_) (fun u hs => ?_) h.names_stalled,h.ledger⟩
  · rcases eq_or_ne u t with rfl | hne
    · rw [leave_self]
      exact .outside hf
    · rw [leave_of_ne hne]
      exact h.seats.phase u
  · rcases eq_or_ne u t with rfl | hne
    · rw [leave_self]
      exact Iff.rfl
    · rw [leave_of_ne hne]
  · rcases eq_or_ne u t with rfl | hne
    · exact (hn hs).elim
    · rw [leave_of_ne hne]

theorem acquire (ho : s.owner m = some t) : Orderly (s.acquire t m) :=
  ⟨h.seats,h.ledger_update (update_eq_self m s.mutex).symm rfl (stay _) (stay _) ((h.ledger m).acquire ho)⟩
end

theorem finish (cost : SubsecondTime) (h : Orderly s)
    (hk : (s.threads.thread t).control = .stalling k ∧ (s.threads.thread t).status = .running ∨
      (s.threads.thread t).control = .signalled k) : Orderly (finish cost s t k).1 := by
  have hpend : (s.threads.thread t).control.pending = some k := by
    rcases hk with ⟨hk,-⟩ | hk <;> rw [hk] <;> rfl
  cases h.seats.phase t with
  | outside hf =>
    obtain rfl := hf.outside k hpend
    exact h.leave (not_syncStalled_of_free hf) ⟨fun k' hk' => (by cases hk'),hf.notStalled⟩
  | queued k' _ hs hc =>
    rcases hk with ⟨-,hrun⟩ | hk
    · exact (not_syncStalled_of_running hrun hs).elim
    · rw [hk] at hc
      rcases hc with hc | hc <;> cases hc
  | resumed k' hne hrun hc ho =>
    obtain rfl : k = k' := by
      rcases hc with hc | hc <;> rw [hc] at hpend <;> exact (some.inj hpend).symm
    have hn := not_syncStalled_of_running hrun
    have hfree : Free own SyncCall.other { s.threads.thread t with control := .user } := Free.of_callable ⟨hrun,rfl⟩
    cases k with
    | lock m | cond m => exact (h.acquire (ho m rfl)).leave hn hfree
    | barrier b | other => exact h.leave hn hfree

theorem move {g : Bool} (hm : Move g s s') (h : Orderly s) : Orderly s' := by
  cases hm with
  | know => exact h.know _
  | knowCond => exact h.knowCond _
  | take _ ho => exact h.take ho _
  | enqueue hc ho => exact h.enqueue hc ho
  | free hc ho hq => exact h.free hc ho hq
  | handOver hc ho hq time => exact h.handOver hc ho hq time
  | park hc => exact h.park hc _ _
  | grant hq ho time => exact h.grant hq ho time
  | shift hq ho => exact h.shift hq ho
  | create _ count =>
    refine ⟨?_,h.ledger⟩
    rw [queue_barrierInit]
    exact h.seats
  | note => exact { h with }
  | arrive _ hc hb => exact h.arrive hc hb
  | letGo _ hb time => exact h.letGo hb time
  | block hk hr => exact h.block hk hr
  | finish cost hk => exact h.finish cost hk
  | env he => exact h.env he

theorem init : Orderly SyncServer.init := by
  have hq : SyncServer.init.queue = fun _ => [] := by
    funext i
    cases i <;> rfl
  have hn : ∀ t m, ¬ SyncServer.init.Names t m := by
    rintro t m ⟨c,hc⟩
    cases hc
  refine ⟨⟨fun t => .outside ⟨fun k hk => (by cases hk),fun hs => (by cases hs)⟩,?_,?_,?_⟩,fun m =>
    ⟨fun t ht => (by cases ht),fun hw => (hw rfl).elim,rfl⟩⟩
  · rw [hq]
    exact Parked.empty fun t hs => by cases hs.1
  · intro i t ht
    rw [hq] at ht
    cases ht
  · exact fun t m ht => (hn t m ht).elim

end Orderly
end SyncServer
