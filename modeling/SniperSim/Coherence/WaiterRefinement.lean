import SniperSim.Coherence.Waiters

open Function List Except
namespace Coherence
variable {n : Nat} {D : Type}
namespace LlcLine
variable {b b' : LlcLine D} {op : MemOp D} {r : LlcLine D × List (LlcMsg D)}

def performed (b : LlcLine D) : MemOp D → LlcLine D
  | .read => b
  | .readEx => { b with cstate := .modified }
  | .write v => { b with cstate := .modified, data := v }

inductive Serving : CacheState → Prop
  | shared : Serving .shared
  | exclusive : Serving .exclusive
  | modified : Serving .modified

theorem permits_exclusive (h : b.permits true) : b.cstate = .exclusive ∨ b.cstate = .modified := by
  simpa [permits] using h

theorem processMemOp_hit (h : b.permits op.exclusive) : b.processMemOp op = .ok (b.performed op,[]) := by
  obtain ⟨s,d,ws⟩ := b
  cases op with
  | read => exact if_pos h
  | _ => rcases permits_exclusive h with hs | hs <;> subst hs <;> rfl

theorem processMemOp_miss (h : b.permits op.exclusive = false) :
    b.processMemOp op = b.initiateDirectoryAccess op.exclusive := by
  cases op with
  | read => simp_all [processMemOp,permits,MemOp.exclusive]
  | _ => simp_all [processMemOp,permits,MemOp.exclusive,writable]

theorem initiateDirectoryAccess_waiters (h : b.initiateDirectoryAccess x = .ok r) : r.1.waiters = b.waiters ++ [x] := by
  unfold initiateDirectoryAccess at h
  split_ifs at h <;> obtain rfl := ok.inj h <;> rfl

theorem initiateDirectoryAccess_queued (hw : b.waiters ≠ []) :
    b.initiateDirectoryAccess x = .ok ({ b with waiters := b.waiters ++ [x] },[]) := by
  unfold initiateDirectoryAccess
  simp [hw]

theorem acceptReply_wake (hm : m.isReply) (junk : D) :
    b.handleMsgFromDramDirectory junk m = (do let b ← b.acceptReply m; return b.wake) := by
  cases m with
  | exRep d | shRep d => exact (bind_assoc _ _ _).symm
  | upgradeRep =>
    simp only [handleMsgFromDramDirectory,processUpgradeRep,acceptReply,bind_assoc]
    congr 1
    funext _
    split_ifs
    · rfl
    · simp
    · rfl
  | _ => simp [DirMsg.isReply] at hm

inductive Accepted (b : LlcLine D) : DirMsg D → LlcLine D → Prop
  | exRep (d : D) (hs : b.cstate = .invalid) : Accepted b (.exRep d) { b with cstate := .exclusive, data := d }
  | shRep (d : D) (hs : b.cstate = .invalid) : Accepted b (.shRep d) { b with cstate := .shared, data := d }
  | upgradeRep (hs : b.cstate = .sharedUpgrading) : Accepted b .upgradeRep { b with cstate := .modified }

theorem acceptReply_accepted (h : b.acceptReply m = .ok b') : Accepted b m b' := by
  obtain ⟨s,d,ws⟩ := b
  cases ws with
  | nil => cases m <;> cases h
  | cons x ws =>
    cases m with
    | exRep d =>
      cases s with
      | invalid => obtain rfl := ok.inj h; exact .exRep d rfl
      | _ => cases h
    | shRep d =>
      cases s with
      | invalid => obtain rfl := ok.inj h; exact .shRep d rfl
      | _ => cases h
    | upgradeRep =>
      cases s with
      | sharedUpgrading => obtain rfl := ok.inj h; exact .upgradeRep rfl
      | _ => cases h
    | _ => cases h

theorem Accepted.acceptReply (h : Accepted b m b') (hw : b.waiters ≠ []) : b.acceptReply m = .ok b' := by
  obtain ⟨s,d,ws⟩ := b
  obtain ⟨x,ws,rfl⟩ := exists_cons_of_ne_nil hw
  cases h with
  | exRep d hs | shRep d hs | upgradeRep hs => obtain rfl := hs; rfl

theorem Accepted.waiters (h : Accepted b m b') : b'.waiters = b.waiters := by
  cases h <;> rfl

theorem Accepted.serving (h : Accepted b m b') : Serving b'.cstate := by
  cases h with
  | exRep => exact .exclusive
  | shRep => exact .shared
  | upgradeRep => exact .modified

def settle : Option Handover → LlcLine D → LlcLine D × List (LlcMsg D)
  | none, b => (b,[])
  | some .user, b =>
    wake { b with
      cstate := if b.waiters.head? = some true ∧ b.cstate = .exclusive then .modified else b.cstate
      waiters := b.waiters.tail }
  | some .network, b => wake { b with waiters := b.waiters.tail }

theorem wake_nil (hw : b.waiters = []) : b.wake = (b,[]) := by
  obtain ⟨s,d,ws⟩ := b
  obtain rfl := hw
  rfl

theorem wake_upgrade (hw : b.waiters = true :: ws) (hs : b.cstate = .shared) :
    b.wake = ({ b with cstate := .sharedUpgrading },[.upgradeReq]) := by
  obtain ⟨s,d,ws'⟩ := b
  obtain rfl := hw
  obtain rfl := hs
  rfl

theorem wake_user (hw : b.waiters = x :: ws) (hs : ¬ (x ∧ b.cstate = .shared)) : b.wake = settle (some .user) b := by
  obtain ⟨s,d,ws'⟩ := b
  obtain rfl := hw
  simp only [wake,settle,wakeWaiters,if_neg hs,head?_cons,Option.some.injEq,tail_cons]

theorem wake_owned (hs : b.cstate = .exclusive ∨ b.cstate = .modified) :
    ∃ s, b.wake = (⟨s,b.data,[]⟩,[]) ∧ (s = .exclusive ∨ s = .modified) := by
  rcases hs with hs | hs
  · refine ⟨if true ∈ b.waiters then .modified else .exclusive,?_,?_⟩
    · simp [wake,hs,wakeWaiters_exclusive]
    · split <;> simp [*]
  · exact ⟨.modified,by simp [wake,hs,wakeWaiters_modified],.inr rfl⟩

theorem performed_owned (hx : op.exclusive) : (b.performed op).cstate = .modified := by
  cases op with
  | read => simp [MemOp.exclusive] at hx
  | _ => rfl

theorem wake_performed (hx : op.exclusive) (hs : b.cstate = .exclusive ∨ b.cstate = .modified) :
    b.wake.1.permits op.exclusive ∧ b.wake.1.performed op = (b.performed op).wake.1 ∧
      b.wake.2 = [] ∧ (b.performed op).wake.2 = [] := by
  obtain ⟨s,hb,ho⟩ := wake_owned hs
  rw [wake.eq_1 (b.performed op),performed_owned hx,wakeWaiters_modified,hb]
  refine ⟨?_,?_,rfl,rfl⟩
  · rcases ho with rfl | rfl <;> simp [permits,hx]
  · cases op with
    | read => simp [MemOp.exclusive] at hx
    | _ => rfl

theorem written_hit (hp : b.permits op.exclusive) (hp' : b'.permits op.exclusive) : b'.written op = b.written op := by
  cases op with
  | write v =>
    rcases permits_exclusive hp with hs | hs <;> rcases permits_exclusive hp' with hs' | hs' <;>
      simp [written,writable,hs,hs']
  | _ => rfl

theorem wakeWaiters_concat (ws : List Bool) : wakeWaiters (D := D) .shared ws = (.shared,[],[]) ∧
        wakeWaiters (D := D) .shared (ws ++ [true]) = (.sharedUpgrading,[true],[.upgradeReq]) ∨
      ∃ rest, wakeWaiters (D := D) .shared ws = (.sharedUpgrading,true :: rest,[.upgradeReq]) ∧
        wakeWaiters (D := D) .shared (ws ++ [true]) = (.sharedUpgrading,true :: (rest ++ [true]),[.upgradeReq]) := by
  induction ws with
  | nil => exact .inl ⟨rfl,rfl⟩
  | cons x ws ih =>
    cases x with
    | true => exact .inr ⟨ws,rfl,rfl⟩
    | false => exact ih

theorem wake_concat (hx : op.exclusive) (hs : b.cstate = .shared) : b.wake.1.permits op.exclusive = false ∧ ∃ out,
      b.wake.1.initiateDirectoryAccess true =
        .ok (({ b with waiters := b.waiters ++ [true] } : LlcLine D).wake.1,out) ∧
      b.wake.2 ++ out = ({ b with waiters := b.waiters ++ [true] } : LlcLine D).wake.2 := by
  obtain ⟨s,d,ws⟩ := b
  obtain rfl := hs
  simp only [wake]
  rcases wakeWaiters_concat (D := D) ws with ⟨h,h'⟩ | ⟨rest,h,h'⟩
  · rw [h,h',hx]
    exact ⟨rfl,[.upgradeReq],rfl,rfl⟩
  · rw [h,h',hx]
    exact ⟨rfl,[],rfl,rfl⟩

theorem evict_waiters (h : b.evict = .ok r) : r.1.waiters = b.waiters := by
  obtain ⟨s,d,ws⟩ := b
  cases s <;> cases h <;> rfl

theorem handleMsgFromDramDirectory_waiters (hm : m.isReply = false) (h : b.handleMsgFromDramDirectory junk m = .ok r) :
    r.1.waiters = b.waiters := by
  obtain ⟨b',out⟩ := r
  have hmoves : b.Moves junk (some m) none b' out := (handleMsgFromDramDirectory_moves m).of_ok h
  cases hmoves with
  | fillExclusive | fillShared | fillUpgrading | upgrade => simp [DirMsg.isReply] at hm
  | _ => rfl

theorem permits_of_serving (h : Serving b.cstate) : b.permits false := by
  obtain ⟨s,d,ws⟩ := b
  cases h <;> rfl

theorem shared_of_serving (h : Serving b.cstate) (hp : b.permits x = false) : x ∧ b.cstate = .shared := by
  obtain ⟨s,d,ws⟩ := b
  cases x with
  | false => simp [permits_of_serving h] at hp
  | true =>
    cases h with
    | shared => exact ⟨rfl,rfl⟩
    | _ => cases hp

theorem performed_serving (h : Serving b.cstate) (op : MemOp D) : Serving (b.performed op).cstate := by
  cases op with
  | read => exact h
  | _ => exact .modified

theorem performed_waiters (b : LlcLine D) (op : MemOp D) : (b.performed op).waiters = b.waiters := by
  cases op <;> rfl

theorem performed_tail (b : LlcLine D) (op : MemOp D) (ws : List Bool) :
    { b.performed op with waiters := ws } = ({ b with waiters := ws } : LlcLine D).performed op := by
  cases op <;> rfl

end LlcLine

namespace Line
variable {ln ln' : Line n D} {c : Fin n} {op : MemOp D} {b : LlcLine D} {p : Fin n → Option Handover}

theorem step_core_hit (h : (ln.llc c).permits op.exclusive) :
    ln.step cfg (.core c op) = .ok { ln.setLlc c ((ln.llc c).performed op) [] with
      lastWrite := ((ln.llc c).written op).getD ln.lastWrite } := by
  rw [step,LlcLine.processMemOp_hit h]
  rfl

theorem written_miss (h : b.permits op.exclusive = false) : b.written op = none := by
  cases op with
  | write v =>
    refine if_neg ?_
    simp_all [LlcLine.permits,MemOp.exclusive,LlcLine.writable]
  | _ => rfl

theorem step_core_miss (h : (ln.llc c).permits op.exclusive = false) (hs : ln.step cfg (.core c op) = .ok ln') :
    ∃ b out, (ln.llc c).initiateDirectoryAccess op.exclusive = .ok (b,out) ∧ ln' = ln.setLlc c b out := by
  rw [step,LlcLine.processMemOp_miss h,written_miss h] at hs
  obtain ⟨r,hr,hs⟩ := Outcome.bind_ok hs
  exact ⟨r.1,r.2,hr,(ok.inj hs).symm⟩

def settle (p : Fin n → Option Handover) (ln : Line n D) : Line n D :=
  ln.behind (fun c => (LlcLine.settle (p c) (ln.llc c)).1) fun c => (LlcLine.settle (p c) (ln.llc c)).2

theorem settle_setLlc (p : Fin n → Option Handover) (q : Option Handover)
    (ho : (LlcLine.settle (p c) (ln.llc c)).2 ++ out' = out ++ (LlcLine.settle q b).2) :
    (ln.setLlc c b out).settle (update p c q) = (ln.settle p).setLlc c (LlcLine.settle q b).1 out' := by
  unfold settle setLlc behind
  congr 1
  · funext c'
    rcases eq_or_ne c' c with rfl | hc <;> simp [*]
  · funext c'
    rcases eq_or_ne c' c with rfl | hc <;> simp [*]

theorem setLlc_self (ln : Line n D) (c : Fin n) : ln.setLlc c (ln.llc c) [] = ln := by
  unfold setLlc
  rw [update_eq_self,append_nil,update_eq_self]

theorem settle_stutter (p : Fin n → Option Handover) (q : Option Handover)
    (hb : (LlcLine.settle q b).1 = (LlcLine.settle (p c) (ln.llc c)).1)
    (ho : (LlcLine.settle (p c) (ln.llc c)).2 = out ++ (LlcLine.settle q b).2) :
    (ln.setLlc c b out).settle (update p c q) = ln.settle p := by
  rw [settle_setLlc p q ((append_nil _).trans ho),hb]
  exact setLlc_self (ln.settle p) c

theorem step_settle (p : Fin n → Option Handover) (hl : l.llc = none) (h : ln.step cfg l = .ok ln') :
    ln'.llc = ln.llc ∧ (ln.settle p).step cfg l = .ok (ln'.settle p) := by
  have hb : ln.behind ln.llc (fun _ => []) = ln := by
    unfold behind
    simp
  have hl' := step_behind ln.llc (fun _ => []) hl h
  rw [hb,h] at hl'
  have hllc : ln'.llc = (ln'.behind ln.llc fun _ => []).llc := congrArg llc (ok.inj hl')
  refine ⟨hllc,?_⟩
  rw [settle,settle,step_behind _ _ hl h,hllc]
  rfl

theorem step_core_ok (h : (ln.llc c).processMemOp op = .ok (b',out)) :
    ln.step cfg (.core c op) = .ok { ln.setLlc c b' out with
      lastWrite := ((ln.llc c).written op).getD ln.lastWrite } := by
  rw [step,h]
  rfl

theorem settle_llc (p : Fin n → Option Handover) (ln : Line n D) (c : Fin n) :
    (ln.settle p).llc c = (LlcLine.settle (p c) (ln.llc c)).1 := rfl

theorem settle_setLlc_idle (hp : p c = none) : (ln.setLlc c b out).settle p = (ln.settle p).setLlc c b out := by
  have hs : (ln.setLlc c b out).settle (update p c none) = (ln.settle p).setLlc c b out :=
    settle_setLlc p none (by rw [hp]; exact (append_nil _).symm)
  rwa [update_eq_self_iff.mpr hp.symm] at hs

theorem step_llc_settle (hp : p c = none) (hl : l.llc = some c) (h : ln.step cfg l = .ok ln') :
    (ln.settle p).step cfg l = .ok (ln'.settle p) := by
  have hb : (ln.settle p).llc c = ln.llc c := by rw [settle_llc,hp]; rfl
  cases l with
  | core c' op =>
    obtain rfl := Option.some.inj hl
    cases hr : (ln.llc c').processMemOp op with
    | error f =>
      rw [step,hr] at h
      cases h
    | ok r =>
      rw [step_core_ok hr] at h
      cases h
      rw [step_core_ok (by rw [hb]; exact hr),hb,← settle_setLlc_idle hp]
      rfl
  | evict c' =>
    obtain rfl := Option.some.inj hl
    rw [step] at h ⊢
    rw [hb]
    obtain ⟨r,hr,h⟩ := Outcome.bind_ok h
    cases h
    rw [hr]
    exact congrArg ok (settle_setLlc_idle hp).symm
  | deliverLlc c' junk =>
    obtain rfl := Option.some.inj hl
    have hi : (ln.settle p).toLlc = ln.toLlc := rfl
    rw [step] at h ⊢
    rw [hb,hi]
    cases hm : ln.toLlc c' with
    | nil => simp [hm] at h
    | cons m ms =>
      rw [hm] at h
      dsimp only at h ⊢
      obtain ⟨r,hr,h⟩ := Outcome.bind_ok h
      cases h
      rw [hr]
      change ok { (ln.settle p).setLlc c' r.1 r.2 with
        toLlc := update ln.toLlc c' ms } = _
      rw [← settle_setLlc_idle hp]
      rfl
  | _ => simp [Label.llc] at hl

theorem settle_wake (hp : p c = none) (hb : (ln.llc c).wake = LlcLine.settle q (ln.llc c)) : ln.settle (update p c q) =
      (ln.setLlc c (ln.llc c).wake.1 (ln.llc c).wake.2).settle p := by
  have hq : (ln.setLlc c (ln.llc c) []).settle (update p c q) =
      (ln.settle p).setLlc c (LlcLine.settle q (ln.llc c)).1 (LlcLine.settle q (ln.llc c)).2 :=
    settle_setLlc p q (by rw [hp]; rfl)
  have hn : (ln.setLlc c (ln.llc c).wake.1 (ln.llc c).wake.2).settle (update p c none) =
      (ln.settle p).setLlc c (ln.llc c).wake.1 (ln.llc c).wake.2 :=
    settle_setLlc p none (by rw [hp]; exact (append_nil _).symm)
  rw [setLlc_self] at hq
  rw [update_eq_self_iff.mpr hp.symm] at hn
  rw [hq,hn,hb]

end Line

namespace WaiterSystem
variable {Addr T : Type} [DecidableEq Addr]

def servedAt (r : Option (Addr × Handover)) (a : Addr) : Option Handover :=
  r.bind fun h => if h.1 = a then some h.2 else none

variable (s : WaiterSystem Addr T n D)

def phase (a : Addr) (c : Fin n) : Option Handover := servedAt (s.networkThread c) a

def settled : System Addr n D := fun a => (s.lines a).settle (s.phase a)

def unwoken (a : Addr) (c : Fin n) : List (CacheDirectoryWaiter T D) :=
  if (s.phase a c).isSome then (s.directoryWaiters a c).tail else s.directoryWaiters a c

structure Seated (q : List (CacheDirectoryWaiter T D)) (b : LlcLine D) (p : Option Handover)
    (e k : List (CacheDirectoryWaiter T D)) : Prop where
  flags : b.waiters = q.map (·.exclusive)
  serving : p.isSome → q ≠ [] ∧ LlcLine.Serving b.cstate
  permitted : p = some .user → ∀ w ∈ q.head?, b.permits w.exclusive
  history : e = k ++ if p.isSome then q.tail else q

def Ordered : Prop :=
  ∀ a c, Seated (s.directoryWaiters a c) ((s.lines a).llc c) (s.phase a c) (s.enqueued a c) (s.woken a c)

def write (a : Addr) (c : Fin n) (ln : Line n D) (q : List (CacheDirectoryWaiter T D)) (r : Option (Addr × Handover))
    (e k : List (CacheDirectoryWaiter T D)) : WaiterSystem Addr T n D where
  lines := update s.lines a ln
  directoryWaiters := put s.directoryWaiters a c q
  networkThread := update s.networkThread c r
  enqueued := put s.enqueued a c e
  woken := put s.woken a c k

variable {s : WaiterSystem Addr T n D} {a : Addr} {c : Fin n} {ln ln' : Line n D}
  {q e k k' : List (CacheDirectoryWaiter T D)} {r : Option (Addr × Handover)} {α : Type}

section
variable (f : Addr → Fin n → α)
include f

theorem put_self (a : Addr) (c : Fin n) (x : α) : put f a c x a c = x := by
  rw [put,update_self,update_self]

theorem put_eq_self (a : Addr) (c : Fin n) : put f a c (f a c) = f := by
  rw [put,update_eq_self,update_eq_self]

theorem put_put (a : Addr) (c : Fin n) (x y : α) : put (put f a c x) a c y = put f a c y := by
  simp [put]

theorem put_of_ne (x : α) (h : a' ≠ a ∨ c' ≠ c) : put f a c x a' c' = f a' c' := by
  rcases eq_or_ne a' a with rfl | ha
  · rw [put,update_self,update_of_ne (h.resolve_left fun hn => hn rfl)]
  · rw [put,update_of_ne ha]
end

theorem write_write : (s.write a c ln q r e k).write a c ln' q' r' e' k' = s.write a c ln' q' r' e' k' := by
  simp [write,put_put]

theorem phase_write (a' : Addr) : (s.write a c ln q r e k).phase a' = update (s.phase a') c (servedAt r a') := by
  funext c'
  rcases eq_or_ne c' c with rfl | hc <;> simp [*,phase,write]

theorem settled_write (hr : ∀ a' ≠ a, servedAt r a' = s.phase a' c) : (s.write a c ln q r e k).settled =
      update s.settled a (ln.settle (update (s.phase a) c (servedAt r a))) := by
  funext a'
  rw [settled,phase_write]
  rcases eq_or_ne a' a with rfl | ha
  · simp [write]
  · simp only [write,update_of_ne ha,hr a' ha,update_eq_self]
    rfl

theorem Ordered.write (h : s.Ordered) (hl : ∀ c' ≠ c, ln.llc c' = (s.lines a).llc c')
    (hr : ∀ a' ≠ a, servedAt r a' = s.phase a' c)
    (hs : Seated q (ln.llc c) (servedAt r a) e k) : (s.write a c ln q r e k).Ordered := by
  intro a' c'
  rw [phase_write]
  rcases eq_or_ne c' c with rfl | hc
  · rcases eq_or_ne a' a with rfl | ha
    · simp only [WaiterSystem.write,put_self,update_self]
      exact hs
    · simp only [WaiterSystem.write,put_of_ne _ _ (.inl ha),update_of_ne ha,update_self,hr a' ha]
      exact h a' c'
  · have hq := h a' c'
    rw [update_of_ne hc]
    simp only [WaiterSystem.write,put_of_ne _ _ (.inr hc)]
    rcases eq_or_ne a' a with rfl | ha <;> simp [*]

theorem setLine_write (s : WaiterSystem Addr T n D) (a : Addr) (c : Fin n) (ln : Line n D) :
    s.setLine a ln = s.write a c ln (s.directoryWaiters a c) (s.networkThread c) (s.enqueued a c) (s.woken a c) := by
  simp only [setLine,write,put_eq_self,update_eq_self]

theorem wakeUpNext_nil (hq : s.directoryWaiters a c = []) :
    s.wakeUpNext a c = s.write a c (s.lines a) [] none (s.enqueued a c) (s.woken a c) := by
  unfold wakeUpNext
  rw [hq]
  simp only [setNetworkThread,write,← hq,put_eq_self,update_eq_self]

theorem wakeUpNext_upgrade (hq : s.directoryWaiters a c = w :: q)
    (hw : w.exclusive ∧ ((s.lines a).llc c).cstate = .shared) : s.wakeUpNext a c = s.write a c ((s.lines a).setLlc c
      { (s.lines a).llc c with cstate := .sharedUpgrading } [.upgradeReq]) (w :: q) none
      (s.enqueued a c) (s.woken a c) := by
  unfold wakeUpNext
  rw [hq]
  dsimp only
  rw [if_pos hw]
  simp only [setNetworkThread,setLine,write,← hq,put_eq_self]

theorem wakeUpNext_user (hq : s.directoryWaiters a c = w :: q)
    (hw : ¬ (w.exclusive ∧ ((s.lines a).llc c).cstate = .shared)) :
    s.wakeUpNext a c = s.write a c (s.lines a) (w :: q) (some (a,.user)) (s.enqueued a c) (s.woken a c ++ [w]) := by
  unfold wakeUpNext
  rw [hq]
  dsimp only
  rw [if_neg hw]
  simp only [setNetworkThread,write,← hq,put_eq_self,update_eq_self]

theorem servedAt_self (p : Handover) : servedAt (some (a,p)) a = some p := if_pos rfl

theorem servedAt_ne (p : Handover) (ha : a' ≠ a) : servedAt (some (a,p)) a' = none := if_neg ha.symm

structure Wakes (a : Addr) (c : Fin n) (ln : Line n D) (q e k : List (CacheDirectoryWaiter T D))
    (ln' : Line n D) (r : Option (Addr × Handover)) (k' : List (CacheDirectoryWaiter T D)) : Prop where
  seated : Seated q (ln'.llc c) (servedAt r a) e k'
  others : ∀ c' ≠ c, ln'.llc c' = ln.llc c'
  elsewhere : ∀ a' ≠ a, servedAt r a' = none
  settles : ∀ p : Fin n → Option Handover, p c = none →
    ln'.settle (update p c (servedAt r a)) = (ln.setLlc c (ln.llc c).wake.1 (ln.llc c).wake.2).settle p
  log : k' = k ∨ ∃ w rest, q = w :: rest ∧ k' = k ++ [w] ∧ (ln'.llc c).permits w.exclusive

theorem wakes_next (s : WaiterSystem Addr T n D) (a : Addr) (ln : Line n D)
    (r : Option (Addr × Handover)) (hf : (ln.llc c).waiters = q.map (·.exclusive))
    (hs : LlcLine.Serving (ln.llc c).cstate) (he : e = k ++ q) :
    ∃ ln' r' k', (s.write a c ln q r e k).wakeUpNext a c = s.write a c ln' q r' e k' ∧
      Wakes a c ln q e k ln' r' k' := by
  have hline : (s.write a c ln q r e k).lines a = ln := update_self _ _ _
  have hqueue : (s.write a c ln q r e k).directoryWaiters a c = q := put_self _ _ _ _
  have henq : (s.write a c ln q r e k).enqueued a c = e := put_self _ _ _ _
  have hwok : (s.write a c ln q r e k).woken a c = k := put_self _ _ _ _
  cases q with
  | nil =>
    have hw := LlcLine.wake_nil hf
    rw [wakeUpNext_nil hqueue,write_write,hline,henq,hwok]
    refine ⟨_,_,_,rfl,⟨hf,by simp [servedAt],by simp [servedAt],he⟩,fun _ _ => rfl,fun _ _ => rfl,
      fun p hp => ?_,.inl rfl⟩
    rw [hw,Line.setLlc_self]
    exact congrArg (Line.settle · ln) (update_eq_self_iff.mpr hp.symm)
  | cons w rest =>
    have hor : (w.exclusive ∧ (ln.llc c).cstate = .shared) ∨ ¬ (w.exclusive ∧ (ln.llc c).cstate = .shared) := em _
    rcases hor with hw | hw
    · rw [wakeUpNext_upgrade hqueue (by rwa [hline]),write_write,hline,henq,hwok]
      rw [map_cons,hw.1] at hf
      refine ⟨_,_,_,rfl,⟨?_,by simp [servedAt],by simp [servedAt],he⟩,fun c' hc => ?_,
        fun _ _ => rfl,fun p hp => ?_,.inl rfl⟩
      · simpa [Line.setLlc,hw.1] using hf
      · exact update_of_ne hc _ _
      · rw [LlcLine.wake_upgrade hf hw.2]
        exact congrArg (Line.settle · _) (update_eq_self_iff.mpr hp.symm)
    · have hp : (ln.llc c).permits w.exclusive := by
        cases hp : (ln.llc c).permits w.exclusive with
        | true => rfl
        | false => exact absurd (LlcLine.shared_of_serving hs hp) hw
      rw [wakeUpNext_user hqueue (by rwa [hline]),write_write,hline,henq,hwok]
      refine ⟨_,_,_,rfl,⟨hf,fun _ => ⟨by simp,hs⟩,fun _ w' hw' => ?_,?_⟩,fun _ _ => rfl,
        fun a' ha => servedAt_ne _ ha,fun p hp => ?_,.inr ⟨w,rest,rfl,rfl,hp⟩⟩
      · obtain rfl := Option.some.inj hw'
        exact hp
      · simp [servedAt_self,he]
      · rw [servedAt_self]
        exact Line.settle_wake hp (LlcLine.wake_user hf hw)

end WaiterSystem
end Coherence
