import SniperSim.Coherence.WaiterRefinement

open Function List Except
namespace Coherence
variable {n : Nat} {D : Type} {out : List (LlcMsg D)}
namespace LlcLine
variable {b : LlcLine D} {op : MemOp D}

theorem settle_network_performed (b : LlcLine D) (op : MemOp D) : settle (some .network) (b.performed op) =
      (({ b with waiters := b.waiters.tail } : LlcLine D).performed op).wake := by
  rw [settle,performed_waiters,performed_tail]

theorem settle_network_owned (hx : op.exclusive) (hs : b.cstate = .exclusive ∨ b.cstate = .modified) :
    (settle (some .network) b).1.permits op.exclusive ∧
      (settle (some .network) b).1.performed op = (settle (some .network) (b.performed op)).1 ∧
      (settle (some .network) b).2 = [] ∧ (settle (some .network) (b.performed op)).2 = [] := by
  rw [settle_network_performed]
  exact wake_performed (b := { b with waiters := b.waiters.tail }) hx hs

theorem settle_user_shared (hw : b.waiters = false :: ws) : settle (some .user) b = settle (some .network) b := by
  simp [settle,hw]

theorem settle_user_owned (hw : b.waiters = true :: ws) (hx : op.exclusive)
    (hs : b.cstate = .exclusive ∨ b.cstate = .modified) : (settle (some .user) b).1.permits op.exclusive ∧
      (settle (some .user) b).1.performed op = (settle (some .network) (b.performed op)).1 ∧
      (settle (some .user) b).2 = [] ∧ (settle (some .network) (b.performed op)).2 = [] := by
  rw [settle_network_performed]
  have hb : settle (some .user) b = ({ b with cstate := .modified, waiters := b.waiters.tail } : LlcLine D).wake := by
    unfold settle
    rcases hs with hs | hs <;> simp [hw,hs]
  have ho : ({ b with cstate := .modified, waiters := b.waiters.tail } : LlcLine D).performed op =
      ({ b with waiters := b.waiters.tail } : LlcLine D).performed op := by
    cases op with
    | read => simp [MemOp.exclusive] at hx
    | _ => rfl
  rw [hb,← ho]
  exact wake_performed hx (.inr rfl)

theorem settle_network_queued (hx : op.exclusive) (hs : b.cstate = .shared)
    (hw : b.waiters ≠ []) : (settle (some .network) b).1.permits op.exclusive = false ∧ ∃ out,
      (settle (some .network) b).1.initiateDirectoryAccess true =
        .ok ((settle (some .network) { b with waiters := b.waiters ++ [true] }).1,out) ∧
      (settle (some .network) b).2 ++ out =
        [] ++ (settle (some .network) { b with waiters := b.waiters ++ [true] }).2 := by
  simp only [settle,tail_append_of_ne_nil hw]
  exact wake_concat (b := { b with waiters := b.waiters.tail }) hx hs

end LlcLine

namespace Line
variable {cfg : Config} {ln ln' : Line n D} {c : Fin n} {op : MemOp D}

def Follows (cfg : Config) (ln ln' : Line n D) : Prop := ln' = ln ∨ ∃ l, ln.step cfg l = .ok ln'

def hitBy (ln : Line n D) (c : Fin n) (op : MemOp D) : Line n D :=
  { ln.setLlc c ((ln.llc c).performed op) [] with
    lastWrite := ((ln.llc c).written op).getD ln.lastWrite }

theorem hitBy_read (ln : Line n D) (c : Fin n) (hx : op.exclusive = false) : ln.hitBy c op = ln := by
  cases op with
  | read => exact setLlc_self ln c
  | _ => simp [MemOp.exclusive] at hx

theorem hitBy_settle (hp : (LlcLine.settle (p c) (ln.llc c)).1.permits op.exclusive)
    (hp' : (ln.llc c).permits op.exclusive) (hb : (LlcLine.settle (p c) (ln.llc c)).1.performed op =
      (LlcLine.settle q ((ln.llc c).performed op)).1) (ho : (LlcLine.settle (p c) (ln.llc c)).2 = [])
    (ho' : (LlcLine.settle q ((ln.llc c).performed op)).2 = []) :
    (ln.settle p).step cfg (.core c op) = .ok ((ln.hitBy c op).settle (update p c q)) := by
  have hs : (ln.setLlc c ((ln.llc c).performed op) []).settle (update p c q) =
      (ln.settle p).setLlc c (LlcLine.settle q ((ln.llc c).performed op)).1 [] :=
    settle_setLlc p q (by rw [ho,ho'])
  rw [step_core_hit hp,settle_llc,hb,← hs,LlcLine.written_hit hp' hp]
  rfl

theorem hitBy_follows (hf : (ln.llc c).permits op.exclusive) (hp : p c ≠ some .user) :
    Follows cfg (ln.settle p) ((ln.hitBy c op).settle p) := by
  cases hx : op.exclusive with
  | false => exact .inl (by rw [hitBy_read ln c hx])
  | true =>
    cases hc : p c with
    | none => exact .inr ⟨_,step_llc_settle hc rfl (step_core_hit hf)⟩
    | some h =>
      cases h with
      | user => exact absurd hc hp
      | network =>
        have hs := LlcLine.permits_exclusive (by rwa [hx] at hf)
        obtain ⟨hw,hb,ho,ho'⟩ := LlcLine.settle_network_owned hx hs
        rw [← hc] at hw hb ho ho'
        have hq : (ln.settle p).step cfg (.core c op) = _ := hitBy_settle hw hf hb ho ho'
        rw [update_eq_self] at hq
        exact .inr ⟨_,hq⟩

theorem hitBy_user_follows (hw : (ln.llc c).waiters = op.exclusive :: ws)
    (hf : (ln.llc c).permits op.exclusive) (hp : p c = some .user) :
    Follows cfg (ln.settle p) ((ln.hitBy c op).settle (update p c (some .network))) := by
  cases hx : op.exclusive with
  | false =>
    rw [hx] at hw
    have hs := LlcLine.settle_user_shared hw
    rw [← hp] at hs
    have hq : (ln.setLlc c (ln.llc c) []).settle (update p c (some .network)) =
        ln.settle p := settle_stutter p _ (by rw [hs]) (by rw [hs]; rfl)
    rw [setLlc_self] at hq
    rw [hitBy_read ln c hx,hq]
    exact .inl rfl
  | true =>
    rw [hx] at hw
    obtain ⟨hw,hb,ho,ho'⟩ := LlcLine.settle_user_owned hw hx (LlcLine.permits_exclusive (by rwa [hx] at hf))
    rw [← hp] at hw hb ho
    exact .inr ⟨_,hitBy_settle hw hf hb ho ho'⟩

theorem miss_follows (hm : (ln.llc c).permits op.exclusive = false)
    (hb : (ln.llc c).initiateDirectoryAccess op.exclusive = .ok (b,out)) (hp : p c ≠ some .user)
    (hs : p c = some .network → (ln.llc c).waiters ≠ [] ∧ LlcLine.Serving (ln.llc c).cstate) :
    Follows cfg (ln.settle p) ((ln.setLlc c b out).settle p) := by
  have hstep : ln.step cfg (.core c op) = .ok (ln.setLlc c b out) := by
    rw [step_core_ok ((LlcLine.processMemOp_miss hm).trans hb),written_miss hm]
    rfl
  cases hc : p c with
  | none => exact .inr ⟨_,step_llc_settle hc rfl hstep⟩
  | some h =>
    cases h with
    | user => exact absurd hc hp
    | network =>
      obtain ⟨hw,hv⟩ := hs hc
      obtain ⟨hx,hs⟩ := LlcLine.shared_of_serving hv hm
      rw [hx,LlcLine.initiateDirectoryAccess_queued hw] at hb
      obtain ⟨rfl,rfl⟩ := Prod.mk.inj (ok.inj hb)
      obtain ⟨hf,out,hi,ho⟩ := LlcLine.settle_network_queued hx hs hw
      rw [← hc] at hf hi ho
      have hq : (ln.setLlc c { ln.llc c with waiters := (ln.llc c).waiters ++ [true] } []).settle
          (update p c (p c)) = (ln.settle p).setLlc c _ out := settle_setLlc p (p c) ho
      rw [update_eq_self] at hq
      refine .inr ⟨.core c op,?_⟩
      rw [step_core_ok ((LlcLine.processMemOp_miss hf).trans (by rw [hx]; exact hi)),settle_llc,written_miss hf,hq]
      rfl

theorem setLlc_setLlc (ln : Line n D) (c : Fin n) (b b' : LlcLine D) (out out' : List (LlcMsg D)) :
    (ln.setLlc c b out).setLlc c b' out' = ln.setLlc c b' (out ++ out') := by
  simp [setLlc]

theorem setLlc_of_ne (b : LlcLine D) (out : List (LlcMsg D)) (hc : c' ≠ c) :
    (ln.setLlc c b out).llc c' = ln.llc c' := update_of_ne hc _ _

theorem setLlc_llc (ln : Line n D) (c : Fin n) (b : LlcLine D) (out : List (LlcMsg D)) :
    (ln.setLlc c b out).llc c = b := update_self _ _ _

theorem step_deliver_ok (hi : ln.toLlc c = m :: ms) (hr : (ln.llc c).handleMsgFromDramDirectory junk m = .ok r) :
    ln.step cfg (.deliverLlc c junk) = .ok { ln.setLlc c r.1 r.2 with
      toLlc := update ln.toLlc c ms } := by
  rw [step,hi]
  dsimp only
  rw [hr]
  rfl

theorem hitBy_llc (ln : Line n D) (c : Fin n) (op : MemOp D) :
    (ln.hitBy c op).llc c = (ln.llc c).performed op := setLlc_llc _ _ _ []

theorem hitBy_of_ne (ln : Line n D) (op : MemOp D) (hc : c' ≠ c) :
    (ln.hitBy c op).llc c' = ln.llc c' := setLlc_of_ne _ [] hc

end Line

namespace WaiterSystem

theorem touched (a a' : Addr) (c c' : Fin n) : a' = a ∧ c' = c ∨ (a' ≠ a ∨ c' ≠ c) := by
  rcases eq_or_ne a' a with ha | ha
  · rcases eq_or_ne c' c with hc | hc <;> simp [*]
  · exact .inr (.inl ha)

variable {Addr T : Type} [DecidableEq Addr] {cfg : Config} {s : WaiterSystem Addr T n D} {a : Addr} {c : Fin n}
  {w : CacheDirectoryWaiter T D} {ln : Line n D}

structure Writes (cfg : Config) (s : WaiterSystem Addr T n D) (a : Addr) (c : Fin n)
    (ln : Line n D) (q : List (CacheDirectoryWaiter T D)) (r : Option (Addr × Handover))
    (e k : List (CacheDirectoryWaiter T D)) : Prop where
  others : ∀ c' ≠ c, ln.llc c' = (s.lines a).llc c'
  elsewhere : ∀ a' ≠ a, servedAt r a' = s.phase a' c
  seated : Seated q (ln.llc c) (servedAt r a) e k
  follows : Line.Follows cfg (s.settled a) (ln.settle (update (s.phase a) c (servedAt r a)))
  log : k = s.woken a c ∨ ∃ w rest, s.unwoken a c = w :: rest ∧ k = s.woken a c ++ [w] ∧
    (ln.llc c).permits w.exclusive

inductive Acts (cfg : Config) (s : WaiterSystem Addr T n D) : WaiterSystem Addr T n D → Prop
  | llc (a : Addr) (c : Fin n) (ln : Line n D) (q : List (CacheDirectoryWaiter T D))
      (r : Option (Addr × Handover)) (e k : List (CacheDirectoryWaiter T D))
      (h : Writes cfg s a c ln q r e k) : Acts cfg s (s.write a c ln q r e k)
  | directory (a : Addr) (l : Label n D) (ln : Line n D) (hl : l.llc = none)
      (h : (s.lines a).step cfg l = .ok ln) : Acts cfg s (s.setLine a ln)

theorem Seated.enqueue (h : Seated q b p e k) (hp : p ≠ some .user)
    (hb : b.initiateDirectoryAccess w.exclusive = .ok (b',out)) : Seated (q ++ [w]) b' p (e ++ [w]) k := by
  refine ⟨?_,fun hsome => ⟨by simp,?_⟩,fun hu => absurd hu hp,?_⟩
  · rw [LlcLine.initiateDirectoryAccess_waiters hb,h.flags,map_append]
    rfl
  · obtain ⟨hq,hv⟩ := h.serving hsome
    have hw : b.waiters ≠ [] := by
      rw [h.flags]
      simpa using hq
    rw [LlcLine.initiateDirectoryAccess_queued hw] at hb
    obtain ⟨rfl,-⟩ := Prod.mk.inj (ok.inj hb)
    exact hv
  · rw [h.history]
    cases hsome : p.isSome with
    | false => simp
    | true => simp [tail_append_of_ne_nil (h.serving hsome).1]

theorem stepLine_ok (h : s.stepLine cfg a l = .ok t) : ∃ ln, (s.lines a).step cfg l = .ok ln ∧ t = s.setLine a ln := by
  unfold stepLine at h
  cases hl : (s.lines a).step cfg l with
  | error f =>
    rw [hl] at h
    cases h
  | ok ln =>
    rw [hl] at h
    exact ⟨ln,rfl,(ok.inj h).symm⟩

theorem update_phase (s : WaiterSystem Addr T n D) (a : Addr) (c : Fin n) :
    update (s.phase a) c (servedAt (s.networkThread c) a) = s.phase a :=
  update_eq_self _ _

theorem acts_hit (h : s.Ordered) (hp : s.phase a c ≠ some .user) (hf : ((s.lines a).llc c).permits w.exclusive) :
    Acts cfg s (s.setLine a ((s.lines a).hitBy c w.op)) := by
  have hs := h a c
  rw [setLine_write s a c]
  refine .llc _ _ _ _ _ _ _ ⟨fun c' hc => Line.hitBy_of_ne _ _ hc,fun _ _ => rfl,?_,?_,.inl rfl⟩
  · rw [Line.hitBy_llc]
    refine ⟨(LlcLine.performed_waiters _ _).trans hs.flags,fun hsome => ?_,fun hu => absurd hu hp,hs.history⟩
    exact ⟨(hs.serving hsome).1,LlcLine.performed_serving (hs.serving hsome).2 _⟩
  · rw [update_phase]
    exact Line.hitBy_follows hf hp

theorem enqueue_write (s : WaiterSystem Addr T n D) (a : Addr) (c : Fin n) (ln : Line n D)
    (w : CacheDirectoryWaiter T D) : (s.setLine a ln).enqueue a c w =
      s.write a c ln (s.directoryWaiters a c ++ [w]) (s.networkThread c) (s.enqueued a c ++ [w]) (s.woken a c) := by
  simp only [enqueue,setLine,write,put_eq_self,update_eq_self]

theorem acts_miss (h : s.Ordered) (hp : s.phase a c ≠ some .user) (hm : ((s.lines a).llc c).permits w.exclusive = false)
    (hb : ((s.lines a).llc c).initiateDirectoryAccess w.exclusive = .ok (b,out)) :
    Acts cfg s ((s.setLine a ((s.lines a).setLlc c b out)).enqueue a c w) := by
  have hs := h a c
  rw [enqueue_write]
  refine .llc _ _ _ _ _ _ _ ⟨fun c' hc => Line.setLlc_of_ne _ _ hc,fun _ _ => rfl,?_,?_,.inl rfl⟩
  · rw [Line.setLlc_llc]
    exact hs.enqueue hp hb
  · rw [update_phase]
    refine Line.miss_follows hm hb hp fun hn => ?_
    obtain ⟨hq,hv⟩ := hs.serving (by rw [hn]; rfl)
    refine ⟨?_,hv⟩
    rw [hs.flags]
    simpa using hq

theorem phase_idle (h : s.networkThread c = none) (a : Addr) : s.phase a c = none := by
  rw [phase,h]
  rfl

theorem networkThread_of_phase (h : s.phase a c = some p) : s.networkThread c = some (a,p) := by
  unfold phase servedAt at h
  cases hn : s.networkThread c with
  | none => simp [hn] at h
  | some r =>
    obtain ⟨a',p'⟩ := r
    rw [hn] at h
    dsimp only [Option.bind_some] at h
    split_ifs at h with ha
    cases h
    rw [ha]

theorem acts_demand (h : s.Ordered) (hn : s.networkThread c = none) (hl : l.llc = some c)
    (hs : (s.lines a).step cfg l = .ok ln) (ho : ∀ c' ≠ c, ln.llc c' = (s.lines a).llc c')
    (hw : (ln.llc c).waiters = ((s.lines a).llc c).waiters) : Acts cfg s (s.setLine a ln) := by
  have hp := phase_idle hn a
  have hq := h a c
  rw [setLine_write s a c]
  refine .llc _ _ _ _ _ _ _ ⟨ho,fun _ _ => rfl,⟨hw.trans hq.flags,?_,?_,hq.history⟩,?_,.inl rfl⟩
  · intro hsome
    rw [hn] at hsome
    simp [servedAt] at hsome
  · intro hsome
    rw [hn] at hsome
    simp [servedAt] at hsome
  · rw [update_phase]
    exact .inr ⟨l,Line.step_llc_settle hp hl hs⟩

theorem acts_deliver (h : s.Ordered) (hn : s.networkThread c = none) (hi : (s.lines a).toLlc c = m :: ms)
    (hm : m.isReply = false) (hs : (s.lines a).step cfg (.deliverLlc c junk) = .ok ln) :
    Acts cfg s (s.setLine a ln) := by
  have hs' := hs
  rw [Line.step,hi] at hs'
  dsimp only at hs'
  obtain ⟨r,hr,hs'⟩ := Outcome.bind_ok hs'
  obtain rfl := ok.inj hs'
  refine acts_demand h hn rfl hs (fun c' hc => Line.setLlc_of_ne _ r.2 hc) ?_
  exact (congrArg _ (Line.setLlc_llc _ _ _ r.2)).trans (LlcLine.handleMsgFromDramDirectory_waiters hm hr)

theorem setNetworkThread_write (s : WaiterSystem Addr T n D) (a : Addr) (c : Fin n) (ln : Line n D)
    (r : Option (Addr × Handover)) : (s.setLine a ln).setNetworkThread c r =
      s.write a c ln (s.directoryWaiters a c) r (s.enqueued a c) (s.woken a c) := by
  simp only [setNetworkThread,setLine,write,put_eq_self]

theorem dequeue_write (s : WaiterSystem Addr T n D) (a : Addr) (c : Fin n) :
    s.dequeue a c = s.write a c ((s.lines a).setLlc c
      { (s.lines a).llc c with waiters := ((s.lines a).llc c).waiters.tail } [])
      (s.directoryWaiters a c).tail (s.networkThread c) (s.enqueued a c) (s.woken a c) := by
  simp only [dequeue,setLine,write,put_eq_self,update_eq_self]

theorem acts_user (h : s.Ordered) (hn : s.networkThread c = some (a,.user)) (hq : s.directoryWaiters a c = w :: rest)
    (hf : ((s.lines a).llc c).permits w.exclusive) :
    Acts cfg s ((s.setLine a ((s.lines a).hitBy c w.op)).setNetworkThread c (some (a,.network))) := by
  have hp : s.phase a c = some .user := by rw [phase,hn,servedAt_self]
  have hs := h a c
  obtain ⟨hne,hv⟩ := hs.serving (by rw [hp]; rfl)
  rw [setNetworkThread_write]
  refine .llc _ _ _ _ _ _ _ ⟨fun c' hc => Line.hitBy_of_ne _ _ hc,fun a' ha => ?_,?_,?_,.inl rfl⟩
  · rw [phase,hn,servedAt_ne _ ha,servedAt_ne _ ha]
  · rw [Line.hitBy_llc,servedAt_self]
    refine ⟨(LlcLine.performed_waiters _ _).trans hs.flags,fun _ => ⟨hne,LlcLine.performed_serving hv _⟩,by simp,?_⟩
    rw [hs.history,hp]
    rfl
  · have hflags : ((s.lines a).llc c).waiters = w.op.exclusive :: rest.map (·.exclusive) := by
      rw [hs.flags,hq]
      rfl
    rw [servedAt_self]
    exact Line.hitBy_user_follows hflags hf hp

theorem acts_resume (h : s.Ordered) (hn : s.networkThread c = some (a,.network)) :
    Acts cfg s ((s.dequeue a c).wakeUpNext a c) := by
  have hp : s.phase a c = some .network := by rw [phase,hn,servedAt_self]
  have hs := h a c
  obtain ⟨-,hv⟩ := hs.serving (by rw [hp]; rfl)
  have hhist : s.enqueued a c = s.woken a c ++ (s.directoryWaiters a c).tail := by
    simpa [hp] using hs.history
  obtain ⟨ln,r,k,hnext,hwakes⟩ := wakes_next s a ((s.lines a).setLlc c
    { (s.lines a).llc c with waiters := ((s.lines a).llc c).waiters.tail } []) (s.networkThread c)
    (by rw [Line.setLlc_llc,hs.flags,map_tail]) (by rw [Line.setLlc_llc]; exact hv) hhist
  rw [dequeue_write,hnext]
  refine .llc _ _ _ _ _ _ _ ⟨fun c' hc => ?_,fun a' ha => ?_,hwakes.seated,.inl ?_,?_⟩
  · rw [hwakes.others c' hc,Line.setLlc_of_ne _ _ hc]
  · rw [hwakes.elsewhere a' ha,phase,hn,servedAt_ne _ ha]
  · have hset := hwakes.settles (update (s.phase a) c none) (update_self _ _ _)
    rw [update_idem,Line.setLlc_llc,Line.setLlc_setLlc,nil_append] at hset
    rw [hset]
    refine Line.settle_stutter _ _ ?_ ?_
    · rw [hp]
      rfl
    · rw [hp]
      exact (append_nil _).symm
  · rcases hwakes.log with hk | ⟨w,rest,hq,hk,hf⟩
    · exact .inl hk
    · refine .inr ⟨w,rest,?_,hk,hf⟩
      rwa [unwoken,hp]

theorem acts_reply (junk : D) (h : s.Ordered) (hn : s.networkThread c = none) (hi : (s.lines a).toLlc c = m :: ms)
    (hm : m.isReply) (hb : ((s.lines a).llc c).acceptReply m = .ok b) :
    Acts cfg s ((s.setLine a { (s.lines a).setLlc c b [] with
      toLlc := update (s.lines a).toLlc c ms }).wakeUpNext a c) := by
  have hp := phase_idle hn a
  have hs := h a c
  have hacc := LlcLine.acceptReply_accepted hb
  have hhist : s.enqueued a c = s.woken a c ++ s.directoryWaiters a c := by
    simpa [hp] using hs.history
  have hl : ({ (s.lines a).setLlc c b [] with
      toLlc := update (s.lines a).toLlc c ms } : Line n D).llc c = b :=
    Line.setLlc_llc _ _ _ []
  obtain ⟨ln,r,k,hnext,hwakes⟩ := wakes_next s a { (s.lines a).setLlc c b [] with
      toLlc := update (s.lines a).toLlc c ms } (s.networkThread c)
    (by rw [hl,hacc.waiters,hs.flags]) (by rw [hl]; exact hacc.serving) hhist
  rw [setLine_write s a c,hnext]
  refine .llc _ _ _ _ _ _ _ ⟨fun c' hc => ?_,fun a' ha => ?_,hwakes.seated,.inr ⟨.deliverLlc c junk,?_⟩,?_⟩
  · exact (hwakes.others c' hc).trans (Line.setLlc_of_ne _ [] hc)
  · rw [hwakes.elsewhere a' ha,phase_idle hn]
  · have hset := hwakes.settles (s.phase a) hp
    have hstep : (s.lines a).step cfg (.deliverLlc c junk) = _ := Line.step_deliver_ok hi
      ((LlcLine.acceptReply_wake hm junk).trans (by rw [hb]; rfl))
    rw [hl] at hset
    rw [hset]
    refine (Line.step_llc_settle hp rfl hstep).trans (congrArg (fun x => ok (Line.settle (s.phase a) x)) ?_)
    exact (congrArg (fun x : Line n D => { x with toLlc := update (s.lines a).toLlc c ms })
      (Line.setLlc_setLlc (s.lines a) c b b.wake.1 [] b.wake.2)).symm
  · rcases hwakes.log with hk | ⟨w,rest,hq,hk,hf⟩
    · exact .inl hk
    · refine .inr ⟨w,rest,?_,hk,hf⟩
      rwa [unwoken,hp]

section
variable (h : s.Ordered)
include h

theorem acts_core (hp : s.phase a c ≠ some .user) (hs : s.processMemOpFromCore cfg a c w = .ok t) : Acts cfg s t := by
  unfold processMemOpFromCore at hs
  obtain ⟨u,hl,hs⟩ := Outcome.bind_ok hs
  obtain ⟨ln,hln,rfl⟩ := stepLine_ok hl
  cases hs
  cases hf : ((s.lines a).llc c).permits w.exclusive with
  | true =>
    rw [Line.step_core_hit hf] at hln
    cases hln
    exact acts_hit h hp hf
  | false =>
    obtain ⟨b,out,hb,rfl⟩ := Line.step_core_miss hf hln
    exact acts_miss h hp hf hb

theorem acts_network (hn : s.networkThread c = none) (hs : s.handleMsgFromDramDirectory cfg a c junk = .ok t)
    : Acts cfg s t := by
  unfold handleMsgFromDramDirectory at hs
  dsimp only at hs
  cases hi : (s.lines a).toLlc c with
  | nil =>
    rw [hi] at hs
    cases hs
  | cons m ms =>
    rw [hi] at hs
    dsimp only at hs
    split_ifs at hs with hm
    · split at hs
      · next b hb =>
        cases hs
        exact acts_reply junk h hn hi hm hb
      · cases hs
    · obtain ⟨ln,hln,rfl⟩ := stepLine_ok hs
      exact acts_deliver h hn hi (by simpa using hm) hln

theorem acts_runUserThread (hn : s.networkThread c = some (a,.user)) (hs : s.runUserThread cfg a c = .ok t)
    : Acts cfg s t := by
  unfold runUserThread at hs
  cases hq : s.directoryWaiters a c with
  | nil =>
    rw [hq] at hs
    cases hs
  | cons w rest =>
    rw [hq] at hs
    dsimp only at hs
    split_ifs at hs with hf
    rw [stepLine,Line.step_core_hit hf] at hs
    cases hs
    exact acts_user h hn hq hf

theorem step_acts (hs : s.step cfg l = .ok t) : Acts cfg s t := by
  cases l with rw [step] at hs
  | core a c w =>
    split_ifs at hs with hn
    have hp : s.phase a c ≠ some .user := fun hp => hn (networkThread_of_phase hp)
    exact acts_core h hp hs
  | network a c junk =>
    split_ifs at hs with hn
    exact acts_network h (by simpa using hn) hs
  | user c =>
    split at hs
    · next a hn => exact acts_runUserThread h hn hs
    · cases hs
  | resume c =>
    split at hs
    · next a hn =>
      cases hs
      exact acts_resume h hn
    · cases hs
  | evict a c =>
    split_ifs at hs with hn
    obtain ⟨ln,hl,rfl⟩ := stepLine_ok hs
    have hs' := hl
    rw [Line.step] at hs'
    obtain ⟨r,hr,hs'⟩ := Outcome.bind_ok hs'
    obtain rfl := ok.inj hs'
    refine acts_demand h (by simpa using hn) rfl hl (fun c' hc => Line.setLlc_of_ne _ _ hc) ?_
    exact (congrArg _ (Line.setLlc_llc _ _ _ _)).trans (LlcLine.evict_waiters hr)
  | directory a l =>
    split_ifs at hs with hl
    obtain ⟨ln,hln,rfl⟩ := stepLine_ok hs
    exact .directory a l ln hl hln
end

theorem setLine_self (s : WaiterSystem Addr T n D) (a : Addr) (ln : Line n D) :
    (s.setLine a ln).lines a = ln := update_self _ _ _

theorem setLine_of_ne (s : WaiterSystem Addr T n D) (ln : Line n D) (ha : a' ≠ a) :
    (s.setLine a ln).lines a' = s.lines a' := update_of_ne ha _ _

theorem settled_setLine (s : WaiterSystem Addr T n D) (a : Addr) (ln : Line n D) :
    (s.setLine a ln).settled = update s.settled a (ln.settle (s.phase a)) := by
  funext a'
  rw [settled]
  rcases eq_or_ne a' a with rfl | ha
  · rw [setLine_self,update_self]
    rfl
  · rw [setLine_of_ne s ln ha,update_of_ne ha]
    rfl

theorem Acts.ordered (ha : Acts cfg s t) (h : s.Ordered) : t.Ordered := by
  cases ha with
  | llc a c ln q r e k hw => exact h.write hw.others hw.elsewhere hw.seated
  | directory a l ln hl hs =>
    intro a' c
    have hq := h a' c
    rcases eq_or_ne a' a with rfl | ha
    · rwa [setLine_self,(Line.step_settle (s.phase a') hl hs).1]
    · rwa [setLine_of_ne s ln ha]

theorem Acts.settled (ha : Acts cfg s t) : t.settled = s.settled ∨
    ∃ l, System.step cfg s.settled l = .ok t.settled := by
  cases ha with
  | llc a c ln q r e k hw =>
    rw [settled_write hw.elsewhere]
    rcases hw.follows with hf | ⟨l,hl⟩
    · exact .inl (by rw [hf,update_eq_self])
    · refine .inr ⟨(a,l),?_⟩
      rw [System.step,hl]
      rfl
  | directory a l ln hl hs =>
    refine .inr ⟨(a,l),?_⟩
    have hstep : (s.settled a).step cfg l = _ := (Line.step_settle (s.phase a) hl hs).2
    rw [System.step,hstep,settled_setLine]
    rfl

theorem Acts.woken (ha : Acts cfg s t) (a : Addr) (c : Fin n) : t.woken a c = s.woken a c ∨
    ∃ w rest, s.unwoken a c = w :: rest ∧ t.woken a c = s.woken a c ++ [w] ∧
      ((t.lines a).llc c).permits w.exclusive := by
  cases ha with
  | directory a' l ln hl hs => exact .inl rfl
  | llc a' c' ln q r e k hw =>
    rcases touched a' a c' c with ⟨rfl,rfl⟩ | hne
    · have hk : (s.write a c ln q r e k).woken a c = k := put_self _ _ _ _
      have hl : (s.write a c ln q r e k).lines a = ln := update_self _ _ _
      rw [hk,hl]
      exact hw.log
    · exact .inl (put_of_ne _ _ hne)

end WaiterSystem
end Coherence
