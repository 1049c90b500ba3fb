import SniperSim.Coherence.WaiterOrder

open Function List
namespace Coherence
variable {n : Nat} {D : Type}

theorem Outbox.ofList_requests (ms : List (LlcMsg D)) :
    (Outbox.ofList ms).shReq + (Outbox.ofList ms).exReq + (Outbox.ofList ms).upgradeReq =
      ms.countP (·.asks.isSome) := by
  induction ms with
  | nil => rfl
  | cons m ms ih =>
    cases m with
    | exReq | shReq | upgradeReq => rw [countP_cons_of_pos rfl,← ih,Outbox.ofList,Outbox.cons]; dsimp only; omega
    | _ => exact ih.trans (countP_cons_of_neg (by simp [LlcMsg.asks])).symm

theorem Inbox.ofList_replies (valid : Bool) (ms : List (DirMsg D)) :
    (Inbox.ofList valid ms).exRep + (Inbox.ofList valid ms).shRep +
      (Inbox.ofList valid ms).upgradeRep = ms.countP (·.isReply) := by
  obtain ⟨he,hs,hu⟩ := Inbox.ofList_grants valid ms
  rw [he,hs,hu]
  clear he hs hu
  induction ms with
  | nil => rfl
  | cons m ms ih =>
    cases m with
    | exRep d | shRep d | upgradeRep => rw [countP_cons_of_pos rfl,← ih,Inbox.ofList,Inbox.cons]; dsimp only; omega
    | _ => exact ih.trans (countP_cons_of_neg (by simp [DirMsg.isReply])).symm

theorem Outbox.invRep_mem {ms : List (LlcMsg D)} (h : 0 < (Outbox.ofList ms).invRep) : .invRep ∈ ms := by
  induction ms with
  | nil => cases h
  | cons m ms ih =>
    cases m with
    | invRep => exact mem_cons_self
    | _ => exact mem_cons_of_mem _ (ih h)

namespace Line
variable {cfg : Config} {ln : Line n D} {c : Fin n}

def Crossed (ln : Line n D) (c : Fin n) : Prop := .upgradeRep ∈ ln.toLlc c ∧ .invRep ∈ ln.toDir c

theorem crossed_of_upgradeRep (h : Busy cfg ln) (hm : .upgradeRep ∈ ln.toLlc c) (hs : (ln.llc c).cstate = .invalid) :
    ln.Crossed c := by
  have hp := h.1.port c
  have hu := (Inbox.ofList_pos (held (ln.llc c).cstate) hm).2.2 rfl
  obtain ⟨hsh,-,hf,-⟩ := hp.upgraded hu
  have ho := hp.outstanding
  have ht := hp.token
  have hw := (ln.llc c).waiters.head?.isSome.toNat_le
  have hg : (view ln.dir ln.reqs true c).granted = false := by
    cases hg : (view ln.dir ln.reqs true c).granted with
    | false => rfl
    | true =>
      have hl := length_pos_iff.mpr (view_granted_pending hg)
      omega
  rw [hsh,hg,hs] at ht
  rw [hs] at hu ho
  refine ⟨hm,Outbox.invRep_mem ?_⟩
  simp only [held,Bool.toNat_true,Bool.toNat_false] at ht hu ho
  omega

def outstanding (ln : Line n D) (c : Fin n) : Nat :=
  (ln.toDir c).countP (·.asks.isSome) + (ln.reqs.filter (·.asks c)).length + (ln.toLlc c).countP (·.isReply)

theorem Busy.outstanding (h : Busy cfg ln) (c : Fin n) : ln.outstanding c = (ln.llc c).waiters.head?.isSome.toNat := by
  have hp := (h.1.port c).outstanding
  have hi := Inbox.ofList_replies (held (ln.llc c).cstate) (ln.toLlc c)
  have ho := Outbox.ofList_requests (ln.toDir c)
  have hl : (view ln.dir ln.reqs true c).pending.length = (ln.reqs.filter (·.asks c)).length := length_map _
  unfold Line.outstanding
  omega

theorem settle_outstanding (p : Fin n → Option Handover) (ln : Line n D) (c : Fin n) : (ln.settle p).outstanding c =
      ln.outstanding c + (LlcLine.settle (p c) (ln.llc c)).2.countP (·.asks.isSome) := by
  change (ln.toDir c ++ (LlcLine.settle (p c) (ln.llc c)).2).countP _ +
    (ln.reqs.filter (·.asks c)).length + (ln.toLlc c).countP _ = _
  rw [countP_append]
  unfold outstanding
  omega

end Line

namespace LlcLine

theorem wake_requests {b : LlcLine D} (h : Serving b.cstate) :
    b.wake.2.countP (·.asks.isSome) = b.wake.1.waiters.head?.isSome.toNat := by
  obtain ⟨s,d,ws⟩ := b
  cases h with
  | shared => rcases wakeWaiters_shared (D := D) ws with h | ⟨rest,h⟩ <;> simp [wake,h,LlcMsg.asks]
  | exclusive => simp [wake,wakeWaiters_exclusive]
  | modified => simp [wake,wakeWaiters_modified]

theorem settle_requests {b : LlcLine D} (h : Serving b.cstate) (p : Handover) :
    (settle (some p) b).2.countP (·.asks.isSome) = (settle (some p) b).1.waiters.head?.isSome.toNat := by
  cases p with
  | user =>
    refine wake_requests ?_
    dsimp only
    split
    · exact .modified
    · exact h
  | network => exact wake_requests (b := { b with waiters := b.waiters.tail }) h

end LlcLine

namespace WaiterSystem
variable {Addr T : Type} [DecidableEq Addr] {cfg : Config} {s t : WaiterSystem Addr T n D}
  {contents : Addr → D} {a : Addr} {c : Fin n}

theorem ordered_initial (contents : Addr → D) : (initial T n contents).Ordered := by
  intro a c
  exact ⟨rfl,by simp [phase,initial,servedAt],by simp [phase,initial,servedAt],rfl⟩

theorem reachable_ordered (h : Reachable cfg contents s) : s.Ordered :=
  Run.Reaches.invariant (fun _ _ _ hs _ ht => (step_acts hs ht).ordered hs) (ordered_initial contents) h

theorem reachable_settled (h : Reachable cfg contents s) : System.Reachable cfg contents s.settled := by
  induction h with
  | refl => exact .refl
  | tail hr _ hn ih =>
    rcases (step_acts (reachable_ordered hr) hn).settled with hs | ⟨l,hl⟩
    · rwa [hs]
    · exact ih.tail trivial hl

theorem outstanding_eq (h : Reachable cfg contents s) (a : Addr) (c : Fin n) :
    (s.lines a).outstanding c + (s.phase a c).isSome.toNat = (s.directoryWaiters a c).head?.isSome.toNat := by
  have hs := reachable_ordered h a c
  have hb := (System.reachable_busy (reachable_settled h) a).outstanding c
  have ho := Line.settle_outstanding (s.phase a) (s.lines a) c
  have hw : ((s.settled a).llc c).waiters = (LlcLine.settle (s.phase a c) ((s.lines a).llc c)).1.waiters := rfl
  rw [hw] at hb
  cases hp : s.phase a c with
  | none =>
    rw [hp] at hb ho
    have hh : ((s.lines a).llc c).waiters.head?.isSome = (s.directoryWaiters a c).head?.isSome := by
      rw [hs.flags,head?_map,Option.isSome_map]
    rw [← hh]
    exact (ho.symm.trans hb)
  | some p =>
    obtain ⟨hq,hv⟩ := hs.serving (by rw [hp]; rfl)
    obtain ⟨w,rest,hq⟩ := exists_cons_of_ne_nil hq
    have hr := LlcLine.settle_requests hv p
    rw [hp] at hb ho
    have ho : Line.outstanding (s.settled a) c = _ := ho
    have hz : (s.lines a).outstanding c = 0 := by omega
    rw [hz,hq]
    rfl

theorem wakeUpNext_queue (s : WaiterSystem Addr T n D) (a : Addr) (c : Fin n) :
    (s.wakeUpNext a c).directoryWaiters = s.directoryWaiters := by
  unfold wakeUpNext
  dsimp only
  split
  · rfl
  · split <;> rfl

theorem wakeUpNext_thread (s : WaiterSystem Addr T n D) (a : Addr) (c : Fin n) :
    (s.wakeUpNext a c).networkThread c = none ∨ (s.wakeUpNext a c).networkThread c = some (a,.user) := by
  unfold wakeUpNext
  dsimp only
  split
  · exact .inl (update_self _ _ _)
  · split
    · exact .inl (update_self _ _ _)
    · exact .inr (update_self _ _ _)

theorem user_next (cfg : Config) (h : s.Ordered) (hn : s.networkThread c = some (a,.user)) :
    ∃ t, s.step cfg (.user c) = .ok t ∧ t.networkThread c = some (a,.network) ∧
      t.directoryWaiters = s.directoryWaiters := by
  have hp : s.phase a c = some .user := by rw [phase,hn,servedAt_self]
  obtain ⟨w,rest,hq⟩ := exists_cons_of_ne_nil ((h a c).serving (by rw [hp]; rfl)).1
  have hf : ((s.lines a).llc c).permits w.exclusive := (h a c).permitted hp w (by rw [hq]; rfl)
  refine ⟨(s.setLine a ((s.lines a).hitBy c w.op)).setNetworkThread c (some (a,.network)),?_,update_self _ _ _,rfl⟩
  rw [step,hn]
  dsimp only
  rw [runUserThread,hq]
  dsimp only
  rw [if_pos hf,stepLine,Line.step_core_hit hf]
  rfl

theorem resume_next (cfg : Config) (hn : s.networkThread c = some (a,.network)) :
    ∃ t, s.step cfg (.resume c) = .ok t ∧ (t.networkThread c = none ∨ t.networkThread c = some (a,.user)) ∧
      t.directoryWaiters a c = (s.directoryWaiters a c).tail := by
  refine ⟨(s.dequeue a c).wakeUpNext a c,?_,wakeUpNext_thread _ _ _,?_⟩
  · rw [step,hn]
  · rw [wakeUpNext_queue]
    exact put_self _ _ _ _

def InLoop (c : Fin n) (_ : WaiterSystem Addr T n D) (l : WaiterLabel Addr T n D) : Prop := l = .user c ∨ l = .resume c

theorem loop_ends (cfg : Config) (h : s.Ordered) (hn : s.networkThread c = some (a,.user)) :
    ∃ t, Run.Reaches (step cfg) (InLoop c) s t ∧ t.networkThread c = none := by
  generalize hk : (s.directoryWaiters a c).length = k
  induction k generalizing s with
  | zero =>
    have hp : s.phase a c = some .user := by rw [phase,hn,servedAt_self]
    exact absurd (length_eq_zero_iff.mp hk) ((h a c).serving (by rw [hp]; rfl)).1
  | succ k ih =>
    obtain ⟨t,ht,htn,htq⟩ := user_next cfg h hn
    obtain ⟨u,hu,hun,huq⟩ := resume_next cfg htn
    have hsu : Run.Reaches (step cfg) (InLoop c) s u := (Run.Reaches.refl.tail (.inl rfl) ht).tail (.inr rfl) hu
    rcases hun with hun | hun
    · exact ⟨u,hsu,hun⟩
    · have ho := (step_acts ((step_acts h ht).ordered h) hu).ordered ((step_acts h ht).ordered h)
      obtain ⟨v,hv,hvn⟩ := ih ho hun (by rw [huq,length_tail,htq,hk]; rfl)
      exact ⟨v,hsu.trans hv,hvn⟩

theorem serving_ends (cfg : Config) (h : s.Ordered) (hn : s.networkThread c = some (a,p)) :
    ∃ t, Run.Reaches (step cfg) (InLoop c) s t ∧ t.networkThread c = none := by
  cases p with
  | user => exact loop_ends cfg h hn
  | network =>
    obtain ⟨u,hu,hun,-⟩ := resume_next cfg hn
    have hsu : Run.Reaches (step cfg) (InLoop c) s u := Run.Reaches.refl.tail (.inr rfl) hu
    rcases hun with hun | hun
    · exact ⟨u,hsu,hun⟩
    · obtain ⟨v,hv,hvn⟩ := loop_ends cfg ((step_acts h hu).ordered h) hun
      exact ⟨v,hsu.trans hv,hvn⟩

theorem accepted_of_busy (h : Line.Busy cfg ln) (hi : ln.toLlc c = m :: ms) (hm : m.isReply)
    (hu : m = .upgradeRep → (ln.llc c).cstate ≠ .invalid) : ∃ b, (ln.llc c).acceptReply m = .ok b := by
  have hpos : 0 < (ln.toLlc c).countP (·.isReply) := by
    rw [hi,countP_cons_of_pos hm]
    omega
  have hsome : (ln.llc c).waiters.head?.isSome := by
    have hw := h.outstanding c
    cases hs : (ln.llc c).waiters.head?.isSome with
    | true => rfl
    | false =>
      rw [hs,Line.outstanding,Bool.toNat_false] at hw
      omega
  have hne : (ln.llc c).waiters ≠ [] := by
    rintro hnil
    simp [hnil] at hsome
  have hp : PortOf (Line.view ln.dir ln.reqs true c) (ln.llc c) (ln.toLlc c) (ln.toDir c) := h.1.port c
  obtain ⟨he,hs,-⟩ := Inbox.ofList_pos (held (ln.llc c).cstate) (hi ▸ mem_cons_self)
  have hinvalid (hg : 0 < (Inbox.ofList (held (ln.llc c).cstate) (ln.toLlc c)).exRep +
      (Inbox.ofList (held (ln.llc c).cstate) (ln.toLlc c)).shRep) : (ln.llc c).cstate = .invalid := by
    by_contra hv
    have ht := hp.token
    rw [held_of_ne hv] at ht hg
    have hl := Bool.toNat_le (Line.view ln.dir ln.reqs true c).sharer
    simp only [Bool.toNat_true] at ht
    omega
  cases m with
  | exRep d => exact ⟨_,(LlcLine.Accepted.exRep d (hinvalid (by have := he ⟨d,rfl⟩; omega))).acceptReply hne⟩
  | shRep d => exact ⟨_,(LlcLine.Accepted.shRep d (hinvalid (by have := hs ⟨d,rfl⟩; omega))).acceptReply hne⟩
  | upgradeRep =>
    have hs := (hp.waiting hsome).resolve_left (hu rfl)
    exact ⟨_,(LlcLine.Accepted.upgradeRep hs).acceptReply hne⟩
  | _ => simp [DirMsg.isReply] at hm

theorem settled_idle (h : s.networkThread c = none) : (s.settled a).llc c = (s.lines a).llc c := by
  rw [settled,Line.settle_llc,phase_idle h]
  rfl

theorem network_ok (junk : D) (hn : s.networkThread c = none) (hi : (s.lines a).toLlc c = m :: ms) (hm : m.isReply)
    (hacc : ∃ b, ((s.settled a).llc c).acceptReply m = .ok b) : ∃ t, s.step cfg (.network a c junk) = .ok t := by
  obtain ⟨b,hacc⟩ := hacc
  rw [settled_idle hn] at hacc
  refine ⟨(s.setLine a { (s.lines a).setLlc c b [] with
    toLlc := update (s.lines a).toLlc c ms }).wakeUpNext a c,?_⟩
  rw [step,hn]
  dsimp only
  rw [if_neg (by simp),handleMsgFromDramDirectory]
  dsimp only
  rw [hi]
  dsimp only
  rw [if_pos hm,hacc]

theorem reply_handled (h : Reachable cfg contents s) (junk : D) (hn : s.networkThread c = none)
    (hi : (s.lines a).toLlc c = m :: ms) (hm : m.isReply)
    (hu : m = .upgradeRep → ((s.lines a).llc c).cstate ≠ .invalid) : ∃ t, s.step cfg (.network a c junk) = .ok t := by
  have hb := System.reachable_busy (reachable_settled h) a
  exact network_ok junk hn hi hm (accepted_of_busy hb hi hm (by rwa [settled_idle hn]))

def msiFullMap : Config := ⟨.msi,.fullMap,64,false⟩

def readThenWrite : List (WaiterLabel Unit Nat 1 Nat) :=
  [.core () 0 ⟨0,.read⟩,.core () 0 ⟨1,.write 7⟩,.directory () (.deliverDir 0 ⟨0,0,none⟩),
    .directory () .dramServe,.directory () (.dramReply ⟨0,0,none⟩),.network () 0 0]

def afterReadThenWrite : WaiterSystem Unit Nat 1 Nat :=
  (Run.guided (step msiFullMap) (fun _ _ => True) (initial Nat 1 fun _ => 0) readThenWrite).getD
    (initial Nat 1 fun _ => 0)

def limited : Config := ⟨.msi,.limitedNoBroadcast,2,false⟩

def deliver (c : Fin 3) : WaiterLabel Unit Nat 3 Nat := .directory () (.deliverDir c ⟨0,0,none⟩)

def fill (c : Fin 3) : List (WaiterLabel Unit Nat 3 Nat) :=
  [.directory () .dramServe,.directory () (.dramReply ⟨0,0,none⟩),.network () c 0,.user c,.resume c]

-- INV_REQ to cache a is to make room for cache c, but cache b makes it first: the message is still under way
-- when cache a asks for its upgrade
def staleInvalidation (a b c : Fin 3) : List (WaiterLabel Unit Nat 3 Nat) :=
  .core () a ⟨0,.read⟩ :: deliver a :: fill a ++ .core () b ⟨1,.read⟩ :: deliver b :: fill b ++
  .core () c ⟨2,.read⟩ :: deliver c :: .evict () b :: deliver b :: fill c ++
  [.core () a ⟨0,.write 7⟩,deliver a,.network () c 0,deliver c,.network () a 0]

def afterStale (a b c : Fin 3) : WaiterSystem Unit Nat 3 Nat :=
  (Run.guided (step limited) (fun _ _ => True) (initial Nat 3 fun _ => 0) (staleInvalidation a b c)).getD
    (initial Nat 3 fun _ => 0)

def replyArrived : WaiterSystem Unit Nat 1 Nat :=
  (Run.guided (step msiFullMap) (fun _ _ => True) (initial Nat 1 fun _ => 0) (readThenWrite.take 5)).getD
    (initial Nat 1 fun _ => 0)

theorem read_reply_handled : (replyArrived.lines ()).toLlc 0 = [.shRep 0] ∧
    ∃ t, replyArrived.step msiFullMap (.network () 0 0) = .ok t := by
  have hi : (replyArrived.lines ()).toLlc 0 = [.shRep 0] := by decide +kernel
  exact ⟨hi,reply_handled (Run.reaches_guided (by decide +kernel)) 0 (by decide +kernel) hi rfl (by simp)⟩

end WaiterSystem
end Coherence
