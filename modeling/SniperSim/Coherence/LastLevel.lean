import SniperSim.Coherence.DirectoryWaiters
import SniperSim.Coherence.InvDemand

open Function Except
namespace Coherence
variable {n : Nat} {D : Type}
namespace LlcLine
variable {b : LlcLine D} {op : MemOp D}

theorem performed_cstate (b : LlcLine D) (op : MemOp D) :
    (b.performed op).cstate = if op.exclusive then .modified else b.cstate := by
  cases op <;> rfl

theorem initiateDirectoryAccess_cstate (h : b.initiateDirectoryAccess x = .ok r) :
    r.1.cstate = b.cstate ∨ b.cstate = .shared ∧ r.1.cstate = .sharedUpgrading := by
  unfold initiateDirectoryAccess at h
  split_ifs at h with hw hx hs hi
  · cases h
    exact .inr ⟨hs,rfl⟩
  all_goals
    cases h
    exact .inl rfl

inductive Handled (s : CacheState) : DirMsg D → CacheState → Prop
  | exRep (d : D) (hs : s = .invalid) : Handled s (.exRep d) .exclusive
  | shRep (d : D) (hs : s = .invalid) : Handled s (.shRep d) .shared
  | shRepUpgrading (d : D) (hs : s = .invalid) : Handled s (.shRep d) .sharedUpgrading
  | upgradeRep (hs : s = .sharedUpgrading) : Handled s .upgradeRep .modified
  | invReq : Handled s .invReq .invalid
  | flushReq : Handled s .flushReq .invalid
  | wbReqAbsent (hs : s = .invalid) : Handled s .wbReq .invalid
  | wbReqUpgrading (hs : s = .sharedUpgrading) : Handled s .wbReq .sharedUpgrading
  | wbReq (hi : s ≠ .invalid) (hu : s ≠ .sharedUpgrading) : Handled s .wbReq .shared

theorem handleMsgFromDramDirectory_handled (hm : m.isReply = false)
    (h : b.handleMsgFromDramDirectory junk m = .ok r) : Handled b.cstate m r.1.cstate := by
  obtain ⟨s,d,ws⟩ := b
  cases m with
  | exRep _ | shRep _ | upgradeRep => cases hm
  | invReq => cases s <;> first | (obtain rfl := ok.inj h; exact .invReq) | cases h
  | flushReq => cases s <;> (obtain rfl := ok.inj h; exact .flushReq)
  | wbReq =>
    cases s with
    | invalid => obtain rfl := ok.inj h; exact .wbReqAbsent rfl
    | sharedUpgrading => obtain rfl := ok.inj h; exact .wbReqUpgrading rfl
    | _ => obtain rfl := ok.inj h; exact .wbReq (by simp) (by simp)

def Drifts (s t : CacheState) : Prop := t = s ∨ s = .shared ∧ t = .sharedUpgrading

theorem Accepted.handled (h : Accepted b m b') (hx : Drifts b'.cstate x) : Handled b.cstate m x := by
  cases h with
  | exRep d hs =>
    rcases hx with rfl | ⟨h,-⟩
    · exact .exRep d hs
    · cases h
  | shRep d hs =>
    rcases hx with rfl | ⟨-,rfl⟩
    · exact .shRep d hs
    · exact .shRepUpgrading d hs
  | upgradeRep hs =>
    rcases hx with rfl | ⟨h,-⟩
    · exact .upgradeRep hs
    · cases h

inductive EvictedAs (b : LlcLine D) : List (LlcMsg D) → Prop
  | flush (hs : b.cstate = .modified) : EvictedAs b [.flushRep b.data]
  | inv (hs : b.cstate = .shared ∨ b.cstate = .exclusive) : EvictedAs b [.invRep]

theorem evict_evictedAs (h : b.evict = .ok r) : r.1.cstate = .invalid ∧ EvictedAs b r.2 := by
  obtain ⟨s,d,ws⟩ := b
  cases s with
  | modified => obtain rfl := ok.inj h; exact ⟨rfl,.flush rfl⟩
  | shared => obtain rfl := ok.inj h; exact ⟨rfl,.inv (.inl rfl)⟩
  | exclusive => obtain rfl := ok.inj h; exact ⟨rfl,.inv (.inr rfl)⟩
  | _ => cases h

theorem processMemOp_lossless : b.processMemOp op ≠ .error .modifiedDataLost := by
  cases op <;> unfold processMemOp initiateDirectoryAccess <;> dsimp only <;> split_ifs <;> simp

theorem acceptReply_lossless : b.acceptReply m ≠ .error .modifiedDataLost := by
  obtain ⟨s,d,ws⟩ := b
  cases ws with
  | nil => cases m <;> exact nofun
  | cons x ws => cases m <;> cases s <;> exact nofun

theorem evict_lossless : b.evict ≠ .error .modifiedDataLost := by
  obtain ⟨s,d,ws⟩ := b
  cases s <;> exact nofun

theorem handleMsgFromDramDirectory_lost (hm : m.isReply = false)
    (h : b.handleMsgFromDramDirectory junk m = .error .modifiedDataLost) : m = .invReq ∧ b.cstate = .modified := by
  obtain ⟨s,d,ws⟩ := b
  cases m with
  | exRep _ | shRep _ | upgradeRep => cases hm
  | invReq => cases s <;> first | exact ⟨rfl,rfl⟩ | cases h
  | flushReq | wbReq => cases s <;> cases h

end LlcLine

namespace WaiterSystem
variable {Addr T : Type}

def lastLevel (s : WaiterSystem Addr T n D) (c : Fin n) (a : Addr) : CacheState := ((s.lines a).llc c).cstate

variable [DecidableEq Addr]

def waiting (s : WaiterSystem Addr T n D) (c : Fin n) (a : Addr) : List (CacheDirectoryWaiter T D) :=
  if s.phase a c = some .network then (s.directoryWaiters a c).tail else s.directoryWaiters a c

structure Changes (s t : WaiterSystem Addr T n D) (c : Fin n) (a : Addr) (x : CacheState)
    (q : List (CacheDirectoryWaiter T D)) : Prop where
  state : t.lastLevel c a = x
  queue : t.waiting c a = q
  states : ∀ c' a', a' ≠ a ∨ c' ≠ c → t.lastLevel c' a' = s.lastLevel c' a'
  queues : ∀ c' a', a' ≠ a ∨ c' ≠ c → t.waiting c' a' = s.waiting c' a'

open LlcLine (Drifts Handled EvictedAs)
variable {s t : WaiterSystem Addr T n D} {a : Addr} {c : Fin n} {q : List (CacheDirectoryWaiter T D)} {x : CacheState}

theorem changes_write (hl : ∀ c' ≠ c, ln.llc c' = (s.lines a).llc c')
    (hr : ∀ a' ≠ a, servedAt r a' = s.phase a' c) (hx : (ln.llc c).cstate = x)
    (hq : (if servedAt r a = some .network then q.tail else q) = q') : Changes s (s.write a c ln q r e k) c a x q' := by
  refine ⟨?_,?_,fun c' a' hne => ?_,fun c' a' hne => ?_⟩
  · simp only [lastLevel,write,update_self,hx]
  · rw [waiting,phase_write,update_self,← hq]
    simp only [write,put_self]
  · rcases eq_or_ne a' a with rfl | ha
    · simp only [lastLevel,write,update_self,hl c' (hne.resolve_left fun h => h rfl)]
    · simp only [lastLevel,write,update_of_ne ha]
  · rw [waiting,waiting,phase_write]
    have hp : update (s.phase a') c (servedAt r a') c' = s.phase a' c' := by
      rcases eq_or_ne c' c with rfl | hc
      · rw [update_self,hr a' (hne.resolve_right fun h => h rfl)]
      · exact update_of_ne hc _ _
    rw [hp]
    simp only [write,put_of_ne _ _ hne]

theorem changes_setLine (hl : ∀ c' ≠ c, ln.llc c' = (s.lines a).llc c')
    (hx : (ln.llc c).cstate = x) : Changes s (s.setLine a ln) c a x (s.waiting c a) := by
  rw [setLine_write s a c]
  exact changes_write hl (fun _ _ => rfl) hx rfl

theorem wakeUpNext_changes (s : WaiterSystem Addr T n D) (e k : List (CacheDirectoryWaiter T D))
    (r : Option (Addr × Handover)) (hl : ∀ c' ≠ c, ln.llc c' = (s.lines a).llc c')
    (hp : ∀ a' ≠ a, s.phase a' c = none) : ∃ x, Drifts (ln.llc c).cstate x ∧
      Changes s ((s.write a c ln q r e k).wakeUpNext a c) c a x q := by
  have hline : (s.write a c ln q r e k).lines a = ln := update_self _ _ _
  have hqueue : (s.write a c ln q r e k).directoryWaiters a c = q := put_self _ _ _ _
  have hnone : ∀ a' ≠ a, servedAt (none : Option (Addr × Handover)) a' = s.phase a' c := fun a' ha => (hp a' ha).symm
  cases q with
  | nil =>
    rw [wakeUpNext_nil hqueue,write_write,hline]
    exact ⟨_,.inl rfl,changes_write hl hnone rfl rfl⟩
  | cons w rest =>
    have hor : (w.exclusive ∧ (ln.llc c).cstate = .shared) ∨ ¬ (w.exclusive ∧ (ln.llc c).cstate = .shared) := em _
    rcases hor with hw | hw
    · rw [wakeUpNext_upgrade hqueue (by rwa [hline]),write_write,hline]
      refine ⟨.sharedUpgrading,.inr ⟨hw.2,rfl⟩,changes_write ?_ hnone ?_ rfl⟩
      · exact fun c' hc => (Line.setLlc_of_ne _ _ hc).trans (hl c' hc)
      · rw [Line.setLlc_llc]
    · rw [wakeUpNext_user hqueue (by rwa [hline]),write_write,hline]
      refine ⟨_,.inl rfl,changes_write hl (fun a' ha => ?_) rfl ?_⟩
      · rw [servedAt_ne _ ha,hp a' ha]
      · rw [servedAt_self,if_neg (by decide)]

theorem core_ok (hs : s.step cfg (.core a c w) = .ok t) : ∃ ln, (s.lines a).step cfg (.core c w.op) = .ok ln ∧
      t = if ((s.lines a).llc c).permits w.exclusive then s.setLine a ln else (s.setLine a ln).enqueue a c w := by
  rw [step] at hs
  split_ifs at hs with hn
  unfold processMemOpFromCore at hs
  obtain ⟨u,hl,hs⟩ := Outcome.bind_ok hs
  obtain ⟨ln,hln,rfl⟩ := stepLine_ok hl
  exact ⟨ln,hln,(ok.inj hs).symm⟩

theorem changes_hitBy (op : MemOp D) : Changes s (s.setLine a ((s.lines a).hitBy c op)) c a
    (if op.exclusive then .modified else s.lastLevel c a) (s.waiting c a) := by
  refine changes_setLine (fun c' hc => Line.hitBy_of_ne _ _ hc) ?_
  rw [Line.hitBy_llc]
  exact LlcLine.performed_cstate _ _

theorem core_hit_changes (hs : s.step cfg (.core a c w) = .ok t) (hf : ((s.lines a).llc c).permits w.exclusive) :
    Changes s t c a (if w.exclusive then .modified else s.lastLevel c a) (s.waiting c a) := by
  obtain ⟨ln,hln,rfl⟩ := core_ok hs
  rw [Line.step_core_hit hf] at hln
  cases hln
  rw [if_pos hf]
  exact changes_hitBy w.op

theorem core_miss_changes (h : s.Ordered) (hs : s.step cfg (.core a c w) = .ok t)
    (hf : ((s.lines a).llc c).permits w.exclusive = false) :
    ∃ x, Drifts (s.lastLevel c a) x ∧ Changes s t c a x (s.waiting c a ++ [w]) := by
  obtain ⟨ln,hln,rfl⟩ := core_ok hs
  obtain ⟨b,out,hb,rfl⟩ := Line.step_core_miss hf hln
  rw [hf,if_neg Bool.false_ne_true,enqueue_write]
  refine ⟨b.cstate,LlcLine.initiateDirectoryAccess_cstate hb,changes_write
    (fun c' hc => Line.setLlc_of_ne _ _ hc) (fun _ _ => rfl) (by rw [Line.setLlc_llc]) ?_⟩
  change (if s.phase a c = some .network then _ else _) = s.waiting c a ++ [w]
  unfold waiting
  split
  case isTrue hp => exact List.tail_append_of_ne_nil ((h a c).serving (by rw [hp]; rfl)).1
  case isFalse => rfl

theorem user_changes (hn : s.networkThread c = some (a,.user)) (hq : s.directoryWaiters a c = w :: rest)
    (hs : s.step cfg (.user c) = .ok t) :
    Changes s t c a (if w.exclusive then .modified else s.lastLevel c a) rest := by
  rw [step,hn] at hs
  dsimp only [runUserThread] at hs
  rw [hq] at hs
  dsimp only at hs
  split_ifs at hs with hf
  rw [stepLine,Line.step_core_hit hf] at hs
  cases hs
  change Changes s ((s.setLine a ((s.lines a).hitBy c w.op)).setNetworkThread c _) c a _ _
  rw [setNetworkThread_write]
  refine changes_write (fun c' hc => Line.hitBy_of_ne _ _ hc) (fun a' ha => ?_) ?_ ?_
  · rw [phase,hn,servedAt_ne _ ha,servedAt_ne _ ha]
  · rw [Line.hitBy_llc]
    exact LlcLine.performed_cstate _ _
  · rw [servedAt_self,if_pos rfl,hq]
    rfl

theorem resume_changes (hs : s.step cfg (.resume c) = .ok t) :
    ∃ a x, Drifts (s.lastLevel c a) x ∧ Changes s t c a x (s.waiting c a) := by
  rw [step] at hs
  split at hs
  case h_2 => cases hs
  case h_1 a hn =>
    cases hs
    have hp : s.phase a c = some .network := by rw [phase,hn,servedAt_self]
    obtain ⟨x,hx,hc⟩ := wakeUpNext_changes (q := (s.directoryWaiters a c).tail) s (s.enqueued a c)
      (s.woken a c) (s.networkThread c)
      (fun c' (hc : c' ≠ c) => Line.setLlc_of_ne
        { (s.lines a).llc c with waiters := ((s.lines a).llc c).waiters.tail } [] hc)
      (fun a' ha => by rw [phase,hn,servedAt_ne _ ha])
    rw [Line.setLlc_llc] at hx
    refine ⟨a,x,hx,?_⟩
    rwa [dequeue_write,waiting,if_pos hp]

theorem evict_changes (hs : s.step cfg (.evict a c) = .ok t) : Changes s t c a .invalid (s.waiting c a) ∧
      ∃ out, EvictedAs ((s.lines a).llc c) out ∧ (t.lines a).toDir c = (s.lines a).toDir c ++ out := by
  rw [step] at hs
  split_ifs at hs with hn
  obtain ⟨ln,hl,rfl⟩ := stepLine_ok hs
  rw [Line.step] at hl
  obtain ⟨r,hr,hl⟩ := Outcome.bind_ok hl
  cases hl
  obtain ⟨hi,he⟩ := LlcLine.evict_evictedAs hr
  refine ⟨changes_setLine (fun c' hc => Line.setLlc_of_ne _ _ hc) ?_,r.2,he,?_⟩
  · rwa [Line.setLlc_llc]
  · rw [setLine_self]
    exact update_self _ _ _

theorem network_changes (hi : (s.lines a).toLlc c = m :: ms) (hs : s.step cfg (.network a c junk) = .ok t) :
    ∃ x, Handled (s.lastLevel c a) m x ∧ Changes s t c a x (s.waiting c a) := by
  rw [step] at hs
  split_ifs at hs with hn
  have hn : s.networkThread c = none := by simpa using hn
  rw [handleMsgFromDramDirectory,hi] at hs
  dsimp only at hs
  split_ifs at hs with hm
  · split at hs
    · next b hb =>
      cases hs
      have hl : ∀ c' ≠ c, ({ (s.lines a).setLlc c b [] with
          toLlc := update (s.lines a).toLlc c ms } : Line n D).llc c' =
          (s.lines a).llc c' := fun c' hc => Line.setLlc_of_ne _ [] hc
      obtain ⟨x,hx,hc⟩ := wakeUpNext_changes (q := s.directoryWaiters a c) s (s.enqueued a c)
        (s.woken a c) (s.networkThread c) hl fun a' _ => phase_idle hn a'
      have hb' : ({ (s.lines a).setLlc c b [] with
          toLlc := update (s.lines a).toLlc c ms } : Line n D).llc c = b :=
        Line.setLlc_llc _ _ _ []
      rw [hb'] at hx
      refine ⟨x,(LlcLine.acceptReply_accepted hb).handled hx,?_⟩
      rwa [waiting,phase_idle hn,if_neg (by simp),setLine_write s a c]
    · cases hs
  · obtain ⟨ln,hln,rfl⟩ := stepLine_ok hs
    rw [Line.step,hi] at hln
    dsimp only at hln
    obtain ⟨r,hr,hln⟩ := Outcome.bind_ok hln
    cases hln
    refine ⟨r.1.cstate,LlcLine.handleMsgFromDramDirectory_handled (by simpa using hm) hr,
      changes_setLine (fun c' hc => Line.setLlc_of_ne _ r.2 hc) ?_⟩
    exact congrArg _ (Line.setLlc_llc _ _ _ r.2)

theorem directory_keeps (hs : s.step cfg (.directory a l) = .ok t) (c : Fin n) (a' : Addr) :
    t.lastLevel c a' = s.lastLevel c a' ∧ t.waiting c a' = s.waiting c a' := by
  rw [step] at hs
  split_ifs at hs with hl
  obtain ⟨ln,hln,rfl⟩ := stepLine_ok hs
  refine ⟨?_,rfl⟩
  rcases eq_or_ne a' a with rfl | ha
  · rw [lastLevel,setLine_self,(Line.step_settle (s.phase a') hl hln).1]
    rfl
  · rw [lastLevel,setLine_of_ne s ln ha]
    rfl

theorem stepLine_lossless (h : (s.lines a).step cfg l ≠ .error .modifiedDataLost) :
    s.stepLine cfg a l ≠ .error (.line .modifiedDataLost) := by
  intro hs
  unfold stepLine at hs
  split at hs
  · cases hs
  · next f hf =>
    obtain rfl := WaiterFault.line.inj (error.inj hs)
    exact h hf

theorem bind_lossless {α β : Type} {x : Except Fault α} {f : α → β}
    (h : x ≠ .error .modifiedDataLost) : (do let r ← x; return f r) ≠ error .modifiedDataLost := by
  cases x with
  | error e => exact fun he => h (congrArg error (error.inj he))
  | ok r => exact nofun

theorem step_lossless {contents : Addr → D} {l : WaiterLabel Addr T n D}
    (h : Reachable cfg contents s) (hl : ∀ a d, l ≠ .directory a d) :
    s.step cfg l ≠ .error (.line .modifiedDataLost) := by
  cases l with
  | core a c w =>
    rw [step]
    split_ifs
    · simp
    · unfold processMemOpFromCore
      have hl : s.stepLine cfg a (.core c w.op) ≠ .error (.line .modifiedDataLost) :=
        stepLine_lossless (bind_lossless LlcLine.processMemOp_lossless)
      cases hs : s.stepLine cfg a (.core c w.op) with
      | error f => exact fun he => hl (hs.trans (congrArg error (error.inj he)))
      | ok u => simp
  | network a c junk =>
    rw [step]
    split_ifs with hn
    · simp
    · have hn : s.networkThread c = none := by simpa using hn
      unfold handleMsgFromDramDirectory
      dsimp only
      cases hi : (s.lines a).toLlc c with
      | nil => simp
      | cons m ms =>
        dsimp only
        split_ifs with hm
        · cases hb : ((s.lines a).llc c).acceptReply m with
          | ok b => simp
          | error f =>
            dsimp only
            intro he
            obtain rfl := WaiterFault.line.inj (error.inj he)
            exact LlcLine.acceptReply_lossless hb
        · refine stepLine_lossless ?_
          rw [Line.step,hi]
          refine bind_lossless fun he => ?_
          obtain ⟨rfl,hmod⟩ := LlcLine.handleMsgFromDramDirectory_lost (by simpa using hm) he
          have hun := System.invReq_unowned (reachable_settled h) (a := a) (c := c) (by
            change _ ∈ (s.lines a).toLlc c
            rw [hi]
            exact List.mem_cons_self)
          rw [settled,Line.settle_llc,phase_idle hn] at hun
          exact hun.2 hmod
  | user c =>
    rw [step]
    split
    · next a hn =>
      unfold runUserThread
      split
      · simp
      · next w rest hq =>
        split_ifs with hf
        · rw [stepLine,Line.step_core_hit hf]
          simp
        · simp
    · simp
  | resume c =>
    rw [step]
    split <;> simp
  | evict a c =>
    rw [step]
    split_ifs
    · simp
    · exact stepLine_lossless (bind_lossless LlcLine.evict_lossless)
  | directory a d => exact absurd rfl (hl a d)

end WaiterSystem
end Coherence
