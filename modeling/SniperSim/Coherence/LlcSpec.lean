import SniperSim.Library.ExceptSpec
import SniperSim.Coherence.Llc

namespace Coherence

def Fault.isSharerAssertion : Fault → Bool
  | .addSharerPresent | .removeSharerAbsent | .flushRepNotSharer | .flushRepNotShared
  | .wbRepNotSharer => true
  | _ => false

def Benign (f : Fault) : Prop := f.isSharerAssertion = false

namespace LlcLine
variable {D : Type} {b : LlcLine D} {junk : D}

inductive Moves (b : LlcLine D) (junk : D) :
    Option (DirMsg D) → Option D → LlcLine D → List (LlcMsg D) → Prop
  | hit : Moves b junk none none b []
  | write (v : D) (hs : b.cstate = .exclusive ∨ b.cstate = .modified) :
      Moves b junk none (some v) { b with cstate := .modified, data := v } []
  | own (hs : b.cstate = .exclusive) : Moves b junk none none { b with cstate := .modified } []
  | queue (exclusive : Bool) (hw : b.waiters ≠ []) :
      Moves b junk none none { b with waiters := b.waiters ++ [exclusive] } []
  | askShared (hw : b.waiters = []) (hs : readable b.cstate = false) :
      Moves b junk none none { b with waiters := [false] } [.shReq]
  | askExclusive (hw : b.waiters = []) (hs : b.cstate = .invalid) :
      Moves b junk none none { b with waiters := [true] } [.exReq]
  | askUpgrade (hw : b.waiters = []) (hs : b.cstate = .shared) :
      Moves b junk none none { b with waiters := [true], cstate := .sharedUpgrading } [.upgradeReq]
  | evictClean (hs : b.cstate = .shared ∨ b.cstate = .exclusive) :
      Moves b junk none none { b with cstate := .invalid } [.invRep]
  | evictDirty (hs : b.cstate = .modified) : Moves b junk none none { b with cstate := .invalid } [.flushRep b.data]
  | fillExclusive (d : D) (s : CacheState) (hs : b.cstate = .invalid)
      (ho : s = .modified ∨ s = .exclusive ∧ true ∉ b.waiters) : Moves b junk (some (.exRep d)) none ⟨s,d,[]⟩ []
  | fillShared (d : D) (hs : b.cstate = .invalid) : Moves b junk (some (.shRep d)) none ⟨.shared,d,[]⟩ []
  | fillUpgrading (d : D) (rest : List Bool) (hs : b.cstate = .invalid) :
      Moves b junk (some (.shRep d)) none ⟨.sharedUpgrading,d,true :: rest⟩ [.upgradeReq]
  | upgrade (hs : b.cstate = .sharedUpgrading) : Moves b junk (some .upgradeRep) none ⟨.modified,b.data,[]⟩ []
  | ignore (m : DirMsg D) (hs : b.cstate = .invalid)
      (hm : m = .invReq ∨ m = .flushReq ∨ m = .wbReq) : Moves b junk (some m) none b []
  | invalidate (hs : b.cstate ≠ .invalid) (hm : b.cstate ≠ .modified) :
      Moves b junk (some .invReq) none { b with cstate := .invalid } [.invRep]
  | flush (hs : b.cstate ≠ .invalid) :
      Moves b junk (some .flushReq) none { b with cstate := .invalid } [.flushRep b.data]
  | writeBack (hs : b.cstate ≠ .invalid) (hu : b.cstate ≠ .sharedUpgrading) :
      Moves b junk (some .wbReq) none { b with cstate := .shared } [.wbRep b.data]
  | writeBackUpgrading (hs : b.cstate = .sharedUpgrading) : Moves b junk (some .wbReq) none b [.wbRep junk]

theorem wakeWaiters_modified (ws : List Bool) : wakeWaiters (D := D) .modified ws = (.modified,[],[]) := by
  induction ws with
  | nil => rfl
  | cons x ws ih => simp [wakeWaiters,ih]

theorem wakeWaiters_exclusive (ws : List Bool) :
    wakeWaiters (D := D) .exclusive ws = (if true ∈ ws then .modified else .exclusive,[],[]) := by
  induction ws with
  | nil => rfl
  | cons x ws ih => cases x <;> simp [wakeWaiters,ih,wakeWaiters_modified]

theorem wakeWaiters_shared (ws : List Bool) : wakeWaiters (D := D) .shared ws = (.shared,[],[]) ∨
      ∃ rest, wakeWaiters (D := D) .shared ws = (.sharedUpgrading,true :: rest,[.upgradeReq]) := by
  induction ws with
  | nil => exact .inl rfl
  | cons x ws ih => cases x <;> simp [wakeWaiters,ih]

theorem benign_of (h : f.isSharerAssertion = false) : Benign f := h

theorem initiateDirectoryAccess_moves (exclusive : Bool) (hs : exclusive = false → readable b.cstate = false) :
    Outcome Benign (fun r => b.Moves junk none none r.1 r.2) (b.initiateDirectoryAccess exclusive) := by
  cases hw : b.waiters with
  | cons x ws =>
    have hq : b.Moves junk none none { b with waiters := b.waiters ++ [exclusive] } [] :=
      .queue exclusive (by simp [hw])
    simpa [initiateDirectoryAccess,hw] using hq
  | nil =>
    cases exclusive with
    | false =>
      simp only [initiateDirectoryAccess,hw,List.isEmpty_nil,Bool.false_eq_true,if_true,if_false]
      exact .askShared hw (hs rfl)
    | true =>
      simp only [initiateDirectoryAccess,hw,List.isEmpty_nil,if_true]
      split_ifs with hc hi
      · exact .askUpgrade hw hc
      · exact .askExclusive hw hi
      · exact benign_of rfl

theorem processMemOp_moves (junk : D) (op : MemOp D) :
    Outcome Benign (fun r => b.Moves junk none (b.written op) r.1 r.2) (b.processMemOp op) := by
  cases op with
  | read =>
    simp only [processMemOp,written]
    split_ifs with hr
    · exact .hit
    · exact initiateDirectoryAccess_moves false fun _ => by simpa using hr
  | readEx =>
    simp only [processMemOp,written]
    split_ifs with hm he
    · exact .hit
    · exact .own he
    · exact initiateDirectoryAccess_moves true (by simp)
  | write v =>
    cases hs : b.cstate with
    | modified =>
      simp only [processMemOp,written,writable,hs]
      exact .write v (.inr hs)
    | exclusive =>
      simp only [processMemOp,written,writable,hs]
      exact .write v (.inl hs)
    | _ =>
      simp only [processMemOp,written,writable,hs]
      exact initiateDirectoryAccess_moves true (by simp)

theorem evict_moves (junk : D) : Outcome Benign (fun r => b.Moves junk none none r.1 r.2) b.evict := by
  cases hs : b.cstate with
  | modified => simp only [evict,hs]; exact .evictDirty hs
  | shared => simp only [evict,hs]; exact .evictClean (.inl hs)
  | exclusive => simp only [evict,hs]; exact .evictClean (.inr hs)
  | _ => simp only [evict,hs]; exact benign_of rfl

theorem requireWaiter_outcome : Outcome Benign (fun _ => True) b.requireWaiter := by
  rw [requireWaiter]
  split_ifs with hw
  · exact benign_of rfl
  · trivial

theorem insertCacheBlock_outcome (s : CacheState) (d : D) :
    Outcome Benign (fun r => b.cstate = .invalid ∧ r = { b with cstate := s, data := d }) (b.insertCacheBlock s d) := by
  rw [insertCacheBlock]
  split_ifs with hs
  · exact ⟨hs,rfl⟩
  · exact benign_of rfl

theorem processShRep_moves (d : D) :
    Outcome Benign (fun r => b.Moves junk (some (.shRep d)) none r.1 r.2) (b.processShRep d) := by
  refine requireWaiter_outcome.bind fun _ _ => ?_
  refine (insertCacheBlock_outcome .shared d).bind ?_
  rintro _ ⟨hs,rfl⟩
  simp only [wake,Outcome.pure_iff]
  rcases wakeWaiters_shared (D := D) b.waiters with hw | ⟨rest,hw⟩
  · rw [hw]
    exact .fillShared d hs
  · rw [hw]
    exact .fillUpgrading d rest hs

theorem processUpgradeRep_moves :
    Outcome Benign (fun r => b.Moves junk (some .upgradeRep) none r.1 r.2) b.processUpgradeRep := by
  refine requireWaiter_outcome.bind fun _ _ => ?_
  cases hs : b.cstate with
  | sharedUpgrading =>
    have hu : b.updateCacheBlock .modified false = .ok ({ b with cstate := .modified },none) := by
      simp [updateCacheBlock,hs]
    have hw : wake { b with cstate := .modified } = (⟨.modified,b.data,[]⟩,[]) := by
      simp [wake,wakeWaiters_modified]
    simp only [reduceCtorEq,if_false,if_true,hu]
    change Outcome Benign _ (.ok (wake { b with cstate := .modified }))
    rw [hw]
    exact .upgrade hs
  | _ => exact benign_of rfl

theorem updateCacheBlock_invalid (hs : b.cstate ≠ .invalid) :
    b.updateCacheBlock .invalid true = .ok ({ b with cstate := .invalid },some b.data) := by
  simp [updateCacheBlock,hs,Ne.symm hs]

theorem updateCacheBlock_shared (hs : b.cstate ≠ .invalid) :
    b.updateCacheBlock .shared true = .ok ({ b with cstate := .shared },some b.data) := by
  obtain ⟨s,d,ws⟩ := b
  cases s with
  | invalid => exact absurd rfl hs
  | _ => simp [updateCacheBlock]

theorem processInvReq_moves : Outcome Benign (fun r => b.Moves junk (some .invReq) none r.1 r.2) b.processInvReq := by
  rw [processInvReq]
  split_ifs with hs
  · exact .ignore _ hs (.inl rfl)
  · cases hm : b.cstate with
    | invalid => exact absurd hm hs
    | modified =>
      simp only [updateCacheBlock,hm]
      exact benign_of rfl
    | _ =>
      simp only [updateCacheBlock,hm]
      exact .invalidate hs (by simp [hm])

theorem processFlushReq_moves :
    Outcome Benign (fun r => b.Moves junk (some .flushReq) none r.1 r.2) (b.processFlushReq junk) := by
  rw [processFlushReq]
  split_ifs with hs
  · exact .ignore _ hs (.inr (.inl rfl))
  · rw [updateCacheBlock_invalid hs]
    exact .flush hs

theorem processWbReq_moves :
    Outcome Benign (fun r => b.Moves junk (some .wbReq) none r.1 r.2) (b.processWbReq junk) := by
  rw [processWbReq]
  split_ifs with hs hu
  · exact .ignore _ hs (.inr (.inr rfl))
  · exact .writeBackUpgrading hu
  · rw [updateCacheBlock_shared hs]
    exact .writeBack hs hu

theorem handleMsgFromDramDirectory_moves (m : DirMsg D) :
    Outcome Benign (fun r => b.Moves junk (some m) none r.1 r.2) (b.handleMsgFromDramDirectory junk m) := by
  cases m with
  | exRep d =>
    refine requireWaiter_outcome.bind fun _ _ => ?_
    refine (insertCacheBlock_outcome .exclusive d).bind ?_
    rintro _ ⟨hs,rfl⟩
    simp only [wake,wakeWaiters_exclusive,Outcome.pure_iff]
    refine .fillExclusive d _ hs ?_
    split_ifs with hw <;> simp [*]
  | shRep d => exact processShRep_moves d
  | upgradeRep => exact processUpgradeRep_moves
  | invReq => exact processInvReq_moves
  | flushReq => exact processFlushReq_moves
  | wbReq => exact processWbReq_moves

end LlcLine
end Coherence
