import SniperSim.Coherence.Reachable

open Function Prod
namespace Coherence
variable {n : Nat} {D : Type}
namespace Line

def behind (L : Fin n → LlcLine D) (E : Fin n → List (LlcMsg D)) (ln : Line n D) : Line n D :=
  { ln with llc := L, toDir := fun c => ln.toDir c ++ E c }

variable {L : Fin n → LlcLine D} {E : Fin n → List (LlcMsg D)} {ln : Line n D}

@[simp] theorem setEntry_behind : (ln.behind L E).setEntry e = (ln.setEntry e).behind L E := rfl

@[simp] theorem send_behind (c : Fin n) (m : DirMsg D) : (ln.behind L E).send c m = (ln.send c m).behind L E := rfl

@[simp] theorem setFront_behind : (ln.behind L E).setFront req = (ln.setFront req).behind L E := rfl

@[simp] theorem getEntry_behind : (ln.behind L E).getEntry = ln.getEntry := rfl

@[simp] theorem allocateEntry_behind : (ln.behind L E).allocateEntry env = ln.allocateEntry env := rfl

@[simp] theorem front_behind : (ln.behind L E).front = ln.front := rfl

@[simp] theorem nucaRead_behind : (ln.behind L E).nucaRead cfg = ln.nucaRead cfg := rfl

@[simp] theorem setReqs_behind (reqs : List (ShmemReq n)) :
    { ln.behind L E with reqs := reqs } = ({ ln with reqs := reqs }).behind L E := rfl

@[simp] theorem sendAll_behind (targets : List (Fin n × DirMsg D)) :
    (ln.behind L E).sendAll targets = (ln.sendAll targets).behind L E := by
  induction targets generalizing ln with
  | nil => rfl
  | cons t ts ih => exact @ih (ln.send t.1 t.2)

@[simp] theorem reqs_behind : (ln.behind L E).reqs = ln.reqs := rfl

@[simp] theorem sendOwner_behind (m : DirMsg D) : (ln.behind L E).sendOwner e m = behind L E <$> ln.sendOwner e m := by
  unfold sendOwner
  cases e.owner <;> rfl

@[simp] theorem sendDataToNUCA_behind : (ln.behind L E).sendDataToNUCA cfg d = (ln.sendDataToNUCA cfg d).behind L E := by
  unfold sendDataToNUCA
  split <;> rfl

@[simp] theorem sendDataToDram_behind : (ln.behind L E).sendDataToDram cfg d = (ln.sendDataToDram cfg d).behind L E := by
  unfold sendDataToDram
  split
  · exact sendDataToNUCA_behind
  · rfl

@[simp] theorem retrieveDataAndSendToL2Cache_behind (reply : D → DirMsg D) :
    (ln.behind L E).retrieveDataAndSendToL2Cache cfg reply req e cd =
      map (behind L E) id (ln.retrieveDataAndSendToL2Cache cfg reply req e cd) := by
  unfold retrieveDataAndSendToL2Cache
  cases cd with
  | some d => rfl
  | none =>
    rw [nucaRead_behind]
    cases ln.nucaRead cfg with
    | some d => rfl
    | none =>
      dsimp only
      split <;> rfl

theorem processExReq_behind : (ln.behind L E).processExReq cfg env req cd =
      map (behind L E) id <$> ln.processExReq cfg env req cd := by
  unfold processExReq
  rw [allocateEntry_behind]
  obtain ⟨s,sharers,owner,forwarder⟩ := ln.allocateEntry env
  cases s <;> simp [*]

theorem processShReq_behind : (ln.behind L E).processShReq cfg env req cd =
      map (behind L E) id <$> ln.processShReq cfg env req cd := by
  unfold processShReq
  rw [allocateEntry_behind]
  obtain ⟨s,sharers,owner,forwarder⟩ := ln.allocateEntry env
  cases s with
  | owned => rfl
  | uncached =>
    simp only [retrieveDataAndSendToL2Cache_behind]
    split <;> simp
  | modified => simp
  | exclusive =>
    simp only [setEntry_behind,sendOwner_behind,bind_map_left]
    split
    · rfl
    · simp
  | shared =>
    simp only [setEntry_behind,retrieveDataAndSendToL2Cache_behind,send_behind]
    split
    · rfl
    · rw [map_bind]
      congr 1
      funext r
      split
      · rfl
      · simp

theorem upgradeOwned_behind : (ln.behind L E).upgradeOwned req e = map (behind L E) id <$> ln.upgradeOwned req e := by
  unfold upgradeOwned
  cases e.getSharersList.head? with
  | none => rfl
  | some first =>
    simp only [setEntry_behind,send_behind,sendOwner_behind]
    split
    · split <;> rfl
    · simp

theorem processUpgradeReq_behind : (ln.behind L E).processUpgradeReq cfg env req cd =
      map (behind L E) id <$> ln.processUpgradeReq cfg env req cd := by
  unfold processUpgradeReq
  rw [allocateEntry_behind]
  obtain ⟨s,sharers,owner,forwarder⟩ := ln.allocateEntry env
  cases s with
  | owned => rfl
  | uncached =>
    simp only [retrieveDataAndSendToL2Cache_behind]
    split
    · simp
    · rfl
  | shared =>
    simp only [setEntry_behind,send_behind,sendAll_behind]
    split
    · simp
    · rfl
  | _ => exact upgradeOwned_behind

theorem processNullifyReq_behind :
    (ln.behind L E).processNullifyReq = map (behind L E) id <$> ln.processNullifyReq := by
  unfold processNullifyReq
  rw [getEntry_behind,map_bind]
  congr 1
  funext e
  obtain ⟨s,sharers,owner,forwarder⟩ := e
  cases s with
  | owned | uncached => rfl
  | _ => simp

@[simp] theorem processReq_behind : (ln.behind L E).processReq cfg env req cd =
      map (behind L E) id <$> ln.processReq cfg env req cd := by
  unfold processReq
  cases req.kind with
  | ex => exact processExReq_behind
  | sh => exact processShReq_behind
  | upgrade => exact processUpgradeReq_behind
  | nullify => exact processNullifyReq_behind

@[simp] theorem processNextReq_behind (reqs : List (ShmemReq n)) :
    processNextReq cfg env reqs (ln.behind L E) = behind L E <$> processNextReq cfg env reqs ln := by
  induction reqs generalizing ln with
  | nil => rfl
  | cons req rest ih =>
    unfold processNextReq
    split
    · rfl
    · rw [setReqs_behind,processReq_behind,map_bind,bind_map_left]
      congr 1
      funext r
      obtain ⟨ln,done⟩ := r
      cases done <;> simp [*]

@[simp] theorem runFront_behind : (ln.behind L E).runFront cfg env cd = behind L E <$> ln.runFront cfg env cd := by
  unfold runFront
  rw [front_behind,map_bind]
  congr 1
  funext req
  rw [processReq_behind,map_bind,bind_map_left]
  congr 1
  funext r
  obtain ⟨ln,done⟩ := r
  cases done <;> simp [*]

theorem enqueue_behind : (ln.behind L E).enqueue cfg env req = behind L E <$> ln.enqueue cfg env req := by
  unfold enqueue
  rw [setReqs_behind,reqs_behind]
  dsimp only
  split
  · exact runFront_behind
  · rfl

theorem processDRAMReply_behind (ln : Line n D) :
    (ln.behind L E).processDRAMReply cfg env d = behind L E <$> ln.processDRAMReply cfg env d := by
  unfold processDRAMReply
  simp only [reqs_behind,send_behind,sendDataToNUCA_behind,processNextReq_behind,map_bind]
  congr 1
  funext req
  congr 1
  funext e
  cases req.kind with
  | sh =>
    dsimp only
    split_ifs <;> rfl
  | ex =>
    dsimp only
    split <;> rfl
  | _ => rfl

@[simp] theorem resumeAfterInvRep_behind : (ln.behind L E).resumeAfterInvRep cfg env sender e =
      behind L E <$> ln.resumeAfterInvRep cfg env sender e := by
  unfold resumeAfterInvRep
  rw [reqs_behind]
  cases ln.reqs with
  | nil => rfl
  | cons req rest =>
    simp only [runFront_behind]
    cases req.kind with
    | ex | nullify =>
      dsimp only
      split <;> rfl
    | sh | upgrade =>
      dsimp only
      split_ifs <;> rfl

theorem processInvRep_behind : (ln.behind L E).processInvRep cfg env sender =
      behind L E <$> ln.processInvRep cfg env sender := by
  unfold processInvRep
  rw [getEntry_behind,map_bind]
  congr 1
  funext e
  simp only [setEntry_behind,resumeAfterInvRep_behind]
  split
  · rfl
  · simp

@[simp] theorem resumeAfterFlushRep_behind : (ln.behind L E).resumeAfterFlushRep cfg env d e =
      behind L E <$> ln.resumeAfterFlushRep cfg env d e := by
  unfold resumeAfterFlushRep
  rw [reqs_behind]
  cases ln.reqs with
  | nil => exact congrArg Except.ok (sendDataToDram_behind)
  | cons req rest =>
    simp only [runFront_behind,sendDataToDram_behind,setFront_behind]
    cases req.kind with
    | upgrade =>
      dsimp only
      split <;> rfl
    | _ => rfl

theorem processFlushRep_behind : (ln.behind L E).processFlushRep cfg env sender d =
      behind L E <$> ln.processFlushRep cfg env sender d := by
  unfold processFlushRep
  rw [getEntry_behind,map_bind]
  congr 1
  funext e
  simp only [setEntry_behind,resumeAfterFlushRep_behind]
  split
  · rfl
  · rw [map_bind]
    congr 1
    funext e
    split <;> rfl

theorem processWbRep_behind : (ln.behind L E).processWbRep cfg env sender d =
      behind L E <$> ln.processWbRep cfg env sender d := by
  unfold processWbRep
  rw [getEntry_behind,map_bind]
  congr 1
  funext e
  simp only [setEntry_behind,runFront_behind,reqs_behind]
  split
  · rfl
  · split
    · rfl
    · split <;> rfl

theorem handleMsgFromL2Cache_behind (m : LlcMsg D) : (ln.behind L E).handleMsgFromL2Cache cfg env sender m =
      behind L E <$> ln.handleMsgFromL2Cache cfg env sender m := by
  cases m with
  | invRep => exact processInvRep_behind
  | flushRep d => exact processFlushRep_behind
  | wbRep d => exact processWbRep_behind
  | _ => exact enqueue_behind

theorem popDir_behind (c : Fin n) (ms : List (LlcMsg D)) :
    { ln.behind L E with toDir := update (ln.behind L E).toDir c (ms ++ E c) } =
      ({ ln with toDir := update ln.toDir c ms }).behind L E := by
  have hu : update (ln.behind L E).toDir c (ms ++ E c) = fun c' => update ln.toDir c ms c' ++ E c' :=
    funext fun c' => (Function.apply_update (fun c m => m ++ E c) ln.toDir c ms c').symm
  rw [hu]
  rfl

variable (L E)

theorem step_behind (hl : l.llc = none) (h : ln.step cfg l = .ok ln') :
    (ln.behind L E).step cfg l = .ok (ln'.behind L E) := by
  cases l with
  | deliverDir c env =>
    rw [step] at h ⊢
    cases hm : ln.toDir c with
    | nil => simp [hm] at h
    | cons m ms =>
      have hm' : (ln.behind L E).toDir c = m :: (ms ++ E c) := by simp [behind,hm]
      rw [hm] at h
      rw [hm']
      dsimp only at h ⊢
      rw [popDir_behind,handleMsgFromL2Cache_behind,h]
      rfl
  | dramServe =>
    have hb : (ln.behind L E).toDram = ln.toDram := rfl
    rw [step] at h ⊢
    rw [hb]
    cases hm : ln.toDram with
    | nil => simp [hm] at h
    | cons m ms =>
      cases m with
      | _ =>
        rw [hm] at h
        cases h
        rfl
  | dramReply env =>
    have hb : (ln.behind L E).fromDram = ln.fromDram := rfl
    rw [step] at h ⊢
    rw [hb]
    cases hm : ln.fromDram with
    | nil => simp [hm] at h
    | cons d ds =>
      rw [hm] at h
      exact (processDRAMReply_behind { ln with fromDram := ds }).trans (congrArg _ h)
  | replaceEntry c env =>
    rw [step] at h ⊢
    split_ifs at h with hq
    refine (if_pos hq).trans ?_
    rw [enqueue_behind,h]
    rfl
  | nucaEvict writeback =>
    have hb : (ln.behind L E).nuca = ln.nuca := rfl
    rw [step] at h ⊢
    rw [hb]
    cases hm : ln.nuca with
    | none => simp [hm] at h
    | some d =>
      rw [hm] at h
      cases h
      rfl
  | nucaStray d =>
    rw [step] at h ⊢
    split_ifs at h with hq
    cases h
    exact if_pos hq
  | _ => simp [Label.llc] at hl

end Line
end Coherence
