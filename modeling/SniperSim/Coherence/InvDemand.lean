import SniperSim.Coherence.Reachable

open Function List
namespace Coherence
variable {n : Nat} {D : Type}

def DirMsg.givesOwnership : DirMsg D → Bool
  | .exRep _ | .upgradeRep => true
  | _ => false

structure Unowned (s : CacheState) (ms : List (DirMsg D)) : Prop where
  now : s = .exclusive ∨ s = .modified → .invReq ∉ ms
  later : ms.Pairwise fun m m' => m' = .invReq → m.givesOwnership = false

namespace Unowned
variable {s : CacheState} {ms : List (DirMsg D)} {m : DirMsg D}

theorem append (h : Unowned s ms) (hm : .invReq ∉ ms') : Unowned s (ms ++ ms') := by
  have hne {m : DirMsg D} (hmem : m ∈ ms') : m ≠ .invReq := fun he => hm (he ▸ hmem)
  refine ⟨fun hs hi => ?_,pairwise_append.mpr ⟨h.later,?_,fun _ _ m hmem he => ?_⟩⟩
  · rcases mem_append.mp hi with hi | hi
    · exact h.now hs hi
    · exact hm hi
  · exact pairwise_of_forall_mem_list fun _ _ _ hmem he => absurd he (hne hmem)
  · exact absurd he (hne hmem)

theorem of_quiet (hs : s ≠ .exclusive ∧ s ≠ .modified) (hm : ∀ m ∈ ms, m.givesOwnership = false) : Unowned s ms := by
  refine ⟨fun ho => ?_,pairwise_of_forall_mem_list fun m hmem _ _ _ => hm m hmem⟩
  rcases ho with ho | ho
  · exact absurd ho hs.1
  · exact absurd ho hs.2

theorem tail (h : Unowned s (m :: ms)) (hs : s' = .exclusive ∨ s' = .modified →
      s = .exclusive ∨ s = .modified ∨ m.givesOwnership) : Unowned s' ms := by
  obtain ⟨hhead,htail⟩ := pairwise_cons.mp h.later
  refine ⟨fun ho hi => ?_,htail⟩
  rcases hs ho with hs | hs | hs
  · exact h.now (.inl hs) (mem_cons_of_mem _ hi)
  · exact h.now (.inr hs) (mem_cons_of_mem _ hi)
  · simp [hhead _ hi rfl] at hs

theorem congr (h : Unowned s ms)
    (hs : s' = .exclusive ∨ s' = .modified → s = .exclusive ∨ s = .modified) : Unowned s' ms :=
  ⟨fun ho => h.now (hs ho),h.later⟩

end Unowned

theorem LlcLine.Moves.unowned {b b' : LlcLine D} {junk : D} {msg : Option (DirMsg D)} {wr : Option D}
    {inbox : List (DirMsg D)} {out : List (LlcMsg D)} (hm : b.Moves junk msg wr b' out)
    (h : Unowned b.cstate (msg.toList ++ inbox)) : Unowned b'.cstate inbox := by
  cases hm with
  | hit | queue x hw | askShared hw hs | askExclusive hw hs => exact h
  | write d hs => exact h.congr fun _ => hs
  | own hs => exact h.congr fun _ => .inl hs
  | askUpgrade hw hs | evictClean hs | evictDirty hs => exact h.congr (by simp)
  | fillExclusive d s hs ho | upgrade hs => exact h.tail fun _ => .inr (.inr rfl)
  | fillShared d hs | fillUpgrading d rest hs => exact h.tail (by simp)
  | ignore m hs hm | writeBackUpgrading hs => exact h.tail fun ho => ho.imp id .inl
  | invalidate hs hm | flush hs | writeBack hs hu => exact h.tail (by simp)

namespace Line
variable {cfg : Config} {env : Env n D} {e : DirectoryEntry n} {reqs : List (ShmemReq n)} {asked : Bool} {c : Fin n}
  {ln : Line n D}

def InvSafe (ln : Line n D) : Prop := ∀ c, Unowned (ln.llc c).cstate (ln.toLlc c)

theorem InvSafe.same (h : InvSafe ln) (hl : ln'.llc = ln.llc) (hi : ln'.toLlc = ln.toLlc) : InvSafe ln' := by
  intro c
  rw [hl,hi]
  exact h c

theorem InvSafe.send (h : InvSafe ln) (c : Fin n) (hm : m ≠ .invReq) : InvSafe (ln.send c m) := by
  intro c'
  rcases eq_or_ne c' c with rfl | hc
  · simp only [Line.send,update_self]
    exact (h c').append (by simpa using hm.symm)
  · simp only [Line.send,update_of_ne hc]
    exact h c'

theorem no_ownership (h : Inv ln e reqs asked) (hd : e.dstate = .shared) (c : Fin n) :
    ((ln.llc c).cstate ≠ .exclusive ∧ (ln.llc c).cstate ≠ .modified) ∧ ∀ m ∈ ln.toLlc c, m.givesOwnership = false := by
  obtain ⟨he,hm,hex,hup⟩ := (h.port c).sharedOnly hd
  refine ⟨⟨he,hm⟩,fun m hmem => ?_⟩
  obtain ⟨hpe,-,hpu⟩ := Inbox.ofList_pos (held (ln.llc c).cstate) hmem
  cases m with
  | exRep d =>
    have := hpe ⟨d,rfl⟩
    omega
  | upgradeRep =>
    have := hpu rfl
    omega
  | _ => rfl

theorem invSafe_demands (h : Inv ln e reqs asked) (hd : e.dstate = .shared)
    (targets : List (Fin n × DirMsg D)) (ht : ∀ t ∈ targets, t.2.givesOwnership = false) :
    InvSafe ((ln.setEntry e).sendAll targets) := by
  rw [sendAll_eq]
  intro c
  obtain ⟨hs,hm⟩ := no_ownership h hd c
  refine .of_quiet hs fun m hmem => ?_
  rcases mem_append.mp hmem with hmem | hmem
  · exact hm m hmem
  · obtain ⟨t,htm,rfl⟩ := mem_map.mp hmem
    exact ht t (mem_filter.mp htm).1

theorem invSafeRule (cfg : Config) (env : Env n D) : Rule cfg env (fun _ _ ln => InvSafe ln) InvSafe where
  served := by
    intro req rest cachedData ln r hi hw hq hj hs
    cases hs with
    | flush o hd | writeback o hd => exact ⟨by simp,fun _ => InvSafe.send (hj.same rfl rfl) o (by simp)⟩
    | invalidate targets hd ht =>
      refine ⟨by simp,fun _ => invSafe_demands hi hd targets fun t hmem => ?_⟩
      rcases ht t hmem with hm | ⟨hm,-⟩ <;> rw [hm] <;> rfl
    | upgrade hk hs hd => exact ⟨fun _ => InvSafe.send (hj.same rfl rfl) _ (by simp),by simp⟩
    | nullify hk hd => exact ⟨fun _ => hj.same rfl rfl,by simp⟩
    | reply e' e'' reply d hg hsrc =>
      refine ⟨fun _ => InvSafe.send (hj.same rfl rfl) _ ?_,by simp⟩
      rcases hg.cases with ⟨-,-,⟨-,-,rfl⟩ | ⟨-,-,rfl⟩ | ⟨-,-,-,rfl⟩⟩ | ⟨-,-,-,rfl,-⟩ <;> simp
    | forward e' reply f hg => exact ⟨by simp,fun _ => InvSafe.send (hj.same rfl rfl) f (by simp)⟩
    | fetch e' reply hg hc => exact ⟨by simp,fun _ => hj.same rfl rfl⟩
  nil := fun h => h.same rfl rfl
  frame := fun _ h => h.same rfl rfl

theorem InvSafe.sendDataToDram (h : InvSafe ln) (d : D) : InvSafe (ln.sendDataToDram cfg d) := by
  obtain ⟨_,_,he⟩ := sendDataToDram_frame cfg ln d
  rw [he]
  exact h.same rfl rfl

theorem handleMsgFromL2Cache_invSafe (env : Env n D) (h : Busy cfg ln) (hs : InvSafe ln) (hm : ln.toDir c = m :: ms) :
    Outcome Benign InvSafe ((ln.pop c ms).handleMsgFromL2Cache cfg env c m) := by
  have hr := invSafeRule cfg env
  refine Outcome.mono (P := fun ln => Busy cfg ln ∧ InvSafe ln) ?_ fun _ => And.right
  cases m with
  | exReq | shReq | upgradeReq => exact hr.enqueue h hm rfl (fun _ => hs.same rfl rfl) fun _ => hs.same rfl rfl
  | invRep => exact hr.processInvRep h hm (fun _ => hs.same rfl rfl) fun _ _ _ _ => hs.same rfl rfl
  | flushRep d =>
    refine hr.processFlushRep h hm (fun _ => ?_) (fun _ _ _ _ _ => hs.same rfl rfl)
      (fun _ _ _ _ _ => hs.same rfl rfl) fun _ _ _ _ _ _ => ?_
    · refine InvSafe.sendDataToDram ?_ d
      exact hs.same rfl rfl
    · refine InvSafe.sendDataToDram ?_ d
      exact hs.same rfl rfl
  | wbRep d => exact hr.processWbRep h hm fun _ _ _ _ => hs.same rfl rfl

theorem step_invSafe (h : Busy cfg ln) (hs : InvSafe ln) (l : Label n D) : Outcome Benign InvSafe (ln.step cfg l) := by
  cases hl : l.llc with
  | some c =>
    refine (step_llc hl).mono ?_
    rintro _ ⟨junk,msg,wr,b,inbox,out,hstep,rfl⟩ c'
    rcases eq_or_ne c' c with rfl | hc
    · have hu := hs c'
      rw [hstep.inbox] at hu
      simp only [afterMove,setLlc,update_self]
      exact hstep.moves.unowned hu
    · simp only [afterMove,setLlc,update_of_ne hc]
      exact hs c'
  | none =>
    cases l with
    | deliverDir c env => exact outcome_deliverDir fun _ _ => handleMsgFromL2Cache_invSafe env h hs
    | dramServe => exact outcome_dramServe (fun _ _ => hs.same rfl rfl) fun _ _ _ => hs.same rfl rfl
    | dramReply env =>
      refine outcome_dramReply fun d ds hf => ((invSafeRule cfg env).processDRAMReply h hf
        fun req rest reply hq hr => ?_).mono fun _ => And.right
      obtain ⟨_,he⟩ := sendDataToNUCA_frame cfg ({ ln with fromDram := ds }.send req.requester reply) d
      rw [he]
      exact InvSafe.send (hs.same rfl rfl) _ (by rcases hr with ⟨-,-,rfl⟩ | ⟨-,-,rfl⟩ | ⟨-,-,rfl⟩ | ⟨-,rfl⟩ <;> simp)
    | replaceEntry c env =>
      exact outcome_replaceEntry fun hq =>
        ((invSafeRule cfg env).replaceEntry h hq c (hs.same rfl rfl)).mono fun _ => And.right
    | nucaEvict writeback => exact outcome_nucaEvict fun _ _ => hs.same rfl rfl
    | nucaStray d => exact outcome_nucaStray (hs.same rfl rfl)
    | _ => simp [Label.llc] at hl

end Line

namespace System
variable {Addr : Type} [DecidableEq Addr] {cfg : Config} {s : System Addr n D}

theorem invReq_unowned (h : Reachable cfg contents s) (hi : .invReq ∈ (s a).toLlc c) :
    ((s a).llc c).cstate ≠ .exclusive ∧ ((s a).llc c).cstate ≠ .modified := by
  have hb : Line.Busy cfg (s a) ∧ Line.InvSafe (s a) := by
    refine reaches_lines (I := fun ln => Line.Busy cfg ln ∧ Line.InvSafe ln)
      (fun _ => ⟨Line.busy_initial cfg _,fun _ => ⟨by simp [Line.initial],.nil⟩⟩) ?_ h a
    rintro s l ⟨hb,hs⟩ _
    exact (Line.step_busy hb l.2).and (Line.step_invSafe hb hs l.2)
  exact ⟨fun ho => (hb.2 c).now (.inl ho) hi,fun ho => (hb.2 c).now (.inr ho) hi⟩

end System
end Coherence
