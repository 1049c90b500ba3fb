import SniperSim.Library.Channel
import SniperSim.Coherence.Precision

open Function List Option Channel
namespace Coherence
variable {n : Nat} {D : Type}

def DirMsg.payload : DirMsg D → Option D
  | .exRep d | .shRep d => some d
  | _ => none

def DirMsg.isWbReq : DirMsg D → Bool
  | .wbReq => true
  | _ => false

def LlcMsg.payload : LlcMsg D → Option D
  | .flushRep d | .wbRep d => some d
  | _ => none

def LlcMsg.isFlushRep : LlcMsg D → Bool
  | .flushRep _ => true
  | _ => false

namespace LlcLine
variable {b b' : LlcLine D} {junk w : D} {msg : Option (DirMsg D)} {wr : Option D} {out : List (LlcMsg D)}

theorem Moves.contents (hm : b.Moves junk msg wr b' out) (hu : msg.any DirMsg.isWbReq → b.cstate ≠ .sharedUpgrading) :
    ∀ m ∈ out, ∀ d, m.payload = some d → b.cstate ≠ .invalid ∧ d = b.data := by
  cases hm with
  | evictDirty hs | flush hs | writeBack hs => simp [LlcMsg.payload,hs,eq_comm]
  | writeBackUpgrading hs => exact absurd hs (hu rfl)
  | _ => simp [LlcMsg.payload]

theorem Moves.copy (hm : b.Moves junk msg none b' out) (hb : b.cstate ≠ .invalid → b.data = w)
    (hd : ∀ m ∈ msg, ∀ d, m.payload = some d → d = w) : b'.cstate ≠ .invalid → b'.data = w := by
  intro hv
  cases hm with
  | hit | queue | askShared | askExclusive | writeBackUpgrading => exact hb hv
  | own hs | askUpgrade _ hs | upgrade hs => exact hb (by simp [hs])
  | evictClean | evictDirty | invalidate | flush => exact absurd rfl hv
  | fillExclusive d | fillShared d | fillUpgrading d => exact hd _ rfl d rfl
  | ignore _ hs => exact absurd hs hv
  | writeBack hs => exact hb hs

theorem Moves.written (hm : b.Moves junk msg (some v) b' out) :
    (b.cstate = .exclusive ∨ b.cstate = .modified) ∧ b'.data = v ∧ out = [] ∧ msg = none := by
  cases hm with
  | write _ hs => exact ⟨hs,rfl,rfl,rfl⟩

end LlcLine

namespace Line
variable {cfg : Config} {env : Env n D} {e : DirectoryEntry n} {reqs : List (ShmemReq n)}
  {asked : Bool} {c c' : Fin n} {ln : Line n D} {rest : List (ShmemReq n)} {req : ShmemReq n} {m : LlcMsg D} {d : D}

structure Current (ln : Line n D) : Prop where
  copies : ∀ c, (ln.llc c).cstate ≠ .invalid → (ln.llc c).data = ln.lastWrite
  replies : ∀ c, ∀ m ∈ ln.toLlc c, ∀ d, m.payload = some d → d = ln.lastWrite
  returns : ∀ c, ∀ m ∈ ln.toDir c, ∀ d, m.payload = some d → d = ln.lastWrite
  fetched : ∀ d ∈ ln.fromDram, d = ln.lastWrite

def NucaCurrent (cfg : Config) (ln : Line n D) : Prop := ln.nucaRead cfg = none ∨ ln.nucaRead cfg = some ln.lastWrite

def Unstored (reqs : List (ShmemReq n)) : Prop := ∀ r ∈ reqs, r.dataBuf = false

theorem current_send (h : Current ln) (c : Fin n) {m : DirMsg D}
    (hm : ∀ d, m.payload = some d → d = ln.lastWrite) : Current (ln.send c m) := by
  refine { h with replies := fun c' m' hm' => ?_ }
  rcases mem_update_append.mp hm' with hm' | ⟨-,hm'⟩
  · exact h.replies c' m' hm'
  · obtain rfl := mem_singleton.mp hm'
    exact hm

theorem current_sendAll (h : Current ln) {targets : List (Fin n × DirMsg D)}
    (ht : ∀ t ∈ targets, t.2.payload = none) : Current (ln.sendAll targets) := by
  induction targets generalizing ln with
  | nil => exact h
  | cons t ts ih =>
    refine ih (current_send h t.1 ?_) fun t' ht' => ht t' (by simp [ht'])
    simp [ht t (by simp)]

def DataIdle (cfg : Config) (cachedData : Option D) (reqs : List (ShmemReq n)) (ln : Line n D) : Prop :=
  Current ln ∧ ((∃ r ∈ reqs, r.kind ≠ .nullify) → NucaCurrent cfg ln) ∧ Unstored reqs ∧
    ∀ d, cachedData = some d → d = ln.lastWrite

def DataBusy (ln : Line n D) : Prop := Current ln ∧ Unstored ln.reqs

theorem dataIdle_source (h : DataIdle cfg cachedData (req :: rest) ln) (hk : req.kind ≠ .nullify)
    (hs : source cfg env req cachedData ln e' e'' d) : d = ln.lastWrite := by
  obtain ⟨-,hn,hu,hd⟩ := h
  rcases hs with ⟨hc | ⟨-,hb,-⟩,-⟩ | ⟨-,hc,-⟩
  · exact hd d hc
  · simp [hu req (by simp)] at hb
  · rcases hn ⟨req,by simp,hk⟩ with hn | hn
    · simp [hn] at hc
    · exact (some.inj (hn.symm.trans hc)).symm

theorem Grant.payload (hg : Grant cfg req e e' reply) (d : D) : (reply d).payload = some d := by
  rcases hg.cases with ⟨-,-,⟨-,-,rfl⟩ | ⟨-,-,rfl⟩ | ⟨-,-,-,rfl⟩⟩ | ⟨-,-,-,rfl,-⟩ <;> rfl

theorem unstored_front (req' : ShmemReq n)
    (hq : ln.reqs = req :: rest) (hu : Unstored (req :: rest)) (hb : req'.dataBuf = req.dataBuf) :
    Unstored (req' :: ln.reqs.tail) := by
  intro r hr
  rw [hq,tail_cons] at hr
  rcases mem_cons.mp hr with rfl | hr
  · exact hb.trans (hu req (by simp))
  · exact hu r (by simp [hr])

theorem dataRule (cfg : Config) (env : Env n D) : Rule cfg env (DataIdle cfg) DataBusy where
  served := by
    intro req rest cachedData ln r hi hw hq hj hs
    have hcur (e : DirectoryEntry n) : Current (ln.setEntry e) :=
      { hj.1 with }
    have hrest : Unstored rest := fun r hr => hj.2.2.1 r (by simp [hr])
    have hnuca : (∃ r ∈ rest, r.kind ≠ .nullify) → NucaCurrent cfg ln := by
      rintro ⟨r,hr,hk⟩
      exact hj.2.1 ⟨r,by simp [hr],hk⟩
    have hfront : Unstored ln.reqs := hq ▸ hj.2.2.1
    cases hs with
    | flush o => exact ⟨by simp,fun _ => ⟨current_send (hcur _) o (by simp [DirMsg.payload]),hfront⟩⟩
    | writeback o => exact ⟨by simp,fun _ => ⟨current_send (hcur _) o (by simp [DirMsg.payload]),hfront⟩⟩
    | invalidate targets hd ht hk =>
      have hc := current_sendAll (hcur (ln.allocateEntry env)) (fun t htm => by
        rcases ht t htm with h | ⟨h,-⟩ <;> rw [h] <;> rfl)
      rw [sendAll_eq] at hc ⊢
      exact ⟨by simp,fun _ => ⟨hc,hfront⟩⟩
    | upgrade => exact ⟨fun _ => ⟨current_send (hcur _) _ (by simp [DirMsg.payload]),hnuca,hrest,by simp⟩,by simp⟩
    | nullify =>
      exact ⟨fun _ => ⟨{ hj.1 with },hnuca,hrest,by simp⟩,by simp⟩
    | reply e' e'' reply d hg hsrc =>
      have hlast := dataIdle_source hj hg.kind_ne hsrc
      refine ⟨fun _ => ⟨current_send (hcur _) _ ?_,hnuca,hrest,by simp⟩,by simp⟩
      intro d' hd'
      rw [hg.payload,some.injEq] at hd'
      exact hd' ▸ hlast
    | forward e' reply f =>
      have hc : Current ((ln.setEntry e').setFront { req with forwardingFrom := some f }) :=
        { hj.1 with }
      exact ⟨by simp,fun _ => ⟨current_send hc f (by simp [DirMsg.payload]),
        unstored_front { req with forwardingFrom := some f } hq hj.2.2.1 rfl⟩⟩
    | fetch e' reply =>
      exact ⟨by simp,fun _ => ⟨{ hj.1 with },
        unstored_front { req with waitForData := true } hq hj.2.2.1 rfl⟩⟩
  nil := fun h => ⟨{ h.1 with },by simp [Unstored]⟩
  frame := fun _ h => ⟨{ h.1 with },h.2.1,h.2.2⟩

section
variable (h : Inv ln e reqs asked)
include h
section
variable (hc : (ln.llc c).cstate = .exclusive ∨ (ln.llc c).cstate = .modified)
include hc

theorem writer_replies {m : DirMsg D} (hm : m ∈ ln.toLlc c') : m.payload = none := by
  have hv := writer_held hc
  obtain ⟨he,hs,-⟩ := Inbox.ofList_pos (held (ln.llc c').cstate) hm
  have hso (hr : m.isReply) : c' = c := writer_sole h hc (sharer_of_reply h hm hr)
  cases m with
  | exRep d =>
    obtain rfl := hso rfl
    obtain ⟨-,-,hz,-⟩ := Port.holder (h.port c') hv
    have := he ⟨d,rfl⟩
    omega
  | shRep d =>
    obtain rfl := hso rfl
    obtain ⟨-,-,-,hz,-⟩ := Port.holder (h.port c') hv
    have := hs ⟨d,rfl⟩
    omega
  | _ => rfl

theorem writer_returns (hm : m ∈ ln.toDir c') : m.payload = none := by
  have hv := writer_held hc
  have hp := h.port c'
  obtain ⟨hf,hw⟩ := Outbox.ofList_pos hm
  cases m with
  | flushRep d =>
    have hpos := hf ⟨d,rfl⟩
    have hs : e.sharers c' := by
      have ht := hp.token
      cases hs : e.sharers c' with
      | true => rfl
      | false => simp only [view,hs,Bool.toNat_false] at ht; omega
    obtain rfl := writer_sole h hc hs
    obtain ⟨-,-,-,-,-,hz⟩ := Port.holder hp hv
    omega
  | wbRep d =>
    obtain ⟨⟨-,r,-,-,-,hs,-⟩,hx,hmod,-⟩ := hp.wbReply (hw ⟨d,rfl⟩)
    obtain rfl := writer_sole h hc hs
    exact absurd hc (by simp [hx,hmod])
  | _ => rfl

theorem writer_fetched : reqs.head?.any (·.waitForData) = false := by
  have hv := writer_held hc
  cases hr : reqs.head? with
  | none => rfl
  | some r =>
    cases hw : r.waitForData with
    | false => simpa using hw
    | true =>
      obtain ⟨hg,hs⟩ := front_granted h r hr (.inl hw)
      rw [writer_sole h hc hs] at hg
      obtain ⟨-,hn,-⟩ := Port.holder (h.port c) hv
      simp [hg] at hn
end

theorem fromDram_nil (hw : reqs.head?.any (·.waitForData) = false) : ln.fromDram = [] := by
  have hr := h.reads
  rw [hw,Bool.toNat_false] at hr
  exact length_eq_zero_iff.mp (by omega)

theorem current_moves {b : LlcLine D} {junk : D} {msg : Option (DirMsg D)} {wr : Option D}
    {inbox : List (DirMsg D)} {out : List (LlcMsg D)} (hcur : Current ln)
    (hm : (ln.llc c).Moves junk msg wr b out) (hi : ln.toLlc c = msg.toList ++ inbox)
    (hu : msg.any DirMsg.isWbReq → (ln.llc c).cstate ≠ .sharedUpgrading) : Current { ln.setLlc c b out with
      toLlc := update ln.toLlc c inbox, lastWrite := wr.getD ln.lastWrite } := by
  cases wr with
  | none =>
    have hmsg : ∀ m ∈ msg, ∀ d, m.payload = some d → d = ln.lastWrite := fun m hmm =>
      hcur.replies c m (by simp [hi,mem_toList.mpr hmm])
    refine ⟨fun c' => ?_,fun c' m hmi => ?_,fun c' m hmo d hd => ?_,hcur.fetched⟩
    · rcases eq_or_ne c' c with rfl | hc
      · simp only [setLlc,update_self]
        exact hm.copy (hcur.copies c') hmsg
      · simp only [setLlc,update_of_ne hc]
        exact hcur.copies c'
    · exact hcur.replies c' m (mem_of_mem_update hi hmi)
    · rcases mem_update_append.mp hmo with hold | ⟨rfl,hnew⟩
      · exact hcur.returns c' m hold d hd
      · obtain ⟨hv,rfl⟩ := hm.contents hu m hnew d hd
        exact hcur.copies c' hv
  | some v =>
    obtain ⟨hc,hb,rfl,rfl⟩ := hm.written
    refine ⟨fun c' => ?_,fun c' m hmi d hd => ?_,fun c' m hmo d hd => ?_,?_⟩
    · rcases eq_or_ne c' c with rfl | hne
      · simp only [setLlc,update_self]
        exact fun _ => hb
      · simp only [setLlc,update_of_ne hne]
        exact fun hv => absurd (others_invalid h hc hne) hv
    · simp [writer_replies h hc (mem_of_mem_update hi hmi)] at hd
    · rcases mem_update_append.mp hmo with hmo | ⟨-,hmo⟩
      · simp [writer_returns h hc hmo] at hd
      · simp at hmo
    · have hz := fromDram_nil h (writer_fetched h hc)
      simp [setLlc,hz]
end

def storesFlush (ln : Line n D) (c : Fin n) : Bool :=
  ln.reqs.head?.any fun r => r.kind == .upgrade && ln.dir.getSharersList.any (· != c)

def SendSafe (ln : Line n D) : Label n D → Prop
  | .deliverLlc c _ => (ln.toLlc c).head?.any DirMsg.isWbReq → (ln.llc c).cstate ≠ .sharedUpgrading
  | .deliverDir c _ => (ln.toDir c).head?.any LlcMsg.isFlushRep → ln.storesFlush c = false
  | _ => True

def MemoryAnswers (cfg : Config) (ln : Line n D) : Label n D → Prop
  | .deliverDir _ _ => NucaCurrent cfg ln
  | .dramServe => ln.toDram.head?.any DramMsg.isRead → ln.dram = ln.lastWrite
  | _ => True

theorem current_pop (h : Current ln) (hm : ln.toDir c = m :: ms) (e : DirectoryEntry n) :
    Current ((ln.pop c ms).setEntry e) := by
  have hpop : ln.toDir c = [m] ++ ms := hm
  exact { h with returns := fun c' m' hm' => h.returns c' m' (mem_of_mem_update hpop hm') }

theorem nucaCurrent_sendDataToDram (hn : NucaCurrent cfg ln) (hd : d = ln.lastWrite) :
    NucaCurrent cfg (ln.sendDataToDram cfg d) := by
  rw [sendDataToDram,sendDataToNUCA]
  split_ifs with hc
  · exact .inr (by simp [nucaRead,hc,hd])
  · exact hn

theorem current_sendDataToDram (h : Current ln) : Current (ln.sendDataToDram cfg d) := by
  rw [sendDataToDram,sendDataToNUCA]
  split_ifs <;> exact { h with }

theorem storesFlush_of_stay (hq : ln.reqs = req :: rest) (hk : req.kind = .upgrade)
    (hz : (ln.dir.withoutFlush c).getNumSharers ≠ 0) : ln.storesFlush c := by
  rw [Ne,DirectoryEntry.getNumSharers_eq_zero,not_forall] at hz
  obtain ⟨c',hc'⟩ := hz
  have hd := drops_withoutFlush ln.dir c
  have hne : c' ≠ c := by
    rintro rfl
    exact hc' hd.sharer_sender
  rw [hd.sharer_other hne] at hc'
  simp only [storesFlush,hq,head?_cons,any_some,hk,beq_self_eq_true,Bool.true_and,List.any_eq_true]
  exact ⟨c',DirectoryEntry.mem_getSharersList.mpr (by simpa using hc'),by simpa using hne⟩

theorem unstored_append (h : Unstored reqs) (hr : r.dataBuf = false) : Unstored (reqs ++ [r]) := by
  intro q hq
  rcases mem_append.mp hq with hq | hq
  · exact h q hq
  · obtain rfl := mem_singleton.mp hq
    exact hr

theorem handle_current (env : Env n D) (h : Busy cfg ln) (hd : DataBusy ln) (hn : NucaCurrent cfg ln)
    (hm : ln.toDir c = m :: ms) (hs : m.isFlushRep → ln.storesFlush c = false) :
    Outcome Benign (fun ln => Busy cfg ln ∧ DataBusy ln) ((ln.pop c ms).handleMsgFromL2Cache cfg env c m) := by
  have hr := dataRule cfg env
  have hpop (e : DirectoryEntry n) := current_pop hd.1 hm e
  have hpay (d : D) (hp : m.payload = some d) : d = ln.lastWrite := hd.1.returns c m (by simp [hm]) d hp
  have henq {k : ReqKind} (hk : m.asks = some k) : Outcome Benign
      (fun ln => Busy cfg ln ∧ DataBusy ln) ((ln.pop c ms).enqueue cfg env (.new k c)) := by
    have hreq (reqs : List (ShmemReq n)) : Current { ln.pop c ms with reqs := reqs } :=
      { hpop ln.dir with }
    exact hr.enqueue h hm hk (fun _ => ⟨hreq _,unstored_append hd.2 rfl⟩) fun _ =>
      ⟨hreq _,fun _ => hn,by simp [Unstored,ShmemReq.new],by simp⟩
  cases m with
  | exReq | shReq | upgradeReq => exact henq rfl
  | invRep =>
    exact hr.processInvRep h hm (fun _ => ⟨hpop _,hd.2⟩) fun req rest _ hq => ⟨hpop _,fun _ => hn,hq ▸ hd.2,by simp⟩
  | flushRep d =>
    have hlast := hpay d rfl
    obtain ⟨_,_,he⟩ := sendDataToDram_frame cfg ((ln.pop c ms).setEntry (ln.dir.withoutFlush c)) d
    refine hr.processFlushRep h hm (fun hq => ⟨current_sendDataToDram (hpop _),?_⟩)
      (fun req rest hq hk hz => ?_)
      (fun req rest hq _ _ => ⟨hpop _,fun _ => hn,hq ▸ hd.2,?_⟩)
      fun req rest cachedData hq hk _ => ⟨current_sendDataToDram (hpop _),
        fun _ => nucaCurrent_sendDataToDram hn hlast,hq ▸ hd.2,fun d' hd' => ?_⟩
    · rw [he]
      exact hd.2
    · have hstore := storesFlush_of_stay hq hk hz
      rw [hs rfl] at hstore
      simp at hstore
    · rintro d' ⟨⟩
      exact hlast
    · rw [he]
      rcases hk with ⟨-,rfl⟩ | ⟨-,rfl⟩
      · exact some.inj hd' ▸ hlast
      · simp at hd'
  | wbRep d =>
    have hlast := hpay d rfl
    refine hr.processWbRep h hm fun req rest hq _ => ⟨hpop _,fun _ => hn,hq ▸ hd.2,?_⟩
    rintro d' ⟨⟩
    exact hlast

theorem dataIdle_dramReply {ds : List D} {reply : DirMsg D} (hd : DataBusy ln) (hf : ln.fromDram = d :: ds)
    (hq : ln.reqs = req :: rest) (hr : DramAnswers req e d reply) :
    DataIdle cfg none rest (({ ln with fromDram := ds }.send req.requester reply).sendDataToNUCA cfg d) := by
  have hlast : d = ln.lastWrite := hd.1.fetched d (by simp [hf])
  have hpay : ∀ d', reply.payload = some d' → d' = ln.lastWrite := by
    rintro d' hd'
    rcases hr with ⟨-,-,rfl⟩ | ⟨-,-,rfl⟩ | ⟨-,-,rfl⟩ | ⟨-,rfl⟩ <;> exact some.inj hd' ▸ hlast
  have hpop : Current { ln with fromDram := ds } :=
    { hd.1 with fetched := fun d' hd' => hd.1.fetched d' (by simp [hf,hd']) }
  have hsend : Current ({ ln with fromDram := ds }.send req.requester reply) := current_send hpop req.requester hpay
  have hrest : Unstored rest := fun r hr => hd.2 r (by simp [hq,hr])
  rw [sendDataToNUCA]
  split_ifs with hc
  · exact ⟨{ hsend with },
      fun _ => .inr (by simp [nucaRead,hc,hlast,send]),hrest,by simp⟩
  · exact ⟨hsend,fun _ => .inl (by simp [nucaRead,hc]),hrest,by simp⟩

section
variable {l : Label n D} {junk : D} {msg : Option (DirMsg D)} {wr : Option D} {b : LlcLine D}
  {inbox : List (DirMsg D)} {out : List (LlcMsg D)}

theorem LlcStep.demanded (h : LlcStep ln l c junk msg wr b inbox out) (hw : msg.any DirMsg.isWbReq) :
    (∃ junk, l = .deliverLlc c junk) ∧ (ln.toLlc c).head?.any DirMsg.isWbReq := by
  cases msg with
  | none => simp at hw
  | some m => exact ⟨h.delivered rfl,by simpa [h.inbox] using hw⟩

theorem LlcStep.sendSafe (h : LlcStep ln l c junk msg wr b inbox out) (hs : SendSafe ln l)
    (hw : msg.any DirMsg.isWbReq) : (ln.llc c).cstate ≠ .sharedUpgrading := by
  obtain ⟨⟨junk',rfl⟩,hh⟩ := h.demanded hw
  exact hs hh
end

theorem step_current (h : Busy cfg ln) (hd : DataBusy ln) (l : Label n D) (hs : SendSafe ln l)
    (hmem : MemoryAnswers cfg ln l) : Outcome Benign (fun ln => Busy cfg ln ∧ DataBusy ln) (ln.step cfg l) := by
  cases l with
  | core c op | evict c | deliverLlc c junk =>
    refine (step_llc rfl).mono ?_
    rintro _ ⟨junk,msg,wr,b,inbox,out,hm,rfl⟩
    exact ⟨⟨inv_moves h.1 hm.moves hm.inbox _,h.2⟩,current_moves h.1 hd.1 hm.moves hm.inbox (hm.sendSafe hs),hd.2⟩
  | deliverDir c env =>
    refine outcome_deliverDir fun m ms hm => handle_current env h hd hmem hm fun hf => hs ?_
    simpa [hm] using hf
  | dramServe =>
    refine (step_busy h _).and (outcome_dramServe (fun ms hm =>
      ⟨{ hd.1 with fetched := fun d hdm => ?_ },hd.2⟩)
      fun _ _ _ => ⟨{ hd.1 with },hd.2⟩)
    rcases mem_append.mp hdm with hdm | hdm
    · exact hd.1.fetched d hdm
    · obtain rfl := mem_singleton.mp hdm
      exact hmem (by simp [hm,DramMsg.isRead])
  | dramReply env =>
    exact outcome_dramReply fun d ds hm => (dataRule cfg env).processDRAMReply h hm fun req rest reply hq hr =>
      dataIdle_dramReply hd hm hq hr
  | replaceEntry c env =>
    refine outcome_replaceEntry fun hq => (dataRule cfg env).replaceEntry h hq c ⟨?_,?_,?_,by simp⟩
    · exact { hd.1 with }
    · simp [ShmemReq.new]
    · simp [Unstored,ShmemReq.new]
  | nucaEvict writeback =>
    exact (step_busy h _).and (outcome_nucaEvict fun _ _ =>
      ⟨{ hd.1 with },hd.2⟩)
  | nucaStray d =>
    exact (step_busy h _).and (outcome_nucaStray ⟨{ hd.1 with },hd.2⟩)

theorem dataBusy_initial (d : D) : DataBusy (Line.initial n d) :=
  ⟨⟨fun _ _ => rfl,by simp [initial],by simp [initial],by simp [initial]⟩,by simp [Unstored,initial]⟩

instance decidableSendSafe (ln : Line n D) : ∀ l, Decidable (SendSafe ln l)
  | .deliverLlc _ _ | .deliverDir _ _ => inferInstanceAs (Decidable (_ → _))
  | .core _ _ | .evict _ | .dramServe | .dramReply _ | .replaceEntry _ _ | .nucaEvict _ => isTrue trivial
  | .nucaStray _ => isTrue trivial

instance decidableMemoryAnswers [DecidableEq D] (cfg : Config) (ln : Line n D) : ∀ l, Decidable (MemoryAnswers cfg ln l)
  | .deliverDir _ _ => inferInstanceAs (Decidable (_ ∨ _))
  | .dramServe => inferInstanceAs (Decidable (_ → _))
  | .core _ _ | .evict _ | .deliverLlc _ _ | .dramReply _ | .replaceEntry _ _ | .nucaEvict _ => isTrue trivial
  | .nucaStray _ => isTrue trivial

end Line

namespace System
variable {Addr : Type} [DecidableEq Addr] {cfg : Config} {contents : Addr → D} {s : System Addr n D}

def FlowSafe (cfg : Config) (s : System Addr n D) (l : Addr × Label n D) : Prop :=
  Line.SendSafe (s l.1) l.2 ∧ Line.MemoryAnswers cfg (s l.1) l.2

instance decidableFlowSafe [DecidableEq D] (cfg : Config) (s : System Addr n D)
    (l : Addr × Label n D) : Decidable (FlowSafe cfg s l) := inferInstanceAs (Decidable (_ ∧ _))

theorem flowSafe_current (h : Run.Reaches (step cfg) (FlowSafe cfg) (initial n contents) s)
    (a : Addr) : Line.Busy cfg (s a) ∧ Line.DataBusy (s a) := by
  refine reaches_lines (I := fun ln => Line.Busy cfg ln ∧ Line.DataBusy ln)
    (fun _ => ⟨Line.busy_initial cfg _,Line.dataBusy_initial _⟩) ?_ h a
  exact fun s l hs hc => Line.step_current hs.1 hs.2 l.2 hc.1 hc.2

theorem data_value_propagates (h : Run.Reaches (step cfg) (FlowSafe cfg) (initial n contents) s) (a : Addr) :
    (∀ c, ∀ m ∈ (s a).toLlc c, ∀ d, m.payload = some d → d = (s a).lastWrite) ∧
    ∀ l c t, l.llc = some c → FlowSafe cfg s (a,l) → s.step cfg (a,l) = .ok t →
      ∃ out, (t a).toDir c = (s a).toDir c ++ out ∧ ∀ m ∈ out, ∀ d, m.payload = some d → d = ((s a).llc c).data := by
  refine ⟨(flowSafe_current h a).2.1.replies,fun l c t hl hsafe ht => ?_⟩
  have hout : Outcome Benign (fun t : System Addr n D => ∃ out, (t a).toDir c = (s a).toDir c ++ out ∧
        ∀ m ∈ out, ∀ d, m.payload = some d → d = ((s a).llc c).data) (s.step cfg (a,l)) := by
    refine (Line.step_llc hl).bind ?_
    rintro _ ⟨junk,msg,wr,b,inbox,out,hm,rfl⟩
    refine ⟨out,by simp [Line.afterMove,Line.setLlc],fun m hmo d hd => ?_⟩
    exact (hm.moves.contents (hm.sendSafe hsafe.1) m hmo d hd).2
  exact hout.of_ok ht

def handover (c c' : Fin n) (d : D) : List (Unit × Label n D) :=
  coldWrite c d ++ [.core c (.write d),.core c' .read,.deliverDir c' ⟨0,d,none⟩,
    .deliverLlc c d,.deliverDir c ⟨0,d,none⟩].map ((),·)

def afterHandover (c c' : Fin 2) : System Unit 2 Nat :=
  (Run.guided (step mesiFullMap) (FlowSafe mesiFullMap) (initial 2 fun _ => 0)
    (handover c c' 7)).getD (initial 2 fun _ => 0)

theorem data_value_propagates_to_reader :
    DirMsg.shRep 7 ∈ (afterHandover 0 1 ()).toLlc 1 ∧ 7 = (afterHandover 0 1 ()).lastWrite := by
  have hm : DirMsg.shRep 7 ∈ (afterHandover 0 1 ()).toLlc 1 := by decide +kernel
  have hr : Run.Reaches (step mesiFullMap) (FlowSafe mesiFullMap) (initial 2 fun _ => 0)
      (afterHandover 0 1) := Run.reaches_guided (by decide +kernel)
  exact ⟨hm,(data_value_propagates hr ()).1 1 _ hm 7 rfl⟩

theorem copies_and_returns_current (h : Run.Reaches (step cfg) (FlowSafe cfg) (initial n contents) s) (a : Addr) :
    (∀ c, ((s a).llc c).cstate ≠ .invalid → ((s a).llc c).data = (s a).lastWrite) ∧
    (∀ c, ∀ m ∈ (s a).toDir c, ∀ d, m.payload = some d → d = (s a).lastWrite) ∧
    ∀ d ∈ (s a).fromDram, d = (s a).lastWrite := by
  obtain ⟨hcopies,-,hreturns,hfetched⟩ := (flowSafe_current h a).2.1
  exact ⟨hcopies,hreturns,hfetched⟩

theorem copy_current_after_handover : ((afterHandover 0 1 ()).llc 0).cstate = .shared ∧
    ((afterHandover 0 1 ()).llc 0).data = (afterHandover 0 1 ()).lastWrite := by
  have hc : ((afterHandover 0 1 ()).llc 0).cstate = .shared := by decide +kernel
  have hr : Run.Reaches _ (FlowSafe mesiFullMap) _ (afterHandover 0 1) := Run.reaches_guided (by decide +kernel)
  exact ⟨hc,(copies_and_returns_current hr ()).1 0 (by simp [hc])⟩

def mesifFullMap : Config := ⟨.mesif,.fullMap,64,false⟩

def forwarderUpgrades (c c' c'' : Fin n) (v junk : D) : List (Unit × Label n D) :=
  [.core c .read,.deliverDir c ⟨0,junk,none⟩,.dramServe,.dramReply ⟨0,junk,none⟩,
    .deliverLlc c junk,.core c' .read,.deliverDir c' ⟨0,junk,none⟩,.deliverLlc c junk,
    .deliverDir c ⟨0,junk,none⟩,.deliverLlc c' junk,.core c'' .read,
    .deliverDir c'' ⟨0,junk,none⟩,.core c' (.write v)].map ((),·)

def junkForwarded (c' : Fin n) (junk : D) : List (Unit × Label n D) :=
  [.deliverLlc c' junk,.deliverDir c' ⟨0,junk,none⟩,.deliverDir c' ⟨0,junk,none⟩].map ((),·)

def runMesif (ls : List (Unit × Label 3 Nat)) : System Unit 3 Nat :=
  (Run.guided (step mesifFullMap) (fun _ _ => True) (initial 3 fun _ => 0) ls).getD (initial 3 fun _ => 0)

theorem forwarder_sends_junk : let raced := forwarderUpgrades 0 1 2 5 999
    let s := runMesif raced
    let t := runMesif (raced ++ (junkForwarded 1 999).take 1)
    let u := runMesif (raced ++ junkForwarded 1 999)
    Reachable mesifFullMap (fun _ => 0) s ∧ Reachable mesifFullMap (fun _ => 0) t ∧
      Reachable mesifFullMap (fun _ => 0) u ∧ ((s ()).llc 1).cstate = .sharedUpgrading ∧ ((s ()).llc 1).data = 0 ∧
      (s ()).toDir 1 = [.upgradeReq] ∧ (t ()).toDir 1 = [.upgradeReq,.wbRep 999] ∧
      DirMsg.shRep 999 ∈ (u ()).toLlc 2 ∧ (u ()).lastWrite = 0 := by
  refine ⟨Run.reaches_guided ?_,Run.reaches_guided ?_,Run.reaches_guided ?_,?_⟩ <;> decide +kernel

end System
end Coherence
