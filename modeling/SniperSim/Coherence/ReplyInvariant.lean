import SniperSim.Coherence.ServeInvariant
import SniperSim.Coherence.ReplySpec

open Function List Option Bool
namespace Coherence
open DirectoryEntry DirectoryState ShmemReq
variable {n : Nat} {D : Type}
namespace Line
variable {cfg : Config} {env : Env n D} {e e' : DirectoryEntry n} {reqs rest : List (ShmemReq n)}
  {req : ShmemReq n} {asked : Bool} {c sender : Fin n} {ln : Line n D} {m : LlcMsg D}
  {ms outbox : List (LlcMsg D)} {b : LlcLine D} {inbox : List (DirMsg D)}
  {J : Option D → List (ShmemReq n) → Line n D → Prop} {K : Line n D → Prop} {d : D}

def pop (ln : Line n D) (c : Fin n) (ms : List (LlcMsg D)) : Line n D :=
  { ln with toDir := update ln.toDir c ms }

theorem port_sender (h : Inv ln e reqs asked) (hm : ln.toDir sender = m :: ms) :
    Port (view e reqs asked sender) (ln.llc sender).cstate (ln.llc sender).waiters.head?
      (.ofList (held (ln.llc sender).cstate) (ln.toLlc sender)) ((Outbox.ofList ms).cons m) := by
  have hp := h.port sender
  rwa [PortOf,hm] at hp

theorem dropper_sharer (h : Inv ln e reqs asked) (hm : ln.toDir sender = m :: ms)
    (hd : m = .invRep ∨ ∃ d, m = .flushRep d) : e.sharers sender ∧ (view e reqs asked sender).granted = false := by
  have ht := (port_sender h hm).token
  have hl := (view e reqs asked sender).sharer.toNat_le
  have hp : 1 ≤ ((Outbox.ofList ms).cons m).invRep + ((Outbox.ofList ms).cons m).flushRep := by
    rcases hd with rfl | ⟨d,rfl⟩ <;> simp only [Outbox.cons] <;> omega
  constructor
  · cases hs : e.sharers sender with
    | true => rfl
    | false => simp only [view,hs,toNat_false] at ht; omega
  · cases hg : (view e reqs asked sender).granted with
    | false => rfl
    | true => simp only [hg,toNat_true] at ht; omega

structure Drops (sender : Fin n) (e e' : DirectoryEntry n) : Prop where
  sharers : e'.sharers = update e.sharers sender false
  dstate : e'.dstate = .uncached ∧ (∀ c, e'.sharers c = false) ∨ e'.dstate = e.dstate ∧ ∃ c, e'.sharers c

section
variable (hd : Drops sender e e')
include hd

theorem Drops.sharer_other (hc : c ≠ sender) : e'.sharers c = e.sharers c := by
  rw [hd.sharers,update_of_ne hc]

theorem Drops.sharer_sender : e'.sharers sender = false := by
  rw [hd.sharers,update_self]

theorem Drops.shared (he : EntryOk e) (hs : e.sharers sender) : e'.dstate = .uncached ∧ (∀ c, e'.sharers c = false) ∨
      e'.dstate = .shared ∧ e.dstate = .shared ∧ ∃ c, e'.sharers c := by
  rcases hd.dstate with hu | ⟨hs',c,hc⟩
  · exact .inl hu
  rcases dstate_of_sharer he hs with hsh | hem
  · exact .inr ⟨hs'.trans hsh,hsh,c,hc⟩
  · have hne : c ≠ sender := by
      rintro rfl
      simp [hd.sharer_sender] at hc
    rw [hd.sharer_other hne,he.not_sharer hem hs hne] at hc
    simp at hc

theorem Drops.entryOk (he : EntryOk e) (hs : e.sharers sender) : EntryOk e' := by
  rcases hd.shared he hs with ⟨hu,hn⟩ | ⟨hsh,-,c,hc⟩
  · exact ⟨by simp [hu,hn],by simp [hu,isEM],by simp [hu]⟩
  · refine ⟨?_,by simp [hsh,isEM],by simp [hsh]⟩
    simp only [hsh,reduceCtorEq,false_iff,not_forall]
    exact ⟨c,by simp [hc]⟩
end

def Undemanding (reqs : List (ShmemReq n)) (e : DirectoryEntry n) (sender : Fin n) : Prop :=
  ∀ r ∈ reqs.head?, ¬ r.Replaces e ∧ ∀ c, c ≠ sender → ¬ r.AwaitsWb e c ∧ ¬ r.AwaitsFlush e c

theorem front_granted (h : Inv ln e reqs asked) (r : ShmemReq n) (hr : r ∈ reqs.head?)
    (hg : r.waitForData ∨ r.forwardingFrom.isSome) :
    (view e reqs asked r.requester).granted ∧ e.sharers r.requester := by
  have hk : r.kind ≠ .nullify := by
    intro hk
    obtain ⟨hw,hf⟩ := (h.front r hr).nullify hk
    simp [hw,hf] at hg
  have hv : (view e reqs asked r.requester).granted := by
    simp only [view,mem_def.mp hr,any_some]
    simp [granted,asks,hk,hg]
  refine ⟨hv,?_⟩
  have ht := Port.token (h.port r.requester)
  cases hs : e.sharers r.requester with
  | true => rfl
  | false =>
    simp only [hv,toNat_true] at ht
    simp only [view,hs,toNat_false] at ht
    omega

theorem Drops.replaces (hd : Drops sender e e') (hs : e'.dstate = e.dstate)
    (hr : req.Replaces e) : req.Replaces e' := by
  obtain ⟨hsh,hk,hw,hn⟩ := hr
  refine ⟨hs.trans hsh,hk,hw,?_⟩
  rcases eq_or_ne req.requester sender with he | hne
  · rw [he,hd.sharer_sender]
  · rw [hd.sharer_other hne,hn]

theorem port_drop_other (h : PortOf (view e reqs true c) b inbox outbox) (hc : c ≠ sender) (hd : Drops sender e e')
    (hcas : e'.dstate = .uncached ∧ (∀ c, e'.sharers c = false) ∨ e'.dstate = .shared ∧ e.dstate = .shared)
    (ha : asked ∨ e'.dstate = .uncached ∨ Undemanding reqs e sender) :
    PortOf (view e' reqs asked c) b inbox outbox := by
  have hsc := hd.sharer_other hc
  rcases hcas with ⟨-,hn⟩ | ⟨hsh,hshe⟩
  · have hv : (view e reqs true c).sharer = false := hsc.symm.trans (hn c)
    have hg := Port.ungranted h hv
    refine h.revisit (hv.trans hg.symm) view_granted_pending (view_not_awaitWb (.inl hv)) rfl
      ((hn c).trans hg.symm) fun hv' => ?_
    simp [view,hn c] at hv'
  · have heq : e'.dstate = e.dstate := hsh.trans hshe.symm
    have hask : asked ∨ Undemanding reqs e sender := by
      rcases ha with ha | hu | hq
      · exact .inl ha
      · simp [hsh] at hu
      · exact .inr hq
    refine Port.mono h hsc rfl heq rfl ?_ ?_ ?_
    · rintro ⟨-,r,hr,hk,hw,hs,hx⟩
      rcases hask with ha | hq
      · exact ⟨ha,r,hr,hk,hw,hsc.trans hs,heq ▸ hx⟩
      · exact absurd ⟨hk,hw,hs,hx⟩ ((hq r hr).2 c hc).1
    · rintro ⟨-,r,hr,hk,hw,hs,hx⟩
      rcases hask with ha | hq
      · exact ⟨ha,r,hr,hk,hw,hsc.trans hs,hx.imp (heq ▸ ·) (hd.replaces heq)⟩
      · exact absurd ⟨hk,hw,hs,hx⟩ ((hq r hr).2 c hc).2
    · rintro (hem | ⟨-,r,hr,hx⟩)
      · exact .inl (heq ▸ hem)
      · rcases hask with ha | hq
        · exact .inr ⟨ha,r,hr,hd.replaces heq hx⟩
        · exact absurd hx (hq r hr).1

theorem inv_drop (h : Inv ln e reqs true) (hm : ln.toDir sender = m :: ms)
    (hi : m = .invRep ∧ e.dstate ≠ .modified ∨ ∃ d, m = .flushRep d) (hd : Drops sender e e')
    (ha : asked ∨ e'.dstate = .uncached ∨ Undemanding reqs e sender) : Inv (ln.pop sender ms) e' reqs asked := by
  obtain ⟨hs,hg⟩ := dropper_sharer h hm (hi.imp And.left id)
  have hcas := hd.shared h.entry hs
  refine ⟨hd.entryOk h.entry hs,h.queued,fun r hr => ?_,h.reads,fun c => ?_⟩
  · have hf := h.front r hr
    rcases hcas with ⟨-,hn⟩ | ⟨hsh,hse,-⟩
    · have hno : ¬ (r.waitForData ∨ r.forwardingFrom.isSome) := by
        intro hgr
        obtain ⟨hgr,hrs⟩ := front_granted h r hr hgr
        have hne : r.requester ≠ sender := by
          rintro he
          rw [he,hg] at hgr
          simp at hgr
        rw [← hd.sharer_other hne,hn] at hrs
        simp at hrs
      exact ⟨hf.nullify,fun hw => absurd (.inl hw) hno,fun hw => absurd (.inr hw) hno⟩
    · rwa [hsh,← hse]
  · rcases eq_or_ne c sender with rfl | hc
    · obtain ⟨hinv,hvac⟩ := (port_sender h hm).popDrop hi
      simp only [pop,update_self,PortOf]
      rw [hinv] at hvac ⊢
      refine Vacant.port hvac (hd.sharer_sender.trans hg.symm) fun hv => ?_
      simp [view,hd.sharer_sender] at hv
    · simp only [pop,update_of_ne hc]
      exact port_drop_other (h.port c) hc hd (hcas.imp id fun hsh => ⟨hsh.1,hsh.2.1⟩) ha

theorem drops_uncacheIfEmpty {e₁ : DirectoryEntry n}
    (hs : e₁.sharers = update e.sharers sender false) (hd : e₁.dstate = e.dstate) :
    Drops sender e e₁.uncacheIfEmpty := by
  rw [uncacheIfEmpty]
  split_ifs with hz
  · exact ⟨hs,.inl ⟨rfl,getNumSharers_eq_zero.mp hz⟩⟩
  · refine ⟨hs,.inr ⟨hd,?_⟩⟩
    rw [getNumSharers_eq_zero] at hz
    simpa using hz

theorem drops_withoutInv (e : DirectoryEntry n) (sender : Fin n) : Drops sender e (e.withoutInv sender) := by
  refine drops_uncacheIfEmpty ?_ ?_ <;> rw [dropForwarder] <;> split_ifs <;> rfl

theorem drops_withoutFlush (e : DirectoryEntry n) (sender : Fin n) :
    Drops sender e (e.withoutFlush sender) := drops_uncacheIfEmpty rfl rfl

theorem uncacheIfEmpty_forwarder (e : DirectoryEntry n) : e.uncacheIfEmpty.forwarder = e.forwarder := by
  rw [uncacheIfEmpty]
  split_ifs <;> rfl

theorem forwarded_withoutInv (he : EntryOk e) (hs : e.sharers sender)
    (hf : Forwarded cfg e) : Forwarded cfg (e.withoutInv sender) := by
  intro hm hd hc f hff
  have hdr := drops_withoutInv e sender
  obtain ⟨hu,-⟩ | ⟨-,hse,-⟩ := hdr.shared he hs
  · simp [hd] at hu
  · rw [withoutInv,uncacheIfEmpty_forwarder,dropForwarder] at hff
    split_ifs at hff with hfs
    have hne : f ≠ sender := by
      rintro rfl
      exact hfs hff
    exact (hdr.sharer_other hne).trans (hf hm hse hc f hff)

theorem forwarded_withoutFlush : Forwarded cfg (e.withoutFlush sender) := by
  intro _ _ _ f hff
  rw [withoutFlush,uncacheIfEmpty_forwarder] at hff
  simp at hff

theorem dir_eq (he : ln.entry = some e) : ln.dir = e := by
  rw [dir,he,getD_some]

theorem inv_setEntry (h : Inv ln e reqs asked) : Inv (ln.setEntry e) e reqs asked :=
  { h with }

theorem undemanding_of_resumable (hd : Drops sender e e') (he : EntryOk e)
    (hs : e.sharers sender) (hr : Resumable req sender e') :
    e'.dstate = .uncached ∨ Undemanding (req :: rest) e sender := by
  rcases hd.shared he hs with ⟨hu,-⟩ | ⟨hsh,hse,c,hc⟩
  · exact .inl hu
  · have hem : ¬ e.dstate.isEM := by simp [hse,isEM]
    rcases hr.cases with hu | ⟨hk,hz | hrs⟩ | ⟨hk,hw,hf⟩
    · exact .inl hu
    · rw [getNumSharers_eq_zero] at hz
      simp [hz c] at hc
    · refine .inr fun r hr => ?_
      obtain rfl : req = r := some.inj hr
      have hrep : ¬ req.Replaces e := by
        rintro ⟨-,-,-,hn⟩
        have hne : req.requester ≠ sender := by
          rintro hne
          rw [hne,hd.sharer_sender] at hrs
          simp at hrs
        rw [hd.sharer_other hne,hn] at hrs
        simp at hrs
      refine ⟨hrep,fun c hc => ⟨?_,?_⟩⟩
      · rintro ⟨hk',-⟩
        simp [hk] at hk'
      · rintro ⟨-,-,-,hx | hx⟩
        · exact hem hx
        · exact hrep hx
    · refine .inr fun r hr => ?_
      obtain rfl : req = r := some.inj hr
      refine ⟨?_,fun c hc => ⟨?_,?_⟩⟩
      · rintro ⟨-,hk',-⟩
        simp [hk] at hk'
      · rintro ⟨-,-,-,hx | ⟨-,hx⟩⟩
        · exact hem hx
        · rcases hf with hf | hf
          · simp [hf] at hx
          · exact hc (some.inj (hx.symm.trans hf))
      · rintro ⟨hk',-⟩
        exact hk' hk

theorem resumable_noWait (hf : req.FrontOk e.dstate) (hr : Resumable req sender e)
    (hd : e.dstate = .uncached ∨ e.dstate = .shared) : req.waitForData = false := by
  cases hw : req.waitForData with
  | false => rfl
  | true =>
    rcases hf.wait hw with ⟨hk,hx⟩ | ⟨hk,hx⟩
    · rcases hr.cases with hu | ⟨hk',-⟩ | ⟨-,hw',-⟩
      · simp [hu] at hx
      · simp [hk] at hk'
      · simp [hw] at hw'
    · rcases hd with hd | hd <;> simp [hd] at hx

abbrev Leaves (cfg : Config) (K : Line n D → Prop) : Except Fault (Line n D) → Prop :=
  Outcome Benign fun ln => Busy cfg ln ∧ K ln

theorem Rule.processInvRep (hr : Rule cfg env J K) (h : Busy cfg ln) (hm : ln.toDir sender = .invRep :: ms)
    (hk : ln.dir.dstate ≠ .modified → K ((ln.pop sender ms).setEntry (ln.dir.withoutInv sender)))
    (hj : ∀ req rest, ln.dir.dstate ≠ .modified → ln.reqs = req :: rest →
      J none (req :: rest) ((ln.pop sender ms).setEntry (ln.dir.withoutInv sender))) :
    Leaves cfg K ((ln.pop sender ms).processInvRep cfg env sender) := by
  obtain ⟨hs,-⟩ := dropper_sharer h.1 hm (.inl rfl)
  refine processInvRep_outcome (fun e he => dir_eq (show ln.entry = some e from he) ▸ hs) fun e he hne => ?_
  obtain rfl : ln.dir = e := dir_eq he
  have hd := drops_withoutInv ln.dir sender
  have hf := forwarded_withoutInv h.1.entry hs h.2
  refine resumeAfterInvRep_outcome
    ⟨⟨inv_setEntry (inv_drop h.1 hm (.inl ⟨rfl,hne⟩) hd (.inl rfl)),hf⟩,hk hne⟩
    fun req rest hq hres => ?_
  have hq' : ln.reqs = req :: rest := hq
  have hi : Inv (ln.pop sender ms) (ln.dir.withoutInv sender) ln.reqs false :=
    inv_drop h.1 hm (.inl ⟨rfl,hne⟩) hd (.inr (hq' ▸ undemanding_of_resumable hd h.1.entry hs hres))
  rw [hq'] at hi
  refine hr.runFront (inv_setEntry hi) (resumable_noWait (hi.front req rfl) hres ?_) hq (.inl hf) (hj req rest hne hq')
  exact (hd.shared h.1.entry hs).imp And.left And.left

theorem inv_sendDataToDram (h : Inv ln e reqs asked) (cfg : Config) (d : D) :
    Inv (ln.sendDataToDram cfg d) e reqs asked := by
  rw [sendDataToDram,sendDataToNUCA]
  split_ifs with hn
  · exact { h with }
  · refine { h with reads := ?_ }
    have hr := h.reads
    simpa [countP_append,DramMsg.isRead] using hr

theorem busy_sendDataToDram (h : Busy cfg ln) (d : D) : Busy cfg (ln.sendDataToDram cfg d) := by
  have hi := inv_sendDataToDram h.1 cfg d
  obtain ⟨_,_,he⟩ := sendDataToDram_frame cfg ln d
  rw [he] at hi ⊢
  exact ⟨hi,h.2⟩

theorem Rule.runFront_written (hr : Rule cfg env J K) (h : Inv ln ln.dir (req :: rest) false)
    (hw : req.waitForData = false) (hq : ln.reqs = req :: rest) (hf : Forwarded cfg ln.dir)
    (hj : J cachedData (req :: rest) (ln.sendDataToDram cfg d)) :
    Leaves cfg K ((ln.sendDataToDram cfg d).runFront cfg env cachedData) := by
  have hi := inv_sendDataToDram h cfg d
  obtain ⟨_,_,he⟩ := sendDataToDram_frame cfg ln d
  rw [he] at hi hj ⊢
  exact hr.runFront hi hw hq (.inl hf) hj

theorem port_dataBuf (h : PortOf (view e (req :: rest) asked c) b inbox outbox) :
    PortOf (view e ({ req with dataBuf := true } :: rest) asked c) b inbox outbox := by
  refine Port.mono h rfl rfl rfl ?_ ?_ ?_ ?_
  · simp only [view,filter_cons,asks]
    split_ifs <;> rfl
  · rintro ⟨ha,_,⟨⟩,hx⟩
    exact ⟨ha,_,rfl,hx⟩
  · rintro ⟨ha,_,⟨⟩,hx⟩
    exact ⟨ha,_,rfl,hx⟩
  · rintro (hem | ⟨ha,r,hr,hx⟩)
    · exact .inl hem
    · obtain rfl : req = r := some.inj hr
      exact .inr ⟨ha,_,rfl,hx⟩

theorem inv_dataBuf (h : Inv ln e (req :: rest) asked) :
    Inv (ln.setFront { req with dataBuf := true }) e ({ req with dataBuf := true } :: rest) asked := by
  refine ⟨h.entry,h.queued,fun r hr => ?_,h.reads,fun c => port_dataBuf (h.port c)⟩
  cases hr
  obtain ⟨hn,hw,hf⟩ := h.front req rfl
  exact ⟨hn,hw,hf⟩

theorem uncached_of_flush (h : Inv ln e (req :: rest) true)
    (hm : ln.toDir sender = .flushRep d :: ms) (hd : Drops sender e e')
    (hk : req.kind ≠ .upgrade ∨ e'.getNumSharers = 0) : e'.dstate = .uncached := by
  obtain ⟨hs,-⟩ := dropper_sharer h hm (.inr ⟨d,rfl⟩)
  rcases hd.shared h.entry hs with ⟨hu,-⟩ | ⟨-,hse,c,hc⟩
  · exact hu
  · rcases hk with hk | hz
    · rcases (port_sender h hm).flushReply (by simp [Outbox.cons]) with hem | ⟨-,r,hr,hx⟩
      · simp [hse,isEM] at hem
      · obtain rfl : req = r := some.inj hr
        exact absurd hx.2.1 hk
    · rw [getNumSharers_eq_zero] at hz
      simp [hz c] at hc

theorem frontOk_uncached (hf : req.FrontOk .uncached) : req.waitForData = false := by
  cases hw : req.waitForData with
  | false => rfl
  | true =>
    have hx := hf.wait hw
    simp at hx

theorem Rule.processFlushRep (hr : Rule cfg env J K) (h : Busy cfg ln) (hm : ln.toDir sender = .flushRep d :: ms)
    (hidle : ln.reqs = [] → K (((ln.pop sender ms).setEntry (ln.dir.withoutFlush sender)).sendDataToDram cfg d))
    (hsta : ∀ req rest, ln.reqs = req :: rest → req.kind = .upgrade → (ln.dir.withoutFlush sender).getNumSharers ≠ 0 →
      K (((ln.pop sender ms).setEntry (ln.dir.withoutFlush sender)).setFront { req with dataBuf := true }))
    (hown : ∀ req rest, ln.reqs = req :: rest → req.kind = .ex ∨ req.kind = .upgrade →
      (ln.dir.withoutFlush sender).dstate = .uncached →
      J (some d) (req :: rest) ((ln.pop sender ms).setEntry (ln.dir.withoutFlush sender)))
    (hwr : ∀ req rest cachedData, ln.reqs = req :: rest →
      req.kind = .sh ∧ cachedData = some d ∨ req.kind = .nullify ∧ cachedData = none →
      req.waitForData = false → J cachedData (req :: rest)
        (((ln.pop sender ms).setEntry (ln.dir.withoutFlush sender)).sendDataToDram cfg d)) :
    Leaves cfg K ((ln.pop sender ms).processFlushRep cfg env sender d) := by
  obtain ⟨hs,-⟩ := dropper_sharer h.1 hm (.inr ⟨d,rfl⟩)
  have hd := drops_withoutFlush ln.dir sender
  have hf : Forwarded cfg (ln.dir.withoutFlush sender) := forwarded_withoutFlush
  have hbusy : Inv (ln.pop sender ms) (ln.dir.withoutFlush sender) ln.reqs true :=
    inv_drop h.1 hm (.inr ⟨d,rfl⟩) hd (.inl rfl)
  have hsettled (req : ShmemReq n) (rest : List (ShmemReq n)) (hq : ln.reqs = req :: rest)
      (hk : req.kind ≠ .upgrade ∨ (ln.dir.withoutFlush sender).getNumSharers = 0) :
      Inv (ln.pop sender ms) (ln.dir.withoutFlush sender) (req :: rest) false ∧
        req.waitForData = false ∧ (ln.dir.withoutFlush sender).dstate = .uncached := by
    have hi := h.1
    rw [hq] at hi
    have hu := uncached_of_flush hi hm hd hk
    have hr : Inv (ln.pop sender ms) (ln.dir.withoutFlush sender) (req :: rest) false :=
      inv_drop hi hm (.inr ⟨d,rfl⟩) hd (.inr (.inl hu))
    exact ⟨hr,frontOk_uncached (hu ▸ hr.front req rfl),hu⟩
  refine processFlushRep_outcome (fun e he => dir_eq (show ln.entry = some e from he) ▸ hs)
    (fun e he => ?_) fun e he => ?_
  · obtain rfl : ln.dir = e := dir_eq he
    exact (dstate_of_sharer h.1.entry hs).imp id fun hem c hc => h.1.entry.not_sharer hem hs hc
  · obtain rfl : ln.dir = e := dir_eq he
    refine resumeAfterFlushRep_outcome ?_ ?_ ?_ ?_ ?_
    · exact fun hq => ⟨busy_sendDataToDram ⟨inv_setEntry hbusy,hf⟩ d,hidle hq⟩
    · intro req rest hq hk hz
      have hq' : ln.reqs = req :: rest := hq
      refine ⟨⟨?_,hf⟩,hsta req rest hq hk hz⟩
      change Inv _ _ (_ :: ln.reqs.tail) true
      rw [hq'] at hbusy ⊢
      exact inv_dataBuf (inv_setEntry hbusy)
    · intro req rest hq hk
      obtain ⟨hi,hw,hu⟩ := hsettled req rest hq (hk.imp (fun hk => by simp [hk]) And.right)
      exact hr.runFront (inv_setEntry hi) hw hq (.inl hf) (hown req rest hq (hk.imp id And.left) hu)
    · intro req rest hq hk
      obtain ⟨hi,hw,-⟩ := hsettled req rest hq (.inl (by simp [hk]))
      exact hr.runFront_written (inv_setEntry hi) hw hq hf (hwr req rest _ hq (.inl ⟨hk,rfl⟩) hw)
    · intro req rest hq hk
      obtain ⟨hi,hw,-⟩ := hsettled req rest hq (.inl (by simp [hk]))
      exact hr.runFront_written (inv_setEntry hi) hw hq hf (hwr req rest _ hq (.inr ⟨hk,rfl⟩) hw)

theorem inv_wbRep (h : Inv ln e (req :: rest) true)
    (hm : ln.toDir sender = .wbRep d :: ms) (ha : req.AwaitsWb e sender) :
    Inv (ln.pop sender ms) { e with owner := none, dstate := .shared } (req :: rest) false := by
  obtain ⟨hk,hw,hs,hx⟩ := ha
  refine ⟨⟨?_,by simp [isEM],by simp⟩,h.queued,fun r hr => ?_,h.reads,fun c => ?_⟩
  · simp only [reduceCtorEq,false_iff,not_forall]
    exact ⟨sender,by simp [hs]⟩
  · obtain rfl : req = r := some.inj hr
    exact ⟨by simp [hk],by simp [hw],fun _ => ⟨hk,rfl⟩⟩
  · rcases eq_or_ne c sender with rfl | hc
    · simp only [pop,update_self]
      refine (port_sender h hm).popWbRep rfl rfl rfl rfl ?_
      rintro ⟨-,_,⟨⟩,hk',-⟩
      exact absurd hk hk'
    · simp only [pop,update_of_ne hc]
      rcases hx with hem | ⟨hsh,hf⟩
      · have hsc : (view e (req :: rest) true c).sharer = false := h.entry.not_sharer hem hs hc
        have hg := Port.ungranted (h.port c) hsc
        refine (h.port c).revisit (hsc.trans hg.symm) view_granted_pending
          (view_not_awaitWb (.inl hsc)) rfl (hsc.trans hg.symm) fun hv => ?_
        exact absurd (hv.symm.trans hsc) (by simp)
      · refine Port.mono (h.port c) rfl rfl hsh.symm rfl ?_ ?_ ?_
        · rintro ⟨-,r,hr,-,-,-,hem | ⟨-,hf'⟩⟩
          · simp [hsh,isEM] at hem
          · obtain rfl : req = r := some.inj hr
            exact absurd (some.inj (hf'.symm.trans hf)) hc
        · rintro ⟨-,_,⟨⟩,hk',-⟩
          exact absurd hk hk'
        · rintro (hem | ⟨-,r,hr,-,hk',-⟩)
          · simp [hsh,isEM] at hem
          · obtain rfl : req = r := some.inj hr
            simp [hk] at hk'

theorem getNumSharers_le_one (h : ∀ c, e.sharers c ↔ c = o) : e.getNumSharers ≤ 1 := by
  have hs : e.sharers = fun c => decide (c = o) := by
    funext c
    rw [Bool.eq_iff_iff]
    simp [h c]
  rw [getNumSharers,getSharersList,hs,← countP_eq_length_filter]
  have hn := nodup_iff_count_le_one.mp (nodup_finRange n) o
  simpa [count,BEq.beq] using hn

theorem Rule.processWbRep (hr : Rule cfg env J K) (h : Busy cfg ln) (hm : ln.toDir sender = .wbRep d :: ms)
    (hj : ∀ req rest, ln.reqs = req :: rest → req.AwaitsWb ln.dir sender → J (some d) (req :: rest)
      ((ln.pop sender ms).setEntry { ln.dir with owner := none, dstate := .shared })) :
    Leaves cfg K ((ln.pop sender ms).processWbRep cfg env sender d) := by
  obtain ⟨r,hrq,ha⟩ := ((port_sender h.1 hm).wbReply (by simp [Outbox.cons])).1.2
  refine processWbRep_outcome (fun e he => dir_eq (show ln.entry = some e from he) ▸ ha.2.2.1)
    fun e req rest he hq hk => ?_
  obtain rfl : ln.dir = e := dir_eq he
  have hq' : ln.reqs = req :: rest := hq
  have hi := h.1
  rw [hq'] at hi hrq
  obtain rfl : req = r := some.inj hrq
  refine hr.runFront (inv_setEntry (inv_wbRep hi hm ha)) ha.2.1 hq ?_ (hj req rest hq' ha)
  obtain ⟨-,-,hs,hem | ⟨hsh,-⟩⟩ := ha
  · obtain ⟨o,-,ho⟩ := h.1.entry.owner hem
    exact .inr ⟨hk,rfl,getNumSharers_le_one (o := o) ho⟩
  · exact .inl fun hp _ hc f hf => h.2 hp hsh hc f hf

theorem port_fetching (h : PortOf (view e (req :: rest) true c) b inbox outbox)
    (hw : req.waitForData) (hc : req.requester ≠ c) (hfresh : ∀ r ∈ rest, r.Fresh) :
    PortOf (view e rest false c) b inbox outbox := by
  have hno (r : ShmemReq n) (hr : r ∈ (req :: rest).head?) : r.waitForData ≠ false := by
    obtain rfl : req = r := some.inj hr
    simp [hw]
  refine Port.mono h rfl ?_ rfl (pending_of_ne hc).symm ?_ ?_ ?_
  · rw [granted_of_fresh hfresh,granted_of_ne hc]
  · rintro ⟨-,r,hr,-,hw',-⟩
    exact absurd hw' (hno r hr)
  · rintro ⟨-,r,hr,-,hw',-⟩
    exact absurd hw' (hno r hr)
  · rintro (hem | ⟨-,r,hr,-,-,hw',-⟩)
    · exact .inl hem
    · exact absurd hw' (hno r hr)

theorem inv_dramReply (h : Inv ln e (req :: rest) true) (hf : ln.fromDram = d :: ds) (hr : DramAnswers req e d reply) :
    Inv ({ ln with fromDram := ds }.send req.requester reply) e rest false := by
  have hre := h.reads
  have hfresh := fresh_tail h
  rw [hf] at hre
  have hw : req.waitForData := by
    cases hw : req.waitForData with
    | true => rfl
    | false =>
      simp only [head?_cons,any_some,hw,length_cons,toNat_false] at hre
      omega
  simp only [head?_cons,any_some,hw,length_cons,toNat_true] at hre
  refine ⟨h.entry,fun r hr => hfresh r (mem_of_mem_tail hr),fresh_frontOk hfresh _,?_,fun c => ?_⟩
  · simp only [send,fresh_wait hfresh,toNat_false]
    omega
  · simp only [send]
    rcases eq_or_ne c req.requester with rfl | hc
    · obtain ⟨hg,hs⟩ := front_granted h req rfl (.inl hw)
      have hk : req.kind ≠ .nullify := by
        rintro hk
        obtain ⟨hn,-⟩ := (h.front req rfl).nullify hk
        simp [hw] at hn
      have hp : (view e (req :: rest) true req.requester).pending =
          req.kind :: (view e rest false req.requester).pending := pending_requester hk
      rw [update_self]
      refine (h.port _).grant (hs.trans hg.symm) view_granted_pending ?_ _ hs
        (granted_of_fresh hfresh) (by simp [hp]) (by rw [hp,tail_cons]) ?_
      · rintro ⟨-,_,⟨⟩,-,hw',-⟩
        simp [hw] at hw'
      · rcases hr with ⟨hk,hd,rfl⟩ | ⟨hk,hd,rfl⟩ | ⟨hk,hd,rfl⟩ | ⟨hk,rfl⟩
        · exact .inr ⟨⟨d,rfl⟩,by simp [view,hd,isEM],by simp [view,hd]⟩
        · exact .inl ⟨⟨d,rfl⟩,hd⟩
        · exact .inr ⟨⟨d,rfl⟩,by simp [view,hd,isEM],fun _ => .inl (by simp [hp,hk])⟩
        · have hd : e.dstate = .modified := by
            rcases (h.front req rfl).wait hw with ⟨hk',-⟩ | ⟨-,hd⟩
            · simp [hk] at hk'
            · exact hd
          exact .inr ⟨⟨d,rfl⟩,by simp [view,hd,isEM],fun _ => .inr (by simp [hp,hk])⟩
    · rw [update_of_ne hc]
      exact port_fetching (h.port c) hw hc.symm hfresh

theorem Rule.processDRAMReply (hr : Rule cfg env J K) (h : Busy cfg ln) (hf : ln.fromDram = d :: ds)
    (hj : ∀ req rest reply, ln.reqs = req :: rest → DramAnswers req ln.dir d reply →
      J none rest (({ ln with fromDram := ds }.send req.requester reply).sendDataToNUCA cfg d)) :
    Leaves cfg K ({ ln with fromDram := ds }.processDRAMReply cfg env d) := by
  refine processDRAMReply_outcome fun e req rest reply he hq ha => ?_
  obtain rfl : ln.dir = e := dir_eq he
  have hi := h.1
  rw [show ln.reqs = req :: rest from hq] at hi
  have hn := inv_dramReply hi hf ha
  refine hr.processNextReq ?_ (hj req rest reply hq ha)
  obtain ⟨_,he⟩ := sendDataToNUCA_frame cfg ({ ln with fromDram := ds }.send req.requester reply) d
  rw [he]
  exact ⟨{ hn with },fresh_tail hi,h.2⟩

theorem view_request (hw : r.waitForData = false) (hf : r.forwardingFrom = none) (ha : reqs ≠ [] → asked) (c : Fin n) :
    (view e (reqs ++ [r]) asked c).granted = (view e reqs true c).granted ∧
      ((view e reqs true c).awaitWb → (view e (reqs ++ [r]) asked c).awaitWb) ∧
      ((view e reqs true c).awaitFlush → (view e (reqs ++ [r]) asked c).awaitFlush) ∧
      ((view e reqs true c).flushOk → (view e (reqs ++ [r]) asked c).flushOk) := by
  cases reqs with
  | nil =>
    refine ⟨by simp [view,granted,hw,hf],?_,?_,?_⟩
    · rintro ⟨-,r,hr,-⟩
      simp at hr
    · rintro ⟨-,r,hr,-⟩
      simp at hr
    · rintro (hem | ⟨-,r,hr,-⟩)
      · exact .inl hem
      · simp at hr
  | cons r' rest =>
    obtain rfl := ha (by simp)
    exact ⟨rfl,id,id,id⟩

theorem inv_enqueue (h : Inv ln e reqs true) (hd : ln'.toDram = ln.toDram) (hfr : ln'.fromDram = ln.fromDram)
    (hr : r.kind ≠ .nullify ∨ reqs = []) (hw : r.waitForData = false) (hf : r.forwardingFrom = none)
    (hp : ∀ c, PortOf (view e (reqs ++ [r]) asked c) (ln'.llc c) (ln'.toLlc c) (ln'.toDir c)) :
    Inv ln' e (reqs ++ [r]) asked := by
  refine ⟨h.entry,?_,?_,?_,hp⟩
  · cases reqs with
    | nil => simp
    | cons r' rest =>
      intro q hq
      rcases mem_append.mp hq with hq | hq
      · exact h.queued q hq
      · obtain rfl := mem_singleton.mp hq
        exact ⟨hr.resolve_right (by simp),hw,hf⟩
  · cases reqs with
    | nil =>
      intro q hq
      obtain rfl : r = q := some.inj hq
      exact ⟨fun _ => ⟨hw,hf⟩,by simp [hw],by simp [hf]⟩
    | cons r' rest => exact h.front
  · rw [hd,hfr,h.reads]
    cases reqs <;> simp [*]

theorem inv_request (h : Inv ln e reqs true) (hm : ln.toDir sender = m :: ms) (hk : m.asks = some k)
    (ha : reqs ≠ [] → asked) : Inv (ln.pop sender ms) e (reqs ++ [.new k sender]) asked := by
  have hn : k ≠ .nullify := by
    rintro rfl
    cases m <;> simp [LlcMsg.asks] at hk
  refine inv_enqueue h rfl rfl (.inl hn) rfl rfl fun c => ?_
  obtain ⟨hg,hwb,hfl,hok⟩ := view_request (e := e) (r := new k sender) rfl rfl ha c
  rcases eq_or_ne c sender with rfl | hc
  · simp only [pop,update_self]
    refine (port_sender h hm).popRequest hk rfl hg rfl ?_ hwb hfl hok
    simp [view,asks,new,hn]
  · simp only [pop,update_of_ne hc]
    refine Port.mono (h.port c) rfl hg rfl ?_ hwb hfl hok
    simp [view,asks,new,hc.symm]

theorem Rule.enqueue (hr : Rule cfg env J K) (h : Busy cfg ln) (hm : ln.toDir sender = m :: ms) (hk : m.asks = some k)
    (hsta : ln.reqs ≠ [] → K { ln.pop sender ms with reqs := ln.reqs ++ [.new k sender] })
    (hj : ln.reqs = [] → J none [.new k sender] { ln.pop sender ms with reqs := [.new k sender] }) :
    Leaves cfg K ((ln.pop sender ms).enqueue cfg env (.new k sender)) := by
  refine enqueue_outcome (fun hne => ⟨?_,hsta hne⟩) fun hq => ?_
  · have hi : Inv (ln.pop sender ms) ln.dir (ln.reqs ++ [.new k sender]) true := inv_request h.1 hm hk fun _ => rfl
    exact ⟨{ hi with },h.2⟩
  · have hq' : ln.reqs = [] := hq
    have hi : Inv (ln.pop sender ms) ln.dir (ln.reqs ++ [.new k sender]) false :=
      inv_request h.1 hm hk fun hne => absurd hq' hne
    rw [hq'] at hi
    exact hr.runFront { hi with } rfl rfl (.inl h.2) (hj hq')

theorem Rule.replaceEntry (hr : Rule cfg env J K) (h : Busy cfg ln) (hq : ln.reqs = []) (c : Fin n)
    (hj : J none [.new .nullify c] { ln with reqs := [.new .nullify c] }) :
    Leaves cfg K (ln.enqueue cfg env (.new .nullify c)) := by
  refine enqueue_outcome (fun hne => absurd hq hne) fun _ => ?_
  have hi := h.1
  rw [hq] at hi
  have hn : Inv { ln with reqs := [.new .nullify c] } ln.dir ([] ++ [.new .nullify c]) false := by
    refine inv_enqueue hi rfl rfl (.inr rfl) rfl rfl fun c' => ?_
    obtain ⟨hg,hwb,hfl,hok⟩ := view_request (e := ln.dir) (r := new .nullify c) rfl rfl
      (show ([] : List (ShmemReq n)) ≠ [] → false by simp) c'
    exact Port.mono (hi.port c') rfl hg rfl rfl hwb hfl hok
  exact hr.runFront hn rfl rfl (.inl h.2) hj

theorem handleMsgFromL2Cache_busy (env : Env n D) (h : Busy cfg ln) (hm : ln.toDir sender = m :: ms) :
    Outcome Benign (Busy cfg) ((ln.pop sender ms).handleMsgFromL2Cache cfg env sender m) := by
  have hr := trivialRule cfg env
  refine Outcome.mono (P := fun ln => Busy cfg ln ∧ True) ?_ fun _ => And.left
  cases m with
  | exReq | shReq | upgradeReq => exact hr.enqueue h hm rfl (fun _ => trivial) fun _ => trivial
  | invRep => exact hr.processInvRep h hm (fun _ => trivial) fun _ _ _ _ => trivial
  | flushRep d =>
    exact hr.processFlushRep h hm (fun _ => trivial) (fun _ _ _ _ _ => trivial)
      (fun _ _ _ _ _ => trivial) fun _ _ _ _ _ _ => trivial
  | wbRep d => exact hr.processWbRep h hm fun _ _ _ _ => trivial

end Line
end Coherence
