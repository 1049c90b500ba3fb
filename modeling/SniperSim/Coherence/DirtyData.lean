import SniperSim.Coherence.DataValue

open List Option
namespace Coherence
variable {n : Nat} {D : Type}

def DramMsg.stored (d : D) : DramMsg D → D
  | .readReq => d
  | .writeReq d' => d'

namespace LlcLine
variable {b b' : LlcLine D} {junk : D} {msg : Option (DirMsg D)} {wr : Option D} {out : List (LlcMsg D)}

theorem Moves.modified (hm : b.Moves junk msg wr b' out) (hb : b.cstate = .modified)
    (hw : msg.any DirMsg.isWbReq → b.cstate ≠ .modified) : b'.cstate = .modified ∨ ∃ d, .flushRep d ∈ out := by
  cases hm with
  | hit | queue | askShared | askExclusive | ignore => exact .inl hb
  | write | own | upgrade => exact .inl rfl
  | evictDirty | flush => exact .inr ⟨b.data,by simp⟩
  | writeBack => exact absurd hb (hw rfl)
  | invalidate _ hm => exact absurd hb hm
  | evictClean hs | askUpgrade _ hs | fillExclusive _ _ hs | fillShared _ hs | fillUpgrading _ _ hs => simp [hb] at hs
  | writeBackUpgrading hs => simp [hb] at hs

theorem Moves.filled (hm : b.Moves junk (some (.exRep d)) wr b' out) (ht : true ∈ b.waiters) :
    b'.cstate = .modified := by
  cases hm with
  | fillExclusive d s hs ho =>
    rcases ho with rfl | ⟨-,hn⟩
    · rfl
    · exact absurd ht hn
  | ignore m hs hm => simp at hm

end LlcLine

namespace Line
variable {cfg : Config} {reqs : List (ShmemReq n)} {cachedData : Option D} {c : Fin n} {ln ln' : Line n D}
  {p p' : Prop}

def memory (ln : Line n D) : D := ln.toDram.foldl DramMsg.stored ln.dram

def Dirty (ln : Line n D) (c : Fin n) : Prop :=
  (ln.llc c).cstate = .modified ∨ (∃ d, .flushRep d ∈ ln.toDir c) ∨
    ln.dir.dstate = .modified ∧ ∃ d, .exRep d ∈ ln.toLlc c

def ReadsLast (ln : Line n D) : Prop :=
  .readReq ∈ ln.toDram → ln.memory = ln.lastWrite ∧ ln.toDram.getLast? = some .readReq

structure Backed (p : Prop) (ln : Line n D) : Prop where
  nuca : ln.nuca = none
  covered : ln.memory = ln.lastWrite ∨ (∃ c, Dirty ln c) ∨ p
  read : ReadsLast ln

def Carried (cachedData : Option D) (reqs : List (ShmemReq n)) (ln : Line n D) : Prop :=
  cachedData.isSome ∧ ln.dir.dstate = .uncached ∧ ∃ r ∈ reqs.head?, r.kind = .ex ∨ r.kind = .upgrade

def SameMemory (ln ln' : Line n D) : Prop :=
  ln'.nuca = ln.nuca ∧ ln'.toDram = ln.toDram ∧ ln'.dram = ln.dram ∧ ln'.lastWrite = ln.lastWrite

theorem SameMemory.memory (h : SameMemory ln ln') : ln'.memory = ln.memory := by
  rw [Line.memory,Line.memory,h.2.1,h.2.2.1]

theorem Backed.congr (h : Backed p ln) (hs : SameMemory ln ln')
    (hc : (∃ c, Dirty ln c) ∨ p → (∃ c, Dirty ln' c) ∨ p') : Backed p' ln' := by
  refine ⟨hs.1.trans h.nuca,?_,?_⟩
  · rw [hs.memory,hs.2.2.2]
    exact h.covered.imp id hc
  · rw [ReadsLast,hs.memory,hs.2.2.2,hs.2.1]
    exact h.read

theorem Backed.settled (h : Backed p ln) (hs : SameMemory ln ln') (hm : ln.memory = ln.lastWrite) : Backed p' ln' := by
  refine ⟨hs.1.trans h.nuca,.inl ?_,?_⟩
  · rw [hs.memory,hs.2.2.2,hm]
  · rw [ReadsLast,hs.memory,hs.2.2.2,hs.2.1]
    exact h.read

theorem allocateEntry_dstate (ln : Line n D) (env : Env n D) : (ln.allocateEntry env).dstate = ln.dir.dstate := by
  cases he : ln.entry <;> simp [*,allocateEntry,dir,DirectoryEntry.create]

theorem not_dirty (h : Inv ln e reqs false) (he : e.dstate = ln.dir.dstate)
    (hd : e.dstate.isEM = false) : ¬ ∃ c, Dirty ln c := by
  rintro ⟨c,hm | ⟨d,hm⟩ | ⟨hm,-⟩⟩
  · have := isEM_of_writer h (.inr hm)
    simp [hd] at this
  · rcases (h.port c).flushReply ((Outbox.ofList_pos hm).1 ⟨d,rfl⟩) with hf | ⟨ha,-⟩
    · simp [hd] at hf
    · simp at ha
  · simp [he,hm,DirectoryState.isEM] at hd

theorem dirty_send (o : Fin n) (m : DirMsg D) (h : Dirty ln c) : Dirty (ln.send o m) c := by
  rcases h with hd | hd | ⟨hd,d,hm⟩
  · exact .inl hd
  · exact .inr (.inl hd)
  · exact .inr (.inr ⟨hd,d,Channel.mem_update_append.mpr (.inl hm)⟩)

theorem dirty_sendAll (h : Dirty ln c) (targets : List (Fin n × DirMsg D))
    (he : ln.dir.dstate = .modified → e.dstate = .modified) : Dirty ((ln.setEntry e).sendAll targets) c := by
  rw [sendAll_eq]
  rcases h with hd | hd | ⟨hd,d,hm⟩
  · exact .inl hd
  · exact .inr (.inl hd)
  · exact .inr (.inr ⟨he hd,d,mem_append_left _ hm⟩)

theorem sameMemory_sendAll (ln : Line n D) (e : DirectoryEntry n)
    (targets : List (Fin n × DirMsg D)) : SameMemory ln ((ln.setEntry e).sendAll targets) := by
  rw [sendAll_eq]
  exact ⟨rfl,rfl,rfl,rfl⟩

theorem Backed.demand (h : Backed (Carried cachedData reqs ln) ln) (targets : List (Fin n × DirMsg D))
    (hd : ln.dir.dstate ≠ .uncached) (he : ln.dir.dstate = .modified → e.dstate = .modified) :
    Backed p ((ln.setEntry e).sendAll targets) := by
  refine h.congr (sameMemory_sendAll ln e targets) ?_
  rintro (⟨c,hc⟩ | ⟨-,hu,-⟩)
  · exact .inl ⟨c,dirty_sendAll hc targets he⟩
  · exact absurd hu hd

theorem Grant.owned (hg : Grant cfg req e e' reply) : req.kind = .sh ∨ e'.dstate = .modified ∧ reply = .exRep := by
  rcases hg.cases with ⟨-,-,⟨-,hd,hr⟩ | ⟨hk,-⟩ | ⟨hk,-⟩⟩ | ⟨-,-,hk,-⟩ <;> simp [*]

theorem Backed.memory_of_grant (h : Backed (Carried cachedData (req :: rest) ln) ln)
    (hi : Inv ln (ln.allocateEntry env) (req :: rest) false) (hg : Grant cfg req (ln.allocateEntry env) e' reply)
    (hc : cachedData = none ∨ req.kind = .sh) : ln.memory = ln.lastWrite := by
  rcases h.covered with hm | hd | ⟨hs,-,r,hr,hk⟩
  · exact hm
  · exact absurd hd (not_dirty hi (allocateEntry_dstate ln env)
      (by rcases hg.cases with ⟨hd,-⟩ | ⟨hd,-⟩ <;> simp [hd,DirectoryState.isEM]))
  · obtain rfl : req = r := some.inj hr
    rcases hc with hc | hc
    · simp [hc] at hs
    · simp [hc] at hk

theorem backed_fetch (h : Backed p ln) (hm : ln.memory = ln.lastWrite) (hn : ln'.nuca = ln.nuca)
    (ht : ln'.toDram = ln.toDram ++ [.readReq]) (hd : ln'.dram = ln.dram) (hw : ln'.lastWrite = ln.lastWrite) :
    Backed p' ln' := by
  have heq : ln'.memory = ln'.lastWrite := by
    rw [memory,ht,hd,hw,foldl_append,← hm]
    rfl
  exact ⟨hn.trans h.nuca,.inl heq,fun _ => ⟨heq,by rw [ht,getLast?_concat]⟩⟩

theorem backedRule (cfg : Config) (env : Env n D) :
    Rule cfg env (fun cachedData reqs ln => Backed (Carried cachedData reqs ln) ln) (Backed False) where
  served := by
    intro req rest cachedData ln r hi hw hq hj hs
    have hdir := allocateEntry_dstate ln env
    have hcac {st : DirectoryState} (hne : st ≠ .uncached)
        (hd : (ln.allocateEntry env).dstate = st) : ln.dir.dstate ≠ .uncached := by
      rwa [← hdir,hd]
    have how (hd : (ln.allocateEntry env).dstate.isEM) : ln.dir.dstate ≠ .uncached := by
      rintro hu
      simp [hdir,hu,DirectoryState.isEM] at hd
    cases hs with
    | flush o hd => exact ⟨by simp,fun _ => hj.demand [(o,.flushReq)] (how hd) hdir.trans⟩
    | writeback o hd => exact ⟨by simp,fun _ => hj.demand [(o,.wbReq)] (how hd) hdir.trans⟩
    | invalidate targets hd => exact ⟨by simp,fun _ => hj.demand targets (hcac (by simp) hd) hdir.trans⟩
    | upgrade hk hs hd =>
      have hne : ln.dir.dstate ≠ .uncached := by
        rcases hd with ⟨hd,-⟩ | ⟨hd,-⟩
        · exact how hd
        · exact hcac (by simp) hd
      exact ⟨fun _ => hj.demand [(req.requester,.upgradeRep)] hne fun _ => rfl,by simp⟩
    | nullify hk hd =>
      refine ⟨fun _ => hj.congr ⟨rfl,rfl,rfl,rfl⟩ ?_,by simp⟩
      rintro (⟨c,hm | hm | ⟨hm,-⟩⟩ | ⟨-,-,r,hr,hkr⟩)
      · exact .inl ⟨c,.inl hm⟩
      · exact .inl ⟨c,.inr (.inl hm)⟩
      · simp [← hdir,hd] at hm
      · obtain rfl : req = r := some.inj hr
        simp [hk] at hkr
    | reply e' e'' reply d hg hsrc =>
      refine ⟨fun _ => ?_,by simp⟩
      rcases hg.owned with hk | ⟨hd,rfl⟩
      · exact hj.settled (sameMemory_sendAll ln e'' [(req.requester,reply d)]) (hj.memory_of_grant hi hg (.inr hk))
      · refine hj.congr (sameMemory_sendAll ln e'' [(req.requester,.exRep d)])
          fun _ => .inl ⟨req.requester,.inr (.inr ⟨?_,d,?_⟩)⟩
        · rcases hsrc with ⟨-,rfl⟩ | ⟨-,-,rfl⟩ <;> exact hd
        · simp [send]
    | forward e' reply f hg hc =>
      exact ⟨by simp,fun _ => hj.settled ⟨rfl,rfl,rfl,rfl⟩ (hj.memory_of_grant hi hg (.inl hc))⟩
    | fetch e' reply hg hc =>
      exact ⟨by simp,fun _ => backed_fetch hj (hj.memory_of_grant hi hg (.inl hc)) rfl rfl rfl rfl⟩
  nil := fun h => h.congr ⟨rfl,rfl,rfl,rfl⟩ fun hd => hd.imp id fun hc => by simp [Carried] at hc
  frame := fun _ h => h.congr ⟨rfl,rfl,rfl,rfl⟩ id

theorem no_reads (h : Inv ln e reqs asked) (hw : reqs.head?.any (·.waitForData) = false) : .readReq ∉ ln.toDram := by
  have hr := h.reads
  rw [hw,Bool.toNat_false] at hr
  have hz : ln.toDram.countP DramMsg.isRead = 0 := by omega
  rw [countP_eq_zero] at hz
  exact fun hm => hz _ hm rfl

theorem backed_moves (h : Busy cfg ln) (hb : Backed False ln) (hs : LlcStep ln l c junk msg wr b inbox out)
    (hw : msg.any DirMsg.isWbReq → (ln.llc c).cstate ≠ .modified) : Backed False (ln.afterMove c b wr inbox out) := by
  have hm := hs.moves
  cases wr with
  | some v =>
    have hwr := hm.written.1
    have hmod : ((ln.afterMove c b (some v) inbox out).llc c).cstate = .modified := by
      simp only [afterMove,setLlc,Function.update_self]
      cases hm with
      | write => rfl
    have hread : .readReq ∉ ln.toDram := no_reads h.1 (writer_fetched h.1 hwr)
    exact ⟨hb.nuca,.inr (.inl ⟨c,.inl hmod⟩),fun hr => absurd hr hread⟩
  | none =>
    refine hb.congr ⟨rfl,rfl,rfl,rfl⟩ ?_
    rintro (⟨c',hd⟩ | hf)
    · refine .inl ⟨c',?_⟩
      rcases eq_or_ne c' c with rfl | hc
      · simp only [Dirty,afterMove,setLlc,Function.update_self]
        rcases hd with hd | ⟨d,hd⟩ | ⟨hd,d,hx⟩
        · rcases hm.modified hd hw with hd | ⟨d,ho⟩
          · exact .inl hd
          · exact .inr (.inl ⟨d,by simp [ho]⟩)
        · exact .inr (.inl ⟨d,by simp [hd]⟩)
        · have hx' := hx
          rw [hs.inbox] at hx'
          rcases mem_append.mp hx' with hmsg | hmsg
          · obtain rfl : msg = some (.exRep d) := mem_toList.mp hmsg
            have hpos := (Inbox.ofList_pos (held (ln.llc c').cstate) hx).1 ⟨d,rfl⟩
            have hfirst := (h.1.port c').eager (.inr (.inr (.inr ⟨hpos,hd⟩)))
            exact .inl (hm.filled (mem_of_mem_head? hfirst))
          · exact .inr (.inr ⟨hd,d,hmsg⟩)
      · simp only [Dirty,afterMove,setLlc,Function.update_of_ne hc]
        exact hd
    · exact absurd hf id

theorem dirty_pop (hd : Dirty ln c') (hm : ln.toDir c = m :: ms) (hf : m.isFlushRep = false) (hl : ln'.llc = ln.llc)
    (ho : ln'.toDir = (ln.pop c ms).toDir) (hi : ln'.toLlc = ln.toLlc)
    (he : ln.dir.dstate = .modified → ∀ d, .exRep d ∈ ln.toLlc c' → ln'.dir.dstate = .modified) : Dirty ln' c' := by
  rw [Dirty,hl,ho,hi]
  rcases hd with hd | ⟨d,hd⟩ | ⟨hd,d,hx⟩
  · exact .inl hd
  · refine .inr (.inl ⟨d,Channel.mem_update_tail hm hd ?_⟩)
    rintro rfl
    simp [LlcMsg.isFlushRep] at hf
  · exact .inr (.inr ⟨he hd d hx,d,hx⟩)

theorem backed_sendDataToDram (hn : cfg.nuca = false) (hnuca : ln.nuca = none) (hr : .readReq ∉ ln.toDram)
    (hd : d = ln.lastWrite) : Backed p (ln.sendDataToDram cfg d) := by
  simp only [sendDataToDram,hn,Bool.false_eq_true,if_false]
  refine ⟨hnuca,.inl ?_,fun h => absurd h (by simpa using hr)⟩
  rwa [memory,foldl_append]

theorem writeback_no_grant (h : Busy cfg ln) (hm : ln.toDir c = .wbRep d :: ms) (hd : ln.dir.dstate = .modified)
    (ha : ln.dir.sharers c) : .exRep d' ∉ ln.toLlc c' := by
  intro hx
  obtain rfl : c' = c := h.1.entry.sole (by simp [hd,DirectoryState.isEM]) ha (sharer_of_reply h.1 hx rfl)
  obtain ⟨-,-,-,hz,-⟩ := (port_sender h.1 hm).wbReply (by simp [Outbox.cons])
  have hpos := (Inbox.ofList_pos (held (ln.llc c').cstate) hx).1 ⟨d',rfl⟩
  omega

theorem handle_backed (env : Env n D) (hn : cfg.nuca = false) (h : Busy cfg ln) (hd : DataBusy ln)
    (hb : Backed False ln) (hm : ln.toDir c = m :: ms) (hs : m.isFlushRep → ln.storesFlush c = false) :
    Outcome Benign (Backed False) ((ln.pop c ms).handleMsgFromL2Cache cfg env c m) := by
  have hr := backedRule cfg env
  have hkeep {p : Prop} {ln' : Line n D} (hf : m.isFlushRep = false) (hsame : SameMemory ln ln')
      (hl : ln'.llc = ln.llc) (ho : ln'.toDir = (ln.pop c ms).toDir) (hi : ln'.toLlc = ln.toLlc)
      (he : ∀ c', ln.dir.dstate = .modified → ∀ d, .exRep d ∈ ln.toLlc c' →
        ln'.dir.dstate = .modified) : Backed p ln' := by
    refine hb.congr hsame ?_
    rintro (⟨c',hd⟩ | hf)
    · exact .inl ⟨c',dirty_pop hd hm hf hl ho hi (he c')⟩
    · exact absurd hf id
  have henq {k : ReqKind} (hk : m.asks = some k) (hf : m.isFlushRep = false) :
      Outcome Benign (fun ln => Busy cfg ln ∧ Backed False ln) ((ln.pop c ms).enqueue cfg env (.new k c)) := by
    have hreq (p : Prop) (reqs : List (ShmemReq n)) : Backed p { ln.pop c ms with reqs := reqs } :=
      hkeep hf ⟨rfl,rfl,rfl,rfl⟩ rfl rfl rfl fun _ hd _ _ => hd
    exact hr.enqueue h hm hk (fun _ => hreq _ _) fun _ => hreq _ _
  refine Outcome.mono (P := fun ln => Busy cfg ln ∧ Backed False ln) ?_ fun _ => And.right
  cases m with
  | exReq | shReq | upgradeReq => exact henq rfl rfl
  | invRep =>
    exact hr.processInvRep h hm
      (fun hne => hkeep rfl ⟨rfl,rfl,rfl,rfl⟩ rfl rfl rfl fun _ hd => absurd hd hne)
      fun req rest hne _ => hkeep rfl ⟨rfl,rfl,rfl,rfl⟩ rfl rfl rfl fun _ hd => absurd hd hne
  | flushRep d =>
    have hlast : d = ln.lastWrite := hd.1.returns c (.flushRep d) (by simp [hm]) d rfl
    have hread (hw : ln.reqs.head?.any (·.waitForData) = false) : .readReq ∉ ln.toDram := no_reads h.1 hw
    refine hr.processFlushRep h hm (fun hq => ?_) (fun req rest hq hk hz => ?_)
      (fun req rest hq hk hu => ?_) fun req rest cachedData hq _ hw => ?_
    · exact backed_sendDataToDram hn hb.nuca (hread (by simp [hq])) hlast
    · have hstore := storesFlush_of_stay hq hk hz
      rw [hs rfl] at hstore
      simp at hstore
    · exact hb.congr ⟨rfl,rfl,rfl,rfl⟩ fun _ => .inr ⟨rfl,hu,req,rfl,hk⟩
    · exact backed_sendDataToDram hn hb.nuca (hread (by simp [hq,hw])) hlast
  | wbRep d =>
    refine hr.processWbRep h hm fun req rest hq ha => hkeep rfl ⟨rfl,rfl,rfl,rfl⟩ rfl rfl rfl fun c' hd d' hx => ?_
    exact absurd hx (writeback_no_grant h hm hd ha.2.2.1)

theorem memoryAnswers_of_backed (hn : cfg.nuca = false) (h : Busy cfg ln) (hb : Backed False ln)
    (l : Label n D) : MemoryAnswers cfg ln l := by
  cases l with
  | deliverDir c env => exact .inl (by simp [nucaRead,hn])
  | dramServe =>
    intro hr
    have hre := h.1.reads
    have hle := (ln.reqs.head?.any (·.waitForData)).toNat_le
    cases ht : ln.toDram with
    | nil => simp [ht] at hr
    | cons m ms =>
      cases m with
      | writeReq d => simp [ht,DramMsg.isRead] at hr
      | readReq =>
        obtain ⟨hmem,hlast⟩ := hb.read (by simp [ht])
        cases ms with
        | nil => simpa [memory,ht,DramMsg.stored] using hmem
        | cons m ms =>
          rw [ht,getLast?_cons_cons] at hlast
          have hpos : 0 < (m :: ms).countP DramMsg.isRead := countP_pos_iff.mpr ⟨_,mem_of_getLast? hlast,rfl⟩
          rw [ht,countP_cons_of_pos rfl] at hre
          omega
  | _ => trivial

theorem backed_dramServe {m : DramMsg D} {ms : List (DramMsg D)} (hb : Backed False ln)
    (ht : ln.toDram = m :: ms) (hn : ln'.nuca = ln.nuca) (htd : ln'.toDram = ms)
    (hd : ln'.dram = DramMsg.stored ln.dram m) (hw : ln'.lastWrite = ln.lastWrite)
    (hdi : ∀ c, Dirty ln c → Dirty ln' c) : Backed False ln' := by
  have hmem : ln'.memory = ln.memory := by rw [memory,memory,ht,htd,hd,foldl_cons]
  refine ⟨hn.trans hb.nuca,?_,fun hr => ?_⟩
  · rw [hmem,hw]
    exact hb.covered.imp id (Or.imp (Exists.imp hdi) id)
  · rw [htd] at hr
    obtain ⟨h,hlast⟩ := hb.read (by simp [ht,hr])
    refine ⟨by rw [hmem,hw,h],?_⟩
    cases ms with
    | nil => simp at hr
    | cons m' ms => rwa [ht,getLast?_cons_cons,← htd] at hlast

def KeepsDirty (ln : Line n D) : Label n D → Prop
  | .deliverLlc c _ => (ln.toLlc c).head?.any DirMsg.isWbReq → (ln.llc c).cstate ≠ .modified
  | _ => True

theorem llc_backed (h : Busy cfg ln) (hb : Backed False ln) (hk : KeepsDirty ln l) (hl : l.llc = some c) :
    Outcome Benign (Backed False) (ln.step cfg l) := by
  refine (step_llc hl).mono ?_
  rintro _ ⟨junk,msg,wr,b,inbox,out,hm,rfl⟩
  refine backed_moves h hb hm fun hw => ?_
  obtain ⟨⟨junk',rfl⟩,hh⟩ := hm.demanded hw
  exact hk hh

theorem step_backed (hn : cfg.nuca = false) (h : Busy cfg ln) (hd : DataBusy ln)
    (hb : Backed False ln) (l : Label n D) (hs : SendSafe ln l) (hk : KeepsDirty ln l) :
    Outcome Benign (Backed False) (ln.step cfg l) := by
  cases l with
  | core c op | evict c | deliverLlc c junk => exact llc_backed h hb hk rfl
  | deliverDir c env =>
    refine outcome_deliverDir fun m ms hm => handle_backed env hn h hd hb hm fun hf => hs ?_
    simpa [hm] using hf
  | dramServe =>
    exact outcome_dramServe (fun _ ht => backed_dramServe hb ht rfl rfl rfl rfl fun _ => id)
      fun _ _ ht => backed_dramServe hb ht rfl rfl rfl rfl fun _ => id
  | dramReply env =>
    refine outcome_dramReply fun d ds hf => ((backedRule cfg env).processDRAMReply h hf
      fun req rest reply hq hr => ?_).mono fun _ => And.right
    simp only [sendDataToNUCA,hn,Bool.false_eq_true,if_false]
    exact hb.congr ⟨rfl,rfl,rfl,rfl⟩ (Or.imp (Exists.imp fun _ => dirty_send req.requester reply) False.elim)
  | replaceEntry c env =>
    refine outcome_replaceEntry fun hq => ((backedRule cfg env).replaceEntry h hq c ?_).mono fun _ => And.right
    exact hb.congr ⟨rfl,rfl,rfl,rfl⟩ (Or.imp id False.elim)
  | nucaEvict writeback =>
    rw [step,hb.nuca]
    exact LlcLine.benign_of rfl
  | nucaStray d =>
    rw [step,hn]
    exact LlcLine.benign_of rfl

def Quiescent (ln : Line n D) : Prop :=
  ln.reqs = [] ∧ (∀ c, ln.toLlc c = [] ∧ ln.toDir c = []) ∧ ln.toDram = [] ∧ ln.fromDram = []

instance decidableQuiescent [DecidableEq D] (ln : Line n D) : Decidable ln.Quiescent :=
  inferInstanceAs (Decidable (_ ∧ _ ∧ _ ∧ _))

theorem dram_of_backed (hb : Backed False ln) (hq : Quiescent ln)
    (hi : ∀ c, (ln.llc c).cstate = .invalid) : ln.dram = ln.lastWrite := by
  obtain ⟨-,hc,ht,-⟩ := hq
  rcases hb.covered with hm | ⟨c,hm | ⟨d,hm⟩ | ⟨-,d,hm⟩⟩ | hf
  · simpa [memory,ht] using hm
  · simp [hi c] at hm
  · simp [(hc c).2] at hm
  · simp [(hc c).1] at hm
  · exact absurd hf id

instance decidableKeepsDirty (ln : Line n D) : ∀ l, Decidable (KeepsDirty ln l)
  | .deliverLlc _ _ => inferInstanceAs (Decidable (_ → _))
  | .core _ _ | .evict _ | .deliverDir _ _ | .dramServe | .dramReply _ | .replaceEntry _ _ => isTrue trivial
  | .nucaEvict _ | .nucaStray _ => isTrue trivial

end Line

namespace System
variable {Addr : Type} [DecidableEq Addr] {cfg : Config} {contents : Addr → D} {s : System Addr n D}

def NoLoss (s : System Addr n D) (l : Addr × Label n D) : Prop :=
  Line.SendSafe (s l.1) l.2 ∧ Line.KeepsDirty (s l.1) l.2

instance decidableNoLoss (s : System Addr n D) (l : Addr × Label n D) : Decidable (NoLoss s l) :=
  inferInstanceAs (Decidable (_ ∧ _))

theorem noLoss_backed (hn : cfg.nuca = false) (h : Run.Reaches (step cfg) NoLoss (initial n contents) s) (a : Addr) :
    (Line.Busy cfg (s a) ∧ Line.DataBusy (s a)) ∧ Line.Backed False (s a) := by
  refine reaches_lines (I := fun ln => (Line.Busy cfg ln ∧ Line.DataBusy ln) ∧ Line.Backed False ln)
    (fun _ => ⟨⟨Line.busy_initial cfg _,Line.dataBusy_initial _⟩,rfl,.inl rfl,by simp [Line.ReadsLast,Line.initial]⟩) ?_ h a
  rintro s l ⟨⟨hb,hd⟩,hk⟩ hc
  have hmem := Line.memoryAnswers_of_backed hn hb hk l.2
  exact (Line.step_current hb hd l.2 hc.1 hmem).and (Line.step_backed hn hb hd hk l.2 hc.1 hc.2)

theorem dirty_data_reaches_dram (hn : cfg.nuca = false)
    (h : Run.Reaches (step cfg) NoLoss (initial n contents) s) (a : Addr)
    (hq : (s a).Quiescent) (hi : ∀ c, ((s a).llc c).cstate = .invalid) : (s a).dram = (s a).lastWrite :=
  Line.dram_of_backed (noLoss_backed hn h a).2 hq hi

def writtenBack (c : Fin 2) : System Unit 2 Nat :=
  (Run.guided (step mesiFullMap) NoLoss (initial 2 fun _ => 0) (coldWrite c 7 ++
    [.core c (.write 7),.evict c,.deliverDir c ⟨0,7,none⟩,.dramServe].map ((),·))).getD (initial 2 fun _ => 0)

theorem dirty_data_reaches_dram_on_eviction :
    (writtenBack 0 ()).lastWrite = 7 ∧ (writtenBack 0 ()).dram = (writtenBack 0 ()).lastWrite := by
  have hr : Run.Reaches (step mesiFullMap) NoLoss (initial 2 fun _ => 0) (writtenBack 0) :=
    Run.reaches_guided (by decide +kernel)
  refine ⟨?_,dirty_data_reaches_dram rfl hr () ?_ ?_⟩ <;> decide +kernel

def downgradedThenEvicted (c c' : Fin 2) : System Unit 2 Nat :=
  (Run.guided (step mesiFullMap) (fun _ _ => True) (initial 2 fun _ => 0) (handover c c' 7 ++
    [.deliverLlc c' 7,.evict c,.evict c',.deliverDir c ⟨0,7,none⟩,
      .deliverDir c' ⟨0,7,none⟩].map ((),·))).getD (initial 2 fun _ => 0)

theorem downgraded_data_lost : let s := downgradedThenEvicted 0 1
    Reachable mesiFullMap (fun _ => 0) s ∧ (s ()).Quiescent ∧
      (∀ c, ((s ()).llc c).cstate = .invalid) ∧ (s ()).dram = 0 ∧ (s ()).lastWrite = 7 :=
  ⟨Run.reaches_guided (by decide +kernel),by decide +kernel⟩

theorem port_quiet {v : View} {x : CacheState} (h : Port v x w .empty .empty) (hg : v.granted = false)
    (hv : v.pending = []) :
    w = none ∧ (v.sharer = false → x = .invalid) ∧ (v.sharer →
      v.dstate = .shared ∧ x = .shared ∨ v.dstate.isEM ∧ (x = .exclusive ∨ x = .modified)) := by
  have ho := h.outstanding
  have ht := h.token
  simp only [Inbox.empty,Outbox.empty,hg,hv] at ho ht
  have hw : w = none := by
    cases w with
    | none => rfl
    | some b => simp at ho
  refine ⟨hw,fun hs => ?_,fun hs => ?_⟩
  · rw [hs] at ht
    cases x <;> first | rfl | cases ht
  · rw [hs] at ht
    have hk := h.known hs
    cases x with
    | invalid => cases ht
    | owned => exact absurd rfl h.notOwned
    | sharedUpgrading => simpa [hw] using h.upgrading rfl
    | shared => exact .inl ⟨by simpa [Outbox.empty] using h.sharedCopy rfl,rfl⟩
    | exclusive => exact .inr ⟨hk.resolve_left fun hd => (h.sharedOnly hd).1 rfl,.inl rfl⟩
    | modified => exact .inr ⟨hk.resolve_left fun hd => (h.sharedOnly hd).2.1 rfl,.inr rfl⟩

theorem directory_exact_when_quiescent (h : Reachable cfg contents s) (a : Addr) (hq : (s a).Quiescent) (c : Fin n) :
    ((s a).llc c).waiters = [] ∧ ((s a).dir.sharers c = false → ((s a).llc c).cstate = .invalid) ∧
    ((s a).dir.sharers c = true → (s a).dir.dstate = .shared ∧ ((s a).llc c).cstate = .shared ∨
      (s a).dir.dstate.isEM = true ∧ (((s a).llc c).cstate = .exclusive ∨ ((s a).llc c).cstate = .modified)) := by
  obtain ⟨hr,hc,-⟩ := hq
  have hp := (reachable_busy h a).1.port c
  rw [hr,(hc c).1,(hc c).2] at hp
  obtain ⟨hw,hs⟩ := port_quiet hp rfl rfl
  exact ⟨List.head?_eq_none_iff.mp hw,hs⟩

def handedOver (c c' : Fin 2) : System Unit 2 Nat :=
  (Run.guided (step mesiFullMap) (fun _ _ => True) (initial 2 fun _ => 0)
    (handover c c' 7 ++ [((),.deliverLlc c' 7)])).getD (initial 2 fun _ => 0)

theorem directory_exact_after_handover : (handedOver 0 1 ()).Quiescent ∧ (handedOver 0 1 ()).dir.dstate = .shared ∧
    ((handedOver 0 1 ()).llc 1).cstate = .shared := by
  have hq : (handedOver 0 1 ()).Quiescent := by decide +kernel
  have hd : (handedOver 0 1 ()).dir.dstate = .shared := by decide +kernel
  have he := (directory_exact_when_quiescent (s := handedOver 0 1) (Run.reaches_guided (by decide +kernel)) () hq 1).2.2
  exact ⟨hq,hd,((he (by decide +kernel)).resolve_right (by simp [hd,DirectoryState.isEM])).2⟩

end System
end Coherence
