import SniperSim.Coherence.Reachable

namespace Coherence
variable {n : Nat} {D : Type}

def Label.atDirectory : Label n D → Bool
  | .deliverDir _ _ | .dramReply _ => true
  | _ => false

def Label.replaces : Label n D → Bool
  | .replaceEntry _ _ => true
  | _ => false

namespace Line

def nullifying (ln : Line n D) : Bool := ln.reqs.head?.any (·.kind == .nullify)

def Allotted (ln : Line n D) : Prop := ln.entry = none → ln.reqs = []

def Uncached (llc : Fin n → LlcLine D) : Prop := ∀ c, (llc c).cstate = .invalid

variable {ln : Line n D} {r : ShmemReq n}

theorem entry_of_reqs (h : ln.Allotted) (hq : ln.reqs ≠ []) : ln.entry.isSome := by
  cases he : ln.entry with
  | none => exact absurd (h he) hq
  | some e => rfl

theorem uncached_of_inv {e : DirectoryEntry n} {reqs : List (ShmemReq n)} {asked : Bool}
    (h : Inv ln e reqs asked) (hd : e.dstate = .uncached) : Uncached ln.llc := by
  intro c
  by_contra hc
  have hs := ((h.port c).holder hc).1
  simp [view,h.entry.uncached.mp hd c] at hs

theorem step_elsewhere (ha : l.atDirectory = false) (hr : l.replaces = false) :
    Outcome Benign (fun ln' => ln'.reqs = ln.reqs ∧ ln'.entry = ln.entry) (ln.step cfg l) := by
  have hllc (c : Fin n) (hl : l.llc = some c) :
      Outcome Benign (fun ln' => ln'.reqs = ln.reqs ∧ ln'.entry = ln.entry) (ln.step cfg l) := by
    refine (step_llc hl).mono ?_
    rintro _ ⟨junk,msg,wr,b,inbox,out,hs,rfl⟩
    exact ⟨rfl,rfl⟩
  cases l with
  | core c op | evict c | deliverLlc c junk => exact hllc c rfl
  | deliverDir c env | dramReply env => cases ha
  | dramServe => exact outcome_dramServe (fun _ _ => ⟨rfl,rfl⟩) fun _ _ _ => ⟨rfl,rfl⟩
  | replaceEntry c env => cases hr
  | nucaEvict writeback => exact outcome_nucaEvict fun _ _ => ⟨rfl,rfl⟩
  | nucaStray d => exact outcome_nucaStray ⟨rfl,rfl⟩

def PlainReqs (_ : Option D) (reqs : List (ShmemReq n)) (ln : Line n D) : Prop :=
  (∀ r ∈ reqs, r.kind ≠ .nullify) ∧ (reqs = [] → ln.entry.isSome)

def PlainLine (ln : Line n D) : Prop := ln.nullifying = false ∧ ln.entry.isSome

theorem nullifying_cons (hq : ln.reqs = r :: rest) : ln.nullifying = (r.kind == .nullify) := by
  simp [nullifying,hq]

theorem plainLine_cons (hq : ln.reqs = r :: rest) (hk : r.kind ≠ .nullify) (he : ln.entry.isSome) : PlainLine ln :=
  ⟨by simpa [nullifying_cons hq] using hk,he⟩

theorem plainRule (cfg : Config) (env : Env n D) : Rule cfg env PlainReqs PlainLine := by
  constructor
  case served =>
    intro req rest cachedData ln r hi hw hq hj hs
    have hk : req.kind ≠ .nullify := hj.1 req (by simp)
    have hrest : ∀ r ∈ rest, r.kind ≠ .nullify := fun r hr => hj.1 r (by simp [hr])
    cases hs with
    | flush o hd hk' ho | writeback o hd hk' ho => exact ⟨by simp,fun _ => plainLine_cons hq hk rfl⟩
    | invalidate targets hd ht hk' =>
      rw [sendAll_eq]
      exact ⟨by simp,fun _ => plainLine_cons hq hk rfl⟩
    | upgrade hk' hs hd | reply e' e'' reply d hg hsrc => exact ⟨fun _ => ⟨hrest,fun _ => rfl⟩,by simp⟩
    | nullify hk' hd => exact absurd hk' hk
    | forward e' reply f hg hc hm hr hd hf =>
      exact ⟨by simp,fun _ => plainLine_cons (r := { req with forwardingFrom := some f }) rfl hk rfl⟩
    | fetch e' reply hg hc => exact ⟨by simp,fun _ => plainLine_cons (r := { req with waitForData := true }) rfl hk rfl⟩
  case nil => exact fun hj => ⟨rfl,hj.2 rfl⟩
  case frame => exact fun _ hj => hj

def DrainedReqs (llc : Fin n → LlcLine D) (_ : Option D) (reqs : List (ShmemReq n)) (ln : Line n D) : Prop :=
  ln.llc = llc ∧ (∀ r ∈ reqs.tail, r.kind ≠ .nullify) ∧ ((∀ r ∈ reqs.head?, r.kind ≠ .nullify) → Uncached llc)

def DrainedLine (llc : Fin n → LlcLine D) (ln : Line n D) : Prop := ln.Allotted ∧ (ln.nullifying = false → Uncached llc)

theorem drainedLine_cons {llc : Fin n → LlcLine D} (hq : ln.reqs = r :: rest) (hu : r.kind ≠ .nullify → Uncached llc)
    (he : ln.entry.isSome) : DrainedLine llc ln := by
  refine ⟨fun hn => by simp [hn] at he,fun hn => hu ?_⟩
  simpa [nullifying_cons hq] using hn

theorem DrainedReqs.next {llc : Fin n → LlcLine D} {cachedData : Option D} {req : ShmemReq n}
    (h : DrainedReqs llc cachedData (req :: rest) ln)
    (hl : ln'.llc = ln.llc) (hu : Uncached llc) : DrainedReqs llc none rest ln' :=
  ⟨hl.trans h.1,fun r hr => h.2.1 r (List.mem_of_mem_tail hr),fun _ => hu⟩

theorem drainedRule (cfg : Config) (env : Env n D) (llc : Fin n → LlcLine D) :
    Rule cfg env (DrainedReqs llc) (DrainedLine llc) := by
  constructor
  case served =>
    intro req rest cachedData ln r hi hw hq hj hs
    have hu : req.kind ≠ .nullify → Uncached llc := fun hk => hj.2.2 fun r hr => by
      cases hr
      exact hk
    cases hs with
    | flush o hd hk ho | writeback o hd hk ho => exact ⟨by simp,fun _ => drainedLine_cons hq hu rfl⟩
    | invalidate targets hd ht hk =>
      rw [sendAll_eq]
      exact ⟨by simp,fun _ => drainedLine_cons hq hu rfl⟩
    | upgrade hk hs hd => exact ⟨fun _ => hj.next rfl (hu (by simp [hk])),by simp⟩
    | nullify hk hd => exact ⟨fun _ => hj.next rfl (hj.1 ▸ uncached_of_inv hi hd),by simp⟩
    | reply e' e'' reply d hg hsrc => exact ⟨fun _ => hj.next rfl (hu hg.kind_ne),by simp⟩
    | forward e' reply f hg hc hm hr hd hf =>
      exact ⟨by simp,fun _ => drainedLine_cons (r := { req with forwardingFrom := some f }) rfl hu rfl⟩
    | fetch e' reply hg hc =>
      exact ⟨by simp,fun _ => drainedLine_cons (r := { req with waitForData := true }) rfl hu rfl⟩
  case nil => exact fun hj => ⟨fun _ => rfl,fun _ => hj.2.2 nofun⟩
  case frame => exact fun _ hj => hj

def ReplacedReqs (llc : Fin n → LlcLine D) (_ : Option D) (reqs : List (ShmemReq n)) (ln : Line n D) : Prop :=
  ln.llc = llc ∧ ((∃ c, reqs = [.new .nullify c]) ∨ reqs = [] ∧ ln.entry = none ∧ Uncached llc)

def ReplacedLine (llc : Fin n → LlcLine D) (ln : Line n D) : Prop :=
  ln.nullifying ∧ ln.entry.isSome ∨ ln.entry = none ∧ ln.reqs = [] ∧ Uncached llc

theorem replacedRule (cfg : Config) (env : Env n D) (llc : Fin n → LlcLine D) :
    Rule cfg env (ReplacedReqs llc) (ReplacedLine llc) := by
  constructor
  case served =>
    intro req rest cachedData ln r hi hw hq hj hs
    obtain ⟨hl,⟨c,hc⟩ | ⟨hc,-⟩⟩ := hj
    · obtain ⟨rfl,rfl⟩ := List.cons.inj hc
      cases hs with
      | flush o hd hk ho => exact ⟨by simp,fun _ => .inl ⟨nullifying_cons hq,rfl⟩⟩
      | writeback o hd hk ho | upgrade hk hs hd => cases hk
      | invalidate targets hd ht hk =>
        rw [sendAll_eq]
        exact ⟨by simp,fun _ => .inl ⟨nullifying_cons hq,rfl⟩⟩
      | nullify hk hd => exact ⟨fun _ => ⟨hl,.inr ⟨rfl,rfl,hl ▸ uncached_of_inv hi hd⟩⟩,by simp⟩
      | reply e' e'' reply d hg hsrc | forward e' reply f hg hc hm hr hd hf => exact absurd rfl hg.kind_ne
      | fetch e' reply hg hc => exact absurd rfl hg.kind_ne
    · cases hc
  case nil =>
    rintro ln ⟨hl,⟨c,hc⟩ | ⟨-,he,hu⟩⟩
    · cases hc
    · exact .inr ⟨he,rfl,hu⟩
  case frame => exact fun _ hj => hj

theorem plain_reqs (h : Busy cfg ln) (hn : ln.nullifying = false) : ∀ r ∈ ln.reqs, r.kind ≠ .nullify := by
  intro r hr
  have hq := h.1.queued
  cases hl : ln.reqs with
  | nil => simp [hl] at hr
  | cons r' rest =>
    rw [hl] at hr hq
    rcases List.mem_cons.mp hr with rfl | hr
    · simpa [nullifying_cons hl] using hn
    · exact (hq r hr).1

theorem handle_plain (h : Busy cfg ln) (ha : ln.Allotted) (hn : ln.nullifying = false)
    (hm : ln.toDir sender = m :: ms) : Outcome Benign (fun ln => Busy cfg ln ∧ PlainLine ln)
      ((ln.pop sender ms).handleMsgFromL2Cache cfg env sender m) := by
  have hr := plainRule (n := n) (D := D) cfg env
  have hre := plain_reqs h hn
  have hse (req : ShmemReq n) (rest : List (ShmemReq n)) (cachedData : Option D)
      (ln' : Line n D) (hq : ln.reqs = req :: rest) : PlainReqs cachedData (req :: rest) ln' :=
    ⟨hq ▸ hre,nofun⟩
  have hask (k : ReqKind) (hk : m.asks = some k) : Outcome Benign
      (fun ln => Busy cfg ln ∧ PlainLine ln)
      ((ln.pop sender ms).enqueue cfg env (.new k sender)) := by
    refine hr.enqueue h hm hk (fun hne => ⟨?_,?_⟩) fun _ => ⟨?_,nofun⟩
    · cases hq : ln.reqs with
      | nil => exact absurd hq hne
      | cons r rest => simpa [nullifying,hq] using hn
    · exact (entry_of_reqs ha hne : ln.entry.isSome)
    · intro r hr
      obtain rfl := List.mem_singleton.mp hr
      rintro rfl
      cases m <;> simp [LlcMsg.asks] at hk
  cases m with
  | exReq | shReq | upgradeReq => exact hask _ rfl
  | invRep => exact hr.processInvRep h hm (fun _ => ⟨hn,rfl⟩) fun req rest _ hq => hse _ _ _ _ hq
  | flushRep d =>
    refine hr.processFlushRep h hm (fun hq => ?_) (fun req rest hq hk _ => ?_)
      (fun req rest hq _ _ => hse _ _ _ _ hq) fun req rest _ hq _ _ => hse _ _ _ _ hq
    · obtain ⟨_,_,he⟩ := sendDataToDram_frame cfg ((ln.pop sender ms).setEntry (ln.dir.withoutFlush sender)) d
      rw [he]
      exact ⟨hn,rfl⟩
    · exact plainLine_cons (r := { req with dataBuf := true }) rfl (by simp [hk]) rfl
  | wbRep d => exact hr.processWbRep h hm fun req rest hq _ => hse _ _ _ _ hq

theorem step_plain (h : Busy cfg ln) (ha : ln.Allotted) (hn : ln.nullifying = false)
    (hl : l.atDirectory) : Outcome Benign PlainLine (ln.step cfg l) := by
  cases l with
  | deliverDir c env => exact outcome_deliverDir fun _ _ hm => (handle_plain h ha hn hm).mono fun _ => And.right
  | dramReply env =>
    refine outcome_dramReply fun d ds hm => ((plainRule cfg env).processDRAMReply h hm
      fun req rest reply hq _ => ?_).mono fun _ => And.right
    have he : ln.entry.isSome := entry_of_reqs ha (by simp [hq])
    refine ⟨fun r hr => plain_reqs h hn r (by simp [hq,hr]),fun _ => ?_⟩
    rw [sendDataToNUCA]
    split_ifs
    · exact he
    · exact he
  | _ => cases hl

theorem drained_serve (h : Busy cfg ln) (hn : ln.nullifying) (hq : ln.reqs = req :: rest) (hl : ln'.llc = ln.llc) :
    DrainedReqs ln.llc cachedData (req :: rest) ln' := by
  have hqu := h.1.queued
  rw [hq] at hqu
  refine ⟨hl,fun r hr => (hqu r hr).1,fun hk => ?_⟩
  simp [nullifying_cons hq,hk req rfl] at hn

theorem drained_stay (ha : ln'.Allotted) (hn : ln'.nullifying) :
    DrainedLine ln.llc ln' := ⟨ha,fun hf => by simp [hn] at hf⟩

theorem handle_drained (h : Busy cfg ln) (ha : ln.Allotted) (hn : ln.nullifying) (hm : ln.toDir sender = m :: ms) :
    Outcome Benign (fun ln' => Busy cfg ln' ∧ DrainedLine ln.llc ln')
      ((ln.pop sender ms).handleMsgFromL2Cache cfg env sender m) := by
  have hr := drainedRule cfg env ln.llc
  have hne : ln.reqs ≠ [] := by
    intro hq
    simp [nullifying,hq] at hn
  have hask (k : ReqKind) (hk : m.asks = some k) : Outcome Benign
      (fun ln' => Busy cfg ln' ∧ DrainedLine ln.llc ln')
      ((ln.pop sender ms).enqueue cfg env (.new k sender)) := by
    refine hr.enqueue h hm hk (fun _ => drained_stay (fun he => absurd (ha he) hne) ?_) fun hq => absurd hq hne
    cases hq : ln.reqs with
    | nil => exact absurd hq hne
    | cons r rest => simpa [nullifying,hq] using hn
  cases m with
  | exReq | shReq | upgradeReq => exact hask _ rfl
  | invRep =>
    exact hr.processInvRep h hm (fun _ => drained_stay nofun hn) fun req rest _ hq => drained_serve h hn hq rfl
  | flushRep d =>
    refine hr.processFlushRep h hm (fun hq => absurd hq hne) (fun req rest hq hk _ => ?_)
      (fun req rest hq _ _ => drained_serve h hn hq rfl)
      fun req rest _ hq _ _ => drained_serve h hn hq ?_
    · simp [nullifying_cons hq,hk] at hn
    · obtain ⟨_,_,he⟩ := sendDataToDram_frame cfg ((ln.pop sender ms).setEntry (ln.dir.withoutFlush sender)) d
      rw [he]
      rfl
  | wbRep d => exact hr.processWbRep h hm fun req rest hq _ => drained_serve h hn hq rfl

theorem step_drained (h : Busy cfg ln) (ha : ln.Allotted) (hn : ln.nullifying)
    (hl : l.atDirectory) : Outcome Benign (DrainedLine ln.llc) (ln.step cfg l) := by
  cases l with
  | deliverDir c env => exact outcome_deliverDir fun _ _ hm => (handle_drained h ha hn hm).mono fun _ => And.right
  | dramReply env =>
    refine outcome_dramReply fun d ds hm => ((drainedRule cfg env ln.llc).processDRAMReply h hm
      fun req rest reply hq hd => ?_).mono fun _ => And.right
    rw [nullifying_cons hq] at hn
    rcases hd with ⟨hk,-⟩ | ⟨hk,-⟩ | ⟨hk,-⟩ | ⟨hk,-⟩
    all_goals simp [hk] at hn
  | _ => cases hl

theorem step_replaced (h : Busy cfg ln) : Outcome Benign (ReplacedLine ln.llc) (ln.step cfg (.replaceEntry c env)) :=
  outcome_replaceEntry fun hq =>
    ((replacedRule cfg env ln.llc).replaceEntry h hq c ⟨rfl,.inl ⟨c,rfl⟩⟩).mono fun _ => And.right

end Line
end Coherence
