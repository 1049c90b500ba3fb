import SniperSim.Coherence.Directory
import SniperSim.Coherence.LlcSpec

namespace Coherence
open LlcLine DirectoryState
open DirectoryEntry
variable {n : Nat} {D : Type} {c : Fin n}
namespace DirectoryEntry
variable {e : DirectoryEntry n}

@[simp] theorem mem_getSharersList : c ∈ e.getSharersList ↔ e.sharers c := by
  simp [getSharersList]

theorem getNumSharers_eq_zero : e.getNumSharers = 0 ↔ ∀ c, e.sharers c = false := by
  simp [getNumSharers,getSharersList]

def room (cfg : Config) (e : DirectoryEntry n) : Prop :=
  cfg.directoryType = .limitless ∨ e.getNumSharers < useMaxHwSharers cfg n

def withSharer (e : DirectoryEntry n) (c : Fin n) : DirectoryEntry n :=
  { e with sharers := Function.update e.sharers c true }

theorem addSharer_outcome (cfg : Config) (hc : e.sharers c = false) :
    Outcome Benign (fun r => r = (e.withSharer c,true) ∧ e.room cfg ∨
      r = (e,false) ∧ ¬ e.room cfg) (e.addSharer cfg c) := by
  simp only [addSharer,hc,Bool.false_eq_true,if_false]
  split_ifs with hl hm
  · exact .inl ⟨rfl,.inl hl⟩
  · exact .inr ⟨rfl,by rintro (h | h) <;> [exact hl h; omega]⟩
  · exact .inl ⟨rfl,.inr (by omega)⟩

theorem getOneSharer_outcome : Outcome Benign (fun _ => True) (e.getOneSharer cfg rand) := by
  rw [getOneSharer]
  split
  · trivial
  · exact benign_of rfl

end DirectoryEntry

namespace Line

structure Grant (cfg : Config) (req : ShmemReq n) (e e' : DirectoryEntry n) (reply : D → DirMsg D) : Prop where
  sharers : e'.sharers = Function.update e.sharers req.requester true
  forwarder : e'.forwarder = e.forwarder
  cases : (e.dstate = .uncached ∧ e'.owner = some req.requester ∧
      ((req.kind = .ex ∨ req.kind = .upgrade) ∧ e'.dstate = .modified ∧ reply = .exRep ∨
        req.kind = .sh ∧ e'.dstate = .exclusive ∧ reply = .exRep ∨
        req.kind = .sh ∧ cfg.protocol = .msi ∧ e'.dstate = .shared ∧ reply = .shRep)) ∨
    (e.dstate = .shared ∧ e'.dstate = .shared ∧ req.kind = .sh ∧ reply = .shRep ∧
      (e.sharers req.requester ∨ e.room cfg))

def source (cfg : Config) (env : Env n D) (req : ShmemReq n) (cachedData : Option D)
    (ln : Line n D) (e' e'' : DirectoryEntry n) (d : D) : Prop :=
  (cachedData = some d ∨ req.kind = .upgrade ∧ req.dataBuf ∧ d = env.junk) ∧
      e'' = { e' with forwarder := some req.requester } ∨
    cachedData = none ∧ ln.nucaRead cfg = some d ∧ e'' = e'

inductive Served (cfg : Config) (env : Env n D) (req : ShmemReq n) (cachedData : Option D)
    (ln : Line n D) (e : DirectoryEntry n) : Line n D × Bool → Prop
  | flush (o : Fin n) (hd : e.dstate.isEM) (hk : req.kind ≠ .sh) (ho : e.owner = some o) :
      Served cfg env req cachedData ln e ((ln.setEntry e).send o .flushReq,false)
  | writeback (o : Fin n) (hd : e.dstate.isEM) (hk : req.kind = .sh)
      (ho : e.owner = some o) : Served cfg env req cachedData ln e ((ln.setEntry e).send o .wbReq,false)
  | invalidate (targets : List (Fin n × DirMsg D)) (hd : e.dstate = .shared)
      (ht : ∀ t ∈ targets, t.2 = .invReq ∨ t.2 = .flushReq ∧ req.kind = .upgrade ∧
        e.sharers t.1 ∧ e.sharers req.requester = false)
      (hk : req.kind = .sh → e.sharers req.requester = false ∧ ¬ e.room cfg) :
      Served cfg env req cachedData ln e ((ln.setEntry e).sendAll targets,false)
  | upgrade (hk : req.kind = .upgrade) (hs : e.sharers req.requester)
      (hd : e.dstate.isEM ∧ e.owner = some req.requester ∨
        e.dstate = .shared ∧ ∀ c, e.sharers c → c = req.requester) :
      Served cfg env req cachedData ln e ((ln.setEntry { e with owner := some req.requester, dstate := .modified }).send
          req.requester .upgradeRep,true)
  | nullify (hk : req.kind = .nullify) (hd : e.dstate = .uncached) :
      Served cfg env req cachedData ln e ({ ln with entry := none },true)
  | reply (e' e'' : DirectoryEntry n) (reply : D → DirMsg D) (d : D)
      (hg : Grant cfg req e e' reply) (hs : source cfg env req cachedData ln e' e'' d) :
      Served cfg env req cachedData ln e ((ln.setEntry e'').send req.requester (reply d),true)
  | forward (e' : DirectoryEntry n) (reply : D → DirMsg D) (f : Fin n)
      (hg : Grant cfg req e e' reply) (hc : cachedData = none) (hm : cfg.protocol = .mesif)
      (hr : req.forwardingFrom = none) (hd : e'.dstate = .shared) (hf : e.forwarder = some f) :
      Served cfg env req cachedData ln e
        (((ln.setEntry e').setFront { req with forwardingFrom := some f }).send f .wbReq,false)
  | fetch (e' : DirectoryEntry n) (reply : D → DirMsg D) (hg : Grant cfg req e e' reply)
      (hc : cachedData = none) :
      Served cfg env req cachedData ln e ({ (ln.setEntry e').setFront { req with waitForData := true } with
          toDram := ln.toDram ++ [.readReq] },false)

variable {cfg : Config} {env : Env n D} {req : ShmemReq n} {ln : Line n D} {e e' : DirectoryEntry n}

theorem grant_alone (hd : e.dstate = .uncached)
    (h : (req.kind = .ex ∨ req.kind = .upgrade) ∧ st = .modified ∧ reply = .exRep ∨
      req.kind = .sh ∧ st = .exclusive ∧ reply = .exRep ∨
      req.kind = .sh ∧ cfg.protocol = .msi ∧ st = .shared ∧ reply = .shRep) :
    Grant cfg req e { e.withSharer req.requester with owner := some req.requester, dstate := st } reply :=
  ⟨rfl,rfl,.inl ⟨hd,rfl,h⟩⟩

theorem grant_join (hd : e.dstate = .shared) (hk : req.kind = .sh) (hr : e.room cfg) :
    Grant (D := D) cfg req e (e.withSharer req.requester) .shRep :=
  ⟨rfl,rfl,.inr ⟨hd,hd,hk,rfl,.inr hr⟩⟩

theorem retrieve_served (hg : Grant cfg req e e' reply) (data : Option D) (hd : ∀ d, data = some d → cd = some d ∨
      req.kind = .upgrade ∧ req.dataBuf ∧ d = env.junk) (hn : data = none → cd = none) :
    Served cfg env req cd ln e (ln.retrieveDataAndSendToL2Cache cfg reply req e' data) := by
  cases data with
  | some d => exact .reply e' _ reply d hg (.inl ⟨hd d rfl,rfl⟩)
  | none =>
    have hc := hn rfl
    simp only [retrieveDataAndSendToL2Cache]
    cases hs : ln.nucaRead cfg with
    | some d => exact .reply e' e' reply d hg (.inr ⟨hc,hs,rfl⟩)
    | none =>
      simp only
      split_ifs with hm
      · obtain ⟨hp,hr,hd⟩ := hm
        cases hf : e'.forwarder with
        | some f => exact .forward e' reply f hg hc hp hr hd (hg.forwarder ▸ hf)
        | none => exact .fetch e' reply hg hc
      · exact .fetch e' reply hg hc

theorem requireNoData_outcome : Outcome Benign (fun _ => cd = none) (requireNoData cd) := by
  cases cd <;> rfl

theorem sendOwner_outcome (m : DirMsg D) :
    Outcome Benign (fun r => ∃ o, e.owner = some o ∧ r = ln.send o m) (ln.sendOwner e m) := by
  cases ho : e.owner with
  | none => simp only [sendOwner,ho]; exact benign_of rfl
  | some o => simp only [sendOwner,ho]; exact ⟨o,rfl,rfl⟩

theorem addOnlySharer_outcome (st : DirectoryState) (hc : e.sharers c = false) :
    Outcome Benign (fun r => r = { e.withSharer c with owner := some c, dstate := st }) (addOnlySharer cfg e c st) := by
  refine (e.addSharer_outcome cfg hc).bind ?_
  rintro _ (⟨rfl,-⟩ | ⟨rfl,-⟩)
  · simp [setOwner,withSharer,bind,Except.bind,pure,Except.pure]
  · exact benign_of rfl

theorem askOwner_served (hs : ∀ o, e.owner = some o → Served cfg env req cd ln e ((ln.setEntry e).send o m,false)) :
    Outcome Benign (Served cfg env req cd ln e) (do
      requireNoData cd
      let ln ← (ln.setEntry e).sendOwner e m
      return (ln,false)) := by
  refine requireNoData_outcome.bind fun _ _ => (sendOwner_outcome m).bind ?_
  rintro _ ⟨o,ho,rfl⟩
  exact hs o ho

theorem mem_upgradeTargets (ht : t ∈ upgradeTargets e c) :
    e.sharers t.1 ∧ (t.2 = .invReq ∨ t.2 = .flushReq ∧ e.sharers c = false) := by
  simp only [upgradeTargets,List.mem_map,List.mem_filter] at ht
  obtain ⟨⟨a,k⟩,⟨ha,-⟩,rfl⟩ := ht
  refine ⟨mem_getSharersList.mp (List.fst_mem_of_mem_zipIdx ha),?_⟩
  split_ifs with hc
  · exact .inr ⟨rfl,by simpa [hasSharer] using (Bool.and_eq_true_iff.mp hc).1⟩
  · exact .inl rfl

theorem getSharersList_singleton (h : e.getSharersList = [c]) : e.sharers c ∧ ∀ a, e.sharers a → a = c := by
  constructor
  · rw [← mem_getSharersList,h]
    simp
  · intro a ha
    rw [← mem_getSharersList,h] at ha
    simpa using ha

theorem upgradeOwned_served (hk : req.kind = .upgrade) (hd : e.dstate.isEM) :
    Outcome Benign (Served cfg env req cd ln e) (ln.upgradeOwned req e) := by
  rw [upgradeOwned]
  cases hf : e.getSharersList.head? with
  | none => exact benign_of rfl
  | some first =>
    simp only
    split_ifs with hr ho
    · have hs : e.sharers req.requester := by
        rw [← mem_getSharersList,← hr]
        exact List.mem_of_mem_head? hf
      rw [Outcome.pure_iff,show ({ e with dstate := .modified } : DirectoryEntry n) =
        { e with owner := some req.requester, dstate := .modified } by rw [← ho]]
      exact .upgrade hk hs (.inl ⟨hd,ho⟩)
    · exact benign_of rfl
    · refine (sendOwner_outcome _).bind ?_
      rintro _ ⟨o,ho,rfl⟩
      exact .flush o hd (by simp [hk]) ho

theorem setEntry_self (he : ln.entry = some e) : ln.setEntry e = ln := by
  rw [setEntry,← he]

theorem getEntry_outcome : Outcome Benign (fun e => ln.entry = some e) ln.getEntry := by
  cases he : ln.entry with
  | none => simp only [getEntry,he]; exact benign_of rfl
  | some e => simp only [getEntry,he]; rfl

theorem processNullifyReq_served (hk : req.kind = .nullify) :
    Outcome Benign (Served cfg env req cd ln (ln.allocateEntry env)) ln.processNullifyReq := by
  refine getEntry_outcome.bind fun e he => ?_
  rw [show ln.allocateEntry env = e by simp [allocateEntry,he]]
  have hflush : e.dstate.isEM → Outcome Benign (Served cfg env req cd ln e) (do
      let ln ← ln.sendOwner e .flushReq
      return (ln,false)) := by
    intro hd
    refine (sendOwner_outcome _).bind ?_
    rintro _ ⟨o,ho,rfl⟩
    have hs : Served cfg env req cd ln e _ := .flush o hd (by simp [hk]) ho
    rwa [setEntry_self he] at hs
  cases hd : e.dstate with
  | exclusive | modified => exact hflush (by simp [hd,isEM])
  | shared =>
    have hs : Served cfg env req cd ln e _ :=
      .invalidate (e.getSharersList.map fun c => (c,.invReq)) hd
        (by simp only [List.mem_map]; rintro _ ⟨c,-,rfl⟩; exact .inl rfl) (by simp [hk])
    rwa [setEntry_self he] at hs
  | uncached => exact Served.nullify hk hd
  | owned => exact benign_of rfl

section
variable (hu : (ln.allocateEntry env).dstate = .uncached → (ln.allocateEntry env).sharers req.requester = false)
include hu

theorem processExReq_served (hk : req.kind = .ex) : Outcome Benign (Served cfg env req cd ln (ln.allocateEntry env))
      (ln.processExReq cfg env req cd) := by
  rw [processExReq]
  cases hd : (ln.allocateEntry env).dstate with
  | exclusive | modified => exact askOwner_served fun o => .flush o (by simp [hd,isEM]) (by simp [hk])
  | shared =>
    refine requireNoData_outcome.bind fun _ _ => ?_
    refine Served.invalidate _ hd ?_ (by simp [hk])
    intro t ht
    obtain ⟨c,-,rfl⟩ := List.mem_map.mp ht
    exact .inl rfl
  | uncached =>
    refine (addOnlySharer_outcome .modified (hu hd)).bind ?_
    rintro _ rfl
    exact retrieve_served (grant_alone hd (.inl ⟨.inl hk,rfl,rfl⟩)) _ (fun d hc => .inl hc) id
  | owned => exact benign_of rfl

theorem processShReq_served (hk : req.kind = .sh) : Outcome Benign (Served cfg env req cd ln (ln.allocateEntry env))
      (ln.processShReq cfg env req cd) := by
  rw [processShReq]
  cases hd : (ln.allocateEntry env).dstate with
  | exclusive =>
    simp only
    split_ifs with ho
    · exact benign_of rfl
    · exact askOwner_served fun o => .writeback o (by simp [hd,isEM]) hk
  | modified => exact askOwner_served fun o => .writeback o (by simp [hd,isEM]) hk
  | shared =>
    cases hs : (ln.allocateEntry env).sharers req.requester with
    | true =>
      simp only [hasSharer,hs,if_true]
      exact retrieve_served ⟨by rw [← hs,Function.update_eq_self],rfl,.inr ⟨hd,hd,hk,rfl,.inl hs⟩⟩ _ (fun d hc => .inl hc) id
    | false =>
      simp only [hasSharer,hs,Bool.false_eq_true,if_false]
      refine (addSharer_outcome cfg hs).bind ?_
      rintro _ (⟨rfl,hr⟩ | ⟨rfl,hr⟩)
      · exact retrieve_served (grant_join hd hk hr) _ (fun d hc => .inl hc) id
      · refine getOneSharer_outcome.bind fun c _ => ?_
        exact Served.invalidate [(c,.invReq)] hd (by simp) fun _ => ⟨hs,hr⟩
  | uncached =>
    simp only
    split_ifs with hp
    · refine (addOnlySharer_outcome .shared (hu hd)).bind ?_
      rintro _ rfl
      exact retrieve_served (grant_alone hd (.inr (.inr ⟨hk,hp,rfl,rfl⟩))) _ (fun d hc => .inl hc) id
    · refine (addOnlySharer_outcome .exclusive (hu hd)).bind ?_
      rintro _ rfl
      exact retrieve_served (grant_alone hd (.inr (.inl ⟨hk,rfl,rfl⟩))) _ (fun d hc => .inl hc) id
  | owned => exact benign_of rfl

theorem processUpgradeReq_served (hk : req.kind = .upgrade) :
    Outcome Benign (Served cfg env req cd ln (ln.allocateEntry env)) (ln.processUpgradeReq cfg env req cd) := by
  rw [processUpgradeReq]
  cases hd : (ln.allocateEntry env).dstate with
  | exclusive | modified => exact upgradeOwned_served hk (by simp [hd,isEM])
  | shared =>
    simp only
    split_ifs with hl
    · obtain ⟨hs,ho⟩ := getSharersList_singleton hl
      simp only [setOwner,hs,if_true]
      exact Served.upgrade hk hs (.inr ⟨hd,ho⟩)
    · refine Served.invalidate _ hd (fun t ht => ?_) (by simp [hk])
      obtain ⟨hm,hi | ⟨hi,hr⟩⟩ := mem_upgradeTargets ht <;> simp [*]
  | uncached =>
    simp only
    split
    · refine (addOnlySharer_outcome .modified (hu hd)).bind ?_
      rintro _ rfl
      refine retrieve_served (grant_alone hd (.inl ⟨.inr hk,rfl,rfl⟩)) _ ?_ ?_
      · intro d hc
        rcases Option.or_eq_some_iff.mp hc with hc | ⟨-,hc⟩
        · exact .inl hc
        · split_ifs at hc with hb
          exact .inr ⟨hk,hb,(Option.some.inj hc).symm⟩
      · exact fun hc => (Option.or_eq_none_iff.mp hc).1
    · exact benign_of rfl
  | owned => exact benign_of rfl

theorem processReq_served : Outcome Benign (Served cfg env req cd ln (ln.allocateEntry env))
      (ln.processReq cfg env req cd) := by
  rw [processReq]
  cases hk : req.kind with
  | ex => exact processExReq_served hu hk
  | sh => exact processShReq_served hu hk
  | upgrade => exact processUpgradeReq_served hu hk
  | nullify => exact processNullifyReq_served hk
end

theorem Served.reqs (hs : Served cfg env req cd ln e r) (hr : r.2) : r.1.reqs = ln.reqs := by
  cases hs with
  | upgrade | nullify | reply => rfl
  | _ => simp at hr

section
variable {Idle : List (ShmemReq n) → Line n D → Prop} {Busy : Line n D → Prop}

def Settles (Idle : List (ShmemReq n) → Line n D → Prop) (Busy : Line n D → Prop)
    (rest : List (ShmemReq n)) (r : Line n D × Bool) : Prop :=
  (r.2 → Idle rest r.1) ∧ (r.2 = false → Busy r.1)

def Serves (cfg : Config) (env : Env n D) (Idle : List (ShmemReq n) → Line n D → Prop)
    (Busy : Line n D → Prop) : Prop :=
  ∀ req rest ln, Idle (req :: rest) ln → Outcome Benign (Settles Idle Busy rest)
    (processReq cfg env req none { ln with reqs := req :: rest })

theorem processNextReq_outcome (hnil : ∀ ln, Idle [] ln → Busy { ln with reqs := [] })
    (hse : Serves cfg env Idle Busy) {reqs : List (ShmemReq n)} (h : Idle reqs ln) :
    Outcome Benign Busy (processNextReq cfg env reqs ln) := by
  induction reqs generalizing ln with
  | nil => exact hnil ln h
  | cons req rest ih =>
    rw [processNextReq]
    split_ifs with hk
    · exact benign_of rfl
    · refine (hse req rest ln h).bind fun r hr => ?_
      simp only
      split_ifs with hd
      · exact ih (hr.1 hd)
      · exact hr.2 (by simpa using hd)

theorem runFront_outcome {rest : List (ShmemReq n)}
    (hnil : ∀ ln, Idle [] ln → Busy { ln with reqs := [] }) (hse : Serves cfg env Idle Busy)
    (hq : ln.reqs = req :: rest) (hr : Outcome Benign
      (fun r => (r.2 → r.1.reqs = ln.reqs) ∧ Settles Idle Busy rest r)
      (ln.processReq cfg env req cd)) : Outcome Benign Busy (ln.runFront cfg env cd) := by
  simp only [runFront,front,hq]
  refine hr.bind fun r hr => ?_
  split_ifs with hd
  · rw [hr.1 hd,hq]
    exact processNextReq_outcome hnil hse (hr.2.1 hd)
  · exact hr.2.2 (by simpa using hd)
end
end Line
end Coherence
