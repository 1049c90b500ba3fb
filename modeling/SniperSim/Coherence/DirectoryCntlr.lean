import SniperSim.Coherence.DirectoryCache
import SniperSim.Coherence.Nullify
import SniperSim.Coherence.Precision

open Function
namespace Coherence
variable {n w : Nat} {D Addr : Type}

inductive CntlrFault
  | line (f : Fault)
  | cache (f : DirectoryCacheFault)
  | noReplacementCandidate | invalidAddress | notIssued
deriving DecidableEq, Repr

def fromLine {α : Type} : Except Fault α → Except CntlrFault α := Except.mapError .line

def fromCache {α : Type} : Except DirectoryCacheFault α → Except CntlrFault α := Except.mapError .cache

structure DirectoryCntlr (Addr : Type) (n : Nat) (D : Type) (w : Nat) where
  lines : System Addr n D
  cache : DramDirectoryCache Addr w

structure Event (Addr : Type) (n : Nat) (D : Type) where
  address : Addr
  label : Label n D
  requester : Fin n
  env : Env n D

namespace DirectoryCntlr

def initial (n w : Nat) (contents : Addr → D) (ptrs : Nat → UInt32) : DirectoryCntlr Addr n D w :=
  ⟨fun a => Line.initial n (contents a),.create ptrs⟩

def candidateSharers (s : DirectoryCntlr Addr n D w) (k : Nat) (i : Fin w) : Nat :=
  match s.cache.ways k i with
  | some b => (s.lines b).dir.getNumSharers
  | none => 0

def candidateIdle (s : DirectoryCntlr Addr n D w) (k : Nat) (i : Fin w) : Bool :=
  match s.cache.ways k i with
  | some b => (s.lines b).reqs.isEmpty
  | none => true

def replacementCandidate (s : DirectoryCntlr Addr n D w) (k : Nat) : List (Fin w) → Option (Fin w) → Option (Fin w)
  | [], best => best
  | i :: is, best =>
    if (best.all fun j => s.candidateSharers k i < s.candidateSharers k j) && s.candidateIdle k i then
      s.replacementCandidate k is (some i)
    else s.replacementCandidate k is best

open DramDirectoryCache
variable {cfg : Config} {si : Addr → Nat} {s t : DirectoryCntlr Addr n D w} {a : Addr} {ev : Event Addr n D}

structure TracksBut (cfg : Config) (setIndex : Addr → Nat) (a : Addr) (s : DirectoryCntlr Addr n D w) : Prop where
  stored : Stored setIndex s.cache
  busy : ∀ b, Line.Busy cfg (s.lines b)
  allotted : ∀ b, (s.lines b).Allotted
  present : ∀ b, b ≠ a → (Present setIndex s.cache b ↔ (s.lines b).entry.isSome)
  nullified : ∀ b, b ∈ s.cache.replaced ↔ (s.lines b).nullifying

structure Tracks (cfg : Config) (setIndex : Addr → Nat) (s : DirectoryCntlr Addr n D w) : Prop where
  stored : Stored setIndex s.cache
  busy : ∀ b, Line.Busy cfg (s.lines b)
  allotted : ∀ b, (s.lines b).Allotted
  present : ∀ b, Present setIndex s.cache b ↔ (s.lines b).entry.isSome
  nullified : ∀ b, b ∈ s.cache.replaced ↔ (s.lines b).nullifying

def Drops (setIndex : Addr → Nat) (s t : DirectoryCntlr Addr n D w) (b : Addr) : Prop :=
  Present setIndex s.cache b ∧
    (¬Present setIndex t.cache b ∨ (s.lines b).nullifying ∧ (t.lines b).nullifying = false)

def DropsUncached (setIndex : Addr → Nat) (s t : DirectoryCntlr Addr n D w) : Prop :=
  ∀ b, Drops setIndex s t b → Line.Uncached (s.lines b).llc

theorem Tracks.but (h : Tracks cfg si s) (a : Addr) : TracksBut cfg si a s :=
  { h with present := fun b _ => h.present b }

theorem not_drops (hp : Present si s.cache a → Present si t.cache a)
    (hn : (s.lines a).nullifying → (t.lines a).nullifying) : ¬Drops si s t a := by
  rintro ⟨ha,hf | ⟨hs,hf⟩⟩
  · exact hf (hp ha)
  · simp [hn hs] at hf

theorem tracks_initial (contents : Addr → D) (ptrs : Nat → UInt32) : Tracks cfg si (initial n w contents ptrs) := by
  constructor
  case stored => exact stored_create ptrs
  case busy => exact fun b => Line.busy_initial cfg _
  case allotted => exact fun b _ => rfl
  case present => simp [Present,initial,create,Line.initial]
  case nullified => simp [initial,create,Line.initial,Line.nullifying]

variable [DecidableEq Addr]

def processDirectoryEntryAllocationReq (cfg : Config) (setIndex : Addr → Nat)
    (s : DirectoryCntlr Addr n D w) (a : Addr) (c : Fin n) (env : Env n D) :
    Except CntlrFault (DirectoryCntlr Addr n D w) := do
  let (cache,candidates) ← fromCache (s.cache.getReplacementCandidates setIndex a)
  match s.replacementCandidate (setIndex a) candidates none with
  | none => .error .noReplacementCandidate
  | some i =>
    match s.cache.ways (setIndex a) i with
    | none => .error .invalidAddress
    | some r =>
      let cache ← fromCache (cache.replaceDirectoryEntry setIndex r a)
      let ln ← fromLine ((s.lines r).step cfg (.replaceEntry c env))
      let cache ← if ln.entry.isSome then .ok cache else fromCache (cache.invalidateDirectoryEntry r)
      return ⟨update s.lines r ln,cache⟩

def obtainEntry (cfg : Config) (setIndex : Addr → Nat) (s : DirectoryCntlr Addr n D w) (a : Addr)
    (c : Fin n) (env : Env n D) : Except CntlrFault (DirectoryCntlr Addr n D w) :=
  if (s.lines a).entry.isSome then
    match s.cache.getDirectoryEntry setIndex a with
    | (cache,some _) => .ok { s with cache := cache }
    | (_,none) => s.processDirectoryEntryAllocationReq cfg setIndex a c env
  else .ok s

def completeNullify (s : DirectoryCntlr Addr n D w) (a : Addr) (ln : Line n D) :
    Except CntlrFault (DirectoryCntlr Addr n D w) := do
  let cache ← if (s.lines a).nullifying && !ln.nullifying then
      fromCache (s.cache.invalidateDirectoryEntry a)
    else .ok s.cache
  return ⟨update s.lines a ln,cache⟩

def lookUp (setIndex : Addr → Nat) (s : DirectoryCntlr Addr n D w) (a : Addr) : DirectoryCntlr Addr n D w :=
  { s with cache := (s.cache.getDirectoryEntry setIndex a).1 }

def handle (cfg : Config) (setIndex : Addr → Nat) (s : DirectoryCntlr Addr n D w)
    (ev : Event Addr n D) : Except CntlrFault (DirectoryCntlr Addr n D w) := do
  let ln ← fromLine ((s.lines ev.address).step cfg ev.label)
  let s ← s.completeNullify ev.address ln
  s.obtainEntry cfg setIndex ev.address ev.requester ev.env

def step (cfg : Config) (setIndex : Addr → Nat) (s : DirectoryCntlr Addr n D w)
    (ev : Event Addr n D) : Except CntlrFault (DirectoryCntlr Addr n D w) :=
  match ev.label with
  | .replaceEntry _ _ => .error .notIssued
  | .deliverDir _ _ => (s.lookUp setIndex ev.address).handle cfg setIndex ev
  | .dramReply _ => s.handle cfg setIndex ev
  | _ => do
    let ln ← fromLine ((s.lines ev.address).step cfg ev.label)
    return { s with lines := update s.lines ev.address ln }

abbrev Ends {α : Type} (P : α → Prop) (x : Except CntlrFault α) : Prop := Outcome (fun f => ∀ g, f ≠ .cache g) P x

theorem fromLine_ends (h : Outcome Benign P x) : Ends P (fromLine x) := by
  cases x with
  | ok a => exact h
  | error e => exact nofun

theorem TracksBut.tracks (h : TracksBut cfg si a s)
    (hp : Present si s.cache a ↔ (s.lines a).entry.isSome) : Tracks cfg si s := by
  refine { h with present := fun b => ?_ }
  by_cases hb : b = a
  · exact hb ▸ hp
  · exact h.present b hb

theorem Tracks.lookUp (h : Tracks cfg si s) (a : Addr) : TracksBut cfg si a (s.lookUp si a) ∧
      (∀ b, Present si s.cache b → Present si (s.lookUp si a).cache b) := by
  have hl := h.stored.looked a
  refine ⟨⟨hl.stored h.stored,h.busy,h.allotted,?_,?_⟩,?_⟩
  · exact fun b hb => (hl.present_of_ne hb).trans (h.present b)
  · exact fun b => (iff_of_eq (congrArg (b ∈ ·) hl.replaced)).trans (h.nullified b)
  · intro b hb
    by_cases hba : b = a
    · subst hba
      unfold DirectoryCntlr.lookUp
      rwa [(h.stored.get_of_present hb).1]
    · exact (hl.present_of_ne hba).mpr hb

structure Completed (cfg : Config) (setIndex : Addr → Nat) (a : Addr) (s t : DirectoryCntlr Addr n D w) : Prop where
  tracks : TracksBut cfg setIndex a t
  absent : (t.lines a).entry = none → ¬Present setIndex t.cache a
  others : ∀ b, b ≠ a → t.lines b = s.lines b ∧ (Present setIndex t.cache b ↔ Present setIndex s.cache b)
  released : (t.lines a).entry = none ∨ (s.lines a).nullifying →
    (t.lines a).nullifying = false → Line.Uncached (s.lines a).llc
  calls : Calls setIndex s.cache t.cache

structure Obtained (cfg : Config) (setIndex : Addr → Nat) (a : Addr) (s t : DirectoryCntlr Addr n D w) : Prop where
  tracks : Tracks cfg setIndex t
  line : t.lines a = s.lines a
  drops : DropsUncached setIndex s t
  calls : Calls setIndex s.cache t.cache

section
variable (h : TracksBut cfg si a s)
include h

theorem TracksBut.update (hc : Stored si c) (hb : ln.Busy cfg) (hl : ln.Allotted)
    (hp : ∀ b, b ≠ a → (Present si c b ↔ (Function.update s.lines r ln b).entry.isSome))
    (hn : ∀ b, b ∈ c.replaced ↔ (Function.update s.lines r ln b).nullifying) :
    TracksBut cfg si a ⟨Function.update s.lines r ln,c⟩ := by
  refine ⟨hc,fun b => ?_,fun b => ?_,hp,hn⟩
  · rcases eq_or_ne b r with rfl | hbr
    · simpa using hb
    · simpa [hbr] using h.busy b
  · rcases eq_or_ne b r with rfl | hbr
    · simpa using hl
    · simpa [hbr] using h.allotted b

theorem TracksBut.keep (hb : ln.Busy cfg) (hl : ln.Allotted) (hn : ln.nullifying = (s.lines a).nullifying) :
    TracksBut cfg si a ⟨Function.update s.lines a ln,s.cache⟩ := by
  refine h.update h.stored hb hl (fun b hba => ?_) fun b => ?_
  · simpa [hba] using h.present b hba
  · rcases eq_or_ne b a with rfl | hba
    · simpa [hn] using h.nullified b
    · simpa [hba] using h.nullified b

theorem completed_kept (hb : ln.Busy cfg) (hentry : ln.entry ≠ none) (hn : ln.nullifying = (s.lines a).nullifying) :
    Completed cfg si a s ⟨update s.lines a ln,s.cache⟩ := by
  constructor
  case tracks => exact h.keep hb (fun he => absurd he hentry) hn
  case absent => exact fun he => absurd (by simpa using he) hentry
  case others => exact fun b hba => ⟨update_of_ne hba _ _,Iff.rfl⟩
  case released =>
    rintro (he | ht) hf
    · exact absurd (by simpa using he) hentry
    · simp [hn,ht] at hf
  case calls => exact .refl

theorem completed_dropped (hn : (s.lines a).nullifying) (hb : ln.Busy cfg) (hl : ln.Allotted)
    (hln : ln.nullifying = false) (hu : Line.Uncached (s.lines a).llc) :
    Completed cfg si a s ⟨update s.lines a ln,{ s.cache with replaced := s.cache.replaced.erase a }⟩ := by
  have ha : a ∈ s.cache.replaced := (h.nullified a).mpr hn
  constructor
  case tracks =>
    refine h.update h.stored.invalidate hb hl (fun b hba => ?_) fun b => ?_
    · rw [h.stored.present_invalidate ha]
      simpa [hba] using h.present b hba
    · rw [h.stored.nodup.mem_erase_iff]
      rcases eq_or_ne b a with rfl | hba
      · simp [hln]
      · simpa [hba] using h.nullified b
  case absent =>
    intro _ hp
    exact ((h.stored.present_invalidate ha).mp hp).1 rfl
  case others =>
    intro b hba
    refine ⟨update_of_ne hba _ _,?_⟩
    rw [h.stored.present_invalidate ha,and_iff_right hba]
  case released => exact fun _ _ => hu
  case calls => exact h.stored.calls_invalidate ha

theorem complete_ends (hl : l.atDirectory) :
    Ends (Completed cfg si a s) (fromLine ((s.lines a).step cfg l) >>= s.completeNullify a) := by
  have hbusy := Line.step_busy (h.busy a) l
  cases hn : (s.lines a).nullifying with
  | false =>
    refine (fromLine_ends (hbusy.and (Line.step_plain (h.busy a) (h.allotted a) hn hl))).bind ?_
    rintro ln ⟨hb,hln⟩
    simp only [completeNullify,hn,Bool.false_and,Bool.false_eq_true,if_false]
    exact completed_kept h hb (fun he => by simpa [he] using hln.2) (hln.1.trans hn.symm)
  | true =>
    refine (fromLine_ends (hbusy.and (Line.step_drained (h.busy a) (h.allotted a) hn hl))).bind ?_
    rintro ln ⟨hb,hal,hu⟩
    cases hln : ln.nullifying with
    | true =>
      simp only [completeNullify,hn,hln,Bool.not_true,Bool.and_false,Bool.false_eq_true,if_false]
      exact completed_kept h hb (fun he => by simp [Line.nullifying,hal he] at hln) (hln.trans hn.symm)
    | false =>
      simp only [completeNullify,hn,hln,Bool.not_false,Bool.and_true,if_true,invalidate_spec ((h.nullified a).mpr hn)]
      exact completed_dropped h hn hb hal hln (hu hln)
end

section
variable {c : DramDirectoryCache Addr w} {r : Addr} {ln : Line n D}
variable (h : TracksBut cfg si a s)
include h

theorem obtained_update (hc : Stored si c)
    (he : (s.lines a).entry.isSome) (hra : r ≠ a) (hb : ln.Busy cfg) (hl : ln.Allotted)
    (hp : ∀ b, b ≠ r → (Present si c b ↔ b = a ∨ Present si s.cache b))
    (hpr : Present si c r ↔ ln.entry.isSome)
    (hrep : ∀ b, b ≠ r → (b ∈ c.replaced ↔ b ∈ s.cache.replaced)) (hrr : r ∈ c.replaced ↔ ln.nullifying)
    (hu : Drops si s ⟨update s.lines r ln,c⟩ r → Line.Uncached (s.lines r).llc)
    (hcalls : Calls si s.cache c) : Obtained cfg si a s ⟨update s.lines r ln,c⟩ := by
  have hbut : TracksBut cfg si a ⟨update s.lines r ln,c⟩ := by
    refine h.update hc hb hl (fun b hba => ?_) fun b => ?_
    · rcases eq_or_ne b r with rfl | hbr
      · simpa using hpr
      · simpa [hp b hbr,hba,hbr] using h.present b hba
    · rcases eq_or_ne b r with rfl | hbr
      · simpa using hrr
      · simpa [hrep b hbr,hbr] using h.nullified b
  refine ⟨hbut.tracks ?_,update_of_ne hra.symm _ _,fun b hd => ?_,hcalls⟩
  · simpa [hp a hra.symm,hra.symm] using he
  · rcases eq_or_ne b r with rfl | hbr
    · exact hu hd
    · exact absurd hd (not_drops (fun hb => (hp b hbr).mpr (.inr hb)) (by simp [hbr]))

theorem replaced_ends (he : (s.lines a).entry.isSome) (ha : ¬Present si s.cache a)
    (hfull : ∀ j, s.cache.ways (si a) j ≠ none) (hi : s.cache.ways (si a) i = some r) (hb : ln.Busy cfg)
    (hln : Line.ReplacedLine (s.lines r).llc ln) (hc : c = (s.cache.advance (si a)).replaceWay (si a) i r a) :
    Ends (Obtained cfg si a s) (do
        let cache ← if ln.entry.isSome then .ok c else fromCache (c.invalidateDirectoryEntry r)
        return ⟨update s.lines r ln,cache⟩) := by
  have hra : r ≠ a := by
    rintro rfl
    exact ha (.inl ⟨i,hi⟩)
  have hadv := stored_advance (k := si a) h.stored
  have hst : Stored si c := hc ▸ hadv.replaceWay ha hi hfull
  have hp (b : Addr) : Present si c b ↔ b = a ∨ Present si s.cache b := hc ▸ present_replaceWay hadv hi
  have hrep : c.replaced = s.cache.replaced ++ [r] := by rw [hc]; rfl
  have hcalls : Calls si s.cache c := hc ▸ h.stored.calls_replace ha hfull hi
  have hpr : Present si s.cache r := .inl ⟨i,h.stored.homed _ _ _ hi ▸ hi⟩
  rcases hln with ⟨hn,hs⟩ | ⟨hnone,hq,hu⟩
  · rw [if_pos hs]
    refine obtained_update h hst he hra hb (fun hnone => by simp [hnone] at hs) (fun b _ => hp b)
      (iff_of_true ((hp r).mpr (.inr hpr)) hs) (fun b hbr => by simp [hrep,hbr]) (by simp [hrep,hn]) (fun hd => ?_) hcalls
    exact absurd hd (not_drops (fun hb => (hp r).mpr (.inr hb)) (by simp [hn]))
  · have hmem : r ∈ c.replaced := by simp [hrep]
    rw [if_neg (by simp [hnone]),invalidate_spec hmem]
    refine obtained_update h hst.invalidate he hra hb (fun _ => hq) (fun b hbr => ?_) ?_ (fun b hbr => ?_) ?_
      (fun _ => hu) (hcalls.trans (hst.calls_invalidate hmem))
    · rw [hst.present_invalidate hmem,hp,and_iff_right hbr]
    · rw [hst.present_invalidate hmem,hnone]
      simp
    · rw [hst.nodup.mem_erase_iff,and_iff_right hbr,hrep]
      simp [hbr]
    · rw [hst.nodup.mem_erase_iff,Line.nullifying,hq]
      simp

theorem allocation_ends {c : Fin n} {env : Env n D} (he : (s.lines a).entry.isSome) (ha : ¬Present si s.cache a)
    (hfull : ∀ i, s.cache.ways (si a) i ≠ none) :
    Ends (Obtained cfg si a s) (s.processDirectoryEntryAllocationReq cfg si a c env) := by
  unfold processDirectoryEntryAllocationReq
  rw [h.stored.candidates_spec ha hfull]
  refine Outcome.bind (P := (· = (_,_))) rfl ?_
  rintro _ rfl
  dsimp only
  cases s.replacementCandidate (si a) _ none with
  | none => exact nofun
  | some i =>
    dsimp only
    cases hi : s.cache.ways (si a) i with
    | none => exact absurd hi (hfull i)
    | some r =>
      have hadv := stored_advance (k := si a) h.stored
      refine Outcome.bind (P := (· = _)) (by rw [hadv.replace_spec hi]; exact rfl) fun d hd => ?_
      have hline := (Line.step_busy (h.busy r) (.replaceEntry c env)).and (Line.step_replaced (h.busy r))
      refine (fromLine_ends hline).bind ?_
      rintro ln ⟨hb,hln⟩
      exact replaced_ends h he ha hfull hi hb hln hd
end

theorem obtain_ends {c : Fin n} {env : Env n D} (h : TracksBut cfg si a s)
    (ha : (s.lines a).entry = none → ¬Present si s.cache a) :
    Ends (Obtained cfg si a s) (s.obtainEntry cfg si a c env) := by
  unfold obtainEntry
  cases he : (s.lines a).entry with
  | none =>
    have hiff : Present si s.cache a ↔ (s.lines a).entry.isSome := by simp [he,ha he]
    exact ⟨h.tracks hiff,rfl,fun b hd => absurd hd (not_drops id id),.refl⟩
  | some e =>
    have hl := h.stored.looked a
    have hcalls := h.stored.calls_get a
    cases hg : s.cache.getDirectoryEntry si a with
    | mk cache o =>
      rw [hg] at hl hcalls
      cases o with
      | some p =>
        have hp (b : Addr) := hl.present (b := b) rfl
        have hbut : TracksBut cfg si a { s with cache := cache } :=
          ⟨hl.stored h.stored,h.busy,h.allotted,fun b hb => (hl.present_of_ne hb).trans (h.present b hb),
            fun b => (iff_of_eq (congrArg (b ∈ ·) hl.replaced)).trans (h.nullified b)⟩
        refine ⟨hbut.tracks (by simpa [he] using (hp a).mpr (.inl rfl)),rfl,fun b hd => ?_,hcalls⟩
        exact absurd hd (not_drops (fun hb => (hp b).mpr (.inr hb)) id)
      | none =>
        cases hl with
        | missing hp hfull => exact allocation_ends h (by simp [he]) hp hfull

structure Issued (cfg : Config) (setIndex : Addr → Nat) (s t : DirectoryCntlr Addr n D w) : Prop where
  tracks : Tracks cfg setIndex t
  drops : DropsUncached setIndex s t
  calls : Calls setIndex s.cache t.cache

theorem handle_ends (h : TracksBut cfg si ev.address s) (hl : ev.label.atDirectory) :
    Ends (Issued cfg si s) (s.handle cfg si ev) := by
  unfold handle
  rw [← bind_assoc]
  refine (complete_ends h hl).bind fun u hu => ?_
  refine (obtain_ends hu.tracks hu.absent).mono ?_
  rintro t ⟨ht,hline,hd,hcalls⟩
  refine ⟨ht,fun b hb => ?_,hu.calls.trans hcalls⟩
  rcases eq_or_ne b ev.address with rfl | hba
  · rcases hb.2 with hgo | ⟨hs,hf⟩
    · have hnone : (t.lines ev.address).entry = none := by simpa [ht.present] using hgo
      have hre := ht.allotted _ hnone
      exact hu.released (.inl (hline ▸ hnone)) (by simp [← hline,Line.nullifying,hre])
    · exact hu.released (.inr hs) (hline ▸ hf)
  · obtain ⟨hli,hpre⟩ := hu.others b hba
    have hdrop : Drops si u t b := ⟨hpre.mpr hb.1,hli ▸ hb.2⟩
    exact hli ▸ hd b hdrop

theorem elsewhere_ends (h : Tracks cfg si s) (hl : l.atDirectory = false) (hr : l.replaces = false) (a : Addr) :
    Ends (Issued cfg si s) (do
        let ln ← fromLine ((s.lines a).step cfg l)
        return { s with lines := update s.lines a ln }) := by
  have hline := (Line.step_busy (h.busy a) l).and (Line.step_elsewhere hl hr)
  refine (fromLine_ends hline).bind ?_
  rintro ln ⟨hb,hre,hentry⟩
  have hn : ln.nullifying = (s.lines a).nullifying := by rw [Line.nullifying,hre]; rfl
  have hbut := (h.but a).keep hb (fun he => hre.trans (h.allotted a (hentry ▸ he))) hn
  refine ⟨hbut.tracks (by simpa [hentry] using h.present a),fun b hd => ?_,.refl⟩
  refine absurd hd (not_drops id ?_)
  rcases eq_or_ne b a with rfl | hba
  · simp [hn]
  · simp [hba]

theorem step_ends (h : Tracks cfg si s) : Ends (Issued cfg si s) (s.step cfg si ev) := by
  obtain ⟨a,l,c,env⟩ := ev
  cases l with
  | core c op | evict c | deliverLlc c junk | dramServe => exact elsewhere_ends h rfl rfl a
  | deliverDir c env =>
    obtain ⟨hbut,hp⟩ := h.lookUp a
    refine (handle_ends hbut rfl).mono ?_
    rintro t ⟨ht,hd,hcalls⟩
    exact ⟨ht,fun b hb => hd b ⟨hp b hb.1,hb.2⟩,(h.stored.calls_get a).trans hcalls⟩
  | dramReply env => exact handle_ends (h.but a) rfl
  | replaceEntry c env => exact nofun
  | nucaEvict writeback | nucaStray d => exact elsewhere_ends h rfl rfl a

theorem tracks_of_reaches (h : Run.Reaches (step cfg si) (fun _ _ => True) (initial n w contents ptrs) s) :
    Tracks cfg si s :=
  h.invariant (fun _ _ _ hs _ ht => ((step_ends hs).of_ok ht).tracks) (tracks_initial contents ptrs)

variable {setIndex : Addr → Nat}

theorem unique_entry_until_nullified {contents : Addr → D} {ptrs : Nat → UInt32}
    (h : Run.Reaches (step cfg setIndex) (fun _ _ => True) (initial n w contents ptrs) s) :
    Unique setIndex s.cache ∧ (∀ a, (s.lines a).entry.isSome = true ↔ s.cache.places setIndex a ≠ []) ∧
      ∀ ev t, s.step cfg setIndex ev = .ok t →
        Run.Reaches (call setIndex) (fun d _ => Unique setIndex d) s.cache t.cache ∧
          ∀ a, Drops setIndex s t a → Line.Uncached (s.lines a).llc := by
  have ht := tracks_of_reaches h
  refine ⟨ht.stored.unique,fun a => (ht.present a).symm.trans present_iff_places,?_⟩
  intro ev t hstep
  have hi := (step_ends ht).of_ok hstep
  exact ⟨hi.calls.imp fun _ _ => Stored.unique,hi.drops⟩

def events (a : Addr) (c : Fin n) (ls : List (Label n Nat)) : List (Event Addr n Nat) :=
  ls.map fun l => ⟨a,l,c,⟨0,0,none⟩⟩

def replacing (c c' : Fin 2) : DirectoryCntlr Bool 2 Nat 1 :=
  (Run.guided (step System.mesiFullMap fun _ => 0) (fun _ _ => True) (initial 2 1 (fun _ => 0) fun _ => 0)
    (events false c [.core c (.write 7),.deliverDir c ⟨0,0,none⟩,.dramServe,.dramReply ⟨0,0,none⟩,.deliverLlc c 0] ++
      events true c' [.core c' .read,.deliverDir c' ⟨0,0,none⟩])).getD
    (initial 2 1 (fun _ => 0) fun _ => 0)

theorem unique_entry_while_nullifying : (replacing 0 1).cache.places (fun _ => 0) false = [.replaced 0] ∧
      (replacing 0 1).cache.places (fun _ => 0) true = [.way 0] ∧
      (replacing 0 1).cache.getDirectoryEntry (fun _ => 0) false = ((replacing 0 1).cache,some (.replaced 0)) := by
  have hp : (replacing 0 1).cache.places (fun _ => 0) false = [.replaced 0] := by decide +kernel
  have hr : Run.Reaches (step System.mesiFullMap fun _ => 0) (fun _ _ => True)
      (initial 2 1 (fun _ => 0) fun _ => 0) (replacing 0 1) := Run.reaches_guided (by decide +kernel)
  refine ⟨hp,by decide +kernel,((unique_entry_until_nullified hr).1 false).2 _ ?_⟩
  exact List.mem_singleton_self _

end DirectoryCntlr
end Coherence
