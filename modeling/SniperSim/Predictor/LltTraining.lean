import SniperSim.Predictor.ShadowTable

open Tlb Cache

structure Residency where
  hits : Nat
  pc : IntPtr
deriving DecidableEq, Repr

inductive LltEvent
  | hit (page : IntPtr)
  | missed
  | bypassed (page : IntPtr)
  | inserted (page pc : IntPtr) (evicted : Option IntPtr)
deriving DecidableEq, Repr

namespace LltEvent

def update (page : IntPtr) : Option Residency → LltEvent → Option Residency
  | r, .hit p => if p = page then r.map fun r => { r with hits := r.hits + 1 } else r
  | r, .missed | r, .bypassed _ => r
  | r, .inserted p pc _ => if p = page then some ⟨0,pc⟩ else r

def residency (page : IntPtr) (events : List LltEvent) : Option Residency := events.foldl (update page) none

@[simp] theorem residency_concat (page : IntPtr) (events : List LltEvent) (e : LltEvent) :
    residency page (events ++ [e]) = update page (residency page events) e := by
  simp [residency]

end LltEvent

namespace Llt

def allocEvent (a : Tlb.AllocCall) : LltEvent :=
  match a.outcome with
  | .bypassed => .bypassed (Tlb.vpnOf a.address)
  | .inserted evicted => .inserted (Tlb.vpnOf a.address) a.lastPc evicted

variable (settings : TlbSettings) (s : Llt) {events : List LltEvent} {t : Tlb}

def event (c : LookupCall) : LltEvent :=
  match s.allocCall settings c with
  | some a => allocEvent a
  | none => if (s.lookup settings c).hit then .hit (Tlb.vpnOf c.address) else .missed

structure Trace where
  llt : Llt
  events : List LltEvent

def traceStep (t : Trace) (c : LookupCall) : Trace := ⟨t.llt.step settings c,t.events ++ [t.llt.event settings c]⟩

def trace (calls : List LookupCall) : Trace := calls.foldl (traceStep settings) ⟨s,[]⟩

theorem event_hit (c : LookupCall)
    (h : s.tlb.cache.contains c.address) : s.event settings c = .hit (Tlb.vpnOf c.address) := by
  have hh : (s.lookup settings c).hit := by
    simp [lookup,Tlb.lookup,Tlb.enter_hit _ _ _ h]
  simp [event,(step_hit settings s c h).2,hh]

theorem event_skip (c : LookupCall)
    (h : ¬ s.tlb.cache.contains c.address) (ha : c.allocateOnMiss = false) : s.event settings c = .missed := by
  have hh : (s.lookup settings c).hit = false := by
    simp [lookup,Tlb.lookup,Tlb.enter_miss _ _ _ h,ha]
  simp [event,(step_skip settings s c h ha).2,hh]

structure Recorded (t : Tlb) (events : List LltEvent) : Prop where
  populated : t.cache.Populated
  inLlt : t.inLlt
  pageSized : t.cache.logBlocksize = 12
  placed : ∀ i tag, tag ∈ t.cache.tags i → tag ≠ ~~~0 → ∃ a, t.cache.splitTag a = tag ∧ t.cache.splitSetIndex a = i
  recorded : ∀ a, t.cache.contains a →
    LltEvent.residency (Tlb.vpnOf a) events = some ⟨t.lltHits (Tlb.vpnOf a),t.pcHist (Tlb.vpnOf a)⟩

theorem recorded_create (associativity : Nat) (ha : 0 < associativity) (lastPc : IntPtr) :
    Recorded (Tlb.create Tlb.lltSize associativity lastPc) [] := by
  have htag : ∀ i, ∀ tag ∈ (Tlb.create Tlb.lltSize associativity lastPc).cache.tags i, tag = ~~~0 := by
    intro i tag hm
    simp only [Tlb.create,Cache.create,Cache.tags,CacheSetLRU.create,CacheSetLRU.blocks,
      CacheBlockInfo.empty,List.map_map,List.mem_map] at hm
    obtain ⟨_,-,rfl⟩ := hm
    rfl
  refine ⟨Cache.populated_create _ _ ha,rfl,rfl,?_,?_⟩
  · intro i tag hm hv
    exact absurd (htag i tag hm) hv
  · intro a hc
    have h := htag _ _ hc
    exfalso
    have hb := congrArg (fun x => BitVec.getLsbD x 63) h
    simp [Cache.splitTag,Tlb.create,Cache.create,logPageSize] at hb

theorem recorded_access (h : Recorded t events) (ad lastPc : IntPtr) (access miss : Nat) (lltHits : IntPtr → Nat)
    (events' : List LltEvent)
    (hr : ∀ a, t.cache.contains a →
      LltEvent.residency (Tlb.vpnOf a) events' = some ⟨lltHits (Tlb.vpnOf a),t.pcHist (Tlb.vpnOf a)⟩) :
    Recorded { t with
        cache := (t.cache.accessSingleLine ad).1
        access := access
        miss := miss
        lastPc := lastPc
        lltHits := lltHits } events' := by
  refine ⟨populated_access h.populated ad,h.inLlt,?_,?_,?_⟩
  · simpa using h.pageSized
  · intro i tag hm hv
    rw [accessSingleLine_tags] at hm
    simpa [Cache.splitTag,splitSetIndex] using h.placed i tag hm hv
  · intro a hc
    apply hr
    simpa [contains,Cache.splitTag,splitSetIndex] using hc

theorem recorded_hit (c : LookupCall) (events : List LltEvent)
    (h : Recorded s.tlb events) (hc : s.tlb.cache.contains c.address) :
    Recorded (s.step settings c).tlb (events ++ [s.event settings c]) := by
  rw [(step_hit settings s c hc).1,event_hit settings s c hc,Tlb.enter_hit _ _ _ hc]
  apply recorded_access h
  intro a ha
  simp only [LltEvent.residency_concat,LltEvent.update,h.recorded a ha,h.inLlt,if_true]
  by_cases hv : Tlb.vpnOf c.address = Tlb.vpnOf a
  · simp [hv]
  · simp [hv,Function.update_of_ne (Ne.symm hv)]

theorem recorded_missed (c : LookupCall) (events : List LltEvent)
    (h : Recorded s.tlb events) (hc : ¬ s.tlb.cache.contains c.address) : Recorded (missed s.tlb c) events := by
  rw [missed,Tlb.enter_miss _ _ _ hc]
  exact recorded_access h _ _ _ _ _ _ h.recorded

theorem contains_missed (t : Tlb) (c : LookupCall) (a : IntPtr) :
    (missed t c).cache.contains a ↔ t.cache.contains a := by
  rw [missed,(enter_keeps _ _ _).2.2]
  simp [contains,Cache.splitTag,splitSetIndex]

theorem vpnOf_ne_of_contains (hp : t.cache.logBlocksize = 12) (hc : ¬ t.cache.contains ad) (ha : t.cache.contains a) :
    Tlb.vpnOf a ≠ Tlb.vpnOf ad := by
  intro hv
  have hs : a >>> t.cache.logBlocksize = ad >>> t.cache.logBlocksize := by
    rw [hp]
    exact (vpnOf_eq_iff a ad).mp hv
  exact hc (by simpa [contains,Cache.splitTag,splitSetIndex,hs] using ha)

theorem recorded_bypass (h : Recorded t events) (ad : IntPtr) (hc : ¬ t.cache.contains ad)
    (pfq : List IntPtr) : Recorded ((t.observed ad).bypassPage settings pfq ad).tlb
      (events ++ [.bypassed (Tlb.vpnOf ad)]) := by
  refine { h with recorded := ?_ }
  intro a ha
  have hne : Tlb.vpnOf a ≠ Tlb.vpnOf ad := vpnOf_ne_of_contains h.pageSized hc ha
  rw [LltEvent.residency_concat]
  refine (h.recorded a ha).trans ?_
  simp [bypassPage,shadowTableInsert,observed,hne]

theorem recorded_insert (h : Recorded t events) (ad : IntPtr) (hc : ¬ t.cache.contains ad)
    (pfq : List IntPtr) (evicted : Option IntPtr) : Recorded
      ((t.admitted ad).insertPage settings pfq ad).tlb
      (events ++ [.inserted (Tlb.vpnOf ad) t.lastPc evicted]) := by
  rw [insertPage_eq]
  refine ⟨populated_insert h.populated ad,h.inLlt,h.pageSized,?_,?_⟩
  · intro i tag hm hv
    rcases mem_tags_insert h.populated ad tag i hm with ⟨rfl,rfl⟩ | hm
    · exact ⟨ad,rfl,rfl⟩
    · exact h.placed i tag hm hv
  · intro a ha
    rw [LltEvent.residency_concat]
    rcases mem_tags_insert h.populated ad _ _ ha with ⟨-,ht⟩ | ha
    · have hv : Tlb.vpnOf ad = Tlb.vpnOf a := by
        rw [vpnOf_eq_iff,← h.pageSized]
        exact ht.symm
      simp [LltEvent.update,hv,admitted,observed]
    · have hne : Tlb.vpnOf a ≠ Tlb.vpnOf ad := vpnOf_ne_of_contains h.pageSized hc ha
      simp only [LltEvent.update,if_neg hne.symm]
      refine (h.recorded a ha).trans ?_
      simp [admitted,observed,hne]

theorem recorded_step (hd : settings.dppred) (s : Llt)
    (c : LookupCall) (events : List LltEvent) (h : Recorded s.tlb events) :
    Recorded (s.step settings c).tlb (events ++ [s.event settings c]) := by
  by_cases hc : s.tlb.cache.contains c.address
  · exact recorded_hit settings s c events h hc
  · have hm := recorded_missed s c events h hc
    cases ha : c.allocateOnMiss with
    | false =>
      rw [(step_skip settings s c hc ha).1,event_skip settings s c hc ha]
      refine { hm with recorded := ?_ }
      intro a hca
      rw [LltEvent.residency_concat]
      exact hm.recorded a hca
    | true =>
      obtain ⟨hs,hcall⟩ := step_allocate settings s c hc ha
      have hc' := (contains_missed s.tlb c c.address).not.mpr hc
      rw [hs,event,hcall]
      rcases allocate_cases settings (missed s.tlb c) s.pfq c.address with
        ⟨-,-,-,he⟩ | ⟨-,-,-,he⟩ | ⟨hn,-⟩
      · rw [he]
        exact recorded_bypass settings hm c.address hc' s.pfq
      · rw [he,insertPage_outcome]
        exact recorded_insert settings hm c.address hc' s.pfq _
      · simp [hd,hm.inLlt] at hn

theorem phistSeen_missed (t : Tlb) (c : LookupCall) (hc : ¬ t.cache.contains c.address) :
    (missed t c).phistSeen c.address = t.phistSeen c.address := by
  rw [missed,Tlb.enter_miss _ _ _ hc]
  rfl

theorem insert_trains (hd : settings.dppred) (h : Recorded t events) (ad : IntPtr)
    (hc : ¬ t.cache.contains ad) (pfq : List IntPtr) (evicted : IntPtr)
    (he : (t.cache.insertSingleLine ad).2 = some evicted) :
    ∃ r, LltEvent.residency (Tlb.vpnOf evicted) events = some r ∧
      ((t.admitted ad).insertPage settings pfq ad).tlb.phist =
        train (t.phistSeen ad) (Tlb.vpnOf evicted) r.pc r.hits := by
  obtain ⟨tag,hm,hv,rfl⟩ := evicted_mem h.populated ad evicted he
  obtain ⟨a,rfl,hi⟩ := h.placed _ tag hm hv
  have hca : t.cache.contains a := by
    rwa [contains,hi]
  have hne : Tlb.vpnOf a ≠ Tlb.vpnOf ad := vpnOf_ne_of_contains h.pageSized hc hca
  have hvpn : Tlb.vpnOf (t.cache.tagToAddress (t.cache.splitTag a)) = Tlb.vpnOf a := by
    rw [tagToAddress,Cache.splitTag,h.pageSized]
    exact vpnOf_tag a
  refine ⟨_,hvpn ▸ h.recorded a hca,?_⟩
  have hl : (settings.dppred && (t.admitted ad).inLlt) := by
    rw [hd]
    exact h.inLlt
  have he' : ((t.admitted ad).cache.insertSingleLine ad).2 = some (t.cache.tagToAddress (t.cache.splitTag a)) := he
  rw [insertPage_eq]
  simp only [he',hl,if_true,hvpn]
  simp [admitted,observed,hne]

theorem dppred_training_law (hd : settings.dppred = true)
    (associativity : Nat) (ha : 0 < associativity) (lastPc : IntPtr) (pfq : List IntPtr)
    (calls : List LookupCall) : let t := (create associativity lastPc pfq).trace settings calls
    (∀ a, t.llt.tlb.cache.contains a → LltEvent.residency (Tlb.vpnOf a) t.events =
        some ⟨t.llt.tlb.lltHits (Tlb.vpnOf a),t.llt.tlb.pcHist (Tlb.vpnOf a)⟩) ∧
    ∀ (c : LookupCall) (page pc evicted : IntPtr), t.llt.event settings c = .inserted page pc (some evicted) →
      ∃ r, LltEvent.residency (Tlb.vpnOf evicted) t.events = some r ∧ (t.llt.step settings c).tlb.phist =
          Tlb.train (t.llt.tlb.phistSeen c.address) (Tlb.vpnOf evicted) r.pc r.hits := by
  intro t
  have hrec : Recorded t.llt.tlb t.events :=
    Run.foldl_invariant (I := fun t : Trace => Recorded t.llt.tlb t.events)
      (fun t c ht => recorded_step settings hd t.llt c t.events ht) (recorded_create associativity ha lastPc) calls
  refine ⟨hrec.recorded,?_⟩
  intro c page pc evicted hev
  by_cases hc : t.llt.tlb.cache.contains c.address
  · rw [event_hit settings t.llt c hc] at hev
    cases hev
  · cases hal : c.allocateOnMiss with
    | false =>
      rw [event_skip settings t.llt c hc hal] at hev
      cases hev
    | true =>
      have hm := recorded_missed t.llt c t.events hrec hc
      have hc' := (contains_missed t.llt.tlb c c.address).not.mpr hc
      obtain ⟨hs,hcall⟩ := step_allocate settings t.llt c hc hal
      rw [event,hcall] at hev
      rw [hs]
      rcases allocate_cases settings (missed t.llt.tlb c) t.llt.pfq c.address with
        ⟨-,-,-,he⟩ | ⟨-,-,-,he⟩ | ⟨hn,-⟩
      · rw [he] at hev
        cases hev
      · rw [he,insertPage_outcome] at hev
        rw [he,← phistSeen_missed _ _ hc]
        exact insert_trains settings hd hm c.address hc' t.llt.pfq evicted (LltEvent.inserted.inj hev).2.2
      · simp [hd,hm.inLlt] at hn

theorem dppred_training_law_evicting_page_zero :
    ∃ r, LltEvent.residency 0 ((create 1 7 []).trace Tlb.defaultSettings [⟨0,false,true⟩]).events = some r ∧
      (((create 1 7 []).trace Tlb.defaultSettings [⟨0,false,true⟩]).llt.step Tlb.defaultSettings
        ⟨0x400000,false,true⟩).tlb.phist = Tlb.train (((create 1 7 []).trace Tlb.defaultSettings
            [⟨0,false,true⟩]).llt.tlb.phistSeen 0x400000) 0 r.pc r.hits :=
  (dppred_training_law defaultSettings rfl 1 (by decide) 7 [] [⟨0,false,true⟩]).2
    ⟨0x400000,false,true⟩ 0x400000 7 0 (by decide)

end Llt
