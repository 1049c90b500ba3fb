import SniperSim.Predictor.SoftwareLlcFrame

namespace SoftwareLlc

structure BlockRecord where
  tracked : Bool
  hits : Nat
deriving DecidableEq, Repr

structure BlockEvent where
  set : Nat
  tag : IntPtr
  inPfq : Bool
  outcome : Outcome
deriving DecidableEq, Repr

def BlockEvent.update (set : Nat) (tag : IntPtr) (r : Option BlockRecord) (e : BlockEvent) : Option BlockRecord :=
  if e.set = set ∧ e.tag = tag then
    match e.outcome with
    | .hit => r.map fun r => { r with hits := r.hits + 1 }
    | .inserted _ => some ⟨e.inPfq,0⟩
    | .bypassed | .ignored => r
  else r

def blockRecord (set : Nat) (tag : IntPtr) (events : List BlockEvent) : Option BlockRecord :=
  events.foldl (BlockEvent.update set tag) none

def counted : Option BlockRecord → Option Nat
  | some ⟨true,hits⟩ => some hits
  | _ => none

structure History where
  state : SoftwareLlc
  events : List BlockEvent

def outcomeOf (bhistThd : Nat) (s : SoftwareLlc) (c : Call) : Outcome :=
  (s.accessLLCSw bhistThd c.pfq c.address).outcome

def eventOf (bhistThd : Nat) (s : SoftwareLlc) (c : Call) : BlockEvent :=
  ⟨getSetSw c.address,getTagSw c.address,recentPFNContains c.pfq (getTagSw c.address),s.outcomeOf bhistThd c⟩

def History.next (bhistThd : Nat) (h : History) (c : Call) : History :=
  ⟨h.state.step bhistThd c,h.events ++ [h.state.eventOf bhistThd c]⟩

def History.start : History := ⟨create,[]⟩

def TrainsFromHistory (bhistThd : Nat) (h : History) (c : Call) : Prop :=
  ∀ evicted, h.state.outcomeOf bhistThd c = .inserted (some evicted) → (h.state.step bhistThd c).bhist =
      trainBhist h.state.bhist evicted (counted (blockRecord (getSetSw c.address) evicted h.events))

def Inserts (bhistThd : Nat) (s : SoftwareLlc) (c : Call) : Prop :=
  ¬ s.Resident (getSetSw c.address) (getTagSw c.address) ∧
  (s.allocBlocks (getSetSw c.address) < llcAssociativity ∨
    s.shouldBypassLLC bhistThd c.pfq (getTagSw c.address) = false)

@[mk_iff]
structure Undisturbed (bhistThd : Nat) (h : History) (c : Call) : Prop where
  hitUntracked : h.state.Resident (getSetSw c.address) (getTagSw c.address) → getTagSw c.address ∉ c.pfq
  insertFresh : Inserts bhistThd h.state c → getTagSw c.address ∉ c.pfq → h.state.llcHits (getTagSw c.address) = none
  hitAlone : h.state.Resident (getSetSw c.address) (getTagSw c.address) →
    h.state.llcHits (getTagSw c.address) ≠ none →
    ∀ set, set < llcSets → h.state.Resident set (getTagSw c.address) → set = getSetSw c.address
  insertAlone : Inserts bhistThd h.state c → getTagSw c.address ∈ c.pfq →
    ∀ set, set < llcSets → h.state.Resident set (getTagSw c.address) → set = getSetSw c.address
  -- in set 2047 the shift stores behind the table
  noSpill : EvictingMiss bhistThd h.state c → getSetSw c.address + 1 < llcSets ∧
    h.state.allocBlocks (getSetSw c.address + 1) = 0

structure Accounted (h : History) : Prop where
  bounded : h.state.Bounded
  recorded : ∀ set tag, set < llcSets → h.state.Resident set tag →
    ∃ r, blockRecord set tag h.events = some r ∧ h.state.llcHits tag = counted (some r)

@[simp] theorem blockRecord_concat (set : Nat) (tag : IntPtr) (events : List BlockEvent)
    (e : BlockEvent) : blockRecord set tag (events ++ [e]) = e.update set tag (blockRecord set tag events) := by
  simp [blockRecord]

theorem resident_rowInsert {s s' : SoftwareLlc} {set pivot : Nat} {tag : IntPtr}
    (hllc : s'.llc = rowInsert s.llc set pivot tag) (hp : pivot ≤ llcAssociativity)
    (halloc : ∀ row, s'.allocBlocks row ≤ llcAssociativity)
    (hrow : ∀ row, row ≠ set → s'.allocBlocks row = s.allocBlocks row)
    (hset : s'.allocBlocks set = max (s.allocBlocks set) (min (pivot + 1) llcAssociativity))
    (hpiv : pivot ≤ s.allocBlocks set)
    (hspill : pivot = llcAssociativity → s.allocBlocks (set + 1) = 0) (hr : s'.Resident row t) :
    (row = set ∧ t = tag) ∨ s.Resident row t := by
  obtain ⟨i,hi,ht⟩ := hr
  have hi16 : i < llcAssociativity := lt_of_lt_of_le hi (halloc row)
  rw [hllc] at ht
  by_cases hrs : row = set
  · subst hrs
    rw [rowInsert_cell] at ht
    split_ifs at ht with h0 hle
    · exact .inl ⟨rfl,ht.symm⟩
    · exact .inr ⟨i - 1,by omega,ht⟩
    · exact .inr ⟨i,by omega,ht⟩
  · rw [hrow row hrs] at hi
    rw [rowInsert_other _ _ hrs hp ?_ hi16] at ht
    · exact .inr ⟨i,hi,ht⟩
    · rintro hfull rfl
      exact absurd hi (by rw [hspill hfull]; omega)

theorem update_other (e : BlockEvent) (set : Nat) (tag : IntPtr) (r : Option BlockRecord)
    (h : ¬ (set = e.set ∧ tag = e.tag)) : e.update set tag r = r := by
  have h' : ¬ (e.set = set ∧ e.tag = tag) := fun hh => h ⟨hh.1.symm,hh.2.symm⟩
  simp [BlockEvent.update,h']

theorem recentPFNContains_eq (pfq : List IntPtr) (tag : IntPtr) : recentPFNContains pfq tag = decide (tag ∈ pfq) := by
  rw [Bool.eq_iff_iff]
  simp [recentPFNContains]

theorem recorded_insertion (hu : Undisturbed bt h c) (ha : Accounted h) (inserts : Inserts bt h.state c)
    (o : Option IntPtr) (hlt : row < llcSets)
    (hr : (row = getSetSw c.address ∧ t = getTagSw c.address) ∨ h.state.Resident row t) :
    ∃ r, blockRecord row t (h.events ++
        [⟨getSetSw c.address,getTagSw c.address,recentPFNContains c.pfq (getTagSw c.address),.inserted o⟩]) = some r ∧
      resetHits c.pfq h.state.llcHits (getTagSw c.address) t = counted (some r) := by
  rw [blockRecord_concat]
  by_cases hsame : row = getSetSw c.address ∧ t = getTagSw c.address
  · obtain ⟨rfl,rfl⟩ := hsame
    refine ⟨⟨recentPFNContains c.pfq (getTagSw c.address),0⟩,by simp [BlockEvent.update],?_⟩
    by_cases hp : getTagSw c.address ∈ c.pfq
    · simp [resetHits,hp,recentPFNContains_eq,counted]
    · simp [resetHits,hp,recentPFNContains_eq,counted,hu.insertFresh inserts hp]
  · have hres : h.state.Resident row t := hr.resolve_left hsame
    obtain ⟨r,hrec,hhits⟩ := ha.recorded row t hlt hres
    refine ⟨r,?_,?_⟩
    · rwa [update_other _ _ _ _ hsame]
    · have hkeep : ¬ (t = getTagSw c.address ∧ getTagSw c.address ∈ c.pfq) := by
        rintro ⟨rfl,hp⟩
        exact hsame ⟨hu.insertAlone inserts hp row hlt hres,rfl⟩
      rwa [resetHits,if_neg hkeep]

theorem recorded_hit (hu : Undisturbed bt h c) (ha : Accounted h)
    (hit : h.state.Resident (getSetSw c.address) (getTagSw c.address)) (hlt : row < llcSets)
    (hres : h.state.Resident row t) : ∃ r, blockRecord row t (h.events ++
        [⟨getSetSw c.address,getTagSw c.address,recentPFNContains c.pfq (getTagSw c.address),.hit⟩]) = some r ∧
      resetHits c.pfq (bumpHits h.state.llcHits (getTagSw c.address)) (getTagSw c.address) t = counted (some r) := by
  have hp := hu.hitUntracked hit
  obtain ⟨r,hrec,hhits⟩ := ha.recorded row t hlt hres
  rw [blockRecord_concat,hrec]
  by_cases hsame : row = getSetSw c.address ∧ t = getTagSw c.address
  · obtain ⟨rfl,rfl⟩ := hsame
    refine ⟨{ r with hits := r.hits + 1 },by simp [BlockEvent.update],?_⟩
    rw [resetHits,if_neg (fun hh => hp hh.2),bumpHits,if_pos rfl,hhits]
    obtain ⟨tracked,hits⟩ := r
    cases tracked <;> rfl
  · refine ⟨r,update_other _ _ _ _ hsame,?_⟩
    rw [resetHits,if_neg (fun hh => hp hh.2),bumpHits]
    split
    · rename_i ht
      subst ht
      cases hh : h.state.llcHits (getTagSw c.address) with
      | none =>
        rw [← hhits,hh]
        rfl
      | some n =>
        have hne : h.state.llcHits (getTagSw c.address) ≠ none := by simp [hh]
        exact absurd ⟨hu.hitAlone hit hne row hlt hres,rfl⟩ hsame
    · exact hhits

theorem accounted_next (bt : Nat) (h : History) (c : Call) (ha : Accounted h)
    (hu : Undisturbed bt h c) : Accounted (h.next bt c) := by
  have hb := bounded_step bt h.state c ha.bounded
  refine ⟨hb,fun row t hlt hr => ?_⟩
  simp only [History.next,step,eventOf,outcomeOf] at hb hr ⊢
  cases access_case bt c.pfq h.state c.address with
  | hit i hi ht first outcome state writes =>
    rw [state] at hb hr
    rw [outcome,state]
    have hi' : i < llcAssociativity := lt_of_lt_of_le hi (ha.bounded _)
    have hres := resident_rowInsert (s := h.state) rfl (le_of_lt hi') hb (fun _ _ => rfl) (by dsimp only; omega)
      (le_of_lt hi) (fun hh => by omega) hr
    have hres' : h.state.Resident row t := by
      rcases hres with ⟨rfl,rfl⟩ | hres
      · exact ⟨i,hi,ht⟩
      · exact hres
    exact recorded_hit hu ha ⟨i,hi,ht⟩ hlt hres'
  | fill absent room outcome state writes =>
    rw [state] at hb hr
    rw [outcome,state]
    have hres := resident_rowInsert (s := h.state) rfl (le_of_lt room) hb (fun _ hne => Function.update_of_ne hne _ _)
      (by simp only [Function.update_self]; omega) (le_refl _) (fun hh => by omega) hr
    exact recorded_insertion hu ha ⟨absent,.inl room⟩ none hlt hres
  | bypass absent full dead outcome state writes =>
    rw [state] at hr
    rw [outcome,state]
    obtain ⟨r,hrec,hhits⟩ := ha.recorded row t hlt hr
    refine ⟨r,?_,hhits⟩
    rw [blockRecord_concat,hrec]
    simp [BlockEvent.update]
  | evict absent full live outcome state writes =>
    rw [state] at hb hr
    rw [outcome,state]
    have hres := resident_rowInsert (s := h.state) rfl (le_refl _) hb (fun _ _ => rfl) (by dsimp only; omega) (by omega)
      (fun _ => (hu.noSpill ⟨full,absent,live⟩).2) hr
    exact recorded_insertion hu ha ⟨absent,.inr live⟩ _ hlt hres
  | overfull above outcome state writes =>
    have := ha.bounded (getSetSw c.address)
    omega

theorem trains_of_accounted (bt : Nat) (h : History) (c : Call) (ha : Accounted h) : TrainsFromHistory bt h c := by
  intro evicted hout
  rw [step]
  rw [outcomeOf] at hout
  cases access_case bt c.pfq h.state c.address with
  | hit i hi ht first outcome state writes | fill absent room outcome state writes
  | bypass absent full dead outcome state writes | overfull above outcome state writes =>
    rw [outcome] at hout
    cases hout
  | evict absent full live outcome state writes =>
    rw [outcome] at hout
    cases hout
    have hset : getSetSw c.address < llcSets := Nat.mod_lt _ (by decide)
    obtain ⟨r,hrec,hhits⟩ := ha.recorded (getSetSw c.address) _ hset ⟨llcAssociativity - 1,by rw [full]; decide,rfl⟩
    rw [state,hrec,← hhits]

theorem cbpred_trains_of_undisturbed (bhistThd : Nat) (calls : List Call)
    (h : Run.Along (History.next bhistThd) (Undisturbed bhistThd) .start calls) :
    Run.Along (History.next bhistThd) (TrainsFromHistory bhistThd) .start calls :=
  Run.along_of_invariant (accounted_next bhistThd)
    (fun h c ha _ => trains_of_accounted bhistThd h c ha) (⟨fun _ => Nat.zero_le _,fun _ _ _ hr => by
    obtain ⟨i,hi,-⟩ := hr
    exact absurd hi (Nat.not_lt_zero i)⟩) h

instance (bhistThd : Nat) (s : SoftwareLlc) (c : Call) : Decidable (Inserts bhistThd s c) :=
  inferInstanceAs (Decidable (_ ∧ _))

instance (bhistThd : Nat) (s : SoftwareLlc) (c : Call) : Decidable (EvictingMiss bhistThd s c) :=
  inferInstanceAs (Decidable (_ ∧ _))

instance (bhistThd : Nat) (h : History) (c : Call) : Decidable (Undisturbed bhistThd h c) :=
  decidable_of_iff' _ (undisturbed_iff bhistThd h c)

def pageCall (pfq : List IntPtr) (tag : Nat) : Call := ⟨pfq,BitVec.ofNat 64 (tag * 2 ^ 17)⟩

def deadBlockCalls : List Call := pageCall [1] 1 :: (List.range 16).map fun i => pageCall [] (i + 2)

theorem cbpred_trains_of_undisturbed_dead_block :
    Run.Along (History.next defaultBhistThd) (TrainsFromHistory defaultBhistThd) .start deadBlockCalls :=
  cbpred_trains_of_undisturbed defaultBhistThd deadBlockCalls (by decide +kernel)

def hitBlockCalls : List Call := pageCall [1] 1 :: pageCall [1] 1 :: (List.range 15).map fun i => pageCall [] (i + 2)

def hitBlockHistory : History := hitBlockCalls.foldl (History.next defaultBhistThd) .start

theorem hit_block_trained_as_dead : blockRecord 0 1 hitBlockHistory.events = some ⟨true,1⟩ ∧
      hitBlockHistory.state.outcomeOf defaultBhistThd (pageCall [] 17) = .inserted (some 1) ∧
      (hitBlockHistory.state.step defaultBhistThd (pageCall [] 17)).bhist (findHash 1 blockBits) = 1 ∧
      ¬ TrainsFromHistory defaultBhistThd hitBlockHistory (pageCall [] 17) := by
  have hrec : blockRecord 0 1 hitBlockHistory.events = some ⟨true,1⟩ := by decide +kernel
  have hout : hitBlockHistory.state.outcomeOf defaultBhistThd (pageCall [] 17) = .inserted (some 1) := by decide +kernel
  have hset : getSetSw (pageCall [] 17).address = 0 := by decide +kernel
  have hone : (hitBlockHistory.state.step defaultBhistThd (pageCall [] 17)).bhist
      (findHash 1 blockBits) = 1 := by decide +kernel
  refine ⟨hrec,hout,hone,?_⟩
  intro h
  have h1 := congrFun (h 1 hout) (findHash 1 blockBits)
  rw [hone,hset,hrec,counted,trainBhist,Function.update_self] at h1
  cases h1

end SoftwareLlc
