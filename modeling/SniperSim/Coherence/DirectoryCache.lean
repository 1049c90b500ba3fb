import Mathlib.Data.Fintype.EquivFin
import Mathlib.Data.Nat.ModEq
import SniperSim.Library.Run

open List Option
namespace Coherence

inductive Place (w : Nat)
  | way (index : Fin w)
  | replaced (index : Nat)
deriving DecidableEq, Repr

inductive DirectoryCacheFault
  | candidatePresent | replacedNotFound | invalidatedNotFound
deriving DecidableEq, Repr

structure DramDirectoryCache (Addr : Type) (w : Nat) where
  ways : Nat → Fin w → Option Addr
  replaced : List Addr
  replacementPtrs : Nat → UInt32

namespace DramDirectoryCache
variable {Addr : Type} {w : Nat} {si : Addr → Nat}

def create (replacementPtrs : Nat → UInt32) : DramDirectoryCache Addr w := ⟨fun _ _ => none,[],replacementPtrs⟩

def setWay (d : DramDirectoryCache Addr w) (k : Nat) (i : Fin w) (a : Addr) : DramDirectoryCache Addr w :=
  { d with ways := Function.update d.ways k (Function.update (d.ways k) i (some a)) }

def replaceWay (d : DramDirectoryCache Addr w) (k : Nat) (i : Fin w) (r a : Addr) : DramDirectoryCache Addr w :=
  { d.setWay k i a with replaced := d.replaced ++ [r] }

def candidate (d : DramDirectoryCache Addr w) (k : Nat) (i : Fin w) : Fin w :=
  ⟨(UInt32.ofNat i + d.replacementPtrs k).toNat % w,Nat.mod_lt _ i.pos⟩

def advance (d : DramDirectoryCache Addr w) (k : Nat) : DramDirectoryCache Addr w :=
  { d with replacementPtrs := Function.update d.replacementPtrs k (d.replacementPtrs k + 1) }

def Present (setIndex : Addr → Nat) (d : DramDirectoryCache Addr w) (a : Addr) : Prop :=
  (∃ i, d.ways (setIndex a) i = some a) ∨ a ∈ d.replaced

structure Stored (setIndex : Addr → Nat) (d : DramDirectoryCache Addr w) : Prop where
  homed : ∀ k i a, d.ways k i = some a → setIndex a = k
  single : ∀ k i j a, d.ways k i = some a → d.ways k j = some a → i = j
  nodup : d.replaced.Nodup
  apart : ∀ a ∈ d.replaced, ∀ i, d.ways (setIndex a) i ≠ some a
  full : ∀ a ∈ d.replaced, ∀ i, d.ways (setIndex a) i ≠ none

section
variable {d : DramDirectoryCache Addr w} {a b : Addr} {k : Nat} {i : Fin w}
  {t : DramDirectoryCache Addr w × Option (Place w)}

theorem stored_create (ptrs : Nat → UInt32) : Stored si (create ptrs : DramDirectoryCache Addr w) := by
  constructor
  case homed => intro k i a h; cases h
  case single => intro k i j a h; cases h
  case nodup => exact nodup_nil
  case apart => intro a h; cases h
  case full => intro a h; cases h

theorem stored_advance (h : Stored si d) : Stored si (d.advance k) := { h with }

theorem ways_setWay (k' : Nat) (j : Fin w) :
    (d.setWay k i a).ways k' j = if k' = k ∧ j = i then some a else d.ways k' j := by
  unfold setWay
  by_cases hk : k' = k
  · subst hk
    by_cases hj : j = i
    · simp [hj]
    · simp [hj]
  · simp [hk]

theorem Stored.setWay (h : Stored si d) (hp : ¬Present si d a) : Stored si (d.setWay (si a) i a) := by
  constructor
  case homed =>
    intro k j b hb
    rw [ways_setWay] at hb
    split_ifs at hb with hj
    · cases hb
      exact hj.1.symm
    · exact h.homed k j b hb
  case single =>
    intro k j j' b hb hb'
    rw [ways_setWay] at hb hb'
    split_ifs at hb hb' with hj hj' hj'
    · exact hj.2.trans hj'.2.symm
    · cases hb
      exact (hp (.inl ⟨j',hj.1 ▸ hb'⟩)).elim
    · obtain rfl := some.inj hb'
      exact (hp (.inl ⟨j,hj'.1 ▸ hb⟩)).elim
    · exact h.single k j j' b hb hb'
  case nodup => exact h.nodup
  case apart =>
    intro b hb j hj
    rw [ways_setWay] at hj
    split_ifs at hj with hij
    · cases hj
      exact hp (.inr hb)
    · exact h.apart b hb j hj
  case full =>
    intro b hb j hj
    rw [ways_setWay] at hj
    split_ifs at hj with hij
    exact h.full b hb j hj

theorem present_setWay (hi : d.ways (si a) i = none) : Present si (d.setWay (si a) i a) b ↔ b = a ∨ Present si d b := by
  constructor
  · rintro (⟨j,hj⟩ | hb)
    · rw [ways_setWay] at hj
      split_ifs at hj with hij
      · exact .inl (some.inj hj).symm
      · exact .inr (.inl ⟨j,hj⟩)
    · exact .inr (.inr hb)
  · rintro (rfl | ⟨j,hj⟩ | hb)
    · exact .inl ⟨i,by simp [ways_setWay]⟩
    · refine .inl ⟨j,?_⟩
      rw [ways_setWay,if_neg,hj]
      rintro ⟨hk,rfl⟩
      rw [hk,hi] at hj
      cases hj
    · exact .inr hb

theorem Stored.replaceWay (h : Stored si d) (hp : ¬Present si d a) (hi : d.ways (si a) i = some r)
    (hfull : ∀ j, d.ways (si a) j ≠ none) : Stored si (d.replaceWay (si a) i r a) := by
  have hset : si r = si a := h.homed _ _ _ hi
  have hne : r ≠ a := fun hra => hp (.inl ⟨i,hra ▸ hi⟩)
  have hs := h.setWay (i := i) hp
  constructor
  case homed => exact hs.homed
  case single => exact hs.single
  case nodup =>
    refine nodup_append.mpr ⟨h.nodup,nodup_singleton r,?_⟩
    rintro b hb c hc rfl
    obtain rfl := mem_singleton.mp hc
    exact h.apart b hb i (hset ▸ hi)
  case apart =>
    intro b hb j hj
    rcases mem_append.mp hb with hb | hb
    · exact hs.apart b hb j hj
    · obtain rfl := mem_singleton.mp hb
      change (d.setWay (si a) i a).ways (si b) j = some b at hj
      rw [ways_setWay] at hj
      split_ifs at hj with hij
      · exact hne (some.inj hj).symm
      · exact hij ⟨hset,h.single _ j i b hj (hset ▸ hi)⟩
  case full =>
    intro b hb j hj
    rcases mem_append.mp hb with hb | hb
    · exact hs.full b hb j hj
    · obtain rfl := mem_singleton.mp hb
      change (d.setWay (si a) i a).ways (si b) j = none at hj
      rw [ways_setWay,hset] at hj
      split_ifs at hj with hij
      exact hfull j hj

theorem present_replaceWay (h : Stored si d) (hi : d.ways (si a) i = some r) :
    Present si (d.replaceWay (si a) i r a) b ↔ b = a ∨ Present si d b := by
  constructor
  · rintro (⟨j,hj⟩ | hb)
    · change (d.setWay (si a) i a).ways (si b) j = some b at hj
      rw [ways_setWay] at hj
      split_ifs at hj with hij
      · exact .inl (some.inj hj).symm
      · exact .inr (.inl ⟨j,hj⟩)
    · rcases mem_append.mp hb with hb | hb
      · exact .inr (.inr hb)
      · obtain rfl := mem_singleton.mp hb
        exact .inr (.inl ⟨i,h.homed _ _ _ hi ▸ hi⟩)
  · rintro (rfl | ⟨j,hj⟩ | hb)
    · exact .inl ⟨i,by simp [replaceWay,ways_setWay]⟩
    · by_cases hij : si b = si a ∧ j = i
      · obtain ⟨hk,rfl⟩ := hij
        rw [hk,hi] at hj
        obtain rfl := some.inj hj
        exact .inr (mem_append_right _ (mem_singleton_self r))
      · refine .inl ⟨j,?_⟩
        change (d.setWay (si a) i a).ways (si b) j = some b
        rw [ways_setWay,if_neg hij,hj]
    · exact .inr (mem_append_left _ hb)

inductive Looked (setIndex : Addr → Nat) (d : DramDirectoryCache Addr w) (a : Addr) :
    DramDirectoryCache Addr w × Option (Place w) → Prop
  | found (p : Place w) (hp : Present setIndex d a) : Looked setIndex d a (d,some p)
  | allocated (i : Fin w) (hp : ¬Present setIndex d a) (hi : d.ways (setIndex a) i = none) :
      Looked setIndex d a (d.setWay (setIndex a) i a,some (.way i))
  | missing (hp : ¬Present setIndex d a) (hfull : ∀ i, d.ways (setIndex a) i ≠ none) : Looked setIndex d a (d,none)

theorem Looked.stored (h : Stored si d) (hl : Looked si d a t) : Stored si t.1 := by
  cases hl with
  | found p hp | missing hp hfull => exact h
  | allocated i hp hi => exact h.setWay hp

variable (hl : Looked si d a t)
include hl

theorem Looked.replaced : t.1.replaced = d.replaced := by
  cases hl with
  | found p hp | allocated i hp hi | missing hp hfull => rfl

theorem Looked.present_of_ne (hb : b ≠ a) : Present si t.1 b ↔ Present si d b := by
  cases hl with
  | found p hp | missing hp hfull => exact Iff.rfl
  | allocated i hp hi => rw [present_setWay hi,or_iff_right hb]

theorem Looked.present (ht : t.2.isSome) : Present si t.1 b ↔ b = a ∨ Present si d b := by
  cases hl with
  | found p hp =>
    constructor
    · exact .inr
    · rintro (rfl | hb)
      · exact hp
      · exact hb
  | allocated i hp hi => exact present_setWay hi
  | missing hp hfull => cases ht
end

section
variable [DecidableEq Addr]

def findWay (d : DramDirectoryCache Addr w) (k : Nat) (o : Option Addr) : Option (Fin w) :=
  (finRange w).find? fun i => d.ways k i == o

def getDirectoryEntry (setIndex : Addr → Nat) (d : DramDirectoryCache Addr w) (a : Addr) :
    DramDirectoryCache Addr w × Option (Place w) :=
  match d.findWay (setIndex a) (some a) with
  | some i => (d,some (.way i))
  | none =>
    match d.findWay (setIndex a) none with
    | some i => (d.setWay (setIndex a) i a,some (.way i))
    | none => (d,(d.replaced.findIdx? (· = a)).map .replaced)

def getReplacementCandidates (setIndex : Addr → Nat) (d : DramDirectoryCache Addr w) (a : Addr) :
    Except DirectoryCacheFault (DramDirectoryCache Addr w × List (Fin w)) :=
  if (d.getDirectoryEntry setIndex a).2.isSome then .error .candidatePresent
  else .ok (d.advance (setIndex a),(finRange w).map (d.candidate (setIndex a)))

def replaceDirectoryEntry (setIndex : Addr → Nat) (d : DramDirectoryCache Addr w) (r a : Addr) :
    Except DirectoryCacheFault (DramDirectoryCache Addr w) :=
  match d.findWay (setIndex r) (some r) with
  | some i => .ok (d.replaceWay (setIndex r) i r a)
  | none => .error .replacedNotFound

def invalidateDirectoryEntry (d : DramDirectoryCache Addr w) (a : Addr) :
    Except DirectoryCacheFault (DramDirectoryCache Addr w) :=
  if a ∈ d.replaced then .ok { d with replaced := d.replaced.erase a }
  else .error .invalidatedNotFound

inductive Call (Addr : Type)
  | get (a : Addr)
  | candidates (a : Addr)
  | replace (r a : Addr)
  | invalidate (a : Addr)

def call (setIndex : Addr → Nat) (d : DramDirectoryCache Addr w) :
    Call Addr → Except DirectoryCacheFault (DramDirectoryCache Addr w)
  | .get a => .ok (d.getDirectoryEntry setIndex a).1
  | .candidates a => Prod.fst <$> d.getReplacementCandidates setIndex a
  | .replace r a => d.replaceDirectoryEntry setIndex r a
  | .invalidate a => d.invalidateDirectoryEntry a

abbrev Calls (setIndex : Addr → Nat) : DramDirectoryCache Addr w → DramDirectoryCache Addr w → Prop :=
  Run.Reaches (call setIndex) fun d _ => Stored setIndex d

def places (setIndex : Addr → Nat) (d : DramDirectoryCache Addr w) (a : Addr) : List (Place w) :=
  ((finRange w).filter fun i => d.ways (setIndex a) i = some a).map .way ++
    ((range d.replaced.length).filter fun j => d.replaced[j]? = some a).map .replaced

def Unique (setIndex : Addr → Nat) (d : DramDirectoryCache Addr w) : Prop :=
  ∀ a, (d.places setIndex a).length ≤ 1 ∧ ∀ p ∈ d.places setIndex a, d.getDirectoryEntry setIndex a = (d,some p)

variable {d d' : DramDirectoryCache Addr w} {a b r : Addr} {k : Nat} {i : Fin w} {o : Option Addr}

theorem findWay_some (h : d.findWay k o = some i) : d.ways k i = o := by
  simpa using find?_some h

theorem findWay_none (h : d.findWay k o = none) (i : Fin w) : d.ways k i ≠ o := by
  simpa using find?_eq_none.mp h i (by simp)

theorem Stored.findWay_eq (h : Stored si d) (hi : d.ways k i = some a) : d.findWay k (some a) = some i := by
  cases hf : d.findWay k (some a) with
  | none => exact (findWay_none hf i hi).elim
  | some j => rw [h.single k j i a (findWay_some hf) hi]

theorem Stored.get_of_present (h : Stored si d) (hp : Present si d a) :
    (d.getDirectoryEntry si a).1 = d ∧ (d.getDirectoryEntry si a).2.isSome := by
  unfold getDirectoryEntry
  rcases hp with ⟨i,hi⟩ | ha
  · rw [h.findWay_eq hi]
    exact ⟨rfl,rfl⟩
  · cases hf : d.findWay (si a) (some a) with
    | some i => exact ⟨rfl,rfl⟩
    | none =>
      cases hn : d.findWay (si a) none with
      | some i => exact (h.full a ha i (findWay_some hn)).elim
      | none =>
        refine ⟨rfl,?_⟩
        simpa using ha

theorem not_present_findWay (hp : ¬Present si d a) : d.findWay (si a) (some a) = none := by
  cases hf : d.findWay (si a) (some a) with
  | none => rfl
  | some i => exact (hp (.inl ⟨i,findWay_some hf⟩)).elim

section
variable (h : Stored si d)
include h

theorem Stored.looked (a : Addr) : Looked si d a (d.getDirectoryEntry si a) := by
  by_cases hp : Present si d a
  · obtain ⟨hd,hs⟩ := h.get_of_present hp
    obtain ⟨p,hp'⟩ := isSome_iff_exists.mp hs
    rw [← Prod.eta (d.getDirectoryEntry si a),hd,hp']
    exact .found p hp
  · unfold getDirectoryEntry
    rw [not_present_findWay hp]
    cases hn : d.findWay (si a) none with
    | some i => exact .allocated i hp (findWay_some hn)
    | none =>
      have hr : d.replaced.findIdx? (· = a) = none := by
        rw [findIdx?_eq_none_iff]
        intro b hb
        exact decide_eq_false fun hba => hp (.inr (hba ▸ hb))
      simp only [hr,map_none]
      exact .missing hp (findWay_none hn)

theorem Stored.replace_spec (hi : d.ways (si a) i = some r) :
    d.replaceDirectoryEntry si r a = .ok (d.replaceWay (si a) i r a) := by
  have hset : si r = si a := h.homed _ _ _ hi
  unfold replaceDirectoryEntry
  rw [hset,h.findWay_eq hi]

theorem Stored.invalidate : Stored si { d with replaced := d.replaced.erase a } := by
  constructor
  case homed => exact h.homed
  case single => exact h.single
  case nodup => exact h.nodup.erase a
  case apart => exact fun b hb => h.apart b (mem_of_mem_erase hb)
  case full => exact fun b hb => h.full b (mem_of_mem_erase hb)

theorem Stored.present_invalidate (ha : a ∈ d.replaced) : Present si { d with replaced := d.replaced.erase a } b ↔
      b ≠ a ∧ Present si d b := by
  constructor
  · rintro (⟨i,hi⟩ | hb)
    · refine ⟨?_,.inl ⟨i,hi⟩⟩
      rintro rfl
      exact h.apart b ha i hi
    · have hb := h.nodup.mem_erase_iff.mp hb
      exact ⟨hb.1,.inr hb.2⟩
  · rintro ⟨hne,⟨i,hi⟩ | hb⟩
    · exact .inl ⟨i,hi⟩
    · exact .inr (h.nodup.mem_erase_iff.mpr ⟨hne,hb⟩)
end

theorem invalidate_spec (ha : a ∈ d.replaced) :
    d.invalidateDirectoryEntry a = .ok { d with replaced := d.replaced.erase a } := if_pos ha

section
variable (h : Stored si d)
include h

theorem Stored.candidates_spec (hp : ¬Present si d a) (hfull : ∀ i, d.ways (si a) i ≠ none) :
    d.getReplacementCandidates si a = .ok (d.advance (si a),(finRange w).map (d.candidate (si a))) := by
  unfold getReplacementCandidates
  have hl := h.looked a
  generalize d.getDirectoryEntry si a = t at hl
  cases hl with
  | found p hp' => exact absurd hp' hp
  | allocated i hp' hi => exact absurd hi (hfull i)
  | missing hp' hfu' => rfl

theorem Stored.calls_get (a : Addr) : Calls si d (d.getDirectoryEntry si a).1 :=
  Run.Reaches.refl.tail (l := .get a) h rfl

theorem Stored.calls_invalidate (ha : a ∈ d.replaced) : Calls si d { d with replaced := d.replaced.erase a } :=
  Run.Reaches.refl.tail (l := .invalidate a) h (invalidate_spec ha)

theorem Stored.calls_replace (hp : ¬Present si d a)
    (hfull : ∀ i, d.ways (si a) i ≠ none) (hi : d.ways (si a) i = some r) :
    Calls si d ((d.advance (si a)).replaceWay (si a) i r a) := by
  have hc : call si d (.candidates a) = .ok (d.advance (si a)) := by
    rw [call,h.candidates_spec hp hfull]
    rfl
  have hadv := stored_advance (k := si a) h
  have hcand : Calls si d (d.advance (si a)) := Run.Reaches.refl.tail h hc
  exact hcand.tail (l := .replace r a) hadv (hadv.replace_spec hi)
end

theorem mem_places_way : .way i ∈ d.places si a ↔ d.ways (si a) i = some a := by
  simp [places]

theorem mem_places_replaced : .replaced j ∈ d.places si a ↔ d.replaced[j]? = some a := by
  simp only [places,mem_append,List.mem_map,mem_filter,mem_range,decide_eq_true_eq]
  constructor
  · rintro (⟨i,-,hi⟩ | ⟨i,⟨-,hi⟩,hij⟩)
    · cases hi
    · cases hij
      exact hi
  · intro hj
    exact .inr ⟨j,⟨(List.getElem?_eq_some_iff.mp hj).1,hj⟩,rfl⟩

theorem nodup_places : (d.places si a).Nodup := by
  refine nodup_append.mpr ⟨?_,?_,?_⟩
  · exact ((nodup_finRange w).filter _).map fun i j h => Place.way.inj h
  · exact (nodup_range.filter _).map fun i j h => Place.replaced.inj h
  · intro p hp q hq hpq
    obtain ⟨i,-,rfl⟩ := List.mem_map.mp hp
    obtain ⟨j,-,rfl⟩ := List.mem_map.mp hq
    cases hpq

theorem present_iff_places : Present si d a ↔ d.places si a ≠ [] := by
  constructor
  · rintro (⟨i,hi⟩ | ha)
    · exact ne_nil_of_mem (mem_places_way.mpr hi)
    · obtain ⟨j,hj⟩ := mem_iff_getElem?.mp ha
      exact ne_nil_of_mem (mem_places_replaced.mpr hj)
  · intro hne
    obtain ⟨p,hp⟩ := exists_mem_of_ne_nil _ hne
    cases p with
    | way i => exact .inl ⟨i,mem_places_way.mp hp⟩
    | replaced j => exact .inr (mem_iff_getElem?.mpr ⟨j,mem_places_replaced.mp hp⟩)

variable (h : Stored si d)
include h

theorem Stored.findIdx (hj : d.replaced[j]? = some a) : d.replaced.findIdx? (· = a) = some j := by
  obtain ⟨hlt,hja⟩ := List.getElem?_eq_some_iff.mp hj
  rw [findIdx?_eq_some_iff_getElem]
  refine ⟨hlt,by simpa using hja,fun m hm => ?_⟩
  rw [decide_eq_true_eq]
  intro hma
  exact absurd (h.nodup.getElem_inj_iff.mp (hma.trans hja.symm)) (Nat.ne_of_lt hm)

theorem Stored.get_of_place (hp : p ∈ d.places si a) : d.getDirectoryEntry si a = (d,some p) := by
  unfold getDirectoryEntry
  cases p with
  | way i => rw [h.findWay_eq (mem_places_way.mp hp)]
  | replaced j =>
    have hj := mem_places_replaced.mp hp
    have ha : a ∈ d.replaced := mem_iff_getElem?.mpr ⟨j,hj⟩
    cases hf : d.findWay (si a) (some a) with
    | some i => exact (h.apart a ha i (findWay_some hf)).elim
    | none =>
      cases hn : d.findWay (si a) none with
      | some i => exact (h.full a ha i (findWay_some hn)).elim
      | none => simp [h.findIdx hj]

theorem Stored.places_length (a : Addr) : (d.places si a).length ≤ 1 := by
  rcases hl : d.places si a with _ | ⟨p,_ | ⟨q,ps⟩⟩
  · simp
  · simp
  · have hp := h.get_of_place (a := a) (p := p) (by simp [hl])
    have hq := h.get_of_place (a := a) (p := q) (by simp [hl])
    have hpq : p = q := some.inj (congrArg Prod.snd (hp.symm.trans hq))
    have hnd : (d.places si a).Nodup := nodup_places
    simp [hl,hpq] at hnd

theorem Stored.unique : Unique si d := fun a => ⟨h.places_length a,fun _ hp => h.get_of_place hp⟩
end

section
variable {d d' : DramDirectoryCache Addr w} {a : Addr} {k : Nat} {cs : List (Fin w)}

theorem val_candidate (d : DramDirectoryCache Addr w) (k : Nat) (i : Fin w) :
    (d.candidate k i).val = (i + (d.replacementPtrs k).toNat) % 2 ^ 32 % w := by
  simp [candidate]

def Aligned (d : DramDirectoryCache Addr w) (k : Nat) : Prop :=
  w ∣ 2 ^ 32 ∨ (d.replacementPtrs k).toNat + w ≤ 2 ^ 32

theorem Aligned.val_candidate_eq (h : Aligned d k) (i : Fin w) :
    (d.candidate k i).val = (i + (d.replacementPtrs k).toNat) % w := by
  rw [val_candidate]
  rcases h with h | h
  · exact Nat.mod_mod_of_dvd _ h
  · rw [Nat.mod_eq_of_lt (by omega : i + (d.replacementPtrs k).toNat < 2 ^ 32)]

theorem aligned_iff_injective : Aligned d k ↔ Function.Injective (d.candidate k) := by
  constructor
  · intro h i j hij
    have hmod : i + (d.replacementPtrs k).toNat ≡ j + (d.replacementPtrs k).toNat [MOD w] := by
      rw [Nat.ModEq,← h.val_candidate_eq,← h.val_candidate_eq,hij]
    exact Fin.ext ((Nat.ModEq.add_right_cancel' _ hmod).eq_of_lt_of_lt i.isLt j.isLt)
  · intro hinj
    by_contra hn
    obtain ⟨hd,hp⟩ := not_or.mp hn
    have hlt := (d.replacementPtrs k).toNat_lt
    have hval := val_candidate d k
    generalize (d.replacementPtrs k).toNat = p at hp hlt hval
    have hdiv := Nat.div_add_mod (2 ^ 32) w
    have hr : 2 ^ 32 % w ≠ 0 := fun h => hd (Nat.dvd_of_mod_eq_zero h)
    have hrw : 2 ^ 32 % w < w := Nat.mod_lt _ (by omega)
    obtain ⟨v,hv⟩ : ∃ v, v = p - w * (2 ^ 32 / w) := ⟨_,rfl⟩
    let i : Fin w := ⟨v + w * (2 ^ 32 / w) - p,by omega⟩
    let j : Fin w := ⟨v + 2 ^ 32 - p,by omega⟩
    have hi : i + p = v + w * (2 ^ 32 / w) := Nat.sub_add_cancel (by omega)
    have hj : j + p = v + 2 ^ 32 := Nat.sub_add_cancel (by omega)
    have hij : i = j := hinj (Fin.ext (by
      rw [hval,hval,hi,hj,Nat.add_mod_right,Nat.mod_eq_of_lt (by omega : v + w * (2 ^ 32 / w) < 2 ^ 32),
        Nat.mod_eq_of_lt (by omega : v < 2 ^ 32),Nat.add_mul_mod_self_left]))
    have := congrArg Fin.val hij
    omega

theorem candidates_perm_iff : ((finRange w).map (d.candidate k)).Perm (finRange w) ↔ Aligned d k := by
  rw [aligned_iff_injective]
  constructor
  · intro h i j hij
    exact inj_on_of_nodup_map (h.nodup_iff.mpr (nodup_finRange w)) (mem_finRange i) (mem_finRange j) hij
  · intro h
    exact Equiv.Perm.map_finRange_perm (Equiv.ofBijective _ (Finite.injective_iff_bijective.mp h))

theorem Aligned.next (h : Aligned d k) (i : Fin w) (hi : i.val = 0) :
    ((d.advance k).candidate k i).val = ((d.candidate k i).val + 1) % w := by
  have hptr : (d.advance k).replacementPtrs k = d.replacementPtrs k + 1 := Function.update_self ..
  rw [h.val_candidate_eq,val_candidate,hi,hptr,UInt32.toNat_add,Nat.zero_add,Nat.zero_add,Nat.mod_mod,Nat.mod_add_mod,
    UInt32.toNat_one]
  rcases h with h | h
  · exact Nat.mod_mod_of_dvd _ h
  · rcases Nat.lt_or_ge 1 w with h1 | h1
    · exact congrArg (· % w) (Nat.mod_eq_of_lt (by omega))
    · obtain rfl : w = 1 := by omega
      rw [Nat.mod_one,Nat.mod_one]

variable [DecidableEq Addr]

theorem candidates_of_ok (h : d.getReplacementCandidates si a = .ok (d',cs)) :
    d' = d.advance (si a) ∧ cs = (finRange w).map (d.candidate (si a)) := by
  unfold getReplacementCandidates at h
  split at h
  · cases h
  · cases h
    exact ⟨rfl,rfl⟩

theorem candidates_rotate_iff (h : d.getReplacementCandidates si a = .ok (d',cs)) :
    cs.Perm (finRange w) ∧ (∀ b d'' cs', si b = si a → d'.getReplacementCandidates si b = .ok (d'',cs') →
      cs'.head?.map Fin.val = cs.head?.map fun i => (i.val + 1) % w) ↔
    w ∣ 2 ^ 32 ∨ (d.replacementPtrs (si a)).toNat + w ≤ 2 ^ 32 := by
  obtain ⟨rfl,rfl⟩ := candidates_of_ok h
  rw [candidates_perm_iff]
  refine and_iff_left_of_imp fun hal b d'' cs' hb hok => ?_
  obtain ⟨-,rfl⟩ := candidates_of_ok hok
  rw [hb,head?_map,head?_map]
  cases w with
  | zero => simp
  | succ w => simpa [finRange_succ] using hal.next 0 rfl

def bothWays : DramDirectoryCache Nat 2 := ⟨fun _ i => some i.val,[],fun _ => 7⟩

theorem both_ways_rotate : ([1,0] : List (Fin 2)).Perm (finRange 2) :=
  ((candidates_rotate_iff (rfl : bothWays.getReplacementCandidates (fun _ => 0) 2 = .ok (_,[1,0]))).mpr
    (.inl (by decide))).1

theorem way_offered_twice : ([.get 0,.get 1,.get 2].foldlM (call fun _ => 0)
      (create fun _ => 4294967295 : DramDirectoryCache Nat 3) >>= fun d =>
        Prod.snd <$> d.getReplacementCandidates (fun _ => 0) 3) = .ok [0,0,1] ∧
    ¬([0,0,1] : List (Fin 3)).Perm (finRange 3) := by
  decide
end
end DramDirectoryCache
end Coherence
