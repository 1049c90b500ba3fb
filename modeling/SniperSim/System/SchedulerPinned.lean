import SniperSim.Library.Fuel
import SniperSim.Library.Stride
import SniperSim.System.SchedulerPinnedBase

open Fuel

structure PinnedConfig extends SchedConfig where
  interleaving : Nat
  coreMask : CoreId → Bool
  pos : 0 < interleaving
  le : interleaving ≤ numCores
  enabled : ∃ c < numCores, coreMask c

namespace SchedulerPinned
variable (cfg : PinnedConfig)

def nextIndex : Nat → Nat := Stride.next cfg.numCores cfg.interleaving

def classes : Nat := Stride.classes cfg.numCores cfg.interleaving

def getNextCore : Nat → CoreId → Option CoreId
  | 0, _ => none
  | fuel + 1, c =>
    if cfg.coreMask (nextIndex cfg c) then some (nextIndex cfg c) else getNextCore fuel (nextIndex cfg c)

def freeLoop (s : SchedulerPinnedBase) (first : CoreId) : Nat → CoreId → Option CoreId
  | 0, _ => none
  | fuel + 1, c =>
    if s.running c = none ∧ cfg.coreMask c then some c
    else (getNextCore cfg fuel c).bind fun d => if d = first then some first else freeLoop s first fuel d

def getFreeCore (s : SchedulerPinnedBase) (fuel : Nat) (first : CoreId) : Option CoreId :=
  freeLoop cfg s first fuel first

def Enabled (c : Nat) : Prop := c < cfg.numCores ∧ cfg.coreMask c

inductive Visits (first : CoreId) : CoreId → CoreId → Prop
  | last {c d : CoreId} : Returns (getNextCore cfg · c) d → Visits first c d
  | next {c e d : CoreId} : Returns (getNextCore cfg · c) e → e ≠ first → Visits first e d → Visits first c d

structure Placed (s : SchedulerPinnedBase) (first : CoreId) : Prop where
  returns : ∃ c, Returns (getFreeCore cfg s · first) c ∧ Enabled cfg c ∧
    ((∃ d, Enabled cfg d ∧ s.running d = none) → s.running c = none)
  visits : ∀ d, Enabled cfg d → Visits cfg first first d

variable {cfg} {c d e first fuel : Nat} {s : SchedulerPinnedBase}

theorem returns_next (h : cfg.coreMask (nextIndex cfg c)) : Returns (getNextCore cfg · c) (nextIndex cfg c) := by
  refine .of_succ ?_
  simp only [getNextCore,if_pos h]
  exact .const _

theorem returns_skip (h : ¬cfg.coreMask (nextIndex cfg c))
    (hr : Returns (getNextCore cfg · (nextIndex cfg c)) d) : Returns (getNextCore cfg · c) d := by
  refine .of_succ ?_
  simpa only [getNextCore,if_neg h] using hr

theorem Visits.skip (hm : ¬cfg.coreMask (nextIndex cfg c)) (h : Visits cfg first (nextIndex cfg c) d) :
    Visits cfg first c d := by
  cases h with
  | last hr => exact .last (returns_skip hm hr)
  | next hr hne h => exact .next (returns_skip hm hr) hne h

theorem visits_of_iterate (hm : cfg.coreMask ((nextIndex cfg)^[n + 1] c)) :
    Visits cfg first c ((nextIndex cfg)^[n + 1] c) ∨ Visits cfg first first ((nextIndex cfg)^[n + 1] c) := by
  induction n generalizing c with
  | zero => exact .inl (.last (returns_next hm))
  | succ n ih =>
    rcases ih hm with h | h
    · by_cases hn : cfg.coreMask (nextIndex cfg c)
      · by_cases hf : nextIndex cfg c = first
        · exact .inr (hf ▸ h)
        · exact .inl (.next (returns_next hn) hf h)
      · exact .inl (h.skip hn)
    · exact .inr h

theorem getNextCore_spec (hc : c < cfg.numCores) (h : getNextCore cfg fuel c = some d) :
    Enabled cfg d ∧ d ≡ c [MOD classes cfg] := by
  induction fuel generalizing c with
  | zero => simp [getNextCore] at h
  | succ fuel ih =>
    rw [getNextCore] at h
    split_ifs at h with hm
    · cases h
      exact ⟨⟨Stride.next_lt cfg.pos cfg.le,hm⟩,Stride.next_modEq cfg.le hc⟩
    · exact (ih (Stride.next_lt cfg.pos cfg.le) h).imp_right fun hd => hd.trans (Stride.next_modEq cfg.le hc)

theorem Visits.modEq (hc : c < cfg.numCores) (h : Visits cfg first c d) : d ≡ c [MOD classes cfg] := by
  induction h with
  | last hr =>
    obtain ⟨n,hn⟩ := hr
    exact (getNextCore_spec hc (hn n (Nat.le_refl n))).2
  | next hr hne h ih =>
    obtain ⟨n,hn⟩ := hr
    obtain ⟨he,hmod⟩ := getNextCore_spec hc (hn n (Nat.le_refl n))
    exact (ih he.1).trans hmod

theorem freeLoop_spec (hc : c < cfg.numCores) (h : freeLoop cfg s first fuel c = some d) :
    Enabled cfg d ∧ (s.running d = none ∨ d = first) ∧ d ≡ c [MOD classes cfg] := by
  induction fuel generalizing c with
  | zero => simp [freeLoop] at h
  | succ fuel ih =>
    rw [freeLoop] at h
    split_ifs at h with hm
    · cases h
      exact ⟨⟨hc,hm.2⟩,.inl hm.1,.refl _⟩
    · obtain ⟨e,he,hd⟩ := Option.bind_eq_some_iff.mp h
      obtain ⟨hen,hmod⟩ := getNextCore_spec hc he
      split_ifs at hd with hf
      · cases hd
        obtain rfl := hf
        exact ⟨hen,.inr rfl,hmod⟩
      · exact (ih hen.1 hd).imp_right fun hd => hd.imp_right fun hd => hd.trans hmod

theorem returns_free (h : s.running c = none ∧ cfg.coreMask c) : Returns (freeLoop cfg s first · c) c := by
  refine .of_succ ?_
  simp only [freeLoop,if_pos h]
  exact .const _

theorem returns_later (hr : Returns (getNextCore cfg · c) e)
    (hd : e = first ∧ d = first ∨ e ≠ first ∧ Returns (freeLoop cfg s first · e) d) :
    ∃ d', Returns (freeLoop cfg s first · c) d' ∧ (s.running d = none → s.running d' = none) := by
  by_cases hm : s.running c = none ∧ cfg.coreMask c
  · exact ⟨c,returns_free hm,fun _ => hm.1⟩
  · refine ⟨d,.of_succ ?_,id⟩
    simp only [freeLoop,if_neg hm]
    refine hr.bind (g := fun e fuel => if e = first then some first else freeLoop cfg s first fuel e) ?_
    rcases hd with ⟨rfl,rfl⟩ | ⟨hne,hd⟩
    · simpa using .const _
    · simpa only [if_neg hne] using hd

theorem freeLoop_ends (h : Visits cfg first c e) (he : cfg.coreMask e) (hs : s.running e = none ∨ e = first) :
    ∃ d, Returns (freeLoop cfg s first · c) d ∧ (s.running e = none → s.running d = none) := by
  induction h with
  | @last c e hr =>
    by_cases hf : e = first
    · exact returns_later hr (.inl ⟨hf,hf⟩)
    · exact returns_later hr (.inr ⟨hf,returns_free ⟨hs.resolve_right hf,he⟩⟩)
  | next hr hne h ih =>
    obtain ⟨d,hd,hfree⟩ := ih he hs
    obtain ⟨d',hd',hfree'⟩ := returns_later hr (.inr ⟨hne,hd⟩)
    exact ⟨d',hd',fun h => hfree' (hfree h)⟩

theorem pinned_placement_iff (cfg : PinnedConfig) (s : SchedulerPinnedBase) {first : Nat} (hf : first < cfg.numCores) :
    Placed cfg s first ↔ (∀ d, Enabled cfg d → d ≡ first [MOD classes cfg]) ∧
      (Enabled cfg first ∨ ∃ d, Enabled cfg d ∧ s.running d = none) := by
  constructor
  · intro h
    refine ⟨fun d hd => (h.visits d hd).modEq hf,?_⟩
    obtain ⟨c,⟨n,hn⟩,hc,_⟩ := h.returns
    rcases (freeLoop_spec hf (hn n (Nat.le_refl n))).2.1 with hfree | rfl
    · exact .inr ⟨c,hc,hfree⟩
    · exact .inl hc
  · rintro ⟨hall,hsome⟩
    have hvisits : ∀ d, Enabled cfg d → Visits cfg first first d := by
      intro d hd
      obtain ⟨n,rfl⟩ := Stride.iterate_of_modEq cfg.pos cfg.le hf hd.1 (hall d hd)
      exact or_self_iff.mp (visits_of_iterate hd.2)
    obtain ⟨e,he,hs,hfree⟩ : ∃ e, Enabled cfg e ∧ (s.running e = none ∨ e = first) ∧
        ((∃ d, Enabled cfg d ∧ s.running d = none) → s.running e = none) := by
      by_cases hex : ∃ d, Enabled cfg d ∧ s.running d = none
      · obtain ⟨d,hd,hn⟩ := hex
        exact ⟨d,hd,.inl hn,fun _ => hn⟩
      · exact ⟨first,hsome.resolve_right hex,.inr rfl,fun h => absurd h hex⟩
    obtain ⟨d,hd,hdfree⟩ : ∃ d, Returns _ d ∧ _ := freeLoop_ends (hvisits e he) he.2 hs
    refine ⟨⟨d,hd,?_,fun h => hdfree (hfree h)⟩,hvisits⟩
    obtain ⟨n,hn⟩ := hd
    exact (freeLoop_spec hf (hn n (Nat.le_refl n))).1

def fourCores (coreMask : CoreId → Bool) (h : ∃ c < 4, coreMask c) : PinnedConfig :=
  ⟨⟨4,1000⟩,3,coreMask,Nat.zero_lt_succ 2,Nat.le_succ 3,h⟩

theorem masked_walk_never_ends : ¬ ∃ c, Returns (getFreeCore (fourCores (· == 1) ⟨1,by decide⟩) .init · 0) c := by
  rintro ⟨c,n,hn⟩
  obtain ⟨hc,-,hmod⟩ := freeLoop_spec (by decide) (hn n (Nat.le_refl n))
  obtain rfl : c = 1 := by simpa [fourCores] using hc.2
  exact absurd hmod (by decide)

theorem corner_cores_placed : Placed (fourCores (· % 3 == 0) ⟨0,by decide⟩) .init 0 := by
  refine (pinned_placement_iff (fourCores (· % 3 == 0) ⟨0,by decide⟩) .init (by decide)).mpr
    ⟨fun d hd => ?_,.inl ⟨by decide,by decide⟩⟩
  have hmod : d % 3 = 0 := by simpa [fourCores] using hd.2
  exact hmod

end SchedulerPinned
