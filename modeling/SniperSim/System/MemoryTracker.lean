import Mathlib.Algebra.Group.Nat.Defs
import Mathlib.Data.List.Induction
import SniperSim.Library.Run
import SniperSim.Library.SortedMap

open List Option
open SortedMap

def sub64 (a b : Nat) : Nat := (a + 2 ^ 64 - b) % 2 ^ 64

theorem sub64_of_le (hle : b ≤ a) (hlt : a < 2 ^ 64) : sub64 a b = a - b := by
  rw [sub64]
  omega

namespace MemoryTracker

structure AllocationSite where
  (numAllocations totalSize : Nat)

structure Allocation (σ : Type) where
  size : Nat
  site : σ

structure Malloc (σ : Type) where
  stack : σ
  (address size : Nat)

namespace Malloc
variable {σ : Type} (c : Malloc σ)

def lower : Nat := c.address / 64 * 64

def upper : Nat := (c.address + c.size + 63) % 2 ^ 64 / 64 * 64

def NoOverflow : Prop := c.address + c.size + 63 < 2 ^ 64

instance instDecidableNoOverflow : Decidable c.NoOverflow := inferInstanceAs (Decidable (_ < _))

def Contains (address : Nat) : Prop := c.address / 64 ≤ address / 64 ∧ address / 64 < (c.address + c.size + 63) / 64

instance instDecidableContains (address : Nat) : Decidable (c.Contains address) := inferInstanceAs (Decidable (_ ∧ _))

theorem upper_lt : c.upper < 2 ^ 64 := by
  rw [upper]
  omega

theorem lower_le_upper {c : Malloc σ} (h : c.NoOverflow) : c.lower ≤ c.upper := by
  rw [lower,upper,Nat.mod_eq_of_lt h]
  omega

theorem contains_iff {c : Malloc σ} (h : c.NoOverflow) (ad : Nat) : c.Contains ad ↔ c.lower ≤ ad ∧ ad < c.upper := by
  rw [Contains,lower,upper,Nat.mod_eq_of_lt h]
  omega

end Malloc

abbrev Allocations (σ : Type) := SortedMap Nat (Allocation σ)

namespace Allocations
variable {σ : Type} (m : Allocations σ)

def remainLeft (start lower : Nat) (site : σ) : Allocations σ :=
  if start < lower then m.insert lower ⟨sub64 lower start,site⟩ else m

def remainRight (last upper : Nat) (site : σ) : Allocations σ :=
  if upper < last then m.insert last ⟨sub64 last upper,site⟩ else m.erase last

def overwrite (lower upper : Nat) : Allocations σ :=
  match m.upperBound lower with
  | none => m
  | some (last,a) =>
    if sub64 last a.size ≤ lower then
      (m.remainLeft (sub64 last a.size) lower a.site).remainRight last upper a.site
    else m

def logMalloc (c : Malloc σ) : Allocations σ :=
  (m.overwrite c.lower c.upper).insert c.upper ⟨sub64 c.upper c.lower,c.stack⟩

def getOwner (address : Nat) : Option σ :=
  match m.upperBound address with
  | none => none
  | some (last,a) => if sub64 last a.size ≤ address then some a.site else none

def Inside (address last : Nat) (a : Allocation σ) : Prop := m.Holds last a ∧ last - a.size ≤ address ∧ address < last

structure Apart : Prop where
  size : ∀ k a, m.Holds k a → 0 < a.size ∧ a.size ≤ k ∧ k < 2 ^ 64
  apart : ∀ k a k' a', m.Holds k a → m.Holds k' a' → k < k' → k + a'.size ≤ k'

def Fits (c : Malloc σ) : Prop :=
  c.lower < c.upper ∧ ∀ e ∈ m.entries, c.lower < e.1 →
    e.1 - e.2.size ≤ c.lower ∨ c.upper ≤ e.1 - e.2.size ∨ e.1 = c.upper

instance instDecidableFits (c : Malloc σ) : Decidable (m.Fits c) := inferInstanceAs (Decidable (_ ∧ _))

section
variable {m} {k k' : Nat} {a a' : Allocation σ} {site : σ}

theorem Apart.start (h : m.Apart) (hk : m.Holds k a) : sub64 k a.size = k - a.size := by
  obtain ⟨_,hle,hlt⟩ := h.size k a hk
  exact sub64_of_le hle hlt

theorem Apart.inside_iff (h : m.Apart) : m.Inside l k a ↔ m.upperBound l = some (k,a) ∧ k - a.size ≤ l := by
  constructor
  · rintro ⟨hk,hstart,hlt⟩
    refine ⟨?_,hstart⟩
    cases hub : m.upperBound l with
    | none => exact absurd (le_of_upperBound_none hub hk) (by omega)
    | some e =>
      obtain ⟨k',a'⟩ := e
      have hk' := holds_of_upperBound hub
      have hlt' := lt_of_upperBound hub
      rcases (upperBound_le hub hk hlt).lt_or_eq with hless | rfl
      · have := h.apart k' a' k a hk' hk hless
        omega
      · rw [hk.unique hk']
  · rintro ⟨hub,hstart⟩
    exact ⟨holds_of_upperBound hub,hstart,lt_of_upperBound hub⟩

theorem Apart.getOwner_eq_some_iff (h : m.Apart) :
    m.getOwner l = some site ↔ ∃ k a, m.Inside l k a ∧ a.site = site := by
  simp only [h.inside_iff,getOwner]
  cases hub : m.upperBound l with
  | none => simp
  | some e =>
    obtain ⟨k,a⟩ := e
    simp only [h.start (holds_of_upperBound hub),ite_none_right_eq_some,some.injEq,Prod.mk.injEq]
    constructor
    · rintro ⟨hle,rfl⟩
      exact ⟨k,a,⟨⟨rfl,rfl⟩,hle⟩,rfl⟩
    · rintro ⟨_,_,⟨⟨rfl,rfl⟩,hle⟩,rfl⟩
      exact ⟨hle,rfl⟩

theorem holds_remainLeft (hlt : l < 2 ^ 64) :
    (m.remainLeft start l site).Holds k a ↔ (k = l ∧ start < l ∧ a = ⟨l - start,site⟩) ∨
      (start < l → k ≠ l) ∧ m.Holds k a := by
  rw [remainLeft]
  split_ifs with hstart
  · rw [holds_insert,sub64_of_le hstart.le hlt]
    simp [hstart]
  · simp [hstart]

theorem holds_remainRight (hlt : last < 2 ^ 64) :
    (m.remainRight last u site).Holds k a ↔ (k = last ∧ u < last ∧ a = ⟨last - u,site⟩) ∨ k ≠ last ∧ m.Holds k a := by
  rw [remainRight]
  split_ifs with hright
  · rw [holds_insert,sub64_of_le hright.le hlt]
    simp [hright]
  · rw [holds_erase]
    simp [hright]

theorem Apart.ne_of_inside (h : m.Apart) (hin : m.Inside l k a) (hstart : k - a.size < l)
    (hk : m.Holds k' a') : k' ≠ l := by
  rintro rfl
  have := h.apart k' a' k a hk hin.1 hin.2.2
  omega

theorem Apart.holds_overwrite (h : m.Apart) : (m.overwrite l u).Holds k a ↔
      (∃ k' a', m.Inside l k' a' ∧ (k = l ∧ k' - a'.size < l ∧ a = ⟨l - (k' - a'.size),a'.site⟩ ∨
        k = k' ∧ u < k' ∧ a = ⟨k' - u,a'.site⟩)) ∨ m.Holds k a ∧ ¬m.Inside l k a := by
  rw [overwrite]
  cases hub : m.upperBound l with
  | none => simp [h.inside_iff,hub]
  | some e =>
    obtain ⟨last,b⟩ := e
    have hlast := holds_of_upperBound hub
    have hlt := lt_of_upperBound hub
    have hbound := (h.size last b hlast).2.2
    simp only [h.start hlast]
    split_ifs with hin
    · have hinside : m.Inside l last b := ⟨hlast,hin,hlt⟩
      rw [holds_remainRight hbound,holds_remainLeft (hlt.trans hbound)]
      simp only [h.inside_iff,hub,some.injEq,Prod.mk.injEq]
      constructor
      · rintro (hr | ⟨hne,hl | ⟨-,hold⟩⟩)
        · exact .inl ⟨last,b,⟨⟨rfl,rfl⟩,hin⟩,.inr hr⟩
        · exact .inl ⟨last,b,⟨⟨rfl,rfl⟩,hin⟩,.inl hl⟩
        · exact .inr ⟨hold,fun hsame => hne hsame.1.1.symm⟩
      · rintro (⟨_,_,⟨⟨rfl,rfl⟩,-⟩,hl | hr⟩ | ⟨hold,hout⟩)
        · exact .inr ⟨fun heq => hlt.ne (hl.1.symm.trans heq),.inl hl⟩
        · exact .inl hr
        · refine .inr ⟨?_,.inr ⟨fun hstart => h.ne_of_inside hinside hstart hold,hold⟩⟩
          rintro rfl
          exact hout ⟨⟨rfl,hlast.unique hold⟩,(hlast.unique hold) ▸ hin⟩
    · simp only [h.inside_iff,hub,some.injEq,Prod.mk.injEq]
      constructor
      · refine fun hold => .inr ⟨hold,?_⟩
        rintro ⟨⟨rfl,rfl⟩,hstart⟩
        exact hin hstart
      · rintro (⟨_,_,⟨⟨rfl,rfl⟩,hstart⟩,-⟩ | ⟨hold,-⟩)
        · exact absurd hstart hin
        · exact hold
end

section
variable {m} {c : Malloc σ} {k k' : Nat} {a a' : Allocation σ}

inductive Piece (m : Allocations σ) (c : Malloc σ) : Nat → Allocation σ → Prop
  | fresh : Piece m c c.upper ⟨c.upper - c.lower,c.stack⟩
  | kept {k : Nat} {a : Allocation σ} (hk : m.Holds k a) (hout : k ≤ c.lower ∨ c.upper ≤ k - a.size) : Piece m c k a
  | left {k : Nat} {a : Allocation σ} (hk : m.Holds k a) (hstart : k - a.size < c.lower)
      (hlt : c.lower < k) : Piece m c c.lower ⟨c.lower - (k - a.size),a.site⟩
  | right {k : Nat} {a : Allocation σ} (hk : m.Holds k a) (hstart : k - a.size ≤ c.lower)
      (hlt : c.upper < k) : Piece m c k ⟨k - c.upper,a.site⟩

section
variable (h : m.Apart)
include h

theorem Apart.holds_logMalloc (hfit : m.Fits c) : (m.logMalloc c).Holds k a ↔ Piece m c k a := by
  obtain ⟨hlt,hfit⟩ := hfit
  rw [logMalloc,holds_insert,sub64_of_le hlt.le c.upper_lt,h.holds_overwrite]
  constructor
  · rintro (⟨rfl,rfl⟩ | ⟨hne,⟨last,b,⟨hlast,hstart,hin⟩,⟨rfl,hless,rfl⟩ | ⟨rfl,hless,rfl⟩⟩ | ⟨hk,hout⟩⟩)
    · exact .fresh
    · exact .left hlast hless hin
    · exact .right hlast hstart hless
    · refine .kept hk ?_
      by_cases hin : c.lower < k
      · rcases hfit (k,a) hk hin with hstart | hafter | hend
        · exact absurd ⟨hk,hstart,hin⟩ hout
        · exact .inr hafter
        · exact absurd hend hne
      · exact .inl (Nat.not_lt.mp hin)
  · intro hpiece
    cases hpiece with
    | fresh => exact .inl ⟨rfl,rfl⟩
    | kept hk hout =>
      have hsize := (h.size k a hk).1
      refine .inr ⟨by omega,.inr ⟨hk,fun hin => ?_⟩⟩
      have := hin.2.1
      have := hin.2.2
      omega
    | left hk hstart hin => exact .inr ⟨hlt.ne,.inl ⟨_,_,⟨hk,hstart.le,hin⟩,.inl ⟨rfl,hstart,rfl⟩⟩⟩
    | right hk hstart hin => exact .inr ⟨hin.ne',.inl ⟨_,_,⟨hk,hstart,hlt.trans hin⟩,.inr ⟨rfl,hin,rfl⟩⟩⟩

structure Remains (m : Allocations σ) (c : Malloc σ) (k : Nat) (a : Allocation σ) (k' : Nat)
    (a' : Allocation σ) : Prop where
  holds : m.Holds k' a'
  site : a.site = a'.site
  size : 0 < a.size ∧ a.size ≤ k
  within : k ≤ k' ∧ k' - a'.size ≤ k - a.size
  outside : k ≤ c.lower ∨ c.upper ≤ k - a.size
  last : k = k' ∨ k = c.lower

theorem Piece.remains (hfit : m.Fits c) (hp : Piece m c k a)
    : (k = c.upper ∧ a = ⟨c.upper - c.lower,c.stack⟩) ∨ ∃ k' a', Remains m c k a k' a' := by
  have hlt := hfit.1
  cases hp with
  | fresh => exact .inl ⟨rfl,rfl⟩
  | kept hk hout =>
    obtain ⟨hpos,hle,-⟩ := h.size k a hk
    exact .inr ⟨k,a,hk,rfl,⟨hpos,hle⟩,⟨le_rfl,le_rfl⟩,hout,.inl rfl⟩
  | @left last b hk hstart hin =>
    refine .inr ⟨last,b,hk,rfl,⟨?_,?_⟩,⟨hin.le,?_⟩,.inl le_rfl,.inr rfl⟩
    all_goals dsimp only; omega
  | @right _ b hk hstart hin =>
    refine .inr ⟨k,b,hk,rfl,⟨?_,?_⟩,⟨le_rfl,?_⟩,.inr ?_,.inl rfl⟩
    all_goals dsimp only; omega

theorem Remains.apart (hr : Remains m c k a i b) (hr' : Remains m c k' a' j b') (hlt : c.lower < c.upper)
    (hless : k < k') : k + a'.size ≤ k' := by
  have hw := hr.within
  have hw' := hr'.within
  have hs := hr.size
  rcases Nat.lt_trichotomy i j with hij | rfl | hji
  · have := h.apart i b j b' hr.holds hr'.holds hij
    omega
  · have := hr.last
    have := hr'.last
    have := hr'.outside
    omega
  · have := h.apart j b' i b hr'.holds hr.holds hji
    omega

theorem Apart.logMalloc (hfit : m.Fits c) : (m.logMalloc c).Apart := by
  have hlt := hfit.1
  have hu := c.upper_lt
  refine ⟨fun k a hk => ?_,fun k a k' a' hk hk' hless => ?_⟩
  · rcases ((h.holds_logMalloc hfit).mp hk).remains h hfit with ⟨rfl,rfl⟩ | ⟨i,b,hr⟩
    · dsimp only
      omega
    · exact ⟨hr.size.1,hr.size.2,hr.within.1.trans_lt (h.size i b hr.holds).2.2⟩
  · rcases ((h.holds_logMalloc hfit).mp hk).remains h hfit with ⟨rfl,rfl⟩ | ⟨i,b,hr⟩ <;>
      rcases ((h.holds_logMalloc hfit).mp hk').remains h hfit with ⟨rfl,rfl⟩ | ⟨j,b',hr'⟩
    · exact absurd hless (lt_irrefl _)
    · have := hr'.outside
      have := hr'.size
      omega
    · have := hr.outside
      dsimp only
      omega
    · exact hr.apart h hr' hlt hless

theorem Apart.getOwner_logMalloc (hfit : m.Fits c)
    : (m.logMalloc c).getOwner ad = if c.lower ≤ ad ∧ ad < c.upper then some c.stack else m.getOwner ad := by
  refine ext fun site => ?_
  rw [(h.logMalloc hfit).getOwner_eq_some_iff]
  constructor
  · rintro ⟨k,a,⟨hk,hstart,hlt⟩,rfl⟩
    rcases ((h.holds_logMalloc hfit).mp hk).remains h hfit with ⟨rfl,rfl⟩ | ⟨i,b,hr⟩
    · rw [if_pos ⟨by dsimp only at hstart; omega,hlt⟩]
    · have hw := hr.within
      have ho := hr.outside
      rw [if_neg (by omega),h.getOwner_eq_some_iff]
      exact ⟨i,b,⟨hr.holds,by omega,by omega⟩,hr.site.symm⟩
  · split_ifs with hin
    · intro hsite
      have hfresh := (h.holds_logMalloc hfit).mpr .fresh
      refine ⟨_,_,⟨hfresh,?_,hin.2⟩,some.inj hsite⟩
      dsimp only
      omega
    · rw [h.getOwner_eq_some_iff]
      rintro ⟨k,a,⟨hk,hstart,hlt⟩,rfl⟩
      have hpiece : ∀ i b, Piece m c i b → b.site = a.site → i - b.size ≤ ad → ad < i →
          ∃ i b, (m.logMalloc c).Inside ad i b ∧ b.site = a.site :=
        fun i b hp hsite hle hless => ⟨i,b,⟨(h.holds_logMalloc hfit).mpr hp,hle,hless⟩,hsite⟩
      by_cases hreach : c.lower < k
      · by_cases hleft : ad < c.lower
        · exact hpiece _ _ (.left hk (by omega) hreach) rfl (by dsimp only; omega) hleft
        · rcases hfit.2 (k,a) hk hreach with hfirst | hafter | hend
          · exact hpiece _ _ (.right hk hfirst (by omega)) rfl (by dsimp only; omega) hlt
          · exact hpiece _ _ (.kept hk (.inr hafter)) rfl hstart hlt
          · omega
      · exact hpiece _ _ (.kept hk (.inl (Nat.not_lt.mp hreach))) rfl hstart hlt

theorem Apart.fits_of_logMalloc (hc : c.NoOverflow) (h' : (m.logMalloc c).Apart) : m.Fits c := by
  have hle := Malloc.lower_le_upper hc
  have hfresh : (m.logMalloc c).Holds c.upper ⟨c.upper - c.lower,c.stack⟩ := by
    rw [← sub64_of_le hle c.upper_lt]
    exact holds_insert.mpr (.inl ⟨rfl,rfl⟩)
  have hpos := (h'.size _ _ hfresh).1
  dsimp only at hpos
  refine ⟨by omega,?_⟩
  rintro ⟨k,a⟩ hk hreach
  by_contra hno
  obtain ⟨hstart,hbefore,hne⟩ : ¬k - a.size ≤ c.lower ∧ ¬c.upper ≤ k - a.size ∧ k ≠ c.upper := by
    simpa using hno
  have hkept : (m.logMalloc c).Holds k a :=
    holds_insert.mpr (.inr ⟨hne,h.holds_overwrite.mpr (.inr ⟨hk,fun hin => hstart hin.2.1⟩)⟩)
  rcases Nat.lt_or_gt_of_ne hne with hless | hless
  · have := h'.apart _ _ _ _ hkept hfresh hless
    dsimp only at this
    omega
  · have := h'.apart _ _ _ _ hfresh hkept hless
    omega
end
end
end Allocations
end MemoryTracker

structure MemoryTracker (σ : Type) where
  allocations : MemoryTracker.Allocations σ
  allocationSites : σ → Option MemoryTracker.AllocationSite
  allocationsSlow : Nat → Option σ

namespace MemoryTracker
variable {σ : Type}

def new : MemoryTracker σ :=
  { allocations := .empty, allocationSites := fun _ => none, allocationsSlow := fun _ => none }

def ceGetOwner (t : MemoryTracker σ) (address : Nat) : Option σ := t.allocations.getOwner address

def ownerSlow (t : MemoryTracker σ) (address : Nat) : Option σ := t.allocationsSlow (address / 64 * 64)

def lastOwner (calls : List (Malloc σ)) (address : Nat) : Option σ :=
  (calls.reverse.find? fun c => decide (c.Contains address)).map (·.stack)

theorem lastOwner_concat (calls : List (Malloc σ)) (c : Malloc σ) (ad : Nat) :
    lastOwner (calls ++ [c]) ad = if c.Contains ad then some c.stack else lastOwner calls ad := by
  simp only [lastOwner,reverse_concat,find?_cons]
  by_cases h : c.Contains ad <;> simp [h]

def markLines (site : σ) : Nat → Nat → (Nat → Option σ) → Nat → Option σ
  | 0, _, slow => slow
  | n + 1, addr, slow => markLines site n (addr + 64) (Function.update slow addr (some site))

theorem markLines_apply (site : σ) (n addr : Nat) (slow : Nat → Option σ) (hline : line % 64 = addr % 64) :
    markLines site n addr slow line = if addr ≤ line ∧ line < addr + 64 * n then some site else slow line := by
  induction n generalizing addr slow with
  | zero =>
    rw [if_neg (by omega)]
    rfl
  | succ n ih =>
    rw [markLines,ih (addr + 64) _ (by omega),Function.update_apply]
    by_cases hfirst : line = addr
    · simp [hfirst]
    · rw [if_neg hfirst]
      exact if_congr (by omega) rfl rfl

def Fits (t : MemoryTracker σ) (c : Malloc σ) : Prop := t.allocations.Fits c

instance instDecidableFits (t : MemoryTracker σ) (c : Malloc σ) : Decidable (t.Fits c) :=
  inferInstanceAs (Decidable (t.allocations.Fits c))

def Refines (t : MemoryTracker σ) : Prop := t.allocations.Apart ∧ ∀ address, t.ceGetOwner address = t.ownerSlow address

def AllocationSite.count (size : Nat) (site : AllocationSite) : AllocationSite :=
  { numAllocations := (site.numAllocations + 1) % 2 ^ 64
    totalSize := (site.totalSize + size) % 2 ^ 64 }

section
variable [DecidableEq σ] {calls : List (Malloc σ)}

def logMalloc (t : MemoryTracker σ) (c : Malloc σ) : MemoryTracker σ :=
  { allocations := t.allocations.logMalloc c
    allocationSites := Function.update t.allocationSites c.stack
      (some (((t.allocationSites c.stack).getD ⟨0,0⟩).count c.size))
    allocationsSlow := markLines c.stack ((c.upper - c.lower) / 64) c.lower t.allocationsSlow }

def run (calls : List (Malloc σ)) : MemoryTracker σ := calls.foldl logMalloc new

theorem ownerSlow_logMalloc (t : MemoryTracker σ) {c : Malloc σ} (hc : c.NoOverflow) (ad : Nat) :
    (t.logMalloc c).ownerSlow ad = if c.Contains ad then some c.stack else t.ownerSlow ad := by
  have hlower : c.lower % 64 = 0 := Nat.mul_mod_left _ _
  have hupper : c.upper % 64 = 0 := Nat.mul_mod_left _ _
  refine (markLines_apply _ _ _ _ (by omega)).trans (if_congr ?_ rfl rfl)
  rw [Malloc.contains_iff hc]
  omega

theorem ownerSlow_run (hcalls : ∀ c ∈ calls, c.NoOverflow) (ad : Nat) :
    (run calls).ownerSlow ad = lastOwner calls ad := by
  induction calls using reverseRecOn with
  | nil => rfl
  | append_singleton calls c ih =>
    rw [forall_mem_append,forall_mem_singleton] at hcalls
    rw [lastOwner_concat,← ih hcalls.1,run,foldl_append]
    exact ownerSlow_logMalloc _ hcalls.2 ad

theorem Refines.logMalloc {t : MemoryTracker σ} {c : Malloc σ} (h : t.Refines) (hc : c.NoOverflow)
    (hfit : t.Fits c) : (t.logMalloc c).Refines := by
  refine ⟨h.1.logMalloc hfit,fun ad => ?_⟩
  rw [ownerSlow_logMalloc t hc,← h.2 ad]
  refine (h.1.getOwner_logMalloc hfit).trans (if_congr ?_ rfl rfl)
  rw [Malloc.contains_iff hc]

theorem owner_of_fits (calls : List (Malloc σ)) (hcalls : ∀ c ∈ calls, c.NoOverflow) :
    ((∀ pre, pre <+: calls → (run pre).Refines) ↔ Run.Along logMalloc Fits new calls) ∧
      (Run.Along logMalloc Fits new calls → ∀ address, (run calls).ceGetOwner address = lastOwner calls address ∧
        (run calls).ceGetOwner address = (run calls).ownerSlow address) := by
  have hiff : (∀ pre, pre <+: calls → (run pre).Refines) ↔ Run.Along logMalloc Fits new calls :=
    Run.prefixes_iff_along (I := Refines) (fun _ h c hc hfit => h.logMalloc (hcalls c hc) hfit) (fun _ h => h)
      (fun _ h c hc h' => h.1.fits_of_logMalloc (hcalls c hc) h'.1)
      ⟨⟨fun _ _ hk => absurd hk not_holds_empty,fun _ _ _ _ hk => absurd hk not_holds_empty⟩,fun _ => rfl⟩
  refine ⟨hiff,fun hfit address => ?_⟩
  have hslow := (hiff.mpr hfit calls (prefix_refl calls)).2 address
  exact ⟨hslow.trans (ownerSlow_run hcalls address),hslow⟩
end

def freshSizes : List (Malloc Nat) := [⟨0,0x1000,256⟩,⟨1,0x1040,64⟩,⟨2,0x1000,64⟩]

theorem owner_of_fits_freshSizes : (∀ c ∈ freshSizes, c.NoOverflow) ∧ Run.Along logMalloc Fits new freshSizes ∧
      (run freshSizes).ceGetOwner 0x1080 = some 0 ∧
      (run freshSizes).ceGetOwner 0x1080 = lastOwner freshSizes 0x1080 := by
  have hcalls : ∀ c ∈ freshSizes, c.NoOverflow := by decide
  have hfit : Run.Along logMalloc Fits new freshSizes := by decide
  exact ⟨hcalls,hfit,by decide,((owner_of_fits freshSizes hcalls).2 hfit 0x1080).1⟩

def reused : List (Malloc Nat) := [⟨0,0x1000,64⟩,⟨1,0x1040,64⟩,⟨2,0x1000,192⟩]

theorem reused_line_keeps_owner : (∀ c ∈ reused, c.NoOverflow) ∧ (run reused).ceGetOwner 0x1040 = some 1 ∧
      lastOwner reused 0x1040 = some 2 ∧ (run reused).ownerSlow 0x1040 = some 2 := by
  decide

end MemoryTracker
