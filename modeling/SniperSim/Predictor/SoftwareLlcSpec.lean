import SniperSim.Predictor.SoftwareLlc

open Function
namespace SoftwareLlc

def rowInsert (llc : Nat → IntPtr) (set pivot : Nat) (tag : IntPtr) : Nat → IntPtr :=
  fun x =>
    if x = cell set 0 then tag
    else if cell set 0 < x ∧ x ≤ cell set pivot then llc (x - 1)
    else llc x

def bumpHits (llcHits : IntPtr → Option Nat) (tag : IntPtr) : IntPtr → Option Nat :=
  fun t => if t = tag then (llcHits tag).map (· + 1) else llcHits t

def resetHits (pfq : List IntPtr) (llcHits : IntPtr → Option Nat) (tag : IntPtr) : IntPtr → Option Nat :=
  fun t => if t = tag ∧ tag ∈ pfq then some 0 else llcHits t

def trainBhist (bhist : IntPtr → Nat) (tag : IntPtr) : Option Nat → IntPtr → Nat
  | none => bhist
  | some 0 => update bhist (findHash tag blockBits) (min maxCounterVal (bhist (findHash tag blockBits) + 1))
  | some (_ + 1) => update bhist (findHash tag blockBits) 0

theorem shiftRow_apply (set k : Nat) (llc : Nat → IntPtr) (x : Nat) : (shiftRow set k llc).1 x =
      if cell set 0 < x ∧ x ≤ cell set k then llc (x - 1) else llc x := by
  induction k generalizing llc with
  | zero =>
    have h : ¬ (cell set 0 < x ∧ x ≤ cell set 0) := by omega
    simp [shiftRow,h]
  | succ k ih =>
    have hcell : cell set (k + 1) = cell set k + 1 := rfl
    have hle : cell set 0 ≤ cell set k := Nat.add_le_add_left (Nat.zero_le k) _
    simp only [shiftRow,ih,hcell]
    by_cases hx : x = cell set k + 1
    · subst hx
      have h : ¬ (cell set 0 < cell set k + 1 ∧ cell set k + 1 ≤ cell set k) := by omega
      have h' : cell set 0 < cell set k + 1 ∧ cell set k + 1 ≤ cell set k + 1 := by omega
      rw [if_neg h,if_pos h',update_self,Nat.add_sub_cancel]
    · by_cases hr : cell set 0 < x ∧ x ≤ cell set k
      · have h' : cell set 0 < x ∧ x ≤ cell set k + 1 := by omega
        rw [if_pos hr,if_pos h',update_of_ne (by omega)]
      · have h' : ¬ (cell set 0 < x ∧ x ≤ cell set k + 1) := by omega
        rw [if_neg hr,if_neg h',update_of_ne hx]

theorem shiftRow_writes (set k : Nat) (llc : Nat → IntPtr) (c : Nat × Nat) :
    c ∈ (shiftRow set k llc).2 ↔ c.1 = set ∧ 1 ≤ c.2 ∧ c.2 ≤ k := by
  obtain ⟨r,i⟩ := c
  induction k generalizing llc with
  | zero =>
    simp only [shiftRow,List.not_mem_nil,false_iff]
    omega
  | succ k ih =>
    simp only [shiftRow,List.mem_cons,ih,Prod.mk.injEq]
    omega

theorem updateLLCSw_writes (pfq : List IntPtr) (s : SoftwareLlc) (tag : IntPtr) (pivot set : Nat)
    (o : Outcome) (c : Nat × Nat) : c ∈ (s.updateLLCSw pfq tag pivot set o).writes ↔ c.1 = set ∧ c.2 ≤ pivot := by
  obtain ⟨r,i⟩ := c
  simp only [updateLLCSw,List.mem_append,shiftRow_writes,List.mem_singleton,Prod.mk.injEq]
  omega

theorem updateLLCSw_state (pfq : List IntPtr) (s : SoftwareLlc) (tag : IntPtr) (pivot set : Nat) (o : Outcome) :
    (s.updateLLCSw pfq tag pivot set o).state = { s with
        llc := rowInsert s.llc set pivot tag
        llcHits := resetHits pfq s.llcHits tag } := by
  have hrow : update (shiftRow set pivot s.llc).1 (cell set 0) tag = rowInsert s.llc set pivot tag := by
    funext x
    by_cases hx : x = cell set 0 <;> simp [*,rowInsert,shiftRow_apply]
  have hmem : recentPFNContains pfq tag ↔ tag ∈ pfq := by simp [recentPFNContains]
  simp only [updateLLCSw,hrow]
  by_cases ht : tag ∈ pfq
  · simp only [hmem,ht,if_true,SoftwareLlc.mk.injEq,true_and,and_true]
    funext t
    by_cases h : t = tag <;> simp [*,resetHits]
  · simp only [hmem,ht,if_false,SoftwareLlc.mk.injEq,true_and,and_true]
    funext t
    simp [resetHits,ht]

theorem updateCounters_eq (s : SoftwareLlc) (tag : IntPtr) :
    s.updateCounters tag = { s with bhist := trainBhist s.bhist tag (s.llcHits tag) } := by
  simp only [updateCounters]
  cases h : s.llcHits tag with
  | none => rfl
  | some hits =>
    cases hits with
    | zero =>
      simp only [if_true,capCounters,trainBhist,update_self]
      split
      · rename_i hgt
        rw [update_idem,min_eq_left (by omega)]
      · rename_i hle
        rw [min_eq_right (by omega)]
    | succ hits => rfl

def Resident (s : SoftwareLlc) (set : Nat) (tag : IntPtr) : Prop :=
  ∃ i, i < s.allocBlocks set ∧ s.llc (cell set i) = tag

instance (s : SoftwareLlc) (set : Nat) (tag : IntPtr) : Decidable (s.Resident set tag) :=
  inferInstanceAs (Decidable (∃ i, i < s.allocBlocks set ∧ s.llc (cell set i) = tag))

theorem findFrom_some {llc : Nat → IntPtr} {set : Nat} {tag : IntPtr} {k i j : Nat}
    (h : findFrom llc set tag k i = some j) : i ≤ j ∧ j < i + k ∧ llc (cell set j) = tag ∧
      ∀ m, i ≤ m → m < j → llc (cell set m) ≠ tag := by
  induction k generalizing i with
  | zero => cases h
  | succ k ih =>
    rw [findFrom] at h
    split at h
    · rename_i ht
      cases h
      exact ⟨le_refl _,by omega,ht,fun m hm hlt => by omega⟩
    · rename_i ht
      obtain ⟨h1,h2,h3,h4⟩ := ih h
      refine ⟨by omega,by omega,h3,?_⟩
      intro m hm hlt
      rcases eq_or_lt_of_le hm with rfl | hm
      · exact ht
      · exact h4 m hm hlt

theorem findFrom_none {llc : Nat → IntPtr} {set : Nat} {tag : IntPtr} {k i : Nat}
    (h : findFrom llc set tag k i = none) : ∀ m, i ≤ m → m < i + k → llc (cell set m) ≠ tag := by
  induction k generalizing i with
  | zero =>
    intro m hm hlt
    omega
  | succ k ih =>
    rw [findFrom] at h
    split at h
    · cases h
    · rename_i ht
      intro m hm hlt
      rcases eq_or_lt_of_le hm with rfl | hm
      · exact ht
      · exact ih h m hm (by omega)

inductive AccessCase (bhistThd : Nat) (pfq : List IntPtr) (s : SoftwareLlc) (set : Nat)
    (tag : IntPtr) (a : Access) : Prop
  | hit (i : Nat) (hi : i < s.allocBlocks set) (ht : s.llc (cell set i) = tag)
      (first : ∀ j, j < i → s.llc (cell set j) ≠ tag)
      (outcome : a.outcome = .hit)
      (state : a.state = { s with
          llcAcc := s.llcAcc + 1
          llc := rowInsert s.llc set i tag
          llcHits := resetHits pfq (bumpHits s.llcHits tag) tag })
      (writes : ∀ c, c ∈ a.writes ↔ c.1 = set ∧ c.2 ≤ i)
  | fill (absent : ¬ s.Resident set tag) (room : s.allocBlocks set < llcAssociativity)
      (outcome : a.outcome = .inserted none)
      (state : a.state = { s with
          llcAcc := s.llcAcc + 1
          llcMiss := s.llcMiss + 1
          allocBlocks := update s.allocBlocks set (s.allocBlocks set + 1)
          llc := rowInsert s.llc set (s.allocBlocks set) tag
          llcHits := resetHits pfq s.llcHits tag })
      (writes : ∀ c, c ∈ a.writes ↔ c.1 = set ∧ c.2 ≤ s.allocBlocks set)
  | bypass (absent : ¬ s.Resident set tag) (full : s.allocBlocks set = llcAssociativity)
      (dead : s.shouldBypassLLC bhistThd pfq tag)
      (outcome : a.outcome = .bypassed)
      (state : a.state = { s with
          llcAcc := s.llcAcc + 1
          llcMiss := s.llcMiss + 1
          llcBypass := s.llcBypass + 1 })
      (writes : a.writes = [])
  | evict (absent : ¬ s.Resident set tag) (full : s.allocBlocks set = llcAssociativity)
      (live : s.shouldBypassLLC bhistThd pfq tag = false)
      (outcome : a.outcome = .inserted (some (s.llc (cell set (llcAssociativity - 1)))))
      (state : a.state = { s with
          llcAcc := s.llcAcc + 1
          llcMiss := s.llcMiss + 1
          bhist := trainBhist s.bhist (s.llc (cell set (llcAssociativity - 1)))
            (s.llcHits (s.llc (cell set (llcAssociativity - 1))))
          llc := rowInsert s.llc set llcAssociativity tag
          llcHits := resetHits pfq s.llcHits tag })
      (writes : ∀ c, c ∈ a.writes ↔ c.1 = set ∧ c.2 ≤ llcAssociativity)
  | overfull (above : llcAssociativity < s.allocBlocks set)
      (outcome : a.outcome = .ignored)
      (state : a.state = { s with llcAcc := s.llcAcc + 1, llcMiss := s.llcMiss + 1 })
      (writes : a.writes = [])

abbrev missed (s : SoftwareLlc) : SoftwareLlc := { s with llcAcc := s.llcAcc + 1, llcMiss := s.llcMiss + 1 }

theorem handleLLCMiss_case (bt : Nat) (pfq : List IntPtr) (s : SoftwareLlc) (set : Nat)
    (tag : IntPtr) (absent : ¬ s.Resident set tag) :
    AccessCase bt pfq s set tag (handleLLCMiss bt pfq { s with llcAcc := s.llcAcc + 1 } tag set) := by
  rcases lt_trichotomy (s.allocBlocks set) llcAssociativity with hlt | heq | hgt
  · have h : handleLLCMiss bt pfq { s with llcAcc := s.llcAcc + 1 } tag set =
        insertIntoPartialSet pfq s.missed tag set := by
      simp [handleLLCMiss,hlt]
    rw [h]
    refine .fill absent hlt rfl ?_ ?_
    · rw [insertIntoPartialSet,updateLLCSw_state]
    · intro c
      rw [insertIntoPartialSet,updateLLCSw_writes]
  · have h : handleLLCMiss bt pfq { s with llcAcc := s.llcAcc + 1 } tag set =
        handleFullSetMiss bt pfq s.missed tag set := by
      simp [handleLLCMiss,heq]
    rw [h]
    cases hb : s.shouldBypassLLC bt pfq tag with
    | true =>
      have hb' : s.missed.shouldBypassLLC bt pfq tag := hb
      rw [handleFullSetMiss,if_pos hb']
      exact .bypass absent heq hb rfl rfl rfl
    | false =>
      have hb' : ¬ s.missed.shouldBypassLLC bt pfq tag := ne_true_of_eq_false hb
      rw [handleFullSetMiss,if_neg hb']
      refine .evict absent heq hb rfl ?_ ?_
      · rw [updateLLCSw_state,updateCounters_eq]
      · intro c
        rw [updateLLCSw_writes]
  · refine .overfull hgt ?_ ?_ ?_ <;> simp [handleLLCMiss,not_lt.mpr (le_of_lt hgt),ne_of_gt hgt]

theorem access_case (bt : Nat) (pfq : List IntPtr) (s : SoftwareLlc) (address : IntPtr) :
    AccessCase bt pfq s (getSetSw address) (getTagSw address) (s.accessLLCSw bt pfq address) := by
  cases hf : findFrom s.llc (getSetSw address) (getTagSw address) (s.allocBlocks (getSetSw address)) 0 with
  | none =>
    have h : s.accessLLCSw bt pfq address = handleLLCMiss bt pfq { s with llcAcc := s.llcAcc + 1 } (getTagSw address)
          (getSetSw address) := by
      simp [accessLLCSw,findTagInSet,hf]
    rw [h]
    apply handleLLCMiss_case
    rintro ⟨i,hi,ht⟩
    exact findFrom_none hf i (Nat.zero_le i) (by omega) ht
  | some i =>
    obtain ⟨-,hi,ht,hfirst⟩ := findFrom_some hf
    refine .hit i (by omega) ht (fun j hj => hfirst j (Nat.zero_le j) hj) ?_ ?_ ?_
    · simp [accessLLCSw,findTagInSet,hf,handleLLCHit,updateLLCSw]
    · have hbump : bumpHits s.llcHits (getTagSw address) =
          update s.llcHits (getTagSw address) ((s.llcHits (getTagSw address)).map (· + 1)) :=
        funext fun t => (update_apply ..).symm
      cases hh : s.llcHits (getTagSw address) with
      | none =>
        simp only [accessLLCSw,findTagInSet,hf,handleLLCHit,updateLLCSw_state,hh]
        rw [hbump,hh,Option.map_none,← hh,update_eq_self]
      | some n =>
        simp only [accessLLCSw,findTagInSet,hf,handleLLCHit,updateLLCSw_state,hh]
        rw [hbump,hh,Option.map_some]
    · intro c
      simp only [accessLLCSw,findTagInSet,hf,handleLLCHit,updateLLCSw_writes]

end SoftwareLlc
