import SniperSim.Cache.TrueLru
import SniperSim.Library.Fuel

open Function

def CacheSet.isValidReplacement (blocks : List CacheBlockInfo) (index : Nat) : Bool :=
  blocks[index]?.any (·.cstate != .sharedUpgrading)

open CacheSet

structure CacheSetRoundRobin where
  blocks : List CacheBlockInfo
  replacementIndex : Fin blocks.length

namespace CacheSetRoundRobin
variable {s : CacheSetRoundRobin}

def retreat (s : CacheSetRoundRobin) : CacheSetRoundRobin :=
  { s with
    replacementIndex := ⟨if s.replacementIndex.val = 0 then s.blocks.length - 1 else s.replacementIndex.val - 1,by
      have h := s.replacementIndex.isLt
      split <;> omega⟩ }

def getReplacementIndex : Nat → CacheSetRoundRobin → Option (Nat × CacheSetRoundRobin)
  | 0, _ => none
  | fuel + 1, s =>
    if isValidReplacement s.blocks s.retreat.replacementIndex then some (s.replacementIndex,s.retreat)
    else getReplacementIndex fuel s.retreat

theorem retreat_down {k : Nat} (h : k ≤ s.replacementIndex) :
    (retreat^[k] s).replacementIndex.val = s.replacementIndex - k := by
  induction k with
  | zero => rfl
  | succ k ih =>
    have hk := ih (by omega)
    rw [iterate_succ_apply']
    change (if _ = 0 then _ else _) = _
    rw [if_neg (by omega),hk]
    omega

theorem retreat_blocks (k : Nat) : (retreat^[k] s).blocks = s.blocks := by
  induction k with
  | zero => rfl
  | succ k ih =>
    rwa [iterate_succ_apply']

theorem retreat_reaches {i : Nat} (hi : i < s.blocks.length) : ∃ k, (retreat^[k + 1] s).replacementIndex.val = i := by
  have hzero := retreat_down (s := s) (Nat.le_refl _)
  have hb := retreat_blocks (s := s) s.replacementIndex
  generalize hz : retreat^[s.replacementIndex.val] s = z at hzero hb
  have hlast : z.retreat.replacementIndex.val = s.blocks.length - 1 := by
    change (if _ = 0 then _ else _) = _
    rw [if_pos (by omega),hb]
  refine ⟨s.blocks.length - 1 - i + s.replacementIndex,?_⟩
  rw [Nat.add_right_comm,iterate_add_apply,hz,iterate_succ_apply,retreat_down (by omega),hlast]
  omega

theorem returns_now (hv : isValidReplacement s.blocks s.retreat.replacementIndex) :
    ∃ v, Fuel.Returns (fun fuel => s.getReplacementIndex fuel) v :=
  ⟨_,.of_succ (by simpa [getReplacementIndex,hv] using .const _)⟩

theorem returns_of_reached (h : isValidReplacement s.blocks (retreat^[k + 1] s).replacementIndex) :
    ∃ v, Fuel.Returns (fun fuel => s.getReplacementIndex fuel) v := by
  induction k generalizing s with
  | zero => exact returns_now h
  | succ k ih =>
    cases hv : isValidReplacement s.blocks s.retreat.replacementIndex with
    | true => exact returns_now hv
    | false =>
      obtain ⟨v,hr⟩ := ih (s := s.retreat) h
      exact ⟨v,.of_succ (by simpa [getReplacementIndex,hv] using hr)⟩

theorem returned_upgrading (hs : isValidReplacement s.blocks s.replacementIndex = false)
    (h : s.getReplacementIndex fuel = some v) : isValidReplacement s.blocks v.1 = false := by
  induction fuel generalizing s with
  | zero => cases h
  | succ fuel ih =>
    rw [getReplacementIndex] at h
    split at h
    · cases h
      exact hs
    · next hv => exact ih (s := s.retreat) (Bool.eq_false_iff.mpr hv) h

theorem valid_victim_iff (h : s.getReplacementIndex fuel = some v) :
    isValidReplacement s.blocks v.1 ↔ isValidReplacement s.blocks s.replacementIndex ∧
      isValidReplacement s.blocks s.retreat.replacementIndex := by
  cases fuel with
  | zero => cases h
  | succ fuel =>
    rw [getReplacementIndex] at h
    split at h
    · next hv =>
      cases h
      simp [hv]
    · next hv =>
      have hu := returned_upgrading (s := s.retreat) (Bool.eq_false_iff.mpr hv) h
      change isValidReplacement s.blocks v.1 = false at hu
      simp [hu,hv]

end CacheSetRoundRobin

namespace CacheSetLRU

theorem valid_victim_iff (q : CacheBlockInfo → Bool) {s : CacheSetLRU} (hs : s.numAttempts = 1)
    (hfull : ∀ b ∈ s.blocks, b.isValid) : CacheSet.isValidReplacement s.blocks (s.getReplacementIndex q).1 ↔
      CacheSet.isValidReplacement s.blocks 0 ∨ ∃ w ∈ s.ways, isValidReplacement w ∧ 0 < w.lruBits := by
  have hn : s.blocks.findIdx? (fun b => !b.isValid) = none := by simpa using hfull
  have hi : (s.getReplacementIndex q).1 = lruScan s.ways 0 0 0 := by
    simp [getReplacementIndex,hn,hs,attempts]
  rw [hi]
  rcases lruScan_max s.ways 0 0 0 with ⟨he,hm⟩ | ⟨k,w,hk,hv,he,hlt,-⟩
  · rw [he]
    refine ⟨.inl,fun h => h.resolve_right ?_⟩
    rintro ⟨w,hw,hv,hpos⟩
    exact UInt8.not_lt.mpr (hm w hw hv) hpos
  · simp only [he,Nat.zero_add,CacheSet.isValidReplacement,blocks,List.getElem?_map,hk]
    exact ⟨fun _ => .inr ⟨w,List.mem_of_getElem? hk,hv,hlt⟩,fun _ => hv⟩

end CacheSetLRU

theorem CacheSet.victims_not_upgrading_iff (q : CacheBlockInfo → Bool) (s : CacheSetLRU) (r : CacheSetRoundRobin)
    (hs : s.numAttempts = 1) (hfull : ∀ b ∈ s.blocks, b.isValid = true)
    (hr : ∃ i, isValidReplacement r.blocks i = true) :
    (isValidReplacement s.blocks (s.getReplacementIndex q).1 = true ↔ isValidReplacement s.blocks 0 = true ∨
        ∃ w ∈ s.ways, CacheSetLRU.isValidReplacement w = true ∧ 0 < w.lruBits) ∧
    ∃ v, Fuel.Returns (fun fuel => r.getReplacementIndex fuel) v ∧
      (isValidReplacement r.blocks v.1 = true ↔ isValidReplacement r.blocks r.replacementIndex = true ∧
        isValidReplacement r.blocks r.retreat.replacementIndex = true) := by
  refine ⟨CacheSetLRU.valid_victim_iff q hs hfull,?_⟩
  obtain ⟨i,hi⟩ := hr
  have hlt : i < r.blocks.length := by
    by_contra hge
    simp [isValidReplacement,List.getElem?_eq_none (Nat.le_of_not_lt hge)] at hi
  obtain ⟨k,hk⟩ := CacheSetRoundRobin.retreat_reaches hlt
  obtain ⟨v,hv⟩ := CacheSetRoundRobin.returns_of_reached (k := k) (by rwa [hk])
  obtain ⟨n,hn⟩ := hv
  exact ⟨v,⟨n,hn⟩,CacheSetRoundRobin.valid_victim_iff (hn n (Nat.le_refl n))⟩

namespace CacheSet

def upgradingFirst : CacheSetLRU := ⟨[⟨⟨1,.sharedUpgrading⟩,1⟩,⟨⟨2,.shared⟩,0⟩],1⟩

def upgradingFirstRoundRobin : CacheSetRoundRobin := ⟨upgradingFirst.blocks,⟨1,by decide⟩⟩

theorem upgrading_way_evicted :
    (∀ b ∈ upgradingFirst.blocks, b.isValid = true) ∧ isValidReplacement upgradingFirst.blocks 1 = true ∧
      (upgradingFirst.getReplacementIndex fun _ => false).1 = 0 ∧
      (upgradingFirstRoundRobin.getReplacementIndex 2).map Prod.fst = some 0 ∧
      isValidReplacement upgradingFirst.blocks 0 = false := by
  refine ⟨?_,?_,?_,?_,?_⟩ <;> decide

theorem victims_of_upgradingFirst : (∀ b ∈ upgradingFirst.blocks, b.isValid = true) ∧
      ∃ v, Fuel.Returns (fun fuel => upgradingFirstRoundRobin.getReplacementIndex fuel) v :=
  ⟨by decide,(victims_not_upgrading_iff (fun _ => false) upgradingFirst upgradingFirstRoundRobin rfl (by decide)
      ⟨1,by decide⟩).2.imp fun _ h => h.1⟩

end CacheSet
