import SniperSim.Cache.TrueLru
import Mathlib.Data.List.Rotate

open List
namespace CacheSetLRU
variable {s : CacheSetLRU} {order : List Nat} {q : CacheBlockInfo → Bool} {index : Nat}

def rejects (isInLowerLevelCache : CacheBlockInfo → Bool) (s : CacheSetLRU) (index : Nat) : Bool :=
  ((s.blocks[index]?).map isInLowerLevelCache).getD false

structure QbsLog where
  (queried counted : List Nat)

def attemptsLog (isInLowerLevelCache : CacheBlockInfo → Bool) : Nat → Nat → Nat → CacheSetLRU → QbsLog
  | 0, _, _, _ => ⟨[],[]⟩
  | k + 1, attempt, index, s =>
    let index := lruScan s.ways 0 index 0
    let rest := attemptsLog isInLowerLevelCache k (attempt + 1) index (s.moveToMRU index)
    ⟨if k != 0 then index :: rest.queried else rest.queried,
      if k != 0 && s.rejects isInLowerLevelCache index then rest.counted else attempt :: rest.counted⟩

def Orders (s : CacheSetLRU) (order : List Nat) : Prop :=
  order.Perm (range s.blocks.length) ∧ ∀ j i, order[j]? = some i → s.rank i + j + 1 = s.blocks.length

def candidate (order : List Nat) (k : Nat) : Nat := (order.rotate k).headD 0

def accepted (isInLowerLevelCache : CacheBlockInfo → Bool) (s : CacheSetLRU) (order : List Nat) : Nat :=
  ((range (s.numAttempts - 1)).find? fun k => !s.rejects isInLowerLevelCache (candidate order k)).getD
    (s.numAttempts - 1)

theorem candidate_rotate (order : List Nat) : candidate (order.rotate 1) = fun k => candidate order (k + 1) :=
  funext fun k => by rw [candidate,candidate,rotate_rotate,Nat.add_comm]

theorem rejects_moveToMRU (i : Nat) : (s.moveToMRU i).rejects q = s.rejects q :=
  funext fun j => by rw [rejects,rejects,blocks_moveToMRU]

section
variable (ho : Orders s order) (hs : ∀ b ∈ s.blocks, b.cstate ≠ .sharedUpgrading) (hi : index < s.blocks.length)
include ho

theorem Orders.cons (hi : index < s.blocks.length) : ∃ xs, order = candidate order 0 :: xs := by
  cases order with
  | nil =>
    have hlen := ho.1.length_eq
    simp at hlen
    omega
  | cons x xs => exact ⟨xs,by simp [candidate]⟩

include hi

theorem Orders.lt : candidate order 0 < s.blocks.length := by
  obtain ⟨xs,hx⟩ := ho.cons hi
  exact mem_range.mp (ho.1.mem_iff.mp (hx ▸ mem_cons_self ..))

theorem Orders.moveToMRU : Orders (s.moveToMRU (candidate order 0)) (order.rotate 1) := by
  have hlt := ho.lt hi
  obtain ⟨xs,hx⟩ := ho.cons hi
  generalize candidate order 0 = x at hlt hx ⊢
  subst hx
  have hrank : s.rank x + 0 + 1 = s.blocks.length := ho.2 0 x rfl
  have hlen : xs.length + 1 = s.blocks.length := by simpa using ho.1.length_eq
  rw [Orders,blocks_moveToMRU]
  refine ⟨(rotate_perm _ 1).trans ho.1,fun j i hj => ?_⟩
  rw [rotate_cons_succ,rotate_zero] at hj
  have hmem : i < s.blocks.length := by
    refine mem_range.mp (ho.1.mem_iff.mp ?_)
    simpa [or_comm] using mem_of_getElem? hj
  rw [rank_moveToMRU s x hmem,Recency.promote]
  rcases Nat.lt_trichotomy j xs.length with hjx | rfl | hjx
  · rw [getElem?_append_left hjx] at hj
    have hr := ho.2 (j + 1) i hj
    rw [if_neg (by rintro rfl; omega),if_pos (by omega)]
    omega
  · simp only [getElem?_concat_length,Option.some.injEq] at hj
    rw [if_pos hj.symm]
    omega
  · rw [getElem?_eq_none (by simpa using Nat.succ_le_of_lt hjx)] at hj
    cases hj

include hs

theorem Orders.lruScan : lruScan s.ways 0 index 0 = candidate order 0 := by
  obtain ⟨xs,hx⟩ := ho.cons hi
  have hlt := lruScan_lt s.ways 0 index 0 _ (by rw [Nat.zero_add,blocks_length]) hi
  have hle := rank_le_lruScan hs (ho.lt hi) index
  have hfirst := ho.2 0 (candidate order 0) (by rw [hx]; simp [candidate])
  obtain ⟨j,hj⟩ := getElem?_of_mem (ho.1.mem_iff.mpr (mem_range.mpr hlt))
  have hr := ho.2 j _ hj
  obtain rfl : j = 0 := by omega
  rw [candidate,rotate_zero,headD_eq_head?_getD,head?_eq_getElem?,hj]
  rfl

theorem attempts_rounds (q : CacheBlockInfo → Bool) (attempt k : Nat) :
    (attempts q (k + 1) index s).1 = candidate order k ∧ Orders (attempts q (k + 1) index s).2 (order.rotate (k + 1)) ∧
    (attemptsLog q (k + 1) attempt index s).queried = (range k).map (candidate order) ∧
    (attemptsLog q (k + 1) attempt index s).counted.length =
      (range k).countP (fun j => !s.rejects q (candidate order j)) + 1 := by
  induction k generalizing s order index attempt with
  | zero =>
    simp only [attempts,attemptsLog,ho.lruScan hs hi]
    exact ⟨rfl,ho.moveToMRU hi,rfl,rfl⟩
  | succ k ih =>
    obtain ⟨hv,hm,hq,hc⟩ := ih (ho.moveToMRU hi) (by rwa [blocks_moveToMRU])
      (by rw [blocks_moveToMRU]; exact ho.lt hi) (attempt + 1)
    rw [attempts,attemptsLog]
    simp only [ho.lruScan hs hi,ite_self]
    rw [candidate_rotate] at hv hq hc
    rw [rotate_rotate,Nat.add_comm 1] at hm
    refine ⟨hv,hm,?_,?_⟩
    · simp [hq,range_succ_eq_map]
    · rw [rejects_moveToMRU] at hc
      simp only [range_succ_eq_map,countP_cons,countP_map,Function.comp_def]
      cases s.rejects q (candidate order 0) <;> simp [hc]
end

theorem qbs_stops_iff (q : CacheBlockInfo → Bool) (s : CacheSetLRU) (order : List Nat) (hn : 2 ≤ s.numAttempts)
    (ho : Orders s order) (hpos : 0 < s.blocks.length) (hfull : ∀ b ∈ s.blocks, b.isValid = true)
    (hs : ∀ b ∈ s.blocks, b.cstate ≠ .sharedUpgrading) :
    ((s.getReplacementIndex q).1 = candidate order (s.accepted q order) ∧
      Orders (s.getReplacementIndex q).2 (order.rotate (s.accepted q order + 1)) ∧
      (attemptsLog q s.numAttempts 0 0 s).queried =
        (range (min (s.accepted q order + 1) (s.numAttempts - 1))).map (candidate order) ∧
      (attemptsLog q s.numAttempts 0 0 s).counted.length = 1) ↔
    ∀ k < s.numAttempts - 1, s.rejects q (candidate order k) = true := by
  have hnone : s.blocks.findIdx? (fun b => !b.isValid) = none := by simpa using hfull
  have hget : s.getReplacementIndex q = attempts q s.numAttempts 0 s := by rw [getReplacementIndex,hnone]
  obtain ⟨n,hn⟩ : ∃ n, s.numAttempts = n + 1 := ⟨s.numAttempts - 1,by omega⟩
  obtain ⟨hv,hm,hq,hc⟩ := attempts_rounds ho hs hpos q 0 n
  rw [hget,accepted,hn,Nat.add_sub_cancel]
  constructor
  · rintro ⟨-,-,-,h1⟩ k hk
    rw [hc,Nat.succ_inj,countP_eq_zero] at h1
    simpa using h1 k (mem_range.mpr hk)
  · intro h
    have hf : (range n).find? (fun k => !s.rejects q (candidate order k)) = none := by simpa using h
    have hz : (range n).countP (fun k => !s.rejects q (candidate order k)) = 0 := by simpa using h
    rw [hf,Option.getD_none,Nat.min_eq_right (Nat.le_succ n),hc,hz]
    exact ⟨hv,hm,hq,rfl⟩

def twoLines : CacheSetLRU := ⟨[⟨⟨1,.shared⟩,1⟩,⟨⟨2,.shared⟩,0⟩],2⟩

theorem orders_twoLines : Orders twoLines [0,1] := by
  refine ⟨by decide,fun j i h => ?_⟩
  rcases j with _ | _ | j
  · cases h
    rfl
  · cases h
    rfl
  · cases h

theorem qbs_rejects_the_older_line : (twoLines.getReplacementIndex fun _ => true).1 = 1 ∧
    (attemptsLog (fun _ => true) 2 0 0 twoLines).counted.length = 1 :=
  ⟨by decide,((qbs_stops_iff (fun _ => true) twoLines [0,1] (by decide) orders_twoLines (by decide) (by decide)
    (by decide)).mpr (by decide)).2.2.2⟩

theorem qbs_goes_on_after_the_victim : Orders twoLines [0,1] ∧ twoLines.rejects (fun _ => false) 0 = false ∧
    twoLines.accepted (fun _ => false) [0,1] = 0 ∧ (twoLines.getReplacementIndex fun _ => false).1 = 1 ∧
    (attemptsLog (fun _ => false) 2 0 0 twoLines).counted = [0,1] :=
  ⟨orders_twoLines,by decide,by decide,by decide,by decide⟩

end CacheSetLRU
