import SniperSim.Cache.CacheSetLRU
import SniperSim.Library.Recency
import SniperSim.Library.Run
import Mathlib.Data.List.Nodup
import Mathlib.Data.List.Perm.Subperm
import Mathlib.Order.Interval.Set.Defs

open List Option UInt8 Recency CacheWay
open CacheBlockInfo

inductive SetOp
  | find (tag : IntPtr)
  | updateReplacementIndex (index : Nat)
  | insert (block : CacheBlockInfo)
  | invalidate (tag : IntPtr)
deriving DecidableEq, Repr

inductive SetReply
  | found (index : Option Nat)
  | updated
  | inserted (evicted : Option CacheBlockInfo)
  | invalidated (found : Bool)
deriving DecidableEq, Repr

structure TrueLru where
  blocks : List CacheBlockInfo
  touched : Nat → Nat
  clock : Nat

namespace TrueLru

def create (associativity : Nat) : TrueLru := ⟨replicate associativity .empty,fun _ => 0, 1⟩

variable (t : TrueLru)

def touch (index : Nat) : TrueLru :=
  { t with touched := Function.update t.touched index t.clock, clock := t.clock + 1 }

def oldest : Nat :=
  ((range t.blocks.length).find? fun i => (range t.blocks.length).all fun j => t.touched i ≤ t.touched j).getD 0

def replacementIndex : Nat := (t.blocks.findIdx? fun b => !b.isValid).getD t.oldest

def insert (b : CacheBlockInfo) : TrueLru × Option CacheBlockInfo :=
  ({ t.touch t.replacementIndex with blocks := t.blocks.set t.replacementIndex b },
    (t.blocks[t.replacementIndex]?).filter isValid)

def invalidate (tag : IntPtr) : TrueLru × Bool :=
  match CacheSetLRU.findLast tag t.blocks with
  | some index => ({ t with blocks := t.blocks.set index .empty },true)
  | none => (t,false)

def step : SetOp → TrueLru × SetReply
  | .find tag => (t,.found (CacheSetLRU.findLast tag t.blocks))
  | .updateReplacementIndex index => (t.touch index,.updated)
  | .insert b => ((t.insert b).1,.inserted (t.insert b).2)
  | .invalidate tag => ((t.invalidate tag).1,.invalidated (t.invalidate tag).2)

end TrueLru

namespace CacheSetLRU
variable {s : CacheSetLRU} {t : TrueLru} {n i j : Nat} {b : CacheBlockInfo}

def step (isInLowerLevelCache : CacheBlockInfo → Bool) (s : CacheSetLRU) : SetOp → CacheSetLRU × SetReply
  | .find tag => (s,.found (s.find tag))
  | .updateReplacementIndex index => (s.moveToMRU index,.updated)
  | .insert b => ((s.insert isInLowerLevelCache b).1,.inserted (s.insert isInLowerLevelCache b).2)
  | .invalidate tag => ((s.invalidate tag).1,.invalidated (s.invalidate tag).2)

def Admissible (s : CacheSetLRU) : SetOp → Prop
  | .updateReplacementIndex index => index < s.blocks.length
  | .insert b => (∀ b' ∈ s.blocks, b'.tag ≠ b.tag) ∧ b.cstate ≠ .sharedUpgrading
  | _ => True

instance (s : CacheSetLRU) (op : SetOp) : Decidable (s.Admissible op) :=
  match op with
  | .updateReplacementIndex _ => inferInstanceAs (Decidable (_ < _))
  | .insert _ => inferInstanceAs (Decidable (_ ∧ _))
  | .find _ | .invalidate _ => inferInstanceAs (Decidable True)

def rank (s : CacheSetLRU) (i : Nat) : Nat := (s.lruBitsAt i).toNat

def ranks (s : CacheSetLRU) : List Nat := s.ways.map fun w => w.lruBits.toNat

def validTags (s : CacheSetLRU) : List IntPtr := (s.blocks.filter isValid).map tag

theorem lruBitsAt_moveToMRU (s : CacheSetLRU) (i : Nat) (hj : j < s.blocks.length) :
    (s.moveToMRU i).lruBitsAt j = if j = i then 0
      else if s.lruBitsAt j < s.lruBitsAt i then s.lruBitsAt j + 1 else s.lruBitsAt j := by
  have hw : j < s.ways.length := by rwa [← blocks_length]
  have hj' : s.lruBitsAt j = s.ways[j].lruBits := by simp [lruBitsAt,hw]
  have hm : (s.moveToMRU i).lruBitsAt j = (if j = i then { s.ways[j] with lruBits := 0 }
      else if s.ways[j].lruBits < s.lruBitsAt i
        then { s.ways[j] with lruBits := s.ways[j].lruBits + 1 } else s.ways[j]).lruBits := by
    rw [lruBitsAt,moveToMRU,getElem?_mapIdx,getElem?_eq_getElem hw]
    rfl
  rw [hm,hj']
  split_ifs <;> rfl

def bitsAt (bits : List UInt8) (i : Nat) : UInt8 := bits[i]?.getD 0

def bumpBits (accessed : Nat) (bits : List UInt8) (i : Nat) : List UInt8 :=
  if bitsAt bits i < bitsAt bits accessed then bits.set i (bitsAt bits i + 1) else bits

def moveToMRULoop (accessed : Nat) (bits : List UInt8) : List UInt8 :=
  ((range bits.length).foldl (bumpBits accessed) bits).set accessed 0

theorem bitsAt_set (bits : List UInt8) (x : UInt8) (hi : i < bits.length) (j : Nat) :
    bitsAt (bits.set i x) j = if j = i then x else bitsAt bits j := by
  rcases eq_or_ne j i with rfl | hj
  · simp [bitsAt,hi]
  · simp [bitsAt,getElem?_set_ne hj.symm,hj]

theorem foldl_bumpBits (accessed : Nat) (bits : List UInt8) (k : Nat) (hk : k ≤ bits.length) :
    ((range k).foldl (bumpBits accessed) bits).length = bits.length ∧
      ∀ j, bitsAt ((range k).foldl (bumpBits accessed) bits) j =
        if j < k ∧ bitsAt bits j < bitsAt bits accessed then bitsAt bits j + 1 else bitsAt bits j := by
  induction k with
  | zero => simp
  | succ k ih =>
    obtain ⟨hl,hb⟩ := ih (by omega)
    have hself : bitsAt ((range k).foldl (bumpBits accessed) bits) accessed = bitsAt bits accessed := by
      rw [hb,if_neg (fun h => UInt8.lt_irrefl _ h.2)]
    have hnext : bitsAt ((range k).foldl (bumpBits accessed) bits) k = bitsAt bits k := by
      rw [hb,if_neg (fun h => Nat.lt_irrefl _ h.1)]
    have hjk {j : Nat} (hj : j ≠ k) : j < k ↔ j < k + 1 := by omega
    rw [range_succ,foldl_append,foldl_cons,foldl_nil,bumpBits,hself,hnext]
    split
    · next hlt =>
      refine ⟨by rw [length_set,hl],fun j => ?_⟩
      rw [bitsAt_set _ _ (by omega),hb]
      rcases eq_or_ne j k with rfl | hj <;> simp [*]
    · next hge =>
      refine ⟨hl,fun j => ?_⟩
      rw [hb]
      rcases eq_or_ne j k with rfl | hj <;> simp [*]

theorem moveToMRU_eq_loop (s : CacheSetLRU) (hi : i < s.blocks.length) :
    (s.moveToMRU i).ways.map lruBits = moveToMRULoop i (s.ways.map lruBits) := by
  have hat (s : CacheSetLRU) (j : Nat) : bitsAt (s.ways.map lruBits) j = s.lruBitsAt j := by
    rw [bitsAt,getElem?_map,lruBitsAt]
  obtain ⟨hl,hb⟩ := foldl_bumpBits i (s.ways.map lruBits) _ le_rfl
  have hlen : (s.ways.map lruBits).length = s.blocks.length := by
    rw [length_map,blocks_length]
  refine ext_getElem ?_ fun j hj hj' => ?_
  · rw [moveToMRULoop,length_set,hl,length_map,length_map,← blocks_length,← blocks_length,blocks_moveToMRU]
  · have hjs : j < s.blocks.length := by
      rwa [length_map,← blocks_length,blocks_moveToMRU] at hj
    have hget {bits : List UInt8} (h : j < bits.length) : bits[j] = bitsAt bits j := by
      rw [bitsAt,getElem?_eq_getElem h,getD_some]
    rw [hget hj,hget hj',hat,lruBitsAt_moveToMRU s i hjs,moveToMRULoop,bitsAt_set _ _ (by rwa [hl,hlen]),hb,hat,hat]
    simp [hlen,hjs]

theorem four_ways_moved : ((create 4 1).moveToMRU 2).ways.map lruBits = moveToMRULoop 2 [0,1,2,3] :=
  moveToMRU_eq_loop (create 4 1) (by decide)

theorem toNat_succ_of_lt {a c : UInt8} (h : a < c) : (a + 1).toNat = a.toNat + 1 := by
  have h' := lt_iff_toNat_lt.mp h
  have := c.toNat_lt
  rw [UInt8.toNat_add,UInt8.toNat_one]
  omega

theorem rank_moveToMRU (s : CacheSetLRU) (i : Nat) (hj : j < s.blocks.length) :
    (s.moveToMRU i).rank j = promote s.rank i j := by
  simp only [rank,lruBitsAt_moveToMRU s i hj,promote,← lt_iff_toNat_lt]
  split
  · rfl
  · split
    · next h => exact toNat_succ_of_lt h
    · rfl

theorem rank_setBlock (s : CacheSetLRU) (i j : Nat) (b : CacheBlockInfo) : (s.setBlock i b).rank j = s.rank j := by
  simp only [rank,lruBitsAt,setBlock,getElem?_modify]
  cases s.ways[j]? with
  | none => rfl
  | some w => simp only [map_some]; split <;> rfl

theorem lruScan_max (ws : List CacheWay) (i index : Nat) (maxBits : UInt8) :
    (lruScan ws i index maxBits = index ∧ ∀ w ∈ ws, isValidReplacement w → w.lruBits ≤ maxBits) ∨
      ∃ k w, ws[k]? = some w ∧ isValidReplacement w ∧ lruScan ws i index maxBits = i + k ∧ maxBits < w.lruBits ∧
        ∀ w' ∈ ws, isValidReplacement w' → w'.lruBits ≤ w.lruBits := by
  induction ws generalizing i index maxBits with
  | nil => exact .inl ⟨rfl,by simp⟩
  | cons w ws ih =>
    rw [lruScan]
    split
    · next hlt =>
      rcases ih (i + 1) i w.lruBits with ⟨he,hm⟩ | ⟨k,w',hk,hv,he,hlt',hm⟩
      · exact .inr ⟨0,w,rfl,hlt.2,he,hlt.1,forall_mem_cons.mpr ⟨fun _ => UInt8.le_refl _,hm⟩⟩
      · refine .inr ⟨k + 1,w',hk,hv,by omega,UInt8.lt_trans hlt.1 hlt',?_⟩
        exact forall_mem_cons.mpr ⟨fun _ => UInt8.le_of_lt hlt',hm⟩
    · next hle =>
      have hwm : isValidReplacement w → w.lruBits ≤ maxBits := fun hw => UInt8.not_lt.mp fun hlt => hle ⟨hlt,hw⟩
      rcases ih (i + 1) index maxBits with ⟨he,hm⟩ | ⟨k,w',hk,hv,he,hlt',hm⟩
      · exact .inl ⟨he,forall_mem_cons.mpr ⟨hwm,hm⟩⟩
      · refine .inr ⟨k + 1,w',hk,hv,by omega,hlt',?_⟩
        exact forall_mem_cons.mpr ⟨fun hw => UInt8.le_trans (hwm hw) (UInt8.le_of_lt hlt'),hm⟩

theorem rank_le_lruScan (hv : ∀ b ∈ s.blocks, b.cstate ≠ .sharedUpgrading)
    (hj : j < s.blocks.length) (index : Nat) : s.rank j ≤ s.rank (lruScan s.ways 0 index 0) := by
  have hw : j < s.ways.length := by rwa [← blocks_length]
  have hvw : isValidReplacement s.ways[j] := by
    simpa [isValidReplacement] using hv s.ways[j].block (List.mem_map_of_mem (getElem_mem hw))
  have hr : s.rank j = s.ways[j].lruBits.toNat := by simp [rank,lruBitsAt,hw]
  rcases lruScan_max s.ways 0 index 0 with ⟨-,hm⟩ | ⟨k,w,hk,-,he,-,hm⟩
  · have := le_iff_toNat_le.mp (hm _ (getElem_mem hw) hvw)
    simp only [UInt8.toNat_zero] at this
    omega
  · have hmax := le_iff_toNat_le.mp (hm _ (getElem_mem hw) hvw)
    rwa [he,Nat.zero_add,hr,rank,lruBitsAt,hk]

theorem nodup_tags_set (bs : List CacheBlockInfo) (i : Nat) (h : ((bs.filter isValid).map tag).Nodup)
    (hb : b.isValid → ∀ b' ∈ bs, b'.tag ≠ b.tag) : (((bs.set i b).filter isValid).map tag).Nodup := by
  induction bs generalizing i with
  | nil => simp
  | cons x bs ih =>
    have htail : ((bs.filter isValid).map tag).Nodup := h.sublist ((sublist_cons_self x bs).filter _ |>.map _)
    have hb' (hv : b.isValid) : ∀ b' ∈ bs, b'.tag ≠ b.tag := fun b' hm => hb hv b' (mem_cons_of_mem x hm)
    cases i with
    | zero =>
      rw [set_cons_zero,filter_cons]
      split
      · next hv =>
        refine nodup_cons.mpr ⟨?_,htail⟩
        rintro hm
        obtain ⟨b',hm',he⟩ := List.mem_map.mp hm
        exact hb' hv b' (mem_of_mem_filter hm') he
      · exact htail
    | succ i =>
      rw [set_cons_succ,filter_cons]
      split
      · next hv =>
        rw [filter_cons,if_pos hv,map_cons,nodup_cons] at h
        refine nodup_cons.mpr ⟨?_,ih i htail hb'⟩
        rintro hm
        obtain ⟨b',hm',he⟩ := List.mem_map.mp hm
        obtain ⟨hset,hvalid⟩ := mem_filter.mp hm'
        rcases mem_or_eq_of_mem_set hset with hmem | rfl
        · exact h.1 (List.mem_map.mpr ⟨b',mem_filter.mpr ⟨hmem,hvalid⟩,he⟩)
        · exact hb hvalid x mem_cons_self he.symm
      · exact ih i htail hb'

structure Recent (n : Nat) (s : CacheSetLRU) (t : TrueLru) : Prop where
  length : s.blocks.length = n
  nonempty : 0 < n
  blocks : t.blocks = s.blocks
  oneAttempt : s.numAttempts = 1
  injective : Set.InjOn s.rank (Set.Iio n)
  bounded : ∀ i < n, s.rank i < n
  past : ∀ i, t.touched i < t.clock
  order : ∀ i < n, ∀ j < n, t.touched i < t.touched j → s.rank j < s.rank i
  distinct : ∀ i j, 0 < t.touched i → t.touched i = t.touched j → i = j
  filled : ∀ i b, s.blocks[i]? = some b → b.isValid → 0 < t.touched i
  stable : ∀ b ∈ s.blocks, b.cstate ≠ .sharedUpgrading
  tags : s.validTags.Nodup

namespace Recent
section
variable (h : Recent n s t)
include h

theorem touch (hi : i < n) : Recent n (s.moveToMRU i) (t.touch i) := by
  have hr : ∀ j < n, (s.moveToMRU i).rank j = promote s.rank i j := fun j hj => rank_moveToMRU s i (h.length ▸ hj)
  have hcl (j : Nat) : (t.touch i).touched j = if j = i then t.clock else t.touched j :=
    Function.update_apply t.touched i t.clock j
  constructor
  case length => rw [blocks_moveToMRU,h.length]
  case nonempty => exact h.nonempty
  case blocks => rw [blocks_moveToMRU,← h.blocks,TrueLru.touch]
  case oneAttempt => exact h.oneAttempt
  case injective => exact (injOn_promote h.injective hi).congr fun j hj => (hr j hj).symm
  case bounded =>
    intro j hj
    rw [hr j hj]
    exact promote_lt (h.bounded i hi) (h.bounded j hj)
  case past =>
    intro j
    have := h.past j
    rw [hcl,TrueLru.touch]
    split <;> simp only <;> omega
  case order =>
    intro j hj k hk hlt
    rw [hr j hj,hr k hk]
    rw [hcl,hcl] at hlt
    rcases eq_or_ne j i with rfl | hji
    · have := h.past k
      rw [if_pos rfl] at hlt
      split at hlt <;> omega
    · rcases eq_or_ne k i with rfl | hki
      · rw [promote_self]
        exact promote_pos h.injective hk hj hji
      · rw [if_neg hji,if_neg hki] at hlt
        exact (promote_lt_iff h.injective hi hk hj hki hji).mpr (h.order j hj k hk hlt)
  case distinct =>
    intro j k hpos he
    have hj := h.past j
    have hk := h.past k
    have hd := h.distinct j k
    rw [hcl,hcl] at he
    split at he <;> split at he
    all_goals simp_all
  case filled =>
    intro j b hb hv
    rw [blocks_moveToMRU] at hb
    have := h.past i
    have := h.filled j b hb hv
    rw [hcl]
    split <;> omega
  case stable => rw [blocks_moveToMRU]; exact h.stable
  case tags => rw [validTags,blocks_moveToMRU]; exact h.tags

theorem setBlock (i : Nat) (hi : b.isValid → 0 < t.touched i)
    (hb : b.isValid → ∀ b' ∈ s.blocks, b'.tag ≠ b.tag) (hs : b.cstate ≠ .sharedUpgrading) :
    Recent n (s.setBlock i b) { t with blocks := t.blocks.set i b } := by
  have hr : (s.setBlock i b).rank = s.rank := funext fun j => rank_setBlock s i j b
  constructor
  case length => rw [blocks_setBlock,length_set,h.length]
  case nonempty => exact h.nonempty
  case blocks => rw [blocks_setBlock,h.blocks]
  case oneAttempt => exact h.oneAttempt
  case injective => rw [hr]; exact h.injective
  case bounded => rw [hr]; exact h.bounded
  case past => exact h.past
  case order => rw [hr]; exact h.order
  case distinct => exact h.distinct
  case filled =>
    intro j b' hb' hv
    rw [blocks_setBlock,getElem?_set] at hb'
    split at hb'
    · next hij =>
      split at hb'
      · obtain rfl := some.inj hb'
        exact hij ▸ hi hv
      · cases hb'
    · exact h.filled j b' hb' hv
  case stable =>
    intro b' hm
    rw [blocks_setBlock] at hm
    rcases mem_or_eq_of_mem_set hm with hm | rfl
    · exact h.stable b' hm
    · exact hs
  case tags =>
    rw [validTags,blocks_setBlock]
    exact nodup_tags_set s.blocks i h.tags hb

theorem oldest_eq (hv : ∀ b ∈ s.blocks, b.isValid) : t.oldest = lruScan s.ways 0 0 0 := by
  have hm : lruScan s.ways 0 0 0 < n :=
    lruScan_lt s.ways 0 0 0 n (by rw [← h.length,blocks_length,Nat.zero_add]) h.nonempty
  generalize hmax : lruScan s.ways 0 0 0 = m at hm
  have hpos : ∀ j < n, 0 < t.touched j := by
    intro j hj
    rw [← h.length] at hj
    exact h.filled j _ (getElem?_eq_getElem hj) (hv _ (getElem_mem hj))
  have hmin : ∀ j < n, t.touched m ≤ t.touched j := by
    intro j hj
    refine Nat.le_of_not_lt fun hlt => ?_
    have hle := rank_le_lruScan h.stable (h.length ▸ hj) 0
    have := h.order j hj m hm hlt
    rw [hmax] at hle
    omega
  have hfound : ((range t.blocks.length).find? fun i =>
      (range t.blocks.length).all fun j => t.touched i ≤ t.touched j) = some m := by
    rw [h.blocks,h.length]
    cases hf : (range n).find? fun i => (range n).all fun j => t.touched i ≤ t.touched j with
    | none =>
      have := find?_eq_none.mp hf m (mem_range.mpr hm)
      simp only [List.all_eq_true,mem_range,decide_eq_true_eq] at this
      exact absurd hmin this
    | some k =>
      have hk := mem_range.mp (mem_of_find?_eq_some hf)
      have hle := find?_some hf
      simp only [List.all_eq_true,mem_range,decide_eq_true_eq] at hle
      have heq := Nat.le_antisymm (hle m hm) (hmin k hk)
      rw [h.distinct k m (hpos k hk) heq]
  rw [TrueLru.oldest,hfound,getD_some]

theorem replacementIndex_eq (q : CacheBlockInfo → Bool) :
    s.getReplacementIndex q = (t.replacementIndex,s.moveToMRU t.replacementIndex) := by
  rw [getReplacementIndex,TrueLru.replacementIndex,h.blocks]
  cases hf : s.blocks.findIdx? fun b => !b.isValid with
  | some i => rfl
  | none =>
    have hv : ∀ b ∈ s.blocks, b.isValid := by
      simpa using findIdx?_eq_none_iff.mp hf
    rw [getD_none,h.oldest_eq hv,h.oneAttempt]
    simp [attempts]

theorem insert (q : CacheBlockInfo → Bool) (hb : ∀ b' ∈ s.blocks, b'.tag ≠ b.tag) (hs : b.cstate ≠ .sharedUpgrading) :
    Recent n (s.insert q b).1 (t.insert b).1 ∧ (s.insert q b).2 = (t.insert b).2 := by
  have hlt := (getReplacementIndex_spec q s (h.length ▸ h.nonempty)).1
  rw [h.replacementIndex_eq q,h.length] at hlt
  have ht := h.touch hlt
  have htouched : 0 < (t.touch t.replacementIndex).touched t.replacementIndex := by
    have := h.past 0
    simp only [TrueLru.touch,Function.update_self]
    omega
  rw [CacheSetLRU.insert,h.replacementIndex_eq q]
  constructor
  · refine ht.setBlock _ (fun _ => htouched) (fun _ => ?_) hs
    rwa [blocks_moveToMRU]
  · rw [TrueLru.insert,h.blocks]
    simp

theorem invalidate (tag : IntPtr) : Recent n (s.invalidate tag).1 (t.invalidate tag).1 ∧
      (s.invalidate tag).2 = (t.invalidate tag).2 := by
  rw [CacheSetLRU.invalidate,TrueLru.invalidate,h.blocks,find]
  cases findLast tag s.blocks with
  | none => exact ⟨h,rfl⟩
  | some i =>
    refine ⟨?_,rfl⟩
    rw [← h.blocks]
    exact h.setBlock i (by simp [isValid,empty]) (by simp [isValid,empty]) (by simp [empty])

theorem step (q : CacheBlockInfo → Bool) (op : SetOp) (ha : s.Admissible op) :
    Recent n (s.step q op).1 (t.step op).1 ∧ (s.step q op).2 = (t.step op).2 := by
  cases op with
  | find tag => exact ⟨h,by rw [CacheSetLRU.step,TrueLru.step,find,h.blocks]⟩
  | updateReplacementIndex i => exact ⟨h.touch (h.length ▸ ha),rfl⟩
  | insert b =>
    obtain ⟨hr,he⟩ := h.insert q ha.1 ha.2
    exact ⟨hr,congrArg _ he⟩
  | invalidate tag =>
    obtain ⟨hr,he⟩ := h.invalidate tag
    exact ⟨hr,congrArg _ he⟩
end

theorem create (h : 1 ≤ n) (h' : n ≤ 256) : Recent n (CacheSetLRU.create n 1) (.create n) := by
  have hb : (CacheSetLRU.create n 1).blocks = replicate n .empty := by
    simp [CacheSetLRU.create,CacheSetLRU.blocks,Function.comp_def,map_const']
  have hr : ∀ i < n, (CacheSetLRU.create n 1).rank i = i := by
    intro i hi
    have hlt : i < 256 := by omega
    simp [rank,lruBitsAt,CacheSetLRU.create,hi,hlt,Nat.mod_eq_of_lt]
  constructor
  case length => rw [hb,length_replicate]
  case nonempty => exact h
  case blocks => rw [hb,TrueLru.create]
  case oneAttempt => rfl
  case injective =>
    intro i hi j hj hij
    rwa [hr i hi,hr j hj] at hij
  case bounded =>
    intro i hi
    rwa [hr i hi]
  case past => simp [TrueLru.create]
  case order => simp [TrueLru.create]
  case distinct => simp [TrueLru.create]
  case filled =>
    intro i b hi hv
    rw [hb] at hi
    rw [eq_of_mem_replicate (mem_of_getElem? hi)] at hv
    simp [isValid,empty] at hv
  case stable =>
    intro b hm
    rw [hb] at hm
    rw [eq_of_mem_replicate hm]
    simp [empty]
  case tags => simp [validTags,hb,isValid,empty]

theorem ranks_perm (h : Recent n s t) : s.ranks.Perm (range n) := by
  have hlen : s.ranks.length = n := by rw [ranks,length_map,← blocks_length,h.length]
  have hget (i : Nat) (hi : i < s.ranks.length) : s.ranks[i] = s.rank i := by
    have hw : i < s.ways.length := by simpa [ranks] using hi
    simp [ranks,rank,lruBitsAt,hw]
  have hnodup : s.ranks.Nodup := by
    refine nodup_iff_injective_getElem.mpr fun i j hij => ?_
    simp only [hget] at hij
    exact Fin.ext (h.injective (hlen ▸ i.isLt) (hlen ▸ j.isLt) hij)
  have hsub : s.ranks ⊆ range n := by
    intro r hr
    obtain ⟨i,hi,rfl⟩ := getElem_of_mem hr
    rw [hget,mem_range]
    exact h.bounded i (hlen ▸ hi)
  exact (hnodup.subperm hsub).perm_of_length_le (by rw [hlen,length_range])

end Recent

theorem refines_true_lru (isInLowerLevelCache : CacheBlockInfo → Bool) (associativity : Nat)
    (hpos : 1 ≤ associativity) (hmax : associativity ≤ 256) (ops : List SetOp)
    (h : Run.Along (fun s op => (s.step isInLowerLevelCache op).1) Admissible (create associativity 1) ops) :
    (Run.final (step isInLowerLevelCache) (create associativity 1) ops).ranks.Perm (range associativity) ∧
      (Run.final (step isInLowerLevelCache) (create associativity 1) ops).validTags.Nodup ∧
      (Run.final (step isInLowerLevelCache) (create associativity 1) ops).blocks =
        (Run.final TrueLru.step (.create associativity) ops).blocks ∧
      Run.outputs (step isInLowerLevelCache) (create associativity 1) ops =
        Run.outputs TrueLru.step (.create associativity) ops := by
  obtain ⟨hr,ho⟩ := Run.simulation (R := Recent associativity)
    (fun s t op hr ha => hr.step isInLowerLevelCache op ha) (Recent.create hpos hmax) h
  exact ⟨hr.ranks_perm,hr.tags,hr.blocks.symm,ho⟩

def refill : List SetOp :=
  [.insert ⟨5,.shared⟩,.insert ⟨6,.modified⟩,.find 5,.updateReplacementIndex 0,
    .insert ⟨7,.shared⟩,.invalidate 5,.insert ⟨8,.shared⟩]

theorem refines_true_lru_refill : Run.outputs (step fun _ => false) (create 2 1) refill =
      [.inserted none,.inserted none,.found (some 0),.updated,.inserted (some ⟨6,.modified⟩),
        .invalidated true,.inserted none] :=
  (refines_true_lru (fun _ => false) 2 (by decide) (by decide) refill (by decide)).2.2.2.trans (by decide)

end CacheSetLRU
