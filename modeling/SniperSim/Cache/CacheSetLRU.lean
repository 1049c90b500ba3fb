import Mathlib.Data.List.Basic

open List

abbrev IntPtr := BitVec 64

instance lawfulBEqIntPtr : LawfulBEq IntPtr := inferInstance

inductive CacheState
  | invalid | shared | sharedUpgrading | exclusive | owned | modified
deriving DecidableEq, Repr

structure CacheBlockInfo where
  tag : IntPtr
  cstate : CacheState
deriving DecidableEq, Repr

namespace CacheBlockInfo

def empty : CacheBlockInfo := ⟨~~~0,.invalid⟩

def isValid (b : CacheBlockInfo) : Bool := b.tag != ~~~0

end CacheBlockInfo

structure CacheWay where
  block : CacheBlockInfo
  lruBits : UInt8
deriving DecidableEq, Repr

structure CacheSetLRU where
  ways : List CacheWay
  numAttempts : Nat
deriving DecidableEq, Repr

namespace CacheSetLRU

def create (associativity numAttempts : Nat) : CacheSetLRU :=
  ⟨(range associativity).map fun i => ⟨.empty,UInt8.ofNat i⟩, numAttempts⟩

variable (s : CacheSetLRU)

def blocks : List CacheBlockInfo := s.ways.map CacheWay.block

def lruBitsAt (index : Nat) : UInt8 := (s.ways[index]?.map CacheWay.lruBits).getD 0

def moveToMRU (accessed : Nat) : CacheSetLRU :=
  { s with ways := s.ways.mapIdx fun i w =>
      if i = accessed then { w with lruBits := 0 }
      else if w.lruBits < s.lruBitsAt accessed then { w with lruBits := w.lruBits + 1 }
      else w }

def isValidReplacement (w : CacheWay) : Bool := w.block.cstate != .sharedUpgrading

def lruScan : List CacheWay → Nat → Nat → UInt8 → Nat
  | [], _, index, _ => index
  | w :: ws, i, index, maxBits =>
    if maxBits < w.lruBits ∧ isValidReplacement w then lruScan ws (i + 1) i w.lruBits
    else lruScan ws (i + 1) index maxBits

def attempts (isInLowerLevelCache : CacheBlockInfo → Bool) : Nat → Nat → CacheSetLRU → Nat × CacheSetLRU
  | 0, index, s => (index,s)
  | k + 1, index, s =>
    let index := lruScan s.ways 0 index 0
    let qbsReject := k != 0 && ((s.blocks[index]?).map isInLowerLevelCache).getD false
    if qbsReject then attempts isInLowerLevelCache k index (s.moveToMRU index)
    else attempts isInLowerLevelCache k index (s.moveToMRU index)

def getReplacementIndex (isInLowerLevelCache : CacheBlockInfo → Bool) (s : CacheSetLRU) : Nat × CacheSetLRU :=
  match s.blocks.findIdx? (fun b => !b.isValid) with
  | some i => (i,s.moveToMRU i)
  | none => attempts isInLowerLevelCache s.numAttempts 0 s

def findLast (tag : IntPtr) : List CacheBlockInfo → Option Nat
  | [] => none
  | b :: bs =>
    match findLast tag bs with
    | some i => some (i + 1)
    | none => if b.tag = tag then some 0 else none

def find (tag : IntPtr) : Option Nat := findLast tag s.blocks

def setBlock (index : Nat) (b : CacheBlockInfo) : CacheSetLRU :=
  { s with ways := s.ways.modify index fun w => { w with block := b } }

def insert (isInLowerLevelCache : CacheBlockInfo → Bool) (s : CacheSetLRU)
    (b : CacheBlockInfo) : CacheSetLRU × Option CacheBlockInfo :=
  let (index,s) := s.getReplacementIndex isInLowerLevelCache
  (s.setBlock index b,(s.blocks[index]?).filter CacheBlockInfo.isValid)

def invalidate (tag : IntPtr) : CacheSetLRU × Bool :=
  match s.find tag with
  | some index => (s.setBlock index .empty,true)
  | none => (s,false)

def hasTag (tag : IntPtr) : Prop := ∃ b ∈ s.blocks, b.tag = tag

theorem findLast_isSome_iff (tag : IntPtr) (bs : List CacheBlockInfo) :
    (findLast tag bs).isSome ↔ ∃ b ∈ bs, b.tag = tag := by
  induction bs with
  | nil => simp [findLast]
  | cons b bs ih =>
    unfold findLast
    cases h : findLast tag bs with
    | some i =>
      have := ih.mp (by simp [h])
      simp only [Option.isSome_some,mem_cons,true_iff]
      obtain ⟨b',hb,ht⟩ := this
      exact ⟨b',.inr hb,ht⟩
    | none =>
      have hn : ¬ ∃ b ∈ bs, b.tag = tag := fun hh => by simpa [h] using ih.mpr hh
      by_cases hb : b.tag = tag <;> simp [*]

theorem find_isSome_iff (tag : IntPtr) : (s.find tag).isSome ↔ s.hasTag tag := findLast_isSome_iff tag s.blocks

@[simp] theorem blocks_moveToMRU (i : Nat) : (s.moveToMRU i).blocks = s.blocks := by
  unfold moveToMRU blocks
  apply ext_getElem
  · simp
  · intro k h1 h2
    simp only [getElem_map,getElem_mapIdx]
    split
    · rfl
    · split <;> rfl

@[simp] theorem blocks_setBlock (i : Nat) (b : CacheBlockInfo) : (s.setBlock i b).blocks = s.blocks.set i b := by
  unfold setBlock blocks
  apply ext_getElem
  · simp
  · intro k h1 h2
    simp only [getElem_map,getElem_modify,getElem_set]
    split <;> rfl

theorem lruScan_lt (ws : List CacheWay) (i index : Nat) (maxBits : UInt8) (n : Nat)
    (hi : i + ws.length = n) (h : index < n) : lruScan ws i index maxBits < n := by
  induction ws generalizing i index maxBits with
  | nil => exact h
  | cons w ws ih =>
    have hlen : i + 1 + ws.length = n := by
      rw [← hi,length_cons]
      omega
    unfold lruScan
    split
    · exact ih _ _ _ hlen (by omega)
    · exact ih _ _ _ hlen h

theorem blocks_length : s.blocks.length = s.ways.length := by
  simp [blocks]

variable (q : CacheBlockInfo → Bool)
include q

theorem attempts_spec (k index : Nat) (s : CacheSetLRU) (h : index < s.blocks.length) :
    (attempts q k index s).1 < s.blocks.length ∧ (attempts q k index s).2.blocks = s.blocks := by
  induction k generalizing index s with
  | zero => exact ⟨h,rfl⟩
  | succ k ih =>
    have hs : lruScan s.ways 0 index 0 < s.blocks.length := lruScan_lt s.ways 0 index 0 _ (by simp [blocks_length]) h
    have hk := ih (lruScan s.ways 0 index 0) (s.moveToMRU (lruScan s.ways 0 index 0)) (by simpa using hs)
    simp only [blocks_moveToMRU] at hk
    simpa [attempts] using hk

theorem getReplacementIndex_spec (s : CacheSetLRU) (h : 0 < s.blocks.length) :
    (s.getReplacementIndex q).1 < s.blocks.length ∧ (s.getReplacementIndex q).2.blocks = s.blocks := by
  unfold getReplacementIndex
  split
  · rename_i i hi
    exact ⟨(findIdx?_eq_some_iff_getElem.mp hi).1,blocks_moveToMRU s i⟩
  · exact attempts_spec q _ 0 s h

theorem insert_spec (s : CacheSetLRU) (b : CacheBlockInfo) (h : 0 < s.blocks.length) :
    ∃ (i : Nat) (hi : i < s.blocks.length), (s.insert q b).1.blocks = s.blocks.set i b ∧
      (s.insert q b).2 = if s.blocks[i].isValid then some s.blocks[i] else none := by
  obtain ⟨hi,hb⟩ := getReplacementIndex_spec q s h
  refine ⟨_,hi,?_,?_⟩
  · simp [insert,hb]
  · simp [insert,hb,getElem?_eq_getElem hi,Option.filter]

end CacheSetLRU
