import Mathlib.Data.BitVec

open List
namespace WriteThrough

structure SetLocks where
  logBlocksize : Nat
  numSets : BitVec 32

def SetLocks.getSetLock (m : SetLocks) (addr : BitVec 64) : BitVec 64 :=
  addr >>> m.logBlocksize &&& (m.numSets - 1).setWidth 64

structure Level where
  (writethrough takes : Bool)

inductive Event
  | store (address : BitVec 64)
  | acquire (lock : BitVec 64) (upgrade : Bool)
  | release (lock : BitVec 64) (downgrade : Bool)
deriving DecidableEq, Repr

variable (m : SetLocks) (address : BitVec 64)

def acquireStackLock (thisIsLocked : Bool) : Event := .acquire (m.getSetLock address) thisIsLocked

def releaseStackLock (thisIsLocked : Bool) : Event := .release (m.getSetLock address) thisIsLocked

def writeCacheBlock : List Level → Option (List Event)
  | [] => none
  | l :: next =>
    if l.takes then
      if l.writethrough then (writeCacheBlock next).map fun es =>
        .store address :: acquireStackLock m 1 false :: (es ++ [releaseStackLock m 1 false])
      else some [.store address]
    else none

def Guarded (lock : BitVec 64) : List (BitVec 64) → List Event → Prop
  | _, [] => True
  | held, .store _ :: es => lock ∈ held ∧ Guarded lock held es
  | held, .acquire l _ :: es => l ∉ held ∧ Guarded lock (l :: held) es
  | held, .release l _ :: es => l = lock ∧ Guarded lock (held.erase l) es

def depth (levels : List Level) : Nat := (levels.takeWhile (·.writethrough)).length

variable {levels : List Level} {es : List Event}

theorem next_write_locked_iff (held : List (BitVec 64)) (h : writeCacheBlock m address levels = some es) :
    Guarded (m.getSetLock address) held es.tail ↔ depth levels = 0 ∨
      depth levels = 1 ∧ m.getSetLock address = m.getSetLock 1 ∧ m.getSetLock 1 ∉ held := by
  cases levels with
  | nil => cases h
  | cons l next =>
    rw [writeCacheBlock] at h
    split_ifs at h with _ hl
    · obtain ⟨fs,hn,rfl⟩ := Option.map_eq_some_iff.mp h
      cases next with
      | nil => cases hn
      | cons k next =>
        rw [writeCacheBlock] at hn
        split_ifs at hn with _ hk
        · obtain ⟨gs,-,rfl⟩ := Option.map_eq_some_iff.mp hn
          simp [Guarded,acquireStackLock,depth,hl,hk]
        · cases hn
          have hd : depth (l :: k :: next) = 1 := by simp [depth,hl,hk]
          simp only [acquireStackLock,releaseStackLock,Guarded,tail_cons,cons_append,nil_append,hd]
          constructor
          · rintro ⟨hfree,-,heq,-⟩
            exact .inr ⟨trivial,heq.symm,hfree⟩
          · rintro (hzero | ⟨-,heq,hfree⟩)
            · cases hzero
            · exact ⟨hfree,heq ▸ mem_cons_self,heq.symm,trivial⟩
    · cases h
      simp [Guarded,depth,hl]

def twoLevels : List Level := [⟨true,true⟩,⟨false,true⟩]

def written (address : BitVec 64) : List Event :=
  [.store address,.acquire 0 false,.store address,.release 0 false]

theorem first_set_locked : writeCacheBlock ⟨6,64⟩ 8 twoLevels = some (written 8) ∧ Guarded 0 [1] (written 8).tail :=
  ⟨rfl,(next_write_locked_iff ⟨6,64⟩ 8 [1] (rfl : writeCacheBlock _ _ twoLevels = _)).mpr (.inr (by decide))⟩

theorem locks_set_zero : writeCacheBlock ⟨6,64⟩ 64 twoLevels = some (written 64) ∧ ¬Guarded 1 [1] (written 64).tail ∧
    ¬Guarded 0 [0] (written 8).tail := by
  refine ⟨rfl,fun h => ?_,fun h => ?_⟩
  · exact absurd h.2.2.1 (by decide)
  · exact h.1 mem_cons_self

end WriteThrough
