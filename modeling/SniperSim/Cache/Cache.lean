import SniperSim.Cache.CacheSetLRU

open Function CacheSetLRU

structure Cache where
  (numSets logBlocksize : Nat)
  sets : Nat → CacheSetLRU

namespace Cache

def create (numSets associativity logBlocksize : Nat) : Cache :=
  ⟨numSets,logBlocksize,fun _ => .create associativity 1⟩

variable (c : Cache)

def splitTag (addr : IntPtr) : IntPtr := addr >>> c.logBlocksize

def splitSetIndex (addr : IntPtr) : Nat := (addr >>> c.logBlocksize).toNat &&& (c.numSets - 1)

def tagToAddress (tag : IntPtr) : IntPtr := tag <<< c.logBlocksize

def updateSet (index : Nat) (s : CacheSetLRU) : Cache :=
  { c with sets := update c.sets index s }

def accessSingleLine (addr : IntPtr) : Cache × Bool :=
  match (c.sets (c.splitSetIndex addr)).find (c.splitTag addr) with
  | none => (c,false)
  | some i => (c.updateSet (c.splitSetIndex addr) ((c.sets (c.splitSetIndex addr)).moveToMRU i),true)

def insertSingleLine (addr : IntPtr) : Cache × Option IntPtr :=
  let r := (c.sets (c.splitSetIndex addr)).insert (fun _ => false) ⟨c.splitTag addr,.invalid⟩
  (c.updateSet (c.splitSetIndex addr) r.1,r.2.map fun b => c.tagToAddress b.tag)

def tags (i : Nat) : List IntPtr := (c.sets i).blocks.map CacheBlockInfo.tag

def contains (addr : IntPtr) : Prop := c.splitTag addr ∈ c.tags (c.splitSetIndex addr)

instance (c : Cache) (addr : IntPtr) : Decidable (c.contains addr) := inferInstanceAs (Decidable (_ ∈ _))

@[simp] theorem tags_updateSet (index : Nat) (s : CacheSetLRU) : (c.updateSet index s).tags =
      update c.tags index (s.blocks.map CacheBlockInfo.tag) := by
  funext k
  by_cases h : k = index
  · subst h
    simp [updateSet,tags]
  · simp [updateSet,tags,h]

variable (addr : IntPtr)

theorem accessSingleLine_hit_iff : (c.accessSingleLine addr).2 ↔ c.contains addr := by
  have h := find_isSome_iff (c.sets (c.splitSetIndex addr)) (c.splitTag addr)
  have hc : c.contains addr ↔ (c.sets (c.splitSetIndex addr)).hasTag (c.splitTag addr) := by
    simp [contains,tags,hasTag]
  rw [hc,← h]
  unfold accessSingleLine
  cases (c.sets (c.splitSetIndex addr)).find (c.splitTag addr) <;> simp

@[simp] theorem accessSingleLine_tags : (c.accessSingleLine addr).1.tags = c.tags := by
  unfold accessSingleLine
  split
  · rfl
  · rw [tags_updateSet,CacheSetLRU.blocks_moveToMRU]
    exact update_eq_self _ _

@[simp] theorem accessSingleLine_numSets : (c.accessSingleLine addr).1.numSets = c.numSets := by
  unfold accessSingleLine
  split <;> rfl

@[simp] theorem accessSingleLine_logBlocksize : (c.accessSingleLine addr).1.logBlocksize = c.logBlocksize := by
  unfold accessSingleLine
  split <;> rfl

theorem insertSingleLine_spec (h : 0 < (c.tags (c.splitSetIndex addr)).length) :
    ∃ (i : Nat) (hi : i < (c.tags (c.splitSetIndex addr)).length), (c.insertSingleLine addr).1.tags =
        update c.tags (c.splitSetIndex addr) ((c.tags (c.splitSetIndex addr)).set i (c.splitTag addr)) ∧
      (c.insertSingleLine addr).2 = if (c.tags (c.splitSetIndex addr))[i] = ~~~0 then none
        else some (c.tagToAddress (c.tags (c.splitSetIndex addr))[i]) := by
  have hlen : 0 < (c.sets (c.splitSetIndex addr)).blocks.length := by simpa [tags] using h
  obtain ⟨i,hi,hb,he⟩ := insert_spec (fun _ => false) (c.sets (c.splitSetIndex addr)) ⟨c.splitTag addr,.invalid⟩ hlen
  refine ⟨i,by simpa [tags] using hi,?_,?_⟩
  · simp [insertSingleLine,hb,tags]
  · simp only [insertSingleLine,he,CacheBlockInfo.isValid,bne_iff_ne,tags,List.getElem_map]
    split <;> simp_all

def Populated : Prop := ∀ i, 0 < (c.tags i).length

theorem populated_create (numSets logBlocksize : Nat) (h : 0 < associativity) :
    (create numSets associativity logBlocksize).Populated := by
  intro i
  simpa [create,tags,CacheSetLRU.create,CacheSetLRU.blocks] using h

section
variable {c : Cache} (h : c.Populated)
include h

theorem populated_access (addr : IntPtr) : (c.accessSingleLine addr).1.Populated := by
  intro i
  rw [accessSingleLine_tags]
  exact h i

theorem populated_insert (addr : IntPtr) : (c.insertSingleLine addr).1.Populated := by
  obtain ⟨i,hi,ht,-⟩ := insertSingleLine_spec c addr (h _)
  intro k
  rw [ht]
  by_cases hk : k = c.splitSetIndex addr
  · subst hk
    simpa using h _
  · simpa [hk] using h k

theorem contains_insert (addr : IntPtr) : (c.insertSingleLine addr).1.contains addr := by
  obtain ⟨i,hi,ht,-⟩ := insertSingleLine_spec c addr (h _)
  change c.splitTag addr ∈ (c.insertSingleLine addr).1.tags (c.splitSetIndex addr)
  rw [ht,update_self]
  exact List.mem_set hi _

theorem mem_tags_insert (addr tag : IntPtr) (k : Nat) (hm : tag ∈ (c.insertSingleLine addr).1.tags k)
    : (k = c.splitSetIndex addr ∧ tag = c.splitTag addr) ∨ tag ∈ c.tags k := by
  obtain ⟨i,hi,ht,-⟩ := insertSingleLine_spec c addr (h _)
  rw [ht] at hm
  by_cases hk : k = c.splitSetIndex addr
  · subst hk
    rw [update_self] at hm
    rcases List.mem_or_eq_of_mem_set hm with hm | hm <;> simp [*]
  · rw [update_of_ne hk] at hm
    exact .inr hm

theorem evicted_mem (addr evictAddr : IntPtr) (he : (c.insertSingleLine addr).2 = some evictAddr)
    : ∃ tag ∈ c.tags (c.splitSetIndex addr), tag ≠ ~~~0 ∧ evictAddr = c.tagToAddress tag := by
  obtain ⟨i,hi,-,ht⟩ := insertSingleLine_spec c addr (h _)
  rw [ht] at he
  split at he
  · cases he
  · rename_i hv
    exact ⟨_,List.getElem_mem hi,hv,(Option.some.inj he).symm⟩
end
end Cache
