import SniperSim.Library.Roster
import SniperSim.Predictor.SoftwareLlcFrame

open Function List Nat
namespace SoftwareLlc
variable {s : SoftwareLlc} {thd set n : Nat} {llc : Nat → IntPtr} {tag : IntPtr} {xs : List IntPtr}

def rowOf (llc : Nat → IntPtr) (set n : Nat) : List IntPtr := (List.range n).map fun i => llc (cell set i)

def row (s : SoftwareLlc) (set : Nat) : List IntPtr := rowOf s.llc set (s.allocBlocks set)

def lruAccess (bypassed : Bool) (tag : IntPtr) (xs : List IntPtr) : List IntPtr :=
  if xs.contains tag then tag :: xs.erase tag
  else if bypassed then xs
  else (tag :: xs).take llcAssociativity

def bypasses (thd : Nat) (s : SoftwareLlc) (c : Call) : Bool :=
  s.allocBlocks (getSetSw c.address) == llcAssociativity && s.shouldBypassLLC thd c.pfq (getTagSw c.address)

theorem mem_row : tag ∈ s.row set ↔ s.Resident set tag := by
  simp [row,rowOf,Resident]

theorem rowOf_insert_new (h : n ≤ pivot) :
    rowOf (rowInsert llc set pivot tag) set (n + 1) = tag :: rowOf llc set n := by
  rw [rowOf,range_succ_eq_map,map_cons,map_map,rowInsert_cell,if_pos rfl,rowOf]
  refine congrArg _ (map_congr_left fun i hi => ?_)
  have hin := mem_range.mp hi
  rw [comp_apply,rowInsert_cell,if_neg (succ_ne_zero i),if_pos (by omega),succ_sub_one]

theorem rowOf_insert_moved (h : pivot < n) :
    rowOf (rowInsert llc set pivot tag) set n = tag :: (rowOf llc set n).eraseIdx pivot := by
  refine ext_getElem ?_ fun i hi hi' => ?_
  · simp [rowOf,length_eraseIdx,h]
    omega
  · cases i with
    | zero => simp [rowOf,rowInsert_cell]
    | succ i =>
      have hi : i + 1 ≤ pivot ↔ i < pivot := Iff.rfl
      simp only [rowOf,getElem_map,getElem_range,rowInsert_cell,if_neg (succ_ne_zero i),hi,
        getElem_cons_succ,getElem_eraseIdx]
      split_ifs <;> rfl

theorem nodup_lruAccess (b : Bool) (h : xs.Nodup) : (lruAccess b tag xs).Nodup := by
  rw [lruAccess]
  split_ifs with hmem
  · exact nodup_cons.mpr ⟨h.not_mem_erase,h.erase tag⟩
  · exact h
  · rw [contains_iff_mem] at hmem
    exact (nodup_cons.mpr ⟨hmem,h⟩).sublist (take_sublist ..)

theorem same_block_iff (a b : IntPtr) : getSetSw a = getSetSw b ∧ getTagSw a = getTagSw b ↔ a >>> 6 = b >>> 6 := by
  have htag : ∀ x, getTagSw x = (x >>> 6) >>> 11 := fun x => by rw [getTagSw,swPageBitshift,← BitVec.shiftRight_add]
  rw [htag,htag,getSetSw,getSetSw]
  constructor
  · rintro ⟨hs,ht⟩
    have hn := congrArg BitVec.toNat ht
    simp only [BitVec.toNat_ushiftRight,shiftRight_eq_div_pow,llcSets] at hs hn
    refine BitVec.eq_of_toNat_eq ?_
    simp only [BitVec.toNat_ushiftRight,shiftRight_eq_div_pow]
    omega
  · intro h
    rw [h]
    exact ⟨rfl,rfl⟩

theorem access_lru (thd : Nat) (hle : s.allocBlocks (getSetSw c.address) ≤ llcAssociativity)
    (hd : (s.row (getSetSw c.address)).Nodup) : (s.step thd c).row (getSetSw c.address) =
      lruAccess (s.bypasses thd c) (getTagSw c.address) (s.row (getSetSw c.address)) := by
  rw [step,lruAccess]
  simp only [contains_iff_mem,mem_row]
  cases access_case thd c.pfq s c.address with
  | hit i hi ht first outcome state writes =>
    have hget : (s.row (getSetSw c.address)).get ⟨i,by simpa [row,rowOf] using hi⟩ = getTagSw c.address := by
      simpa [row,rowOf] using ht
    rw [if_pos ⟨i,hi,ht⟩,state,row,rowOf_insert_moved hi,← hget,get_eq_getElem,hd.erase_getElem i]
    rfl
  | fill absent room outcome state writes =>
    have hb : s.bypasses thd c = false := by simp [bypasses,Nat.ne_of_lt room]
    rw [if_neg absent,hb,state,row]
    dsimp only
    rw [update_self,rowOf_insert_new (le_refl _),if_neg Bool.false_ne_true,take_of_length_le]
    · rfl
    · simpa [row,rowOf] using succ_le_of_lt room
  | bypass absent full dead outcome state writes =>
    have hb : s.bypasses thd c := by simp [bypasses,full,dead]
    rw [if_neg absent,hb,state]
    rfl
  | evict absent full live outcome state writes =>
    have hb : s.bypasses thd c = false := by simp [bypasses,live]
    have htake : (s.row (getSetSw c.address)).take 15 = rowOf s.llc (getSetSw c.address) 15 := by
      rw [row,full,rowOf,← map_take,take_range]
      rfl
    rw [if_neg absent,hb,state,row]
    dsimp only
    rw [full,llcAssociativity,rowOf_insert_new (le_succ 15),if_neg Bool.false_ne_true,take_succ_cons,htake]
  | overfull above outcome state writes => omega

theorem rows_are_lru (thd : Nat) (s : SoftwareLlc) (c : Call)
    (hle : s.allocBlocks (getSetSw c.address) ≤ llcAssociativity) (hd : (s.row (getSetSw c.address)).Nodup) :
    ((s.step thd c).row (getSetSw c.address) =
        lruAccess (s.bypasses thd c) (getTagSw c.address) (s.row (getSetSw c.address)) ∧
      ((s.step thd c).row (getSetSw c.address)).Nodup ∧
      (s.step thd c).allocBlocks (getSetSw c.address) ≤ llcAssociativity) ∧
    ∀ a b, getSetSw a = getSetSw b ∧ getTagSw a = getTagSw b ↔ a >>> 6 = b >>> 6 := by
  have hrow := access_lru thd hle hd
  refine ⟨⟨hrow,?_,allocBlocks_step thd s c hle⟩,same_block_iff⟩
  rw [hrow]
  exact nodup_lruAccess _ hd

theorem second_touch_moves_to_front : (create.run 6 [⟨[],0x20000⟩,⟨[],0x40000⟩]).row 0 = [2,1] ∧
      ((create.run 6 [⟨[],0x20000⟩,⟨[],0x40000⟩]).step 6 ⟨[],0x20000⟩).row 0 = [1,2] :=
  ⟨by decide +kernel,(rows_are_lru 6 _ ⟨[],0x20000⟩ (by decide +kernel) (by decide +kernel)).1.1.trans (by decide +kernel)⟩

def Outcome.evicts : Outcome → Bool
  | .inserted (some _) => true
  | _ => false

-- llc[2047][16] lies behind the table: overrun is what the store of a word there does to the objects that follow it
def stepOver (overrun : IntPtr → SoftwareLlc → SoftwareLlc) (s : SoftwareLlc) (c : Nat × Call) : SoftwareLlc :=
  if (llcSets - 1,llcAssociativity) ∈ (s.accessLLCSw c.1 c.2.pfq c.2.address).writes then
    overrun (s.llc (cell (llcSets - 1) (llcAssociativity - 1))) (s.step c.1 c.2)
  else s.step c.1 c.2

def Inside (s : SoftwareLlc) (c : Nat × Call) : Prop :=
  EvictingMiss c.1 s c.2 → getSetSw c.2.address ≠ llcSets - 1

section
variable (overrun : IntPtr → SoftwareLlc → SoftwareLlc)

def runOn (s : SoftwareLlc) (calls : List (Nat × Call)) : SoftwareLlc := calls.foldl (stepOver overrun) s

def outcomes (s : SoftwareLlc) : List (Nat × Call) → List Outcome
  | [] => []
  | c :: cs => (s.accessLLCSw c.1 c.2.pfq c.2.address).outcome :: outcomes (stepOver overrun s c) cs

theorem stepOver_of_inside (hb : s.Bounded) (h : Inside s c) : stepOver overrun s c = s.step c.1 c.2 := by
  refine if_neg fun hw => ?_
  cases access_case c.1 c.2.pfq s c.2.address with
  | hit i hi ht first outcome state writes =>
    have hle := ((writes _).mp hw).2
    exact absurd (lt_of_lt_of_le hi (hb _)) (not_lt.mpr hle)
  | fill absent room outcome state writes => exact absurd room (not_lt.mpr ((writes _).mp hw).2)
  | evict absent full live outcome state writes => exact h ⟨full,absent,live⟩ ((writes _).mp hw).1.symm
  | bypass absent full dead outcome state writes | overfull above outcome state writes => simp [writes] at hw
end

structure Tallied (s : SoftwareLlc) (hits evictions : Nat) : Prop where
  bounded : s.Bounded
  capped : ∀ h, s.bhist h ≤ maxCounterVal
  acc : s.llcAcc = hits + s.llcMiss
  miss : s.llcMiss = s.llcBypass + ∑ set ∈ Finset.range llcSets, s.allocBlocks set + evictions

theorem trainBhist_le {bhist : IntPtr → Nat} (h : ∀ x, bhist x ≤ maxCounterVal) (hits : Option Nat) (x : IntPtr) :
    trainBhist bhist tag hits x ≤ maxCounterVal := by
  rcases hits with _ | _ | hits
  · exact h x
  · rw [trainBhist,update_apply]
    split_ifs
    · exact min_le_left ..
    · exact h x
  · rw [trainBhist,update_apply]
    split_ifs
    · exact zero_le _
    · exact h x

theorem Tallied.step {hits evictions : Nat} (h : Tallied s hits evictions) (thd : Nat) (c : Call) :
    Tallied (s.step thd c) (hits + [(s.accessLLCSw thd c.pfq c.address).outcome].count .hit)
      (evictions + [(s.accessLLCSw thd c.pfq c.address).outcome].countP Outcome.evicts) := by
  have hb := bounded_step thd s c h.bounded
  have hacc := h.acc
  have hmiss := h.miss
  revert hb
  rw [SoftwareLlc.step]
  cases access_case thd c.pfq s c.address with
  | hit i hi ht first outcome state writes =>
    rw [outcome,state]
    exact fun hb => ⟨hb,h.capped,by simp; omega,h.miss⟩
  | fill absent room outcome state writes =>
    rw [outcome,state]
    refine fun hb => ⟨hb,h.capped,by simp; omega,?_⟩
    have hmem : getSetSw c.address ∈ Finset.range llcSets := Finset.mem_range.mpr (mod_lt _ (by decide))
    have hsum := Finset.sum_update_add hmem s.allocBlocks 1
    simp [Outcome.evicts]
    omega
  | bypass absent full dead outcome state writes =>
    rw [outcome,state]
    exact fun hb => ⟨hb,h.capped,by simp; omega,by simp [Outcome.evicts]; omega⟩
  | evict absent full live outcome state writes =>
    rw [outcome,state]
    exact fun hb => ⟨hb,trainBhist_le h.capped _,by simp; omega,by simp [Outcome.evicts]; omega⟩
  | overfull above outcome state writes => exact absurd above (not_lt.mpr (h.bounded _))

theorem Tallied.run (h : Tallied s hits evictions) {calls : List (Nat × Call)}
    (hc : Run.Along (stepOver overrun) Inside s calls) : Tallied (runOn overrun s calls)
      (hits + (outcomes overrun s calls).count .hit) (evictions + (outcomes overrun s calls).countP Outcome.evicts) := by
  induction calls generalizing s hits evictions with
  | nil => exact h
  | cons c cs ih =>
    have hstep := h.step c.1 c.2
    rw [← stepOver_of_inside overrun h.bounded hc.1] at hstep
    have hrun := ih hstep hc.2
    rw [add_assoc,add_assoc,← count_append,← countP_append] at hrun
    exact hrun

theorem tallied_create : Tallied create 0 0 := ⟨fun _ => zero_le _,fun _ => zero_le _,rfl,by simp [create]⟩

theorem not_bypassed {c : Call} (h : ∀ x, s.bhist x ≤ maxCounterVal)
    (hc : maxCounterVal ≤ thd ∨ getTagSw c.address ∉ c.pfq) :
    (s.accessLLCSw thd c.pfq c.address).outcome ≠ .bypassed := by
  intro ho
  cases access_case thd c.pfq s c.address with
  | bypass absent full dead outcome state writes =>
    rw [shouldBypassLLC,Bool.and_eq_true,decide_eq_true_iff] at dead
    rcases hc with hc | hc
    · exact not_lt.mpr (le_trans (h _) hc) dead.2
    · exact hc (by simpa [recentPFNContains] using dead.1)
  | hit i hi ht first outcome state writes | fill absent room outcome state writes => simp [outcome] at ho
  | evict absent full live outcome state writes | overfull above outcome state writes => simp [outcome] at ho

structure Accounts (overrun : IntPtr → SoftwareLlc → SoftwareLlc) (calls : List (Nat × Call)) : Prop where
  capped : ∀ h, (runOn overrun create calls).bhist h ≤ maxCounterVal
  acc : (runOn overrun create calls).llcAcc =
    (outcomes overrun create calls).count .hit + (runOn overrun create calls).llcMiss
  miss : (runOn overrun create calls).llcMiss = (runOn overrun create calls).llcBypass +
    ∑ set ∈ Finset.range llcSets, (runOn overrun create calls).allocBlocks set +
    (outcomes overrun create calls).countP Outcome.evicts
  kept : ∀ (thd : Nat) (c : Call), maxCounterVal ≤ thd ∨ getTagSw c.address ∉ c.pfq →
    ((runOn overrun create calls).accessLLCSw thd c.pfq c.address).outcome ≠ .bypassed

theorem cbpred_accounting (overrun : IntPtr → SoftwareLlc → SoftwareLlc) (calls : List (Nat × Call))
    (hc : Run.Along (stepOver overrun) Inside create calls) : Accounts overrun calls := by
  have h := tallied_create.run hc
  rw [zero_add,zero_add] at h
  exact ⟨h.capped,h.acc,h.miss,fun _ _ hc => not_bypassed h.capped hc⟩

instance (s : SoftwareLlc) (c : Nat × Call) : Decidable (Inside s c) :=
  inferInstanceAs (Decidable (_ ∧ _ ∧ _ → _))

-- as built without optimisation, where alloc_blocks follows llc
def intoAllocBlocks (value : IntPtr) (s : SoftwareLlc) : SoftwareLlc :=
  { s with allocBlocks := update s.allocBlocks 0 value.toNat }

def inLastSet (tag : Nat) : Nat × Call := (defaultBhistThd,⟨[],BitVec.ofNat 64 (tag * 2 ^ 17 + 2047 * 64)⟩)

def fillLastSet : List (Nat × Call) := (List.range 16).map fun i => inLastSet (i + 1)

theorem cbpred_accounting_fill_last_set : Run.Along (stepOver intoAllocBlocks) Inside create fillLastSet ∧
    (runOn intoAllocBlocks create fillLastSet).llcMiss = 16 ∧ Accounts intoAllocBlocks fillLastSet := by
  have hc : Run.Along (stepOver intoAllocBlocks) Inside create fillLastSet := by decide +kernel
  exact ⟨hc,by decide +kernel,cbpred_accounting _ _ hc⟩

theorem store_behind_table_miscounts :
    (outcomes intoAllocBlocks create (fillLastSet ++ [inLastSet 17])).countP Outcome.evicts = 1 ∧
      ¬Accounts intoAllocBlocks (fillLastSet ++ [inLastSet 17]) :=
  ⟨by decide +kernel,fun h => absurd h.miss (by decide +kernel)⟩

end SoftwareLlc
