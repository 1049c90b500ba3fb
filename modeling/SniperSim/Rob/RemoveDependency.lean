import Mathlib.Data.BitVec

open List Nat

abbrev SeqNr := BitVec 64

structure MicroOpDependencies where
  sequenceNumber : SeqNr
  microOpTypeOffset : BitVec 32
  intraInstructionDependencies : Nat
  dependencies : List SeqNr
deriving DecidableEq

inductive DependencyFault
  | exhausted | noDependencies | notContained | tooMany
deriving DecidableEq

namespace MicroOpDependencies

def maximumNumberOfDependencies : Nat := 14

variable (u : MicroOpDependencies) (d : SeqNr)

def typeStart : SeqNr := u.sequenceNumber - u.microOpTypeOffset.setWidth 64

def firstIntra : SeqNr := u.typeStart - BitVec.ofNat 64 u.intraInstructionDependencies

def getDependenciesLength : Nat := (u.intraInstructionDependencies + u.dependencies.length) % 2 ^ 32

def getDependency (index : Nat) : SeqNr :=
  if index < u.intraInstructionDependencies then u.firstIntra + BitVec.ofNat 64 index
  else u.dependencies.getD (index - u.intraInstructionDependencies) 0

def listed : List SeqNr := (range u.getDependenciesLength).map u.getDependency

def removeIntra (start : SeqNr) : Nat → List SeqNr → Except DependencyFault (Nat × List SeqNr)
  | 0, _ => .error .exhausted
  | k + 1, ds =>
    if d = start - BitVec.ofNat 64 (k + 1) then .ok (k,ds)
    else if ds.length + 1 < maximumNumberOfDependencies then
      removeIntra start k (ds ++ [start - BitVec.ofNat 64 (k + 1)])
    else .error .tooMany

def removeExplicit (ds : List SeqNr) : Except DependencyFault (List SeqNr) :=
  match ds.getLast? with
  | none => .error .noDependencies
  | some last =>
    if last = d then .ok ds.dropLast
    else if ds.contains d then .ok (ds.set (ds.idxOf d) last).dropLast
    else .error .notContained

def removeDependency : Except DependencyFault MicroOpDependencies :=
  if u.firstIntra ≤ d then
    (removeIntra d u.typeStart u.intraInstructionDependencies u.dependencies).map fun r =>
      { u with intraInstructionDependencies := r.1, dependencies := r.2 }
  else (removeExplicit d u.dependencies).map fun ds => { u with dependencies := ds }

variable {u d} {start : SeqNr} {k : Nat} {ds : List SeqNr}

def intra (start : SeqNr) (k : Nat) : List SeqNr :=
  (range k).map fun i => start - BitVec.ofNat 64 k + BitVec.ofNat 64 i

theorem sub_ofNat_succ (start : SeqNr) (k : Nat) : start - BitVec.ofNat 64 k = start - BitVec.ofNat 64 (k + 1) + 1 := by
  bv_omega

theorem intra_succ : intra start (k + 1) = (start - BitVec.ofNat 64 (k + 1)) :: intra start k := by
  rw [intra,intra,range_succ_eq_map,map_cons,map_map,sub_ofNat_succ start k]
  refine congrArg₂ _ (BitVec.add_zero _) (map_congr_left fun i _ => ?_)
  rw [Function.comp_apply]
  bv_omega

theorem listed_eq (h : u.intraInstructionDependencies + u.dependencies.length < 2 ^ 32) :
    u.listed = intra u.typeStart u.intraInstructionDependencies ++ u.dependencies := by
  rw [listed,getDependenciesLength,mod_eq_of_lt h,range_add,map_append,map_map]
  congr 1
  · exact map_congr_left fun i hi => if_pos (mem_range.mp hi)
  · refine ext_getElem (by simp) fun i hi hi' => ?_
    simp [getDependency,hi']

theorem removeIntra_iff : (∃ r, removeIntra d start k ds = .ok r ∧
      intra start r.1 ++ r.2 ~ (intra start k ++ ds).erase d) ↔
    (d - (start - BitVec.ofNat 64 k)).toNat < k ∧ (d = start - BitVec.ofNat 64 k ∨
      ds.length + (d - (start - BitVec.ofNat 64 k)).toNat < maximumNumberOfDependencies) := by
  induction k generalizing ds with
  | zero => simp [removeIntra]
  | succ k ih =>
    have hnext := sub_ofNat_succ start k
    rw [removeIntra,intra_succ,cons_append]
    generalize start - BitVec.ofNat 64 (k + 1) = first at hnext ⊢
    split_ifs with hd hroom
    · subst hd
      simp
    · rw [hnext] at ih
      have hperm : (first :: (intra start k ++ ds)).erase d ~ (intra start k ++ (ds ++ [first])).erase d := by
        rw [← append_assoc]
        exact (perm_append_singleton _ _).symm.erase d
      have hstep : (d - (first + 1)).toNat + 1 = (d - first).toNat := by bv_omega
      have hone : d = first + 1 ↔ (d - (first + 1)).toNat = 0 := by bv_omega
      simp only [hperm.congr_right,hd,false_or]
      rw [ih,hone,length_append,length_singleton]
      omega
    · simp only [false_and,exists_false,false_iff]
      rintro ⟨-,heq | hlt⟩
      · exact hd heq
      · have : (d - first).toNat ≠ 0 := by bv_omega
        omega

theorem removeIntra_length (h : removeIntra d start k ds = .ok r) : r.1 + r.2.length < k + ds.length := by
  induction k generalizing ds with
  | zero => cases h
  | succ k ih =>
    rw [removeIntra] at h
    split_ifs at h
    · cases h
      exact Nat.add_lt_add_right (Nat.lt_succ_self k) _
    · have hlt := ih h
      rw [length_append,length_singleton] at hlt
      omega

theorem removeExplicit_cases (d : SeqNr) (ds : List SeqNr) :
    (∃ ds', removeExplicit d ds = .ok ds' ∧ d :: ds' ~ ds) ∧ d ∈ ds ∨ (∃ e, removeExplicit d ds = .error e) ∧ d ∉ ds := by
  rw [removeExplicit]
  rcases eq_nil_or_concat ds with rfl | ⟨init,last,rfl⟩
  · exact .inr ⟨⟨_,rfl⟩,not_mem_nil⟩
  · rw [concat_eq_append,getLast?_concat]
    dsimp only
    simp only [contains_iff_mem]
    split_ifs with hlast hmem
    · subst hlast
      exact .inl ⟨⟨_,rfl,by rw [dropLast_concat]; exact (perm_append_singleton _ _).symm⟩,by simp⟩
    · have hinit : d ∈ init := by simpa [Ne.symm hlast] using hmem
      have hi := idxOf_lt_length_of_mem hinit
      refine .inl ⟨⟨_,rfl,?_⟩,hmem⟩
      rw [idxOf_append_of_mem hinit,set_append_left _ _ hi,dropLast_concat]
      calc
        d :: init.set (init.idxOf d) last
        _ ~ d :: last :: init.eraseIdx (init.idxOf d) := (set_perm_cons_eraseIdx hi last).cons d
        _ ~ last :: d :: init.erase d := by rw [eraseIdx_idxOf_eq_erase]; exact .swap ..
        _ ~ last :: init := (perm_cons_erase hinit).symm.cons last
        _ ~ init ++ [last] := (perm_append_singleton last init).symm
    · exact .inr ⟨⟨_,rfl⟩,hmem⟩

theorem removeDependency_iff (h : u.intraInstructionDependencies + u.dependencies.length < 2 ^ 32) :
    (∃ u', u.removeDependency d = .ok u' ∧ u'.listed ~ u.listed.erase d) ↔
    if u.firstIntra ≤ d then (d - u.firstIntra).toNat < u.intraInstructionDependencies ∧ (d = u.firstIntra ∨
      u.dependencies.length + (d - u.firstIntra).toNat < maximumNumberOfDependencies)
    else d ∈ u.dependencies := by
  unfold removeDependency
  split_ifs with hle
  · rw [firstIntra,← removeIntra_iff,listed_eq h]
    cases hr : removeIntra d u.typeStart u.intraInstructionDependencies u.dependencies with
    | error e => simp [Except.map]
    | ok r =>
      have hlisted := listed_eq (u := ⟨u.sequenceNumber,u.microOpTypeOffset,r.1,r.2⟩) ((removeIntra_length hr).trans h)
      simp [Except.map,hlisted,typeStart]
  · rcases removeExplicit_cases d u.dependencies with ⟨⟨ds',hds,hperm⟩,hmem⟩ | ⟨⟨e,he⟩,hmem⟩
    · refine iff_of_true ⟨_,by rw [hds]; rfl,?_⟩ hmem
      have hlen := hperm.length_eq
      rw [length_cons] at hlen
      rw [listed_eq h,listed_eq (by dsimp only; omega)]
      refine (cons_perm_iff_perm_erase.mp ?_).2
      exact perm_middle.symm.trans (hperm.append_left _)
    · rw [he]
      simp [Except.map,hmem]

theorem added_dependency_removed : ∃ u', removeDependency ⟨10,1,2,[3]⟩ 3 = .ok u' ∧
    u'.listed ~ (listed ⟨10,1,2,[3]⟩).erase 3 :=
  (removeDependency_iff (by decide)).mpr (by decide)

def sibling : MicroOpDependencies := ⟨10,1,0,[9]⟩

theorem sibling_not_removed : sibling.listed = [9] ∧ sibling.removeDependency 9 = .error .exhausted := by decide

end MicroOpDependencies
