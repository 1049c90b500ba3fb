import SniperSim.Library.Rank
import SniperSim.Rob.MicroOp

open List Option Nat
namespace MicroOpPerformanceModel
open RobTimer

structure MicroOp where
  uopType : UopType
  (microOpTypeOffset intraInstructionDependencies : Nat)
  (first last : Bool)
deriving DecidableEq, Repr

def makeLoad (offset : Nat) : MicroOp :=
  { uopType := .load, microOpTypeOffset := offset, intraInstructionDependencies := 0, first := false
    last := false }

def makeExecute (offset numLoads : Nat) : MicroOp :=
  { uopType := .execute, microOpTypeOffset := offset, intraInstructionDependencies := numLoads
    first := false, last := false }

def makeStore (offset numExecute : Nat) : MicroOp :=
  { uopType := .store, microOpTypeOffset := offset, intraInstructionDependencies := numExecute
    first := false, last := false }

def decodeAt (numLoads numExecs numStores index : Nat) : MicroOp :=
  let uop :=
    if index < numLoads then makeLoad index
    else if index < numLoads + numExecs then makeExecute (index - numLoads) numLoads
    else makeStore (index - numLoads - numExecs) numExecs
  { uop with
    first := decide (index = 0)
    last := decide (index + 1 = numLoads + numExecs + numStores) }

def decode (numLoads numExecs numStores : Nat) : List MicroOp :=
  (range (numLoads + numExecs + numStores)).map (decodeAt numLoads numExecs numStores)

def MicroOp.producers (uop : MicroOp) (index : Nat) : List Nat :=
  (range uop.intraInstructionDependencies).map fun i =>
    index - uop.microOpTypeOffset - uop.intraInstructionDependencies + i

structure Uop extends DynamicMicroOp where
  microOp : MicroOp
  first : Bool
  squashedCount : Nat
deriving DecidableEq, Repr

def createDynamicMicroOp (rest : DynamicMicroOp) (uop : MicroOp) : Uop :=
  { rest with
    uopType := uop.uopType
    last := uop.last
    squashed := false
    intraInstructionDependencies := uop.intraInstructionDependencies
    microOpTypeOffset := uop.microOpTypeOffset
    dCacheKnown := false
    microOp := uop
    first := uop.first
    squashedCount := 0 }

namespace Uop
variable (u : Uop)

def setSquashed : Uop := { u with squashed := true }

def setFirst : Uop := { u with first := true }

def setLast : Uop := { u with last := true }

def setMicroOpTypeOffset (offset : Nat) : Uop := { u with microOpTypeOffset := offset }

def setSquashedCount (count : Nat) : Uop := { u with squashedCount := count }

def setIntraInstrDependenciesLength (deps : Nat) : Uop := { u with intraInstructionDependencies := deps }

end Uop

def markFirst : List Uop → List Uop
  | [] => []
  | u :: us => if u.squashed then u :: markFirst us else u.setFirst :: us

def markLast : List Uop → List Uop
  | [] => []
  | u :: us => if us.all (·.squashed) && !u.squashed then u.setLast :: us else u :: markLast us

def squash (us : List Uop) (index : Nat) : List Uop := markLast (markFirst (us.modify index Uop.setSquashed))

inductive Direction
  | read | write
deriving DecidableEq, Repr

inductive Operand
  | memory (direction : Direction)
  | other
deriving DecidableEq, Repr

def Operand.direction : Operand → Option Direction
  | .memory direction => some direction
  | .other => none

structure MemoryInfo where
  dir : Direction
  (addr latency : Nat)
  hitKnown : Bool
deriving DecidableEq, Repr

inductive Error
  | notEnoughMemoryInfo
  | directionMismatch (expected got : Direction)
  | indexOutOfRange (index : Nat)
  | wrongType (index : Nat)
  | operandCountMismatch (direction : Direction)
  | countMismatch
deriving DecidableEq, Repr

def Direction.uopType : Direction → UopType
  | .read => .load
  | .write => .store

structure Progress where
  done : Nat
  lines : List Nat
deriving DecidableEq, Repr

structure Handling where
  uops : List Uop
  progress : Direction → Progress
  doSquashing : Bool

section
variable (bypassLatency : Uop → Nat)

def setMemory (info : MemoryInfo) (u : Uop) : Uop :=
  { u with execLatency := info.latency + bypassLatency u, address := info.addr, dCacheKnown := info.hitKnown }

def access (base : Option Nat) (info : MemoryInfo) (h : Handling) : Except Error Handling :=
  match base with
  | none => .error (.operandCountMismatch info.dir)
  | some base =>
    let index := base + (h.progress info.dir).done
    match h.uops[index]? with
    | none => .error (.indexOutOfRange index)
    | some u =>
      if u.uopType ≠ info.dir.uopType then .error (.wrongType index)
      else
        let line := info.addr / 64 * 64
        let again := (h.progress info.dir).lines.contains line
        let uops := if again then squash h.uops index else h.uops
        .ok { uops := uops.modify index (setMemory bypassLatency info)
              progress := Function.update h.progress info.dir
                ⟨(h.progress info.dir).done + 1,(h.progress info.dir).lines ++ [line]⟩
              doSquashing := h.doSquashing || again }

def operandLoop (base : Direction → Option Nat) : List Operand → List MemoryInfo → Handling → Except Error Handling
  | [], _, h => .ok h
  | .other :: ops, infos, h => operandLoop base ops infos h
  | .memory _ :: _, [], _ => .error .notEnoughMemoryInfo
  | .memory direction :: ops, info :: infos, h =>
    if info.dir ≠ direction then .error (.directionMismatch direction info.dir)
    else do
      let h ← access bypassLatency (base info.dir) info h
      operandLoop base ops infos h
end

structure Scan where
  uopType : Option UopType
  (squashedCount microOpTypeOffset : Nat)
deriving DecidableEq, Repr

def renumber : Scan → List Uop → List Uop
  | _, [] => []
  | s, u :: us =>
    if u.squashed then
      u.setSquashedCount (s.squashedCount + 1) :: renumber { s with squashedCount := s.squashedCount + 1 } us
    else
      let offset := if s.uopType = some u.uopType then s.microOpTypeOffset else 0
      (u.setMicroOpTypeOffset offset).setSquashedCount s.squashedCount ::
        renumber { s with uopType := some u.uopType, microOpTypeOffset := offset + 1 } us

def squashedCountAt (us : List Uop) (i : Nat) : Nat := ((us[i]?).map (·.squashedCount)).getD 0

def recount (us : List Uop) (i : Nat) (u : Uop) : Uop :=
  if !u.squashed && u.intraInstructionDependencies != 0 then
    let base := i - u.microOp.microOpTypeOffset
    u.setIntraInstrDependenciesLength (u.intraInstructionDependencies -
      (squashedCountAt us base - squashedCountAt us (base - u.intraInstructionDependencies)))
  else u

def doSquashing (us : List Uop) : List Uop :=
  let us := renumber ⟨none,0,0⟩ us
  us.mapIdx (recount us)

def handleInstruction (bypassLatency : Uop → Nat) (us : List Uop) (ops : List Operand)
    (infos : List MemoryInfo) : Except Error (List Uop) := do
  let base := fun direction : Direction => us.findIdx? fun u => u.uopType == direction.uopType
  let h ← operandLoop bypassLatency base ops infos { uops := us, progress := fun _ => ⟨0,[]⟩, doSquashing := false }
  if (h.progress .read).done ≠ us.countP (fun u => u.uopType == .load) ∨
      (h.progress .write).done ≠ us.countP (fun u => u.uopType == .store) then .error .countMismatch
  else .ok (if h.doSquashing then doSquashing h.uops else h.uops)

def remains (u : Uop) : Bool := !u.squashed

def sequenceNumber (us : List Uop) (base i : Nat) : Nat := base + us.rank remains i

def KeepsDependencies (us : List Uop) (base : Nat) : Prop :=
  ∀ (i : Nat) (u : Uop), us[i]? = some u → u.squashed = false → ∀ n, n ∈ u.intraProducers (sequenceNumber us base i) ↔
      ∃ (j : Nat) (v : Uop), j ∈ u.microOp.producers i ∧ us[j]? = some v ∧ v.squashed = false ∧
        n = sequenceNumber us base j

section
variable {nl nx ns i j : Nat}

theorem decodeAt_uopType : (decodeAt nl nx ns i).uopType =
    if i < nl then .load else if i < nl + nx then .execute else .store := by
  simp only [decodeAt]
  split_ifs <;> rfl

theorem decodeAt_offset : (decodeAt nl nx ns i).microOpTypeOffset = if i < nl then i
    else if i < nl + nx then i - nl else i - nl - nx := by
  simp only [decodeAt]
  split_ifs <;> rfl

theorem decodeAt_deps : (decodeAt nl nx ns i).intraInstructionDependencies =
    if i < nl then 0 else if i < nl + nx then nl else nx := by
  simp only [decodeAt]
  split_ifs <;> rfl

structure Block (f : Nat → MicroOp) (i : Nat) : Prop where
  offset_le : (f i).microOpTypeOffset ≤ i
  deps_le : (f i).intraInstructionDependencies ≤ i - (f i).microOpTypeOffset
  same : ∀ j, i - (f i).microOpTypeOffset ≤ j → j ≤ i → (f j).uopType = (f i).uopType
  before : ∀ j, j < i - (f i).microOpTypeOffset → (f j).uopType ≠ (f i).uopType
  base : (f (i - (f i).microOpTypeOffset)).microOpTypeOffset = 0
  depsBase : (f i).intraInstructionDependencies ≠ 0 →
    (f (i - (f i).microOpTypeOffset - (f i).intraInstructionDependencies)).microOpTypeOffset = 0

theorem block_decodeAt : Block (decodeAt nl nx ns) i := by
  constructor <;> simp only [decodeAt_uopType,decodeAt_offset,decodeAt_deps]
  · split_ifs <;> omega
  · split_ifs <;> omega
  · intro j hj hji
    split_ifs at * <;> first | rfl | omega
  · intro j hj
    split_ifs at * <;> first | omega | decide
  · split_ifs <;> omega
  · intro hdeps
    split_ifs at * <;> omega
end

structure Frame (uop : MicroOp) (u : Uop) : Prop where
  microOp : u.microOp = uop
  uopType : u.uopType = uop.uopType
  offset : u.microOpTypeOffset = uop.microOpTypeOffset
  deps : u.intraInstructionDependencies = uop.intraInstructionDependencies

structure Laid (f : Nat → MicroOp) (us : List Uop) : Prop where
  frame : ∀ i u, us[i]? = some u → Frame (f i) u
  spared : ∀ i u, us[i]? = some u → u.squashed → (f i).microOpTypeOffset ≠ 0

section
variable {us : List Uop} {i j : Nat} {u : Uop} {s : Scan}

theorem length_renumber (s : Scan) (us : List Uop) : (renumber s us).length = us.length := by
  induction us generalizing s with
  | nil => rfl
  | cons u us ih =>
    rw [renumber]
    split_ifs <;> simp [ih]

def scanned (s : Scan) : List Uop → Scan
  | [] => s
  | u :: us =>
    if u.squashed then scanned { s with squashedCount := s.squashedCount + 1 } us
    else scanned { s with
      uopType := some u.uopType
      microOpTypeOffset := (if s.uopType = some u.uopType then s.microOpTypeOffset else 0) + 1 } us

theorem renumber_append (s : Scan) (us vs : List Uop) :
    renumber s (us ++ vs) = renumber s us ++ renumber (scanned s us) vs := by
  induction us generalizing s with
  | nil => rfl
  | cons u us ih =>
    simp only [cons_append,renumber,scanned]
    split_ifs <;> rw [ih] <;> rfl

theorem uopType_scanned (h : (scanned s us).uopType = some t) : s.uopType = some t ∨ ∃ u ∈ us, u.uopType = t := by
  induction us generalizing s with
  | nil => exact .inl h
  | cons u us ih =>
    rw [scanned] at h
    split_ifs at h with hsq htype
    all_goals rcases ih h with hs | ⟨v,hv,rfl⟩
    all_goals first
      | exact .inr ⟨v,mem_cons_of_mem _ hv,rfl⟩
      | exact .inl hs
      | exact .inr ⟨u,mem_cons_self,some.inj hs⟩

structure Same (u v : Uop) : Prop where
  microOp : v.microOp = u.microOp
  squashed : v.squashed = u.squashed

theorem renumber_getElem? (s : Scan) (hu : us[i]? = some u) : ∃ v, (renumber s us)[i]? = some v ∧ Same u v ∧
      v.intraInstructionDependencies = u.intraInstructionDependencies ∧
      v.squashedCount = s.squashedCount + us.rank (·.squashed) (i + 1) := by
  induction us generalizing s i with
  | nil => simp at hu
  | cons w us ih =>
    rw [renumber]
    cases i with
    | zero =>
      obtain rfl : w = u := by simpa using hu
      split_ifs with hsq
      all_goals exact ⟨_,rfl,⟨rfl,rfl⟩,rfl,by simp [rank_cons_succ,hsq,Uop.setSquashedCount]⟩
    | succ i =>
      rw [rank_cons_succ]
      split_ifs with hsq
      all_goals
        obtain ⟨v,hv,hsame,hdeps,hcount⟩ := ih _ hu
        refine ⟨v,hv,hsame,hdeps,?_⟩
        simp [hcount]
      omega

theorem offset_renumber (s : Scan) (hu : us[i]? = some u) (hsq : u.squashed = false)
    (hsame : ∀ j ≤ i, ∀ v, us[j]? = some v → v.uopType = u.uopType) : ((renumber s us)[i]?).map (·.microOpTypeOffset) =
      some ((if s.uopType = some u.uopType then s.microOpTypeOffset else 0) + us.rank remains i) := by
  induction us generalizing s i with
  | nil => simp at hu
  | cons v us ih =>
    rw [renumber]
    cases i with
    | zero =>
      obtain rfl : v = u := by simpa using hu
      simp [hsq,Uop.setSquashedCount,Uop.setMicroOpTypeOffset]
    | succ i =>
      have hv : v.uopType = u.uopType := hsame 0 (zero_le _) v rfl
      have htail : ∀ j ≤ i, ∀ w, us[j]? = some w → w.uopType = u.uopType :=
        fun j hj w hw => hsame (j + 1) (succ_le_succ hj) w hw
      rw [rank_cons_succ,remains]
      cases hvsq : v.squashed with
      | true => simp [ih _ hu htail]
      | false =>
        simp [ih _ hu htail,hv]
        omega
end

section
variable {f : Nat → MicroOp} {us : List Uop} {i j n base : Nat} {u : Uop}

def typeBase (f : Nat → MicroOp) (i : Nat) : Nat := i - (f i).microOpTypeOffset

def depsBase (f : Nat → MicroOp) (i : Nat) : Nat := typeBase f i - (f i).intraInstructionDependencies

def Numbered (f : Nat → MicroOp) (us : List Uop) : Prop :=
  ∀ (i : Nat) (u : Uop), us[i]? = some u → u.microOp = f i ∧ (u.squashed = false →
    us.rank remains (typeBase f i) + u.microOpTypeOffset = us.rank remains i ∧
      us.rank remains (depsBase f i) + u.intraInstructionDependencies = us.rank remains (typeBase f i))

theorem mem_producerRange (h : o + k ≤ m) : n ∈ (range k).map (fun i => m - o - k + i) ↔ m ≤ n + o + k ∧ n + o < m := by
  rw [List.mem_map]
  constructor
  · rintro ⟨i,hi,rfl⟩
    have := mem_range.mp hi
    omega
  · rintro ⟨hle,hlt⟩
    exact ⟨n - (m - o - k),mem_range.mpr (by omega),by omega⟩

theorem mem_producers (hblock : Block f i) : j ∈ (f i).producers i ↔ depsBase f i ≤ j ∧ j < typeBase f i := by
  have hoffset := hblock.offset_le
  have hdeps := hblock.deps_le
  rw [MicroOp.producers,mem_producerRange (by omega),depsBase,typeBase]
  omega

theorem keepsDependencies_of_numbered (hblock : ∀ i, Block f i) (h : Numbered f us) (base : Nat) :
    KeepsDependencies us base := by
  intro i u hu hsq n
  obtain ⟨hmicro,hranks⟩ := h i u hu
  obtain ⟨hoffset,hdeps⟩ := hranks hsq
  rw [DynamicMicroOp.intraProducers,mem_producerRange (by rw [sequenceNumber]; omega),sequenceNumber,hmicro]
  simp only [mem_producers (hblock i)]
  have hle : depsBase f i ≤ typeBase f i := Nat.sub_le _ _
  constructor
  · rintro ⟨hlow,hhigh⟩
    obtain ⟨j,v,hj,hj',hv,hp,hrank⟩ := (exists_rank_iff (l := us) (p := remains) (n := n - base) hle).mp
      ⟨by omega,by omega⟩
    exact ⟨j,v,⟨hj,hj'⟩,hv,by simpa [remains] using hp,by rw [sequenceNumber,hrank]; omega⟩
  · rintro ⟨j,v,⟨hj,hj'⟩,hv,hp,rfl⟩
    have hrank := (exists_rank_iff (l := us) (p := remains) (n := us.rank remains j) hle).mpr
      ⟨j,v,hj,hj',hv,by simp [remains,hp],rfl⟩
    rw [sequenceNumber]
    omega

theorem numbered_of_unsquashed (hblock : ∀ i, Block f i) (h : Laid f us)
    (hall : ∀ u ∈ us, u.squashed = false) : Numbered f us := by
  have hrank : ∀ k ≤ us.length, us.rank remains k = k := by
    intro k hk
    have hlen : (us.take k).length = k := length_take_of_le hk
    rw [rank,countP_eq_length.mpr,hlen]
    exact fun u hu => by simp [remains,hall u (mem_of_mem_take hu)]
  intro i u hu
  obtain ⟨hmicro,-,hoffset,hdeps⟩ := h.frame i u hu
  have hi : i < us.length := (List.getElem?_eq_some_iff.mp hu).1
  have hb := (hblock i).offset_le
  have hd := (hblock i).deps_le
  refine ⟨hmicro,fun _ => ?_⟩
  rw [hrank i (Nat.le_of_lt hi),hrank (typeBase f i) (by rw [typeBase]; omega),
    hrank (depsBase f i) (by rw [depsBase,typeBase]; omega),hoffset,hdeps,depsBase,typeBase]
  omega

theorem squashedCountAt_renumber (hi : i < us.length) :
    squashedCountAt (renumber ⟨none,0,0⟩ us) i = us.rank (·.squashed) (i + 1) := by
  obtain ⟨v,hv,-,-,hcount⟩ := renumber_getElem? ⟨none,0,0⟩ (getElem?_eq_getElem hi)
  rw [squashedCountAt,hv,map_some,getD_some,hcount,Nat.zero_add]

theorem rank_squashed_succ (hu : us[i]? = some u) (hsq : u.squashed = false) :
    us.rank (·.squashed) (i + 1) + us.rank remains i = i := by
  have hi : i < us.length := (List.getElem?_eq_some_iff.mp hu).1
  have hsum := rank_add_rank_not (p := (·.squashed)) (Nat.le_of_lt hi)
  rwa [rank_succ hu,hsq]

theorem length_doSquashing (us : List Uop) : (doSquashing us).length = us.length := by
  simp [doSquashing,length_renumber]

theorem offset_doSquashing (hblock : Block f i) (h : Laid f us) (hu : us[i]? = some u) (hsq : u.squashed = false)
    (hv : (renumber ⟨none,0,0⟩ us)[i]? = some v) :
    us.rank remains (typeBase f i) + v.microOpTypeOffset = us.rank remains i := by
  have hle : typeBase f i ≤ i := Nat.sub_le _ _
  have hi : i < us.length := (List.getElem?_eq_some_iff.mp hu).1
  have hlen : (us.take (typeBase f i)).length = typeBase f i := length_take_of_le (by omega)
  have htype := (h.frame i u hu).uopType
  have hdrop : ∀ j, (us.drop (typeBase f i))[j]? = us[typeBase f i + j]? := fun j => getElem?_drop
  have hoffset := offset_renumber (i := i - typeBase f i) (scanned ⟨none,0,0⟩ (us.take (typeBase f i)))
    (by rw [hdrop,Nat.add_sub_cancel' hle,hu]) hsq (by
      intro j hj w hw
      rw [hdrop] at hw
      rw [(h.frame _ w hw).uopType,htype]
      exact hblock.same _ (le_add_right _ _) (by omega))
  have hfresh : (scanned ⟨none,0,0⟩ (us.take (typeBase f i))).uopType ≠ some u.uopType := by
    intro hscan
    rcases uopType_scanned hscan with habs | ⟨w,hw,hwtype⟩
    · exact some_ne_none _ habs.symm
    · obtain ⟨j,hj,hget⟩ := mem_take_iff_getElem.mp hw
      have hw' : us[j]? = some w := List.getElem?_eq_some_iff.mpr ⟨by omega,hget⟩
      rw [(h.frame j w hw').uopType,htype] at hwtype
      exact hblock.before j (by rw [typeBase] at hj; omega) hwtype
  rw [if_neg hfresh,Nat.zero_add] at hoffset
  have hsplit : (renumber ⟨none,0,0⟩ us)[i]? =
      (renumber (scanned ⟨none,0,0⟩ (us.take (typeBase f i))) (us.drop (typeBase f i)))[i - typeBase f i]? := by
    rw [← congrArg (renumber ⟨none,0,0⟩) (take_append_drop (typeBase f i) us),renumber_append,
      getElem?_append_right (by rw [length_renumber,hlen]; exact hle),length_renumber,hlen]
  rw [← hsplit,hv,map_some] at hoffset
  rw [some.inj hoffset,← rank_add,Nat.add_sub_cancel' hle]

theorem Laid.unsquashed (h : Laid f us) (hi : i < us.length) (hzero : (f i).microOpTypeOffset = 0) :
    us.rank (·.squashed) (i + 1) + us.rank remains i = i := by
  refine rank_squashed_succ (getElem?_eq_getElem hi) ?_
  by_contra hsq
  exact h.spared i _ (getElem?_eq_getElem hi) (Bool.not_eq_false _ ▸ hsq) hzero

theorem deps_doSquashing (hblock : Block f i) (h : Laid f us) (hi : i < us.length) (hmicro : v.microOp = f i)
    (hvsq : v.squashed = false) (hdeps : v.intraInstructionDependencies = (f i).intraInstructionDependencies) :
    us.rank remains (depsBase f i) +
        (recount (renumber ⟨none,0,0⟩ us) i v).intraInstructionDependencies = us.rank remains (typeBase f i) := by
  by_cases hzero : (f i).intraInstructionDependencies = 0
  · rw [recount,if_neg (by simp [hdeps,hzero]),hdeps,hzero,depsBase,hzero]
    rfl
  · have hd := hblock.deps_le
    rw [← typeBase] at hd
    have hb : typeBase f i < us.length := Nat.lt_of_le_of_lt (Nat.sub_le _ _) hi
    have hbase : depsBase f i = typeBase f i - (f i).intraInstructionDependencies := rfl
    have hb' : depsBase f i < us.length := by omega
    have hcount := h.unsquashed hb hblock.base
    have hcount' := h.unsquashed hb' (hblock.depsBase hzero)
    have hmono : us.rank remains (depsBase f i) ≤ us.rank remains (typeBase f i) := rank_mono (Nat.sub_le _ _)
    have hmono' : us.rank (·.squashed) (depsBase f i + 1) ≤ us.rank (·.squashed) (typeBase f i + 1) :=
      rank_mono (by omega)
    rw [recount,if_pos (by simp [hvsq,hdeps,hzero])]
    simp only [Uop.setIntraInstrDependenciesLength,hmicro,hdeps]
    rw [← typeBase,← depsBase,squashedCountAt_renumber hb,squashedCountAt_renumber hb']
    omega

theorem doSquashing_getElem? (hu : us[i]? = some u) : ∃ v, (renumber ⟨none,0,0⟩ us)[i]? = some v ∧ Same u v ∧
      v.intraInstructionDependencies = u.intraInstructionDependencies ∧
      (doSquashing us)[i]? = some (recount (renumber ⟨none,0,0⟩ us) i v) := by
  obtain ⟨v,hv,hsame,hdeps,-⟩ := renumber_getElem? ⟨none,0,0⟩ hu
  exact ⟨v,hv,hsame,hdeps,by simp [doSquashing,hv]⟩

theorem recount_same (us : List Uop) (i : Nat) (u : Uop) :
    Same u (recount us i u) ∧ (recount us i u).microOpTypeOffset = u.microOpTypeOffset := by
  rw [recount]
  split_ifs <;> exact ⟨⟨rfl,rfl⟩,rfl⟩

theorem rank_doSquashing (us : List Uop) (i : Nat) : (doSquashing us).rank remains i = us.rank remains i := by
  have hmap : (doSquashing us).map (·.squashed) = us.map (·.squashed) := by
    refine ext_getElem? fun j => ?_
    rw [getElem?_map,getElem?_map]
    cases hu : us[j]? with
    | none =>
      rw [List.getElem?_eq_none_iff,← length_doSquashing,← List.getElem?_eq_none_iff] at hu
      rw [hu]
    | some u =>
      obtain ⟨v,-,hsame,-,hget⟩ := doSquashing_getElem? hu
      rw [hget,map_some,map_some,(recount_same _ _ _).1.squashed,hsame.squashed]
  have hrank : ∀ vs : List Uop, vs.rank remains i = (vs.map (·.squashed)).rank not i := by
    intro vs
    rw [rank_map]
    rfl
  rw [hrank,hrank,hmap]

theorem numbered_doSquashing (hblock : ∀ i, Block f i) (h : Laid f us) : Numbered f (doSquashing us) := by
  intro i w hw
  simp only [rank_doSquashing]
  have hi : i < us.length := by
    rw [← length_doSquashing]
    exact (List.getElem?_eq_some_iff.mp hw).1
  obtain ⟨v,hv,hsame,hdeps,hget⟩ := doSquashing_getElem? (getElem?_eq_getElem hi)
  obtain rfl := some.inj (hw.symm.trans hget)
  obtain ⟨hrsame,hroffset⟩ := recount_same (renumber ⟨none,0,0⟩ us) i v
  obtain ⟨hmicro,-,-,hudeps⟩ := h.frame i us[i] (getElem?_eq_getElem hi)
  have hvmicro := hsame.microOp.trans hmicro
  refine ⟨hrsame.microOp.trans hvmicro,fun hsq => ?_⟩
  have hvsq : v.squashed = false := hrsame.squashed.symm.trans hsq
  have husq : us[i].squashed = false := hsame.squashed.symm.trans hvsq
  rw [hroffset]
  exact ⟨offset_doSquashing (hblock i) h (getElem?_eq_getElem hi) husq hv,
    deps_doSquashing (hblock i) h hi hvmicro hvsq (hdeps.trans hudeps)⟩
end

section
variable {f : Nat → MicroOp} {us : List Uop} {i : Nat} {u v : Uop}

def Uop.key (u : Uop) : MicroOp × Bool × UopType × Nat × Nat :=
  (u.microOp,u.squashed,u.uopType,u.microOpTypeOffset,u.intraInstructionDependencies)

theorem key_markFirst (us : List Uop) : (markFirst us).map Uop.key = us.map Uop.key := by
  induction us with
  | nil => rfl
  | cons u us ih =>
    rw [markFirst]
    split_ifs
    · rw [map_cons,ih,map_cons]
    · rfl

theorem key_markLast (us : List Uop) : (markLast us).map Uop.key = us.map Uop.key := by
  induction us with
  | nil => rfl
  | cons u us ih =>
    rw [markLast]
    split_ifs
    · rfl
    · rw [map_cons,ih,map_cons]

theorem key_setMemory (bypassLatency : Uop → Nat) (info : MemoryInfo) (us : List Uop) (index : Nat) :
    (us.modify index (setMemory bypassLatency info)).map Uop.key = us.map Uop.key := by
  refine ext_getElem? fun i => ?_
  rw [getElem?_map,getElem?_modify,getElem?_map]
  cases us[i]? with
  | none => rfl
  | some u =>
    refine congrArg some ?_
    dsimp only
    split_ifs <;> rfl

theorem exists_key {vs : List Uop} (h : vs.map Uop.key = us.map Uop.key) (hv : vs[i]? = some v) :
    ∃ u, us[i]? = some u ∧ u.key = v.key := by
  refine map_eq_some_iff.mp ?_
  rw [← getElem?_map,← h,getElem?_map,hv,map_some]

theorem Laid.congr (h : Laid f us) {vs : List Uop} (hkey : vs.map Uop.key = us.map Uop.key) : Laid f vs := by
  refine ⟨fun i v hv => ?_,fun i v hv hsq => ?_⟩
  · obtain ⟨u,hu,huv⟩ := exists_key hkey hv
    obtain ⟨hmicro,-,htype,hoffset,hdeps⟩ : _ ∧ _ ∧ _ ∧ _ ∧ _ := by simpa [Uop.key] using huv
    obtain ⟨hmicro',htype',hoffset',hdeps'⟩ := h.frame i u hu
    exact ⟨hmicro ▸ hmicro',htype ▸ htype',hoffset ▸ hoffset',hdeps ▸ hdeps'⟩
  · obtain ⟨u,hu,huv⟩ := exists_key hkey hv
    exact h.spared i u hu ((congrArg (·.2.1) huv).trans hsq)

theorem key_squash (us : List Uop) (index : Nat) :
    (squash us index).map Uop.key = (us.modify index Uop.setSquashed).map Uop.key :=
  (key_markLast _).trans (key_markFirst _)

theorem length_squash (us : List Uop) (index : Nat) : (squash us index).length = us.length := by
  simpa using congrArg length (key_squash us index)

theorem Laid.squash (h : Laid f us) (hindex : (f index).microOpTypeOffset ≠ 0) : Laid f (squash us index) := by
  refine Laid.congr ⟨fun i v hv => ?_,fun i v hv hsq => ?_⟩ (key_squash us index)
  · rw [getElem?_modify] at hv
    obtain ⟨u,hu,rfl⟩ := map_eq_some_iff.mp hv
    obtain ⟨hmicro,htype,hoffset,hdeps⟩ := h.frame i u hu
    split_ifs <;> exact ⟨hmicro,htype,hoffset,hdeps⟩
  · by_cases heq : index = i
    · exact heq ▸ hindex
    · rw [getElem?_modify_ne _ _ heq] at hv
      exact h.spared i v hv hsq
end

section
variable {nl nx ns : Nat} {h : Handling} {info : MemoryInfo} (bypassLatency : Uop → Nat)

def firstIndex (numLoads numExecs : Nat) : Direction → Nat
  | .read => 0
  | .write => numLoads + numExecs

def total (numLoads numStores : Nat) : Direction → Nat
  | .read => numLoads
  | .write => numStores

structure Handled (numLoads numExecs numStores : Nat) (h : Handling) : Prop where
  length : h.uops.length = numLoads + numExecs + numStores
  laid : Laid (decodeAt numLoads numExecs numStores) h.uops
  lines : ∀ d, (h.progress d).lines.length = (h.progress d).done
  flag : h.doSquashing = false → ∀ u ∈ h.uops, u.squashed = false

theorem decodeAt_firstIndex (d : Direction) {k : Nat} (hk : k < total nl ns d) :
    (decodeAt nl nx ns (firstIndex nl nx d + k)).uopType = d.uopType ∧
      (decodeAt nl nx ns (firstIndex nl nx d + k)).microOpTypeOffset = k ∧ firstIndex nl nx d + k < nl + nx + ns := by
  cases d with
  | read =>
    rw [total] at hk
    rw [firstIndex,Nat.zero_add,decodeAt_uopType,decodeAt_offset,if_pos hk,if_pos hk]
    exact ⟨rfl,rfl,by omega⟩
  | write =>
    rw [total] at hk
    rw [firstIndex,decodeAt_uopType,decodeAt_offset,if_neg (by omega),if_neg (by omega),if_neg (by omega),
      if_neg (by omega)]
    exact ⟨rfl,by omega,by omega⟩

theorem Handled.access (hh : Handled nl nx ns h) (hdone : (h.progress info.dir).done < total nl ns info.dir) :
    ∃ h', access bypassLatency (some (firstIndex nl nx info.dir)) info h = .ok h' ∧ Handled nl nx ns h' ∧
      ∀ d, (h'.progress d).done = (h.progress d).done + if d = info.dir then 1 else 0 := by
  obtain ⟨htype,hoffset,hlt⟩ := @decodeAt_firstIndex nl nx ns info.dir _ hdone
  rw [← hh.length] at hlt
  have hget := getElem?_eq_getElem hlt
  have hok : ¬(h.uops[firstIndex nl nx info.dir + (h.progress info.dir).done]).uopType ≠
      info.dir.uopType := by
    rw [(hh.laid.frame _ _ hget).uopType,htype]
    exact fun habs => habs rfl
  simp only [MicroOpPerformanceModel.access,hget,if_neg hok]
  refine ⟨_,rfl,⟨?_,?_,fun d => ?_,fun hflag u hu => ?_⟩,fun d => ?_⟩
  · rw [length_modify]
    split_ifs <;> simp [length_squash,hh.length]
  · refine Laid.congr ?_ (key_setMemory bypassLatency info _ _)
    split_ifs with hagain
    · refine hh.laid.squash ?_
      rw [hoffset,← hh.lines]
      rintro hnil
      rw [eq_nil_of_length_eq_zero hnil] at hagain
      exact Bool.noConfusion hagain
    · exact hh.laid
  · rcases eq_or_ne d info.dir with rfl | hd <;> simp [*,hh.lines]
  · obtain ⟨hno,hagain⟩ := Bool.or_eq_false_iff.mp hflag
    rw [if_neg (by rw [hagain]; exact Bool.false_ne_true)] at hu
    obtain ⟨i,hi⟩ := mem_iff_getElem?.mp hu
    obtain ⟨w,hw,hkey⟩ := exists_key (key_setMemory bypassLatency info _ _) hi
    exact (congrArg (·.2.1) hkey).symm.trans (hh.flag hno w (mem_of_getElem? hw))
  · rcases eq_or_ne d info.dir with rfl | hd <;> simp [*]

theorem Handled.operandLoop (hbase : ∀ d, 0 < total nl ns d → base d = some (firstIndex nl nx d))
    (hh : Handled nl nx ns h) (hdir : ops.filterMap Operand.direction = infos.map (·.dir))
    (hcount : ∀ d, (h.progress d).done + infos.countP (fun info => info.dir == d) = total nl ns d) :
    ∃ h', operandLoop bypassLatency base ops infos h = .ok h' ∧ Handled nl nx ns h' ∧
      ∀ d, (h'.progress d).done = total nl ns d := by
  induction ops generalizing infos h with
  | nil =>
    obtain rfl : infos = [] := by simpa using hdir.symm
    exact ⟨h,rfl,hh,fun d => by simpa using hcount d⟩
  | cons op ops ih =>
    cases op with
    | other => exact ih hh hdir hcount
    | memory direction =>
      cases infos with
      | nil => simp [Operand.direction] at hdir
      | cons info infos =>
        simp only [filterMap_cons,Operand.direction,map_cons,cons.injEq] at hdir
        obtain ⟨rfl,hdir⟩ := hdir
        have hself := hcount info.dir
        rw [countP_cons_of_pos (by simp)] at hself
        have hleft : (h.progress info.dir).done < total nl ns info.dir := by omega
        obtain ⟨h',hok,hh',hdone⟩ := hh.access bypassLatency hleft
        obtain ⟨h'',hrest⟩ := ih hh' hdir (by
          intro d
          rw [hdone,← hcount d]
          rcases eq_or_ne d info.dir with rfl | hd
          · simp
            omega
          · simp [hd,hd.symm])
        refine ⟨h'',?_,hrest.2⟩
        rw [MicroOpPerformanceModel.operandLoop,if_neg (fun habs => habs rfl),hbase _ (by omega),hok]
        exact hrest.1
end

section
def instructionUops (numLoads numExecs numStores : Nat) (rest : Nat → DynamicMicroOp) : List Uop :=
  (decode numLoads numExecs numStores).mapIdx fun i uop => createDynamicMicroOp (rest i) uop

variable (nl nx ns : Nat) (rest : Nat → DynamicMicroOp)

theorem instructionUops_getElem? (hi : i < nl + nx + ns) : (instructionUops nl nx ns rest)[i]? =
      some (createDynamicMicroOp (rest i) (decodeAt nl nx ns i)) := by
  simp [instructionUops,decode,hi]

theorem length_instructionUops : (instructionUops nl nx ns rest).length = nl + nx + ns := by
  simp [instructionUops,decode]

theorem handled_start : Handled nl nx ns
    { uops := instructionUops nl nx ns rest, progress := fun _ => ⟨0,[]⟩, doSquashing := false } := by
  have hall : ∀ (i : Nat) (u : Uop), (instructionUops nl nx ns rest)[i]? = some u →
      u = createDynamicMicroOp (rest i) (decodeAt nl nx ns i) := by
    intro i u hu
    have hi := (List.getElem?_eq_some_iff.mp hu).1
    rw [length_instructionUops] at hi
    rw [instructionUops_getElem? nl nx ns rest hi] at hu
    exact (some.inj hu).symm
  refine ⟨length_instructionUops _ _ _ _,⟨fun i u hu => ?_,fun i u hu hsq => ?_⟩,fun _ => rfl,fun _ u hu => ?_⟩
  · rw [hall i u hu]
    exact ⟨rfl,rfl,rfl,rfl⟩
  · rw [hall i u hu] at hsq
    exact Bool.noConfusion hsq
  · obtain ⟨i,hi⟩ := mem_iff_getElem?.mp hu
    rw [hall i u hi]
    rfl

theorem uopTypes_instructionUops : (instructionUops nl nx ns rest).map (·.uopType) =
      replicate nl .load ++ replicate nx .execute ++ replicate ns .store := by
  refine ext_getElem? fun i => ?_
  rw [getElem?_map]
  by_cases hi : i < nl + nx + ns
  · rw [instructionUops_getElem? _ _ _ _ hi,map_some]
    simp only [createDynamicMicroOp,decodeAt_uopType,getElem?_append,length_append,length_replicate,getElem?_replicate]
    split_ifs <;> first | rfl | omega
  · rw [getElem?_eq_none (by rw [length_instructionUops]; omega),getElem?_eq_none (by simp; omega)]
    rfl

theorem findIdx?_instructionUops (d : Direction) (hpos : 0 < total nl ns d) :
    (instructionUops nl nx ns rest).findIdx? (fun u => u.uopType == d.uopType) = some (firstIndex nl nx d) := by
  have hmap := findIdx?_map (p := fun t => t == d.uopType) (f := fun u : Uop => u.uopType)
    (l := instructionUops nl nx ns rest)
  rw [uopTypes_instructionUops] at hmap
  refine hmap.symm.trans ?_
  cases d with
  | read =>
    have hne : nl ≠ 0 := Nat.pos_iff_ne_zero.mp hpos
    simp [findIdx?_append,findIdx?_replicate,Direction.uopType,firstIndex,hne]
  | write =>
    have hlt : 0 < ns := hpos
    simp [findIdx?_append,findIdx?_replicate,Direction.uopType,firstIndex,hlt,Nat.add_comm]

theorem countP_instructionUops (d : Direction) :
    (instructionUops nl nx ns rest).countP (fun u => u.uopType == d.uopType) = total nl ns d := by
  have hmap := countP_map (p := fun t => t == d.uopType) (f := fun u : Uop => u.uopType)
    (l := instructionUops nl nx ns rest)
  rw [uopTypes_instructionUops] at hmap
  refine hmap.symm.trans ?_
  cases d <;> simp [countP_append,countP_replicate,Direction.uopType,total]
end

theorem squashing_keeps_dependencies (numLoads numExecs numStores : Nat) (rest : Nat → DynamicMicroOp)
    (bypassLatency : Uop → Nat) (ops : List Operand) (infos : List MemoryInfo)
    (hdir : ops.filterMap Operand.direction = infos.map (·.dir))
    (hreads : infos.countP (fun info => info.dir == .read) = numLoads)
    (hwrites : infos.countP (fun info => info.dir == .write) = numStores) (base : Nat) :
    ∃ us, handleInstruction bypassLatency (instructionUops numLoads numExecs numStores rest) ops infos = .ok us ∧
      us.length = numLoads + numExecs + numStores ∧ KeepsDependencies us base := by
  obtain ⟨h,hok,hh,hdone⟩ := (handled_start numLoads numExecs numStores rest).operandLoop
    bypassLatency (findIdx?_instructionUops numLoads numExecs numStores rest) hdir
    (fun d => by
      rw [Nat.zero_add]
      cases d with
      | read => exact hreads
      | write => exact hwrites)
  have hcount : ¬((h.progress .read).done ≠
        (instructionUops numLoads numExecs numStores rest).countP (fun u => u.uopType == .load) ∨
      (h.progress .write).done ≠
        (instructionUops numLoads numExecs numStores rest).countP (fun u => u.uopType == .store)) := by
    rw [not_or,not_not,not_not]
    exact ⟨(hdone .read).trans (countP_instructionUops _ _ _ rest .read).symm,
      (hdone .write).trans (countP_instructionUops _ _ _ rest .write).symm⟩
  refine ⟨if h.doSquashing then doSquashing h.uops else h.uops,?_,?_,?_⟩
  · rw [handleInstruction]
    simp only [hok]
    exact if_neg hcount
  · split_ifs
    exacts [(length_doSquashing _).trans hh.length,hh.length]
  · have hblock i : Block (decodeAt numLoads numExecs numStores) i := block_decodeAt
    refine keepsDependencies_of_numbered hblock ?_ base
    cases hflag : h.doSquashing with
    | true => exact numbered_doSquashing hblock hh.laid
    | false => exact numbered_of_unsquashed hblock hh.laid (hh.flag hflag)

def plainUop : DynamicMicroOp := { simpleUop .execute 1 with last := false, dCacheKnown := false, port := .port015 }

def gather : List MemoryInfo :=
  [⟨.read,0x1000,3,true⟩,⟨.read,0x1008,3,true⟩,⟨.read,0x1040,3,true⟩,⟨.write,0x2000,1,true⟩,⟨.write,0x2008,1,true⟩]

def gatherOps : List Operand := .other :: gather.map fun info => .memory info.dir

theorem squashing_keeps_dependencies_gather : gatherOps.filterMap Operand.direction = gather.map (·.dir) ∧
      gather.countP (fun info => info.dir == .read) = 3 ∧ gather.countP (fun info => info.dir == .write) = 2 ∧
      ∃ us, handleInstruction (fun _ => 0) (instructionUops 3 1 2 fun _ => plainUop) gatherOps gather = .ok us ∧
        us.length = 3 + 1 + 2 ∧ KeepsDependencies us 100 :=
  ⟨by decide,by decide,by decide,squashing_keeps_dependencies 3 1 2 (fun _ => plainUop) (fun _ => 0) gatherOps
    gather (by decide) (by decide) (by decide) 100⟩

example : (handleInstruction (fun _ => 0) (instructionUops 3 1 2 fun _ => plainUop) gatherOps gather).map
    (fun us => us.map fun u => (u.squashed,u.microOpTypeOffset,u.intraInstructionDependencies)) =
      .ok [(false,0,0),(true,1,0),(false,1,0),(false,0,2),(false,0,1),(true,1,1)] := rfl

end MicroOpPerformanceModel
