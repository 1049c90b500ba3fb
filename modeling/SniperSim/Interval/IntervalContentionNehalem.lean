import SniperSim.Rob.PortSchedule

open RobTimer (Port DynamicMicroOp)

structure IntervalContentionNehalem where
  countByPort : Port → Nat
  -- in millionths of a cycle
  cpContrByPort : Port → Nat

namespace IntervalContentionNehalem
variable (k : IntervalContentionNehalem)

def clearFunctionalUnitStats : IntervalContentionNehalem := { k with countByPort := fun _ => 0 }

def addFunctionalUnitStats (uop : DynamicMicroOp) : IntervalContentionNehalem :=
  { k with countByPort := Function.update k.countByPort uop.port ((k.countByPort uop.port + 1) % 2 ^ 64) }

def removeFunctionalUnitStats (uop : DynamicMicroOp) : IntervalContentionNehalem :=
  { k with countByPort := Function.update k.countByPort uop.port ((k.countByPort uop.port + (2 ^ 64 - 1)) % 2 ^ 64) }

def widen (e : Nat × Option Port) (p : Port) : Nat × Option Port :=
  if p.shared = false ∧ e.1 < k.countByPort p then (k.countByPort p,some p) else e

def port05Use : Nat := (k.countByPort .port0 + k.countByPort .port5 + k.countByPort .port05) % 2 ^ 64

def port015Use : Nat :=
  (k.countByPort .port0 + k.countByPort .port1 + k.countByPort .port5 + k.countByPort .port015) % 2 ^ 64

def widen05 (e : Nat × Option Port) : Nat × Option Port :=
  if 2 * e.1 % 2 ^ 64 < k.port05Use then ((k.port05Use + 1) % 2 ^ 64 / 2,some .port05) else e

def widen015 (e : Nat × Option Port) : Nat × Option Port :=
  if 3 * e.1 % 2 ^ 64 < k.port015Use then ((k.port015Use + 2) % 2 ^ 64 / 3,some .port015) else e

def effective (length : Nat) : Nat × Option Port := k.widen015 (k.widen05 (Port.all.foldl k.widen (length,none)))

def extend (reason : Port) (millionths : Nat) : IntervalContentionNehalem :=
  { k with cpContrByPort := Function.update k.cpContrByPort reason ((k.cpContrByPort reason + millionths) % 2 ^ 64) }

def getEffectiveCriticalPathLength (length : Nat) (updateReason : Bool) : Nat × IntervalContentionNehalem :=
  let e := k.effective length
  match e.2 with
  | some reason =>
    if updateReason ∧ length < e.1 then
      (e.1,k.extend reason (1000000 * (e.1 - length) % 2 ^ 64 / e.1))
    else (e.1,k)
  | none => (e.1,k)

def counted (counts : Port → Nat) : List Port := Port.all.flatMap fun p => List.replicate (counts p) p

def single (counts : Port → Nat) : Nat :=
  max (counts .port0) (max (counts .port1) (max (counts .port2) (max (counts .port34) (counts .port5))))

def cycles (counts : Port → Nat) (length : Nat) : Nat :=
  max (max length (single counts)) (max ((counts .port0 + counts .port5 + counts .port05 + 1) / 2)
    ((counts .port0 + counts .port1 + counts .port5 + counts .port05 + counts .port015 + 2) / 3))

def Covered (counts : Port → Nat) (length : Nat) : Prop :=
  counts .port0 + counts .port1 + counts .port5 + counts .port05 + counts .port015 ≤
    3 * max (max length (single counts)) (max ((counts .port0 + counts .port5 + counts .port05 + 1) / 2)
      ((counts .port0 + counts .port1 + counts .port5 + counts .port015 + 2) / 3))

section
variable {counts : Port → Nat} {length n : Nat}

theorem single_le_iff : single counts ≤ n ↔ ∀ p : Port, p.shared = false → counts p ≤ n := by
  simp only [single,Nat.max_le]
  constructor
  · rintro ⟨h0,h1,h2,h34,h5⟩ p hp
    cases p <;> first | assumption | exact Bool.noConfusion hp
  · intro h
    exact ⟨h _ rfl,h _ rfl,h _ rfl,h _ rfl,h _ rfl⟩

theorem cycles_le_iff : cycles counts length ≤ n ↔ length ≤ n ∧ Port.Fits counts n := by
  simp only [cycles,Nat.max_le,single_le_iff]
  constructor
  · rintro ⟨⟨hlength,hsingle⟩,h05,h015⟩
    exact ⟨hlength,hsingle,by omega,by omega⟩
  · rintro ⟨hlength,hfits⟩
    have h05 := hfits.port05
    have h015 := hfits.port015
    exact ⟨⟨hlength,hfits.single⟩,by omega,by omega⟩

theorem isLeast_cycles (counts : Port → Nat) (length : Nat) :
    IsLeast { n | length ≤ n ∧ Slots.Schedulable Port.allowed (counted counts) n } (cycles counts length) := by
  have hcounts : (fun p => (counted counts).count p) = counts := funext fun p => by
    cases p <;> simp [counted,Port.all,List.count_replicate]
  simp only [Port.schedulable_iff_fits,hcounts,← cycles_le_iff]
  exact ⟨Nat.le_refl _,fun _ h => h⟩
end

section
variable {k} {length : Nat}

theorem widen_length (e : Nat × Option Port) (p : Port) :
    (k.widen e p).1 = if p.shared then e.1 else max e.1 (k.countByPort p) := by
  rw [widen]
  cases p.shared with
  | true => simp
  | false =>
    simp only [true_and,Bool.false_eq_true,if_false]
    split_ifs with h
    · exact (max_eq_right (le_of_lt h)).symm
    · exact (max_eq_left (not_lt.mp h)).symm

theorem widen_ports (length : Nat) : (Port.all.foldl k.widen (length,none)).1 = max length (single k.countByPort) := by
  simp only [Port.all,List.foldl_cons,List.foldl_nil,widen_length,Port.shared,Bool.false_eq_true,
    if_false,if_true,single,max_assoc]

theorem widen05_length (he : 2 * e.1 < 2 ^ 64) (hk : k.port05Use + 1 < 2 ^ 64) :
    (k.widen05 e).1 = max e.1 ((k.port05Use + 1) / 2) := by
  rw [widen05,Nat.mod_eq_of_lt he,Nat.mod_eq_of_lt hk]
  split_ifs with h
  · exact (max_eq_right (by omega)).symm
  · exact (max_eq_left (by omega)).symm

theorem widen015_length (he : 3 * e.1 < 2 ^ 64) (hk : k.port015Use + 2 < 2 ^ 64) :
    (k.widen015 e).1 = max e.1 ((k.port015Use + 2) / 3) := by
  rw [widen015,Nat.mod_eq_of_lt he,Nat.mod_eq_of_lt hk]
  split_ifs with h
  · exact (max_eq_right (by omega)).symm
  · exact (max_eq_left (by omega)).symm

def Small (counts : Port → Nat) (length : Nat) : Prop := length < 2 ^ 60 ∧ ∀ p, counts p < 2 ^ 60

theorem effective_length (h : Small k.countByPort length) : (k.effective length).1 =
    max (max length (single k.countByPort))
      (max ((k.countByPort .port0 + k.countByPort .port5 + k.countByPort .port05 + 1) / 2)
        ((k.countByPort .port0 + k.countByPort .port1 + k.countByPort .port5 + k.countByPort .port015 + 2) / 3)) := by
  obtain ⟨hlength,hcount⟩ := h
  have h0 := hcount .port0
  have h1 := hcount .port1
  have h5 := hcount .port5
  have h05 := hcount .port05
  have h015 := hcount .port015
  have hsingle : single k.countByPort ≤ 2 ^ 60 := single_le_iff.mpr fun p _ => (hcount p).le
  have huse05 := Nat.mod_eq_of_lt
    (show k.countByPort .port0 + k.countByPort .port5 + k.countByPort .port05 < 2 ^ 64 by omega)
  have huse015 := Nat.mod_eq_of_lt
    (show k.countByPort .port0 + k.countByPort .port1 + k.countByPort .port5 + k.countByPort .port015 < 2 ^ 64 by omega)
  rw [← port05Use] at huse05
  rw [← port015Use] at huse015
  have hwide := widen05_length (e := Port.all.foldl k.widen (length,none)) (by rw [widen_ports]; omega)
    (show k.port05Use + 1 < 2 ^ 64 by omega)
  rw [widen_ports] at hwide
  rw [effective,widen015_length (by omega) (by omega),hwide,huse05,huse015,max_assoc]

theorem getEffectiveCriticalPathLength_fst (length : Nat) (updateReason : Bool) :
    (k.getEffectiveCriticalPathLength length updateReason).1 = (k.effective length).1 := by
  rw [getEffectiveCriticalPathLength]
  split
  · split_ifs <;> rfl
  · rfl

theorem effective_length_least_iff (h : Small k.countByPort length) (updateReason : Bool) :
    (IsLeast { n | length ≤ n ∧ Slots.Schedulable Port.allowed (counted k.countByPort) n }
        (k.getEffectiveCriticalPathLength length updateReason).1 ∧
      (k.getEffectiveCriticalPathLength length updateReason).1 = cycles k.countByPort length) ↔
      Covered k.countByPort length := by
  have hleast := isLeast_cycles k.countByPort length
  have heq : (k.effective length).1 = cycles k.countByPort length ↔ Covered k.countByPort length := by
    rw [effective_length h,cycles,Covered]
    omega
  rw [getEffectiveCriticalPathLength_fst,← heq]
  constructor
  · exact fun h => h.2
  · intro h
    rw [h]
    exact ⟨hleast,rfl⟩

def overbooked : IntervalContentionNehalem :=
  { countByPort := fun p => if p.shared then 2 else 0, cpContrByPort := fun _ => 0 }

def balanced : IntervalContentionNehalem :=
  { countByPort := fun p => if p.shared then 0 else 4, cpContrByPort := fun _ => 0 }

theorem balanced_length_least : (balanced.getEffectiveCriticalPathLength 3 true).1 = 4 ∧
      IsLeast { n | 3 ≤ n ∧ Slots.Schedulable Port.allowed (counted balanced.countByPort) n }
        (balanced.getEffectiveCriticalPathLength 3 true).1 := by
  have hcovered : Covered balanced.countByPort 3 := by
    rw [Covered]
    decide
  exact ⟨by decide,((effective_length_least_iff ⟨by decide,by decide⟩ true).mpr hcovered).1⟩

theorem four_uops_in_one_cycle : (overbooked.getEffectiveCriticalPathLength 0 false).1 = 1 ∧
      cycles overbooked.countByPort 0 = 2 ∧ ¬Slots.Schedulable Port.allowed (counted overbooked.countByPort) 1 := by
  refine ⟨by decide,by decide,fun h => ?_⟩
  have hfits := (Port.schedulable_iff_fits.mp h).port015
  exact absurd hfits (by decide)
end
end IntervalContentionNehalem
