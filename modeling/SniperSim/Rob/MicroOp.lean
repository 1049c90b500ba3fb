import Mathlib.Logic.Function.Basic

namespace RobTimer

inductive UopType
  | load | store | execute
deriving DecidableEq, Repr

inductive Port
  | port0 | port1 | port2 | port34 | port5 | port05 | port015
deriving DecidableEq, Repr

structure DynamicMicroOp where
  uopType : UopType
  (serializing memBarrier branch branchMispredicted last squashed : Bool)
  (intraInstructionDependencies microOpTypeOffset : Nat)
  (sourceRegisters destinationRegisters : List Nat)
  addressRegisters : List (Option Nat)
  (phys address execLatency : Nat)
  iCacheMiss : Option Nat
  dCacheKnown : Bool
  port : Port
  aluLatency : Option Nat
deriving DecidableEq, Repr

namespace DynamicMicroOp

def isLoad (uop : DynamicMicroOp) : Bool := uop.uopType == .load

def isStore (uop : DynamicMicroOp) : Bool := uop.uopType == .store

def isMemory (uop : DynamicMicroOp) : Bool := uop.isLoad || uop.isStore

def mispredicts (uop : DynamicMicroOp) : Bool := uop.branch && uop.branchMispredicted

def intraProducers (uop : DynamicMicroOp) (n : Nat) : List Nat :=
  (List.range uop.intraInstructionDependencies).map fun i =>
    n - uop.microOpTypeOffset - uop.intraInstructionDependencies + i

end DynamicMicroOp

def simpleUop (uopType : UopType) (execLatency : Nat) : DynamicMicroOp :=
  { uopType
    serializing := false
    memBarrier := false
    branch := false
    branchMispredicted := false
    last := true
    squashed := false
    intraInstructionDependencies := 0
    microOpTypeOffset := 0
    sourceRegisters := []
    destinationRegisters := []
    addressRegisters := []
    phys := 0
    address := 0
    execLatency
    iCacheMiss := none
    dCacheKnown := true
    port := .port0
    aluLatency := none }

def addDependency (deps : List Nat) (producer : Nat) : List Nat :=
  if deps.contains producer then deps else deps ++ [producer]

theorem mem_addDependency : q ∈ addDependency deps p ↔ q ∈ deps ∨ q = p := by
  unfold addDependency
  split
  · next h =>
    have hmem : p ∈ deps := List.contains_iff_mem.mp h
    constructor
    · exact .inl
    · rintro (hq | rfl)
      · exact hq
      · exact hmem
  · simp

theorem mem_foldl_addDependency {deps ps : List Nat} {q : Nat} :
    q ∈ ps.foldl addDependency deps ↔ q ∈ deps ∨ q ∈ ps := by
  induction ps generalizing deps with
  | nil => simp
  | cons p ps ih => rw [List.foldl_cons,ih,mem_addDependency,List.mem_cons,or_assoc]

namespace RegisterDependencies
variable (producers : Nat → Option Nat) (lowestValid : Nat)

def peekProducer : Option Nat → Option Nat
  | none => none
  | some reg => (producers reg).filter fun p => decide (lowestValid ≤ p)

def sources (regs : List Nat) : List Nat := regs.filterMap fun reg => peekProducer producers lowestValid (some reg)

def forget (regs : List Nat) : Nat → Option Nat := fun reg =>
  if regs.contains reg then peekProducer producers lowestValid (some reg) else producers reg

end RegisterDependencies

def produce (producers : Nat → Option Nat) (regs : List Nat) (n : Nat) : Nat → Option Nat := fun reg =>
  if regs.contains reg then some n else producers reg

structure MemoryDependencies where
  producers : List (Nat × Nat)
  membar : Option Nat
deriving DecidableEq, Repr

namespace MemoryDependencies
variable (mem : MemoryDependencies)

def clean (lowestValid : Nat) : MemoryDependencies :=
  { mem with producers := mem.producers.dropWhile fun p => decide (p.1 < lowestValid) }

def find (phys : Nat) : Option Nat := (mem.producers.reverse.find? fun p => p.2 == phys).map Prod.fst

def barrier (lowestValid : Nat) : Option Nat := mem.membar.filter fun m => decide (lowestValid < m)

def matching (uop : DynamicMicroOp) (lowestValid : Nat) : Option Nat :=
  if uop.isLoad then (mem.clean lowestValid).find uop.phys else none

def dependencies (uop : DynamicMicroOp) (lowestValid : Nat) : List Nat :=
  if uop.isLoad then
    (mem.matching uop lowestValid).toList ++ (mem.barrier lowestValid).toList
  else if uop.isStore || uop.memBarrier then (mem.barrier lowestValid).toList
  else []

def update (uop : DynamicMicroOp) (n lowestValid : Nat) : MemoryDependencies :=
  let mem := mem.clean lowestValid
  if uop.isLoad then mem
  else if uop.isStore then { mem with producers := mem.producers ++ [(n,uop.phys)] }
  else if uop.memBarrier then { mem with membar := some n }
  else mem

end MemoryDependencies

structure ContentionModel where
  slots : List (Nat × Nat)
  last : Nat
deriving DecidableEq, Repr

namespace ContentionModel

def hasFreeSlot (q : ContentionModel) (now : Nat) : Bool := q.slots.any fun slot => decide (slot.1 ≤ now)

def unit (now : Nat) : List (Nat × Nat) → Nat → Nat × Nat → Nat
  | [], _, best => best.1
  | slot :: slots, i, best =>
    if slot.1 ≤ now then i
    else unit now slots (i + 1) (if slot.1 < best.2 then (i,slot.1) else best)

def getCompletionTime (q : ContentionModel) (now delay tag : Nat) : ContentionModel :=
  match q.slots with
  | [] => q
  | slot :: _ =>
    if now = 0 ∨ now < q.last then q
    else
      let i := unit now q.slots 0 (0,slot.1)
      { slots := q.slots.modify i fun slot => (max now slot.1 + delay,tag)
        last := now }

def ofSize (n : Nat) : ContentionModel := { slots := List.replicate n (0,0), last := 0 }

end ContentionModel
end RobTimer
