import SniperSim.Interval.IntervalContentionNehalem

open Function
open RobTimer (DynamicMicroOp)

structure IntervalUop extends DynamicMicroOp where
  (interrupt forceLongLatencyLoad : Bool)
  period : Nat
  dependencies : List Nat

inductive Dependent
  | noDep | dataDep | indepMiss
deriving DecidableEq, Repr

structure WindowEntry where
  uop : IntervalUop
  (sequenceNumber execTime : Nat)
  (icacheOverlap bpredOverlap dcacheOverlap : Bool)
  dependent : Dependent

def WindowEntry.init (uop : IntervalUop) (sequenceNumber : Nat) : WindowEntry :=
  { uop := uop
    sequenceNumber := sequenceNumber
    execTime := 0
    icacheOverlap := false
    bpredOverlap := false
    dcacheOverlap := false
    dependent := .noDep }

structure Windows where
  (windowSize longLatencyCutoff : Nat)
  doubleWindow : Nat → Option WindowEntry
  execTimeMap : Nat → Nat
  contention : IntervalContentionNehalem
  nextSequenceNumber : Nat
  (windowHead windowTail oldWindowHead windowLength oldWindowLength criticalPathHead criticalPathTail : Nat)

namespace Windows

def create (windowSize longLatencyCutoff : Nat) : Windows :=
  { windowSize := windowSize
    longLatencyCutoff := longLatencyCutoff
    doubleWindow := fun _ => none
    execTimeMap := fun _ => 0
    contention := { countByPort := fun _ => 0, cpContrByPort := fun _ => 0 }
    nextSequenceNumber := 0
    windowHead := 0
    windowTail := 0
    oldWindowHead := 0
    windowLength := 0
    oldWindowLength := 0
    criticalPathHead := 0
    criticalPathTail := 0 }

variable (w : Windows)

def doubleWindowSize : Nat := 2 * w.windowSize

def incrementIndex (index : Nat) : Nat := (index + 1) % w.doubleWindowSize

def decrementIndex (index : Nat) : Nat := (index + w.doubleWindowSize - 1) % w.doubleWindowSize

def windowIndex (index : Int) : Nat := (index % w.doubleWindowSize).toNat

def add (uop : IntervalUop) : Windows :=
  { w with
    doubleWindow := update w.doubleWindow w.windowTail (some (.init uop w.nextSequenceNumber))
    windowTail := w.incrementIndex w.windowTail
    windowLength := w.windowLength + 1
    nextSequenceNumber := w.nextSequenceNumber + 1 }

def modify (index : Nat) (f : WindowEntry → WindowEntry) : Windows :=
  { w with doubleWindow := update w.doubleWindow index ((w.doubleWindow index).map f) }

def getInstruction (sequenceNumber : Nat) : Option (Nat × WindowEntry) :=
  (w.doubleWindow w.windowHead).bind fun head =>
    let index := w.windowIndex (w.windowHead - (head.sequenceNumber - sequenceNumber))
    (w.doubleWindow index).bind fun e =>
      if e.sequenceNumber = sequenceNumber then some (index,e) else none

def getInstructionToDispatch : Option WindowEntry := w.doubleWindow w.windowHead

def dropOldest : Windows :=
  let oldest := w.doubleWindow w.oldWindowHead
  { w with
    contention := oldest.elim w.contention fun e => w.contention.removeFunctionalUnitStats e.uop.toDynamicMicroOp
    criticalPathHead := oldest.elim w.criticalPathHead fun e => max w.criticalPathHead e.execTime
    oldWindowHead := w.incrementIndex w.oldWindowHead
    oldWindowLength := w.oldWindowLength - 1 }

def moveToOld : Windows :=
  { w with
    contention := w.getInstructionToDispatch.elim w.contention fun e =>
      w.contention.addFunctionalUnitStats e.uop.toDynamicMicroOp
    windowHead := w.incrementIndex w.windowHead
    windowLength := w.windowLength - 1
    oldWindowLength := w.oldWindowLength + 1 }

def dispatchInstruction : Windows := (if w.oldWindowLength = w.windowSize then w.dropOldest else w).moveToOld

def clearOldWindow (newCpHead : Nat) : Windows :=
  { w with
    criticalPathHead := newCpHead
    criticalPathTail := newCpHead
    oldWindowLength := 0
    oldWindowHead := w.windowHead
    contention := w.contention.clearFunctionalUnitStats }

def contains (lowest highest : Option WindowEntry) (sequenceNumber : Nat) : Bool :=
  match lowest, highest with
  | some lowest, some highest =>
    decide (lowest.sequenceNumber ≤ sequenceNumber ∧ sequenceNumber ≤ highest.sequenceNumber)
  | _, _ => false

def windowContains (sequenceNumber : Nat) : Bool :=
  contains (w.doubleWindow w.windowHead) (w.doubleWindow (w.decrementIndex w.windowTail)) sequenceNumber

def oldWindowContains (sequenceNumber : Nat) : Bool :=
  contains (w.doubleWindow w.oldWindowHead) (w.doubleWindow (w.decrementIndex w.windowHead)) sequenceNumber

def getCriticalPathLength : Nat := w.criticalPathTail - w.criticalPathHead

def longLatencyOperationLatency (e : WindowEntry) : Nat :=
  if e.execTime < w.criticalPathTail then 0
  else if e.execTime - w.criticalPathTail < w.longLatencyCutoff then 0
  else true.toNat

def updateCriticalPathTail (e : WindowEntry) : Windows :=
  { w with criticalPathTail := max w.criticalPathTail e.execTime }

def getMinimalFlushLatency (width : Nat) : Nat := (w.oldWindowLength + (width - 1)) / width

def visitProducers (value : (Nat → Nat) → Nat × WindowEntry → Nat) (dependencies : List Nat)
    (times : Nat → Nat) : Option (Nat → Nat) :=
  dependencies.foldlM (fun times d =>
    if w.oldWindowContains d then
      (w.getInstruction d).map fun p => update times p.1 (value times p)
    else some times) times

def mark (_ : Nat → Nat) (p : Nat × WindowEntry) : Nat := p.2.uop.execLatency

def extend (i : Nat) (times : Nat → Nat) (p : Nat × WindowEntry) : Nat :=
  max ((p.2.uop.execLatency + times i) % 2 ^ 32) (times p.1)

def resolutionLoop : Nat → Nat → (Nat → Nat) → Nat → Option (Nat × (Nat → Nat))
  | 0, _, times, best => some (best,times)
  | left + 1, i, times, best =>
    if times i = 0 then resolutionLoop left (w.windowIndex (i - 1)) times best
    else
      (w.doubleWindow i).bind fun op =>
        (w.visitProducers (extend i) op.uop.dependencies times).bind fun times =>
          resolutionLoop left (w.windowIndex (i - 1)) (update times i 0) (max best (times i))

def calculateBranchResolutionLatency : Option (Int × Windows) :=
  w.getInstructionToDispatch.bind fun b =>
    (w.visitProducers mark b.uop.dependencies w.execTimeMap).bind fun times =>
      (w.resolutionLoop w.oldWindowLength (w.windowIndex (w.windowHead - 1)) times 0).map fun r =>
        (Int.bmod r.1 (2 ^ 32),{ w with execTimeMap := r.2 })

def plain (execLatency : Nat) (dependencies : List Nat) : IntervalUop :=
  { RobTimer.simpleUop .execute execLatency with
    interrupt := false, forceLongLatencyLoad := false, period := 1, dependencies }

end Windows
