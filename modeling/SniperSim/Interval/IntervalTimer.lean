import SniperSim.Interval.Windows

open Function Option

inductive StopDispatchReason
  | noReason | icacheMiss | branchMispredict
deriving DecidableEq, Repr

structure CpiStack where
  (instructionCache branchPredictor serialization longLatency dataCache : Nat)

structure IntervalTimer (M : Type) where
  windows : Windows
  (maxStoreCompletionTime maxLoadCompletionTime : Nat)
  cpi : CpiStack
  latency : Nat
  continueDispatching : StopDispatchReason
  memory : M

namespace IntervalTimer

structure Config (M : Type) where
  (dispatchWidth branchMispredictionPenalty lllDepMask : Nat)
  getBypassLatency : IntervalUop → Nat
  accessMemory : M → IntervalUop → Nat × M
  (getCompletionTime getBarrierCompletionTime : M → Nat → Nat → Nat × M)

variable {M : Type} (cfg : Config M) (t : IntervalTimer M) (e : WindowEntry)

def put (index : Nat) : IntervalTimer M :=
  { t with windows.doubleWindow := update t.windows.doubleWindow index (some e) }

def isLongLatencyLoad (cutoff : Nat) (uop : IntervalUop) : Bool :=
  uop.forceLongLatencyLoad || decide (0 < cutoff ∧ cutoff < uop.execLatency)

def issueMemOp (index : Nat) : WindowEntry × IntervalTimer M :=
  if e.uop.isMemory && !e.uop.dCacheKnown then
    let r := cfg.accessMemory t.memory e.uop
    let e := { e with
      uop.execLatency := (e.uop.execLatency + r.1) % 2 ^ 32
      uop.dCacheKnown := true }
    (e,{ t with memory := r.2 }.put e index)
  else (e,t)

def getMaxProducerExecTime (w : Windows) : Option Nat :=
  e.uop.dependencies.foldlM (fun latest d =>
    if w.oldWindowContains d then (w.getInstruction d).map fun p => max latest p.2.execTime
    else some latest) 0

def fetchMiss (cptail : Nat) : IntervalTimer M :=
  match e.uop.iCacheMiss with
  | none => t
  | some latency =>
    if e.icacheOverlap then t
    else
      { t with
        latency := t.latency + latency
        windows := t.windows.clearOldWindow (cptail + latency)
        continueDispatching := .icacheMiss
        cpi.instructionCache := t.cpi.instructionCache + latency * e.uop.period }

def mispredict (cptail : Nat) : Option (IntervalTimer M) :=
  if e.uop.mispredicts && !e.bpredOverlap then
    t.windows.calculateBranchResolutionLatency.map fun r =>
      let latency := ((cfg.branchMispredictionPenalty + r.1) % 2 ^ 32).toNat
      { t with
        latency := t.latency + latency
        windows := r.2.clearOldWindow (cptail + latency)
        continueDispatching := .branchMispredict
        cpi.branchPredictor := t.cpi.branchPredictor + latency * e.uop.period }
  else some t

def frontEnd : Option (IntervalTimer M × WindowEntry × Nat) :=
  t.windows.getInstructionToDispatch.bind fun e =>
    let r := issueMemOp cfg { t with latency := 0 } e t.windows.windowHead
    (getMaxProducerExecTime r.1 r.2.windows).bind fun maxProducer =>
      let cptail := t.windows.criticalPathTail
      (mispredict cfg (r.2.fetchMiss r.1 cptail) r.1 cptail).map fun t => (t,r.1,maxProducer)

def serialize : IntervalTimer M :=
  let w := t.windows
  let latency := max w.getCriticalPathLength (w.getMinimalFlushLatency cfg.dispatchWidth) + e.uop.execLatency
  let t := t.put { e with execTime := w.criticalPathTail } w.windowHead
  { t with
    latency := t.latency + latency
    windows := t.windows.clearOldWindow w.criticalPathTail
    cpi.serialization := t.cpi.serialization + latency * e.uop.period }

def updateCriticalPath : IntervalTimer M :=
  let t := t.put e t.windows.windowHead
  let lll := t.windows.longLatencyOperationLatency e
  if lll = 0 then { t with windows := t.windows.updateCriticalPathTail e }
  else
    { t with
      latency := t.latency + lll
      windows := t.windows.clearOldWindow e.execTime
      cpi.longLatency := t.cpi.longLatency + lll * e.uop.period }

def waits (w : Windows) : Option Bool :=
  e.uop.dependencies.anyM fun d =>
    if w.windowContains d then
      (w.getInstruction d).map fun p => decide (p.2.dependent = .dataDep) ||
        (decide (p.2.dependent = .indepMiss) && isLongLatencyLoad w.longLatencyCutoff p.2.uop)
    else some false

def blockLoop (headAddress : Nat) : Nat → Nat → Bool → IntervalTimer M → Option (IntervalTimer M)
  | 0, _, _, t => some t
  | left + 1, index, memBarrierPending, t =>
    if index = t.windows.windowTail then some t
    else
      (t.windows.doubleWindow index).bind fun e =>
        let e := { e with dependent := .noDep, icacheOverlap := true }
        let t := t.put e index
        if e.uop.serializing then some t
        else
          (waits e t.windows).bind fun waits =>
            let memBarrierPending := memBarrierPending || e.uop.memBarrier
            let next := blockLoop headAddress left (t.windows.incrementIndex index) memBarrierPending
            if waits || (e.uop.isLoad && e.uop.phys &&& cfg.lllDepMask == headAddress) then
              next (t.put { e with dependent := .dataDep } index)
            else if e.uop.branch then next (t.put { e with bpredOverlap := true } index)
            else if e.uop.isLoad && !memBarrierPending && !e.dcacheOverlap then
              let r := issueMemOp cfg t e index
              next (r.2.put { r.1 with
                dcacheOverlap := true
                dependent := .indepMiss
                execTime := t.windows.criticalPathHead } index)
            else next t

def blockWindow : Option (IntervalTimer M) :=
  t.windows.getInstructionToDispatch.bind fun head =>
    let headAddress := if head.uop.isLoad then head.uop.phys &&& cfg.lllDepMask else 0
    blockLoop cfg headAddress t.windows.doubleWindowSize (t.windows.incrementIndex t.windows.windowHead) false
      (t.put { head with dependent := .indepMiss } t.windows.windowHead)

def scheduled (maxProducer : Nat) : Nat := max maxProducer t.windows.criticalPathHead

def load (maxProducer : Nat) : Option (IntervalTimer M) :=
  let loaded (t : IntervalTimer M) (execTime : Nat) : IntervalTimer M :=
    { t with maxLoadCompletionTime := max t.maxLoadCompletionTime execTime }
  let start := t.scheduled maxProducer
  let complete := if e.uop.memBarrier then cfg.getBarrierCompletionTime else cfg.getCompletionTime
  if e.dcacheOverlap then some (loaded t e.execTime)
  else
    let r := complete t.memory start e.uop.execLatency
    if isLongLatencyLoad t.windows.longLatencyCutoff e.uop then
      let latency := r.1 - start
      let tail := t.windows.criticalPathTail
      let t := { t with memory := r.2 }.put { e with execTime := tail } t.windows.windowHead
      (blockWindow cfg { t with windows := t.windows.clearOldWindow (tail + latency) }).map fun t =>
        loaded { t with
          latency := t.latency + latency
          cpi.dataCache := t.cpi.dataCache + latency * e.uop.period } tail
    else some (loaded ({ t with memory := r.2 }.updateCriticalPath { e with execTime := r.1 }) r.1)

def execTime (maxProducer : Nat) : Nat :=
  if e.uop.isStore then t.scheduled maxProducer + cfg.getBypassLatency e.uop + 1
  else if e.uop.memBarrier then
    max maxProducer (max t.maxStoreCompletionTime t.maxLoadCompletionTime) + e.uop.execLatency
  else t.scheduled maxProducer + e.uop.execLatency

def executed (maxProducer : Nat) : IntervalTimer M :=
  t.updateCriticalPath { e with execTime := execTime cfg t e maxProducer }

def dispatchInstruction : Option (IntervalTimer M) :=
  (frontEnd cfg t).bind fun r =>
    let t := r.1
    let e := r.2.1
    let maxProducer := r.2.2
    if e.uop.serializing || e.uop.interrupt then some (serialize cfg t e)
    else
      match e.uop.uopType with
      | .load => load cfg t e maxProducer
      | .store => some { executed cfg t e maxProducer with
          maxStoreCompletionTime := max t.maxStoreCompletionTime (t.scheduled maxProducer + e.uop.execLatency) }
      | .execute => some (executed cfg t e maxProducer)

variable {cfg t e} {t' : IntervalTimer M} {d maxProducer : Nat}

theorem updateCriticalPath_long (hexec : e.execTime = t.windows.criticalPathTail + d)
    (hcutoff : t.windows.longLatencyCutoff ≤ d) : t.updateCriticalPath e = { t.put e t.windows.windowHead with
      latency := t.latency + 1
      windows := (t.put e t.windows.windowHead).windows.clearOldWindow e.execTime
      cpi.longLatency := t.cpi.longLatency + e.uop.period } := by
  have hlll : (t.put e t.windows.windowHead).windows.longLatencyOperationLatency e = 1 := by
    rw [Windows.longLatencyOperationLatency,put]
    dsimp only
    rw [if_neg (by omega),if_neg (by omega)]
    rfl
  rw [updateCriticalPath]
  dsimp only
  rw [hlll,if_neg Nat.one_ne_zero,Nat.one_mul]
  rfl

theorem issueMemOp_cpi (index : Nat) : (issueMemOp cfg t e index).2.cpi = t.cpi := by
  rw [issueMemOp]
  split <;> rfl

theorem fetchMiss_longLatency (cptail : Nat) : (t.fetchMiss e cptail).cpi.longLatency = t.cpi.longLatency := by
  rw [fetchMiss]
  split
  · rfl
  · split <;> rfl

theorem mispredict_longLatency (h : mispredict cfg t e cptail = some t') : t'.cpi.longLatency = t.cpi.longLatency := by
  rw [mispredict] at h
  split at h
  · obtain ⟨r,-,rfl⟩ := map_eq_some_iff.mp h
    rfl
  · rw [some.inj h]

theorem frontEnd_longLatency (h : frontEnd cfg t = some (t',e,maxProducer)) :
    t'.cpi.longLatency = t.cpi.longLatency := by
  obtain ⟨head,-,h⟩ := bind_eq_some_iff.mp h
  obtain ⟨latest,-,h⟩ := bind_eq_some_iff.mp h
  obtain ⟨t'',hmiss,heq⟩ := map_eq_some_iff.mp h
  obtain ⟨rfl,-⟩ := Prod.mk.inj heq
  rw [mispredict_longLatency hmiss,fetchMiss_longLatency,issueMemOp_cpi]

theorem long_latency_charged_iff (hfront : frontEnd cfg t = some (t',e,maxProducer))
    (hload : e.uop.isLoad = false) (hflow : (e.uop.serializing || e.uop.interrupt) = false)
    (hexec : execTime cfg t' e maxProducer = t'.windows.criticalPathTail + d)
    (hcutoff : t'.windows.longLatencyCutoff ≤ d) : ∃ after, dispatchInstruction cfg t = some after ∧
      after.windows.criticalPathTail = t'.windows.criticalPathTail + d ∧
      (after.latency = t'.latency + d ∧ after.cpi.longLatency = t.cpi.longLatency + d * e.uop.period ↔ d = 1) := by
  have hcharged : ∃ after, dispatchInstruction cfg t = some after ∧
      after.windows.criticalPathTail = t'.windows.criticalPathTail + d ∧
      after.latency = t'.latency + 1 ∧ after.cpi.longLatency = t.cpi.longLatency + e.uop.period := by
    rw [dispatchInstruction,hfront,← frontEnd_longLatency hfront,← hexec]
    dsimp only [bind_some]
    rw [if_neg (by rw [hflow]; decide),executed,updateCriticalPath_long hexec hcutoff]
    cases htype : e.uop.uopType with
    | load => exact absurd (beq_iff_eq.mpr htype) (Bool.eq_false_iff.mp hload)
    | store | execute => exact ⟨_,rfl,rfl,rfl,rfl⟩
  obtain ⟨after,hrun,htail,hlatency,hcpi⟩ := hcharged
  refine ⟨after,hrun,htail,fun h => ?_,?_⟩
  · omega
  · rintro rfl
    exact ⟨hlatency,by rw [hcpi,Nat.one_mul]⟩

def single (cutoff execLatency : Nat) : IntervalTimer Unit :=
  { windows := (Windows.create 2 cutoff).add (Windows.plain execLatency [])
    maxStoreCompletionTime := 0
    maxLoadCompletionTime := 0
    cpi := ⟨0,0,0,0,0⟩
    latency := 0
    continueDispatching := .noReason
    memory := () }

def wide : Config Unit :=
  { dispatchWidth := 4
    branchMispredictionPenalty := 8
    lllDepMask := 0
    getBypassLatency := fun _ => 0
    accessMemory := fun _ _ => (0,())
    getCompletionTime := fun _ start delay => (start + delay,())
    getBarrierCompletionTime := fun _ start delay => (start + delay,()) }

theorem single_cycle_charged : ∃ after, dispatchInstruction wide (single 1 1) = some after ∧
    after.latency = 1 ∧ after.cpi.longLatency = 1 := by
  have hfront : frontEnd wide (single 1 1) = some (single 1 1,.init (Windows.plain 1 []) 0,0) := rfl
  obtain ⟨after,hrun,-,hcharged⟩ := long_latency_charged_iff (d := 1) hfront rfl rfl rfl (Nat.le_refl 1)
  exact ⟨after,hrun,hcharged.mpr rfl⟩

theorem forty_cycles_charged_as_one :
    (single 30 40).windows.criticalPathTail = 0 ∧ ∃ after, dispatchInstruction wide (single 30 40) = some after ∧
      after.windows.criticalPathTail = 40 ∧ after.latency = 1 ∧ after.cpi.longLatency = 1 :=
  ⟨rfl,_,rfl,rfl,rfl,rfl⟩

end IntervalTimer
