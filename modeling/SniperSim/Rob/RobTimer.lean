import SniperSim.Library.Deadline
import SniperSim.Library.Run
import SniperSim.Rob.MicroOp

open List Option
namespace RobTimer
open Deadline

structure RobContention (K : Type) where
  initCycle : Nat → K → K
  tryIssue : DynamicMicroOp → K → Bool × K
  noMore : K → Bool
  doIssue : DynamicMicroOp → K → K
  initCycle_initCycle : ∀ t t' k, initCycle t (initCycle t' k) = initCycle t k
  noMore_initCycle : ∀ t k, noMore (initCycle t k) = false

structure Config (K : Type) where
  (dispatchWidth commitWidth windowSize rsEntries mispredictionPenalty : Nat)
  (storeToLoadForwarding noAddressDisambiguation inorder : Bool)
  robContention : Option (RobContention K)
  memoryLatency : Nat → Nat → Nat

-- Times are in cycles; none stands for MaxTime.
structure RobEntry where
  uop : DynamicMicroOp
  sequenceNumber : Nat
  (dependencies dependants addressProducers : List Nat)
  (dispatched ready : Option Nat)
  readyMax : Nat
  addressReady : Option Nat
  addressReadyMax : Nat
  (issued done : Option Nat)
  -- ghost
  inputs : List Nat
  fence : Option Nat
deriving DecidableEq, Repr

-- ghost
structure Issue where
  sequenceNumber : Nat
  uop : DynamicMicroOp
  (time available done completion : Nat)
  inputs : List Nat
  fence : Option Nat
deriving DecidableEq, Repr

structure UopTimes where
  uop : DynamicMicroOp
  (dispatched issued done : Option Nat)
  committed : Nat
deriving DecidableEq, Repr

structure State (K : Type) where
  rob : List RobEntry
  (numInRob rsEntriesUsed : Nat)
  contention : K
  now : Nat
  frontendStalledUntil : Option Nat
  inICacheMiss : Bool
  lastStoreDone : Nat
  (loadQueue storeQueue : ContentionModel)
  nextSequenceNumber : Nat
  registerDependencies : Nat → Option Nat
  memoryDependencies : MemoryDependencies
  trace : List UopTimes
  -- ghost
  writers : Nat → Option Nat
  log : List Issue
  stream : List DynamicMicroOp

def findEntry (rob : List RobEntry) (n : Nat) : Option RobEntry :=
  match rob with
  | [] => none
  | front :: _ => (rob[n - front.sequenceNumber]?).filter fun e => e.sequenceNumber == n

def updateEntry (rob : List RobEntry) (n : Nat) (f : RobEntry → RobEntry) : List RobEntry :=
  rob.map fun e => if e.sequenceNumber = n then f e else e

variable {K : Type} (cfg : Config K) (s : State K)

def lowestValid (rob : List RobEntry) (n : Nat) : Nat := (rob.head?).elim n RobEntry.sequenceNumber

def doneOf (rob : List RobEntry) (n : Nat) : Option Nat := (findEntry rob n).bind RobEntry.done

def unresolved (rob : List RobEntry) (deps : List Nat) : List Nat := deps.filter fun p => (doneOf rob p).isNone

def latestDone (rob : List RobEntry) (deps : List Nat) : Nat := (deps.filterMap (doneOf rob)).foldl max 0

def addressProducers (uop : DynamicMicroOp) (low : Nat) : List Nat :=
  if uop.isStore then
    uop.addressRegisters.filterMap (RegisterDependencies.peekProducer s.registerDependencies low)
  else []

def isStoreEntry (rob : List RobEntry) (p : Nat) : Bool := (findEntry rob p).any fun e => e.uop.isStore

def forward (rob : List RobEntry) (deps : List Nat) : List Nat :=
  match deps.find? (isStoreEntry rob) with
  | none => deps
  | some p =>
    match findEntry rob p with
    | none => deps
    | some store => store.dependencies.foldl addDependency (deps.erase p)

def producersOf (uop : DynamicMicroOp) : List Nat :=
  let n := s.nextSequenceNumber
  let low := lowestValid s.rob n
  let regs := RegisterDependencies.sources s.registerDependencies low uop.sourceRegisters
  (regs ++ s.memoryDependencies.dependencies uop low).foldl addDependency (uop.intraProducers n)

def dependenciesOf (uop : DynamicMicroOp) : List Nat :=
  if cfg.storeToLoadForwarding && uop.isLoad then forward s.rob (producersOf s uop)
  else producersOf s uop

def operandsOf (uop : DynamicMicroOp) : List Nat :=
  uop.sourceRegisters.filterMap s.writers ++ uop.intraProducers s.nextSequenceNumber

def storeBefore (rob : List RobEntry) (uop : DynamicMicroOp) : Option RobEntry :=
  if uop.isLoad then rob.reverse.find? fun e => e.uop.isStore && e.uop.phys == uop.phys else none

def inputsOf (uop : DynamicMicroOp) : List Nat := operandsOf s uop ++ (storeBefore s.rob uop).elim [] RobEntry.inputs

def newEntry (uop : DynamicMicroOp) : RobEntry :=
  let n := s.nextSequenceNumber
  let deps := dependenciesOf cfg s uop
  let waits := unresolved s.rob deps
  let readyMax := latestDone s.rob deps
  let addresses := addressProducers s uop (lowestValid s.rob n)
  let addressWaits := unresolved s.rob addresses
  let addressReadyMax := latestDone s.rob addresses
  { uop
    sequenceNumber := n
    dependencies := waits
    dependants := []
    addressProducers := addressWaits
    dispatched := none
    ready := if waits.isEmpty then some readyMax else none
    readyMax
    addressReady := if uop.isStore && addressWaits.isEmpty then some addressReadyMax else none
    addressReadyMax
    issued := none
    done := none
    inputs := inputsOf s uop
    fence := if uop.isMemory || uop.memBarrier then s.memoryDependencies.membar else none }

def addDependant (waits : List Nat) (n : Nat) (e : RobEntry) : RobEntry :=
  if waits.contains e.sequenceNumber then { e with dependants := e.dependants ++ [n] } else e

def entered (uop : DynamicMicroOp) : State K :=
  let n := s.nextSequenceNumber
  let low := lowestValid s.rob n
  let entry := newEntry cfg s uop
  let forgotten := RegisterDependencies.forget s.registerDependencies low uop.sourceRegisters
  { s with
    rob := s.rob.map (addDependant entry.dependencies n) ++ [entry]
    nextSequenceNumber := n + 1
    registerDependencies := produce forgotten uop.destinationRegisters n
    memoryDependencies := s.memoryDependencies.update uop n low
    writers := produce s.writers uop.destinationRegisters n
    stream := s.stream ++ [uop] }

def enter (uop : DynamicMicroOp) : Option (State K) :=
  if uop.squashed then some s
  else if (uop.intraProducers s.nextSequenceNumber).all fun p => (findEntry s.rob p).isSome then
    some (entered cfg s uop)
  else none

def stallFetch (e : RobEntry) : State K :=
  { s with
    frontendStalledUntil := e.uop.iCacheMiss.map fun latency => s.now + latency
    inICacheMiss := true }

def fetched (e : RobEntry) : State K :=
  { s with inICacheMiss := s.inICacheMiss && e.uop.iCacheMiss.isNone }

def dispatchReady (e : RobEntry) : Option Nat := e.ready.map fun t => max t (s.now + 1)

def dispatchEntry (e : RobEntry) : State K :=
  { s with
    rob := s.rob.set s.numInRob { e with dispatched := some s.now, ready := dispatchReady s e }
    numInRob := s.numInRob + 1
    rsEntriesUsed := s.rsEntriesUsed + 1
    frontendStalledUntil := if e.uop.mispredicts then none else s.frontendStalledUntil }

def dispatchLoop (cfg : Config K) : Nat → State K → Option Nat → State K × Option Nat
  | 0, s, event => (s,event)
  | width + 1, s, event =>
    if s.numInRob < cfg.windowSize then
      match s.rob[s.numInRob]? with
      | none => (s,event)
      | some e =>
        if e.uop.iCacheMiss.isSome && !s.inICacheMiss then (stallFetch s e,event)
        else if s.rsEntriesUsed = cfg.rsEntries then (fetched s e,event)
        else if e.uop.mispredicts then
          (dispatchEntry (fetched s e) e,soonest event (dispatchReady s e))
        else
          dispatchLoop cfg width (dispatchEntry (fetched s e) e) (soonest event (dispatchReady s e))
    else (s,event)

theorem dispatchLoop_keeps {cfg : Config K} {P : State K → Prop}
    (hstall : ∀ s e, P s → P (stallFetch s e)) (hfetch : ∀ s e, P s → P (fetched s e))
    (hdispatch : ∀ s e, P s → s.rob[s.numInRob]? = some e → s.numInRob < cfg.windowSize →
      s.rsEntriesUsed ≠ cfg.rsEntries → P (dispatchEntry s e)) {s : State K} (hs : P s) (width : Nat) (event : Option Nat) :
    P (dispatchLoop cfg width s event).1 := by
  induction width generalizing s event with
  | zero => exact hs
  | succ width ih =>
    rw [dispatchLoop]
    split
    · next hroom =>
      split
      · exact hs
      · next e he =>
        split
        · exact hstall s e hs
        · split
          · exact hfetch s e hs
          · next hfree =>
            have hnext : P (dispatchEntry (fetched s e) e) := hdispatch _ e (hfetch s e hs) he hroom hfree
            split <;> simp [*]
    · exact hs

def doDispatch : State K × Option Nat :=
  let r := if reached s.now s.frontendStalledUntil then dispatchLoop cfg cfg.dispatchWidth s none else (s,none)
  (r.1,if r.1.numInRob = cfg.windowSize then r.2 else soonest r.1.frontendStalledUntil r.2)

def resolve (n t : Nat) (e : RobEntry) : RobEntry :=
  let waits := e.dependencies.erase n
  let readyMax := max e.readyMax t
  { e with
    dependencies := waits
    readyMax
    ready := if waits.isEmpty then some readyMax else e.ready }

def resolveAddress (rob : List RobEntry) (n t : Nat) (e : RobEntry) : RobEntry :=
  if e.uop.isStore && e.addressReady.isNone then
    let addressReadyMax :=
      if e.addressProducers.contains n then max e.addressReadyMax t else e.addressReadyMax
    let waits := e.addressProducers.filter fun p => (findEntry rob p).any fun producer => producer.done.isNone
    { e with
      addressReadyMax
      addressReady := if waits.isEmpty then some addressReadyMax else none }
  else e

def resolveDependant (n t : Nat) (rob : List RobEntry) (dependant : Nat) : List RobEntry :=
  updateEntry rob dependant fun e => resolveAddress rob n t (resolve n t e)

def execLatencyOf (e : RobEntry) : Nat :=
  if e.uop.isMemory && !e.uop.dCacheKnown then
    e.uop.execLatency + cfg.memoryLatency e.sequenceNumber s.now
  else e.uop.execLatency

def cycleDepend (e : RobEntry) : Nat :=
  if e.uop.isStore then s.now + 1 else s.now + execLatencyOf cfg s e

def cycleDone (e : RobEntry) : Nat :=
  if e.uop.isStore then s.now + 1 else s.now + execLatencyOf cfg s e + 1

def issuedEntry (e : RobEntry) : RobEntry :=
  { e with issued := some s.now, done := some (cycleDone cfg s e) }

def issueOf (e : RobEntry) : Issue :=
  { sequenceNumber := e.sequenceNumber
    uop := e.uop
    time := s.now
    available := cycleDepend cfg s e
    done := cycleDone cfg s e
    completion := s.now + execLatencyOf cfg s e + 1
    inputs := e.inputs
    fence := e.fence }

def issueInstruction (i : Nat) (e : RobEntry) : State K :=
  let latency := execLatencyOf cfg s e
  let issued := s.rob.set i (issuedEntry cfg s e)
  { s with
    rob := e.dependants.foldl (resolveDependant e.sequenceNumber (cycleDepend cfg s e)) issued
    rsEntriesUsed := s.rsEntriesUsed - 1
    contention := cfg.robContention.elim s.contention fun c => c.doIssue e.uop s.contention
    loadQueue :=
      if e.uop.isLoad then s.loadQueue.getCompletionTime s.now latency e.uop.address else s.loadQueue
    storeQueue :=
      if e.uop.isStore then s.storeQueue.getCompletionTime s.now latency e.uop.address
      else s.storeQueue
    lastStoreDone :=
      if e.uop.isStore then max s.lastStoreDone (s.now + latency + 1) else s.lastStoreDone
    frontendStalledUntil :=
      if e.uop.mispredicts then some (s.now + cfg.mispredictionPenalty - 2)
      else s.frontendStalledUntil
    log := s.log ++ [issueOf cfg s e] }

structure Walk where
  (headOfQueue noMoreLoad noMoreStore haveUnresolvedStore : Bool)
  numIssued : Nat
  nextEvent : Option Nat
deriving DecidableEq, Repr

def Walk.note (w : Walk) (event : Option Nat) : Walk :=
  { w with nextEvent := soonest w.nextEvent event }

inductive Verdict
  | issue | blocked | fenced | stop
deriving DecidableEq, Repr

def verdict (w : Walk) (e : RobEntry) : Verdict :=
  if !reached s.now e.ready then .blocked
  else if (w.noMoreLoad && e.uop.isLoad) || (w.noMoreStore && e.uop.isStore) then .blocked
  else if e.uop.serializing then
    if w.headOfQueue && decide (s.lastStoreDone ≤ s.now) then .issue else .stop
  else if e.uop.memBarrier then
    if w.headOfQueue && decide (s.lastStoreDone ≤ s.now) then .issue else .fenced
  else if cfg.robContention.isNone && w.numIssued == cfg.dispatchWidth then .blocked
  else if e.uop.isLoad && !s.loadQueue.hasFreeSlot s.now then .blocked
  else if e.uop.isLoad && cfg.noAddressDisambiguation && w.haveUnresolvedStore then .blocked
  else if e.uop.isStore && (!w.headOfQueue || !s.storeQueue.hasFreeSlot s.now) then .blocked
  else .issue

def tryIssue (uop : DynamicMicroOp) (k : K) : Bool × K := cfg.robContention.elim (true,k) fun c => c.tryIssue uop k

def exhausted (k : K) (w : Walk) : Bool := cfg.robContention.elim (w.numIssued == cfg.dispatchWidth) fun c => c.noMore k

def passOver (w : Walk) (e : RobEntry) (fenced : Bool) : Walk :=
  { w with
    headOfQueue := false
    noMoreLoad := w.noMoreLoad || fenced
    noMoreStore := w.noMoreStore || fenced
    haveUnresolvedStore := w.haveUnresolvedStore || (e.uop.isStore && !reached s.now e.addressReady) }

def consider (w : Walk) (i : Nat) (e : RobEntry) : State K × Walk × Bool :=
  match verdict cfg s w e with
  | .stop => (s,w,true)
  | .blocked =>
    let w := passOver s w e false
    (s,w,cfg.inorder || exhausted cfg s.contention w)
  | .fenced =>
    let w := passOver s w e true
    (s,w,cfg.inorder || exhausted cfg s.contention w)
  | .issue =>
    let t := tryIssue cfg e.uop s.contention
    let s := { s with contention := t.2 }
    if t.1 then
      let w := { w.note (some (cycleDone cfg s e)) with numIssued := w.numIssued + 1 }
      let s := issueInstruction cfg s i e
      (s,w,exhausted cfg s.contention w)
    else
      let w := passOver s w e false
      (s,w,cfg.inorder || exhausted cfg s.contention w)

def examine (w : Walk) (i : Nat) (e : RobEntry) : State K × Walk × Bool :=
  if e.done.isSome then (s,w.note e.done,false)
  else consider cfg s (w.note e.ready) i e

def issueLoop (cfg : Config K) : Nat → Nat → State K → Walk → State K × Walk
  | 0, _, s, w => (s,w)
  | left + 1, i, s, w =>
    match s.rob[i]? with
    | none => (s,w)
    | some e =>
      let r := examine cfg s w i e
      if r.2.2 then (r.1,r.2.1) else issueLoop cfg left (i + 1) r.1 r.2.1

section
variable {cfg : Config K} {P : State K → Walk → Nat → Prop}
  (hdone : ∀ s w i e, P s w i → s.rob[i]? = some e → e.done.isSome → P s (w.note e.done) (i + 1))
  (hpass : ∀ s w i e fenced, P s w i → s.rob[i]? = some e → e.done = none →
    P s (passOver s (w.note e.ready) e fenced) (i + 1))
  (hport : ∀ s w i k, P s w i → P { s with contention := k } w i)

include hdone hpass hport

theorem issueLoop_rule {n : Nat} (hissue : ∀ s w i e, P s w i → i < n → s.rob[i]? = some e → e.done = none →
      verdict cfg s (w.note e.ready) e = .issue → ∀ w', w'.headOfQueue = w.headOfQueue →
      P (issueInstruction cfg s i e) w' (i + 1))
    {s : State K} {w : Walk} {i left : Nat} (h : P s w i) (hle : i + left ≤ n) :
    ∃ w' j, P (issueLoop cfg left i s w).1 w' j := by
  induction left generalizing s w i with
  | zero => exact ⟨w,i,h⟩
  | succ left ih =>
    have hnext : i + 1 + left ≤ n := by omega
    rw [issueLoop]
    cases he : s.rob[i]? with
    | none => exact ⟨w,i,h⟩
    | some e =>
      by_cases hsome : e.done.isSome
      · simp only [examine,if_pos hsome,Bool.false_eq_true,if_false]
        exact ih (hdone s w i e h he hsome) hnext
      · simp only [examine,if_neg hsome,consider]
        have hd : e.done = none := by simpa using hsome
        have hover := fun fenced => hpass s w i e fenced h he hd
        cases hv : verdict cfg s (w.note e.ready) e with
        | stop => exact ⟨w,i,h⟩
        | blocked =>
          simp only
          split
          · exact ⟨_,_,hover false⟩
          · exact ih (hover false) hnext
        | fenced =>
          simp only
          split
          · exact ⟨_,_,hover true⟩
          · exact ih (hover true) hnext
        | issue =>
          simp only
          have hk := hport s w i (tryIssue cfg e.uop s.contention).2 h
          by_cases hport' : (tryIssue cfg e.uop s.contention).1
          · rw [if_pos hport']
            have hstep := hissue _ w i e hk (by omega) he hd hv
            split
            · exact ⟨_,_,hstep _ rfl⟩
            · exact ih (hstep _ rfl) hnext
          · rw [if_neg hport']
            have hstep := hpass _ w i e false hk he hd
            split
            · exact ⟨_,_,hstep⟩
            · exact ih hstep hnext

def startWalk : Walk :=
  { headOfQueue := true
    noMoreLoad := false
    noMoreStore := false
    haveUnresolvedStore := false
    numIssued := 0
    nextEvent := none }

def initCycle (cfg : Config K) (s : State K) : State K :=
  { s with contention := cfg.robContention.elim s.contention fun c => c.initCycle s.now s.contention }

def doIssue (cfg : Config K) (s : State K) : State K × Option Nat :=
  let r := issueLoop cfg s.numInRob 0 (initCycle cfg s) startWalk
  (r.1,r.2.nextEvent)

theorem doIssue_rule {s : State K} (hissue : ∀ t w i e, P t w i → i < s.numInRob → t.rob[i]? = some e → e.done = none →
      verdict cfg t (w.note e.ready) e = .issue → ∀ w', w'.headOfQueue = w.headOfQueue →
      P (issueInstruction cfg t i e) w' (i + 1)) (h : P s startWalk 0) : ∃ w i, P (doIssue cfg s).1 w i :=
  issueLoop_rule hdone hpass hport hissue (hport s startWalk 0 _ h) (Nat.le_of_eq (Nat.zero_add _))
end

def commitLoop (width now : Nat) : Nat → List RobEntry → List RobEntry × List RobEntry
  | _, [] => ([],[])
  | n, e :: rob =>
    if reached now e.done then
      if n + 1 = width then ([e],rob)
      else
        let r := commitLoop width now (n + 1) rob
        (e :: r.1,r.2)
    else ([],e :: rob)

theorem commitLoop_append (width now n : Nat) (rob : List RobEntry) :
    (commitLoop width now n rob).1 ++ (commitLoop width now n rob).2 = rob := by
  induction rob generalizing n with
  | nil => rfl
  | cons e rob ih =>
    rw [commitLoop]
    split
    · split <;> simp [*]
    · rfl

theorem commitLoop_reached (h : e ∈ (commitLoop width now n rob).1) : reached now e.done := by
  induction rob generalizing n with
  | nil => simp [commitLoop] at h
  | cons x rob ih =>
    rw [commitLoop] at h
    split at h
    · next hx =>
      split at h
      · rwa [mem_singleton.mp h]
      · rcases mem_cons.mp h with rfl | h
        · exact hx
        · exact ih h
    · simp at h

def timesOf (now : Nat) (e : RobEntry) : UopTimes :=
  { uop := e.uop, dispatched := e.dispatched, issued := e.issued, done := e.done, committed := now }

def doCommit : State K × Nat × Option Nat :=
  let r := commitLoop cfg.commitWidth s.now 0 s.rob
  ({ s with
    rob := r.2
    numInRob := s.numInRob - r.1.length
    trace := s.trace ++ r.1.map (timesOf s.now) },r.1.countP fun e => e.uop.last, (r.2.head?).bind RobEntry.done)

def cycle : State K × Nat × Option Nat :=
  let d := doDispatch cfg s
  let i := doIssue cfg d.1
  let c := doCommit cfg i.1
  (c.1,c.2.1,soonest d.2 (soonest i.2 c.2.2))

def skipTo (now : Nat) : Option Nat → Nat
  | some t => if now + 1 < t then t - now else 1
  | none => 1

def starved : Bool := reached s.now s.frontendStalledUntil && decide (s.rob.length < s.numInRob + 2 * cfg.dispatchWidth)

def execute (skipping : Bool) (s : State K) : State K × Nat × Nat :=
  if starved cfg s then (s,0,0)
  else
    let r := cycle cfg s
    let latency := if skipping then skipTo s.now r.2.2 else 1
    ({ r.1 with now := s.now + latency },r.2.1,latency)

structure Progress (K : Type) where
  timer : State K
  (insns latency : Nat)

def executeLoop (cfg : Config K) (skipping : Bool) : Nat → Progress K → Option (Progress K)
  | 0, _ => none
  | fuel + 1, p =>
    let r := execute cfg skipping p.timer
    if r.2.2 = 0 then some { p with timer := r.1, insns := p.insns + r.2.1 }
    else executeLoop cfg skipping fuel { timer := r.1, insns := p.insns + r.2.1, latency := p.latency + r.2.2 }

def simulate (skipping : Bool) (fuel : Nat) (p : Progress K) (insts : List DynamicMicroOp) : Option (Progress K) :=
  (insts.foldlM (enter cfg) p.timer).bind fun s => executeLoop cfg skipping fuel { p with timer := s }

def simulateAll (skipping : Bool) (fuel : Nat) (p : Progress K)
    (calls : List (List DynamicMicroOp)) : Option (Progress K) :=
  calls.foldlM (simulate cfg skipping fuel) p

def start (k : K) (loads stores : Nat) : State K :=
  { rob := []
    numInRob := 0
    rsEntriesUsed := 0
    contention := k
    now := 0
    frontendStalledUntil := some 0
    inICacheMiss := false
    lastStoreDone := 0
    loadQueue := .ofSize loads
    storeQueue := .ofSize stores
    nextSequenceNumber := 0
    registerDependencies := fun _ => none
    memoryDependencies := { producers := [], membar := none }
    trace := []
    writers := fun _ => none
    log := []
    stream := [] }

inductive Label
  | enter (uop : DynamicMicroOp)
  | execute (skipping : Bool)
deriving DecidableEq, Repr

def next : Label → Except Unit (State K)
  | .enter uop => (enter cfg s uop).elim (.error ()) .ok
  | .execute skipping => .ok (execute cfg skipping s).1

def fresh : Progress K := { timer := s, insns := 0, latency := 0 }

section
variable {cfg : Config K}

theorem executeLoop_reaches (h : executeLoop cfg skipping fuel p = some q) :
    Run.Reaches (next cfg) (fun _ _ => True) p.timer q.timer := by
  induction fuel generalizing p with
  | zero => simp [executeLoop] at h
  | succ fuel ih =>
    have hstep : Run.Reaches (next cfg) (fun _ _ => True) p.timer (execute cfg skipping p.timer).1 :=
      .tail (l := .execute skipping) .refl trivial rfl
    rw [executeLoop] at h
    split at h
    · cases h
      exact hstep
    · exact hstep.trans (ih h)

theorem foldlM_enter_reaches {insts : List DynamicMicroOp} {s t : State K}
    (h : insts.foldlM (enter cfg) s = some t) : Run.Reaches (next cfg) (fun _ _ => True) s t := by
  induction insts generalizing s with
  | nil =>
    cases h
    exact .refl
  | cons uop insts ih =>
    obtain ⟨u,hu,ht⟩ := bind_eq_some_iff.mp h
    have hstep : next cfg s (.enter uop) = .ok u := by
      rw [next,hu]
      rfl
    exact (Run.Reaches.tail .refl trivial hstep).trans (ih ht)

theorem simulateAll_reaches {skipping : Bool} {fuel : Nat} {calls : List (List DynamicMicroOp)}
    {p q : Progress K} (h : simulateAll cfg skipping fuel p calls = some q) :
    Run.Reaches (next cfg) (fun _ _ => True) p.timer q.timer := by
  induction calls generalizing p with
  | nil =>
    cases h
    exact .refl
  | cons insts calls ih =>
    obtain ⟨r,hr,hq⟩ := bind_eq_some_iff.mp h
    obtain ⟨s,hs,hr⟩ := bind_eq_some_iff.mp hr
    exact ((foldlM_enter_reaches hs).trans (executeLoop_reaches hr)).trans (ih hq)
end

def fill (n : Nat) : List DynamicMicroOp := replicate n (simpleUop .execute 1)

def smallCore (windowSize dispatchWidth : Nat) : Config Unit :=
  { dispatchWidth
    commitWidth := 4
    windowSize
    rsEntries := 16
    mispredictionPenalty := 8
    storeToLoadForwarding := true
    noAddressDisambiguation := false
    inorder := false
    robContention := none
    memoryLatency := fun _ _ => 0 }

end RobTimer
