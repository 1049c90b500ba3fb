import SniperSim.Cache.DataCache
import SniperSim.Library.Run

open Function WriteBack.Store DataCache Option

structure Prefetcher (g : Geometry) where
  State : Type
  getNextAddress : State → g.Address → State × List g.Address

namespace DramCache
variable {g : Geometry} {R : Replacement g.associativity} {P : Prefetcher g} {D : Type}

inductive Access (D : Type)
  | load
  | store (data : D)
deriving DecidableEq, Repr

-- a pointer to the caller's ShmemPerf
inductive Perf
  | null | valid
deriving DecidableEq, Repr

-- none is the fault of a call through the null pointer
def Perf.updateTime : Perf → Option Unit
  | .null => none
  | .valid => some ()

inductive Op (g : Geometry) (D : Type)
  | getDataFromDram (address : g.Address) (perf : Perf)
  | putDataToDram (address : g.Address) (data : D)

structure State (g : Geometry) (R : Replacement g.associativity) (P : Prefetcher g) (D : Type) where
  cache : DataCache g R D
  prefetcher : P.State
  dram : g.Address → D

def setCState (cstate : CacheState) (l : DataLine D) : DataLine D := { l with cstate := cstate }

def setPrefetch (prefetch : Bool) (l : DataLine D) : DataLine D := { l with prefetch := prefetch }

theorem tag_setCState (cstate : CacheState) (l : DataLine D) : (setCState cstate l).tag = l.tag := rfl

theorem tag_setPrefetch (prefetch : Bool) (l : DataLine D) : (setPrefetch prefetch l).tag = l.tag := rfl

theorem entry_setPrefetch (prefetch : Bool) (l : DataLine D) : (setPrefetch prefetch l).entry = l.entry := rfl

def Access.cstate : Access D → CacheState
  | .load => .shared
  | .store _ => .modified

def accessDataArray (perf : Perf) : Option Unit := perf.updateTime

namespace State
variable (s : State g R P D)

def insertLine (access : Access D) (a : g.Address) (d : D) : Option (State g R P D) :=
  (accessDataArray .null).map fun _ => { s with
    cache := (s.cache.insertSingleLine a d).modify a (setCState access.cstate)
    dram :=
      match s.cache.evicted a with
      | some v =>
        if v.cstate = .modified then update s.dram (evictAddress v) d else s.dram
      | none => s.dram }

def prefetchLine (p : g.Address) : Option (State g R P D) :=
  match s.cache.peekSingleLine p with
  | some _ => some s
  | none => (s.insertLine .load p (s.dram p)).map fun t => { t with cache := t.cache.modify p (setPrefetch true) }

def callPrefetcher (onPrefetchHit : Bool) (s : State g R P D) (a : g.Address)
    (cacheHit prefetchHit : Bool) : Option (State g R P D) :=
  let r := P.getNextAddress s.prefetcher a
  if !cacheHit || (onPrefetchHit && prefetchHit) then
    r.2.foldlM prefetchLine { s with prefetcher := r.1 }
  else some { s with prefetcher := r.1 }

def accessHit (a : g.Address) : Access D → State g R P D
  | .load => { s with cache := (s.cache.modify a (setPrefetch false)).touch a }
  | .store d => { s with
      cache := ((s.cache.modify a (setPrefetch false)).writeLine a d).modify a (setCState .modified) }

def fetched (a : g.Address) : Access D → D
  | .load => s.dram a
  | .store d => d

def doAccess (onPrefetchHit : Bool) (s : State g R P D) (access : Access D) (a : g.Address) (perf : Perf) :
    Option (State g R P D × D) := do
  perf.updateTime
  match s.cache.peekSingleLine a with
  | some l =>
    accessDataArray perf
    let t ← (s.accessHit a access).callPrefetcher onPrefetchHit a true l.prefetch
    return (t,l.data)
  | none =>
    let t ← s.insertLine access a (s.fetched a access)
    let t ← t.callPrefetcher onPrefetchHit a false false
    return (t,s.fetched a access)

def getDataFromDram (onPrefetchHit : Bool) (s : State g R P D) (a : g.Address) (perf : Perf) :
    Option (State g R P D × D) := s.doAccess onPrefetchHit .load a perf

def putDataToDram (onPrefetchHit : Bool) (s : State g R P D) (a : g.Address) (d : D) :
    Option (State g R P D × D) := s.doAccess onPrefetchHit (.store d) a .null

def step (onPrefetchHit : Bool) (s : State g R P D) : Op g D → Option (State g R P D × Option D)
  | .getDataFromDram a perf => (s.getDataFromDram onPrefetchHit a perf).map fun r => (r.1,some r.2)
  | .putDataToDram a d => (s.putDataToDram onPrefetchHit a d).map fun r => (r.1,none)

def outputs (onPrefetchHit : Bool) : State g R P D → List (Op g D) → Option (List (Option D))
  | _, [] => some []
  | s, op :: ops => do
    let r ← s.step onPrefetchHit op
    let rest ← outputs onPrefetchHit r.1 ops
    return r.2 :: rest

def after (onPrefetchHit : Bool) (s : State g R P D) (op : Op g D) : State g R P D :=
  ((s.step onPrefetchHit op).map Prod.fst).getD s

def initial (zero : D) (policy : R.State) (prefetcher : P.State) (dram : g.Address → D) : State g R P D :=
  ⟨create zero policy,prefetcher,dram⟩

def Holds (a : g.Address) : Prop := (s.cache.peekSingleLine a).isSome

def Resident (onPrefetchHit : Bool) (s : State g R P D) : Op g D → Prop
  | .getDataFromDram a perf => perf = .valid ∧ ∃ l ∈ s.cache.peekSingleLine a,
      (onPrefetchHit && l.prefetch) → ∀ p ∈ (P.getNextAddress s.prefetcher a).2, s.Holds p
  | .putDataToDram _ _ => False

end State

def memoryStep (m : g.Address → D) : Op g D → (g.Address → D) × Option D
  | .getDataFromDram a _ => (m,some (m a))
  | .putDataToDram a d => (update m a d,none)

structure Reflects (s : State g R P D) (m : g.Address → D) : Prop where
  wellFormed : s.cache.WellFormed
  sound : (s.cache.store s.dram).Sound
  view : (s.cache.store s.dram).view = m

namespace State
variable {s t : State g R P D} {a : g.Address}

theorem prefetchLine_eq_some_iff : s.prefetchLine a = some t ↔ s.Holds a ∧ s = t := by
  rw [prefetchLine,Holds]
  cases s.cache.peekSingleLine a with
  | none => simp [insertLine,accessDataArray,Perf.updateTime]
  | some l => simp

theorem prefetchLines_eq_some_iff {ps : List g.Address} :
    ps.foldlM prefetchLine s = some t ↔ (∀ p ∈ ps, s.Holds p) ∧ s = t := by
  induction ps with
  | nil => simp
  | cons p ps ih =>
    rw [List.foldlM_cons,List.forall_mem_cons,and_assoc,← ih]
    constructor
    · intro h
      obtain ⟨u,hu,hrest⟩ := bind_eq_some_iff.mp h
      obtain ⟨hp,rfl⟩ := prefetchLine_eq_some_iff.mp hu
      exact ⟨hp,hrest⟩
    · rintro ⟨hp,hrest⟩
      exact bind_eq_some_iff.mpr ⟨s,prefetchLine_eq_some_iff.mpr ⟨hp,rfl⟩,hrest⟩

theorem callPrefetcher_hit_eq_some_iff {oph prefetchHit : Bool} :
    s.callPrefetcher oph a true prefetchHit = some t ↔
      ((oph && prefetchHit) → ∀ p ∈ (P.getNextAddress s.prefetcher a).2, s.Holds p) ∧
      { s with prefetcher := (P.getNextAddress s.prefetcher a).1 } = t := by
  rw [callPrefetcher]
  cases h : oph && prefetchHit with
  | false => simp
  | true =>
    simp only [Bool.not_true,Bool.false_or,if_true,forall_const]
    exact prefetchLines_eq_some_iff

theorem getDataFromDram_eq (oph : Bool) (a : g.Address) : s.getDataFromDram oph a .valid =
    (s.cache.peekSingleLine a).bind fun l =>
      ((s.accessHit a .load).callPrefetcher oph a true l.prefetch).map fun t => (t,l.data) := by
  rw [getDataFromDram,doAccess]
  cases s.cache.peekSingleLine a with
  | none => rfl
  | some l =>
    cases h : (s.accessHit a .load).callPrefetcher oph a true l.prefetch <;>
      simp [Perf.updateTime,accessDataArray,h]

end State

namespace Reflects
variable {s : State g R P D} {m : g.Address → D} {a : g.Address} {l : DataLine D} (h : Reflects s m)
include h

theorem of_store (hc : c.WellFormed) (hs : c.store s.dram = s.cache.store s.dram) :
    Reflects { s with cache := c } m := by
  constructor
  case wellFormed => exact hc
  case sound =>
    rw [hs]
    exact h.sound
  case view =>
    rw [hs]
    exact h.view

theorem setPrefetch (p : Bool) : Reflects { s with cache := s.cache.modify a (setPrefetch p) } m :=
  h.of_store (h.wellFormed.modify (tag_setPrefetch p))
    (store_modify_of_entry h.wellFormed (tag_setPrefetch p) (entry_setPrefetch p) s.dram)

theorem loadHit : Reflects (s.accessHit a .load) m :=
  (h.setPrefetch false).of_store (h.setPrefetch false).wellFormed.touch (store_touch s.dram)

theorem withPrefetcher (q : P.State) : Reflects { s with prefetcher := q } m := { h with }

theorem holds_loadHit {p : g.Address} : (s.accessHit a .load).Holds p ↔ s.Holds p := by
  have hstore : (s.accessHit a .load).cache.store s.dram = s.cache.store s.dram := (store_touch s.dram).trans
    (store_modify_of_entry h.wellFormed (tag_setPrefetch false) (entry_setPrefetch false) s.dram)
  have hcached := congrArg (fun t => (t.cached p).isSome) hstore
  simp only [DataCache.store,isSome_map] at hcached
  rw [State.Holds,State.Holds,hcached]

theorem step_of_resident (hr : s.Resident oph op) :
    ∃ t, s.step oph op = some (t,(memoryStep m op).2) ∧ Reflects t (memoryStep m op).1 := by
  cases op with
  | putDataToDram a d => exact hr.elim
  | getDataFromDram a perf =>
    obtain ⟨rfl,l,hl,hpre⟩ := hr
    have hcall := State.callPrefetcher_hit_eq_some_iff.mpr
      ⟨fun hp p hmem => (h.holds_loadHit (a := a)).mpr (hpre hp p hmem),rfl⟩
    have hview : m a = l.data := by rw [← h.view,view_of_peek hl]
    refine ⟨_,?_,(h.loadHit (a := a)).withPrefetcher (P.getNextAddress s.prefetcher a).1⟩
    rw [State.step,State.getDataFromDram_eq,hl,bind_some,hcall,memoryStep,hview]
    rfl

theorem resident_of_step (hs : s.step oph op = some r) : s.Resident oph op := by
  cases op with
  | putDataToDram a d => cases hs
  | getDataFromDram a perf =>
    cases perf with
    | null => cases hs
    | valid =>
      obtain ⟨r,hr,-⟩ := map_eq_some_iff.mp hs
      rw [State.getDataFromDram_eq] at hr
      obtain ⟨l,hl,hcall⟩ := bind_eq_some_iff.mp hr
      obtain ⟨t,ht,-⟩ := map_eq_some_iff.mp hcall
      refine ⟨rfl,l,hl,fun hp p hmem => ?_⟩
      exact h.holds_loadHit.mp ((State.callPrefetcher_hit_eq_some_iff.mp ht).1 hp p hmem)

theorem fill (hmiss : s.cache.peekSingleLine a = none) (hv : s.cache.evicted a = none) : Reflects
      { s with cache := (s.cache.insertSingleLine a (m a)).modify a (setCState .shared) } m := by
  have hwf := h.wellFormed.insertSingleLine (d := m a) hmiss
  have hmem : s.dram a = m a := by rw [← h.view,view_of_miss hmiss]
  have hstore : ((s.cache.insertSingleLine a (m a)).modify a (setCState .shared)).store s.dram =
      (s.cache.store s.dram).put a ⟨false,m a⟩ := by
    rw [store_modify hwf (tag_setCState .shared) (by rw [peek_insertSingleLine h.wellFormed hmiss,update_self]),
      store_insert h.wellFormed hmiss hv,put_put]
    rfl
  constructor
  case wellFormed => exact hwf.modify (tag_setCState .shared)
  case sound =>
    rw [hstore]
    exact sound_put h.sound fun _ => hmem.symm
  case view =>
    rw [hstore,view_fill (congrFun h.view a),h.view]

end Reflects

theorem reflects_initial (zero : D) (policy : R.State) (prefetcher : P.State)
    (dram : g.Address → D) : Reflects (State.initial zero policy prefetcher dram) dram := by
  constructor
  case wellFormed => exact wellFormed_create zero policy
  case sound => exact sound_create zero policy dram
  case view => exact view_create zero policy dram

theorem Reflects.outputs_iff {s : State g R P D} {m : g.Address → D} (h : Reflects s m) (ops : List (Op g D)) :
    State.outputs oph s ops = some (Run.outputs memoryStep m ops) ↔
      Run.Along (State.after oph) (State.Resident oph) s ops := by
  induction ops generalizing s m with
  | nil => exact iff_of_true rfl trivial
  | cons op ops ih =>
    rw [State.outputs,Run.Along,Run.outputs]
    constructor
    · intro hs
      obtain ⟨r,hr,hrest⟩ := bind_eq_some_iff.mp hs
      have hres := h.resident_of_step hr
      obtain ⟨t,ht,hnext⟩ := h.step_of_resident hres
      obtain rfl := some.inj (hr.symm.trans ht)
      obtain ⟨rest,hos,heq⟩ := bind_eq_some_iff.mp hrest
      obtain rfl := (List.cons.inj (some.inj heq)).2
      refine ⟨hres,?_⟩
      rw [State.after,hr]
      exact (ih hnext).mp hos
    · rintro ⟨hres,hrest⟩
      obtain ⟨t,ht,hnext⟩ := h.step_of_resident hres
      rw [State.after,ht] at hrest
      rw [ht,bind_eq_bind,bind_some,(ih hnext).mpr hrest]
      rfl

theorem not_resident_initial (zero : D) (policy : R.State) (prefetcher : P.State) (dram : g.Address → D) (op : Op g D) :
    ¬(State.initial zero policy prefetcher dram).Resident oph op := by
  cases op with
  | putDataToDram a d => exact id
  | getDataFromDram a perf =>
    rintro ⟨-,l,hl,-⟩
    rw [State.initial,peek_create] at hl
    cases hl

theorem transparent_iff (onPrefetchHit : Bool) (s : State g R P D) (m : g.Address → D) (h : Reflects s m)
    (ops : List (Op g D)) :
    (State.outputs onPrefetchHit s ops = some (Run.outputs memoryStep m ops) ↔
      Run.Along (State.after onPrefetchHit) (State.Resident onPrefetchHit) s ops) ∧
    ∀ zero policy prefetcher,
      State.outputs onPrefetchHit (State.initial zero policy prefetcher m : State g R P D) ops =
        some (Run.outputs memoryStep m ops) ↔ ops = [] := by
  refine ⟨h.outputs_iff ops,fun zero policy prefetcher => ?_⟩
  rw [(reflects_initial zero policy prefetcher m).outputs_iff]
  cases ops with
  | nil => exact iff_of_true trivial rfl
  | cons op ops => exact iff_of_false (fun hs => not_resident_initial zero policy prefetcher m op hs.1) nofun

open DataCache (oneLine onlyWay lineA lineB)

def prefetchA : Prefetcher oneLine := ⟨Unit,fun _ _ => ((),[lineA])⟩

def empty : State oneLine onlyWay prefetchA Nat := State.initial 0 () () fun _ => 3

-- line A as a prefetch would have left it
def warm : State oneLine onlyWay prefetchA Nat := { empty with
  cache := ((empty.cache.insertSingleLine lineA 3).modify lineA (setCState .shared)).modify lineA (setPrefetch true) }

theorem transparent_warm : Reflects warm (fun _ => 3) ∧
    State.outputs true warm [.getDataFromDram lineA .valid,.getDataFromDram lineA .valid] = some [some 3,some 3] := by
  have hempty : Reflects empty fun _ => 3 := reflects_initial (R := onlyWay) (P := prefetchA) 0 () () _
  have h : Reflects warm fun _ => 3 :=
    (hempty.fill (a := lineA) (by decide +kernel) (by decide +kernel)).setPrefetch (a := lineA) true
  refine ⟨h,(transparent_iff true warm _ h _).1.mpr ⟨⟨rfl,_,rfl,fun _ p hp => ?_⟩,⟨rfl,_,rfl,nofun⟩,trivial⟩⟩
  obtain rfl := List.mem_singleton.mp hp
  exact rfl

theorem store_and_fill_crash : State.outputs true empty [.putDataToDram lineA 7,.getDataFromDram lineA .valid] = none ∧
    State.outputs true empty [.getDataFromDram lineA .valid] = none ∧
    State.outputs true warm [.getDataFromDram lineB .valid] = none ∧
    State.outputs true warm [.putDataToDram lineA 7] = none := by
  decide +kernel

end DramCache
