import SniperSim.Cache.DataCache
import SniperSim.Library.Run

open Function WriteBack.Store DataCache
namespace NucaCache
variable {g : Geometry} {R : Replacement g.associativity} {D : Type}

structure Locals (g : Geometry) (D : Type) where
  eviction : Bool
  evictAddress : g.Address
  evictBuf : D

structure DramWriteReq (g : Geometry) (D : Type) where
  address : g.Address
  data : D

instance decidableEqDramWriteReq [DecidableEq D] : DecidableEq (DramWriteReq g D) := fun p q =>
  decidable_of_iff (p.address = q.address ∧ p.data = q.data)
    ⟨fun h => by cases p; cases q; cases h.1; cases h.2; rfl,fun h => h ▸ ⟨rfl,rfl⟩⟩

structure State (g : Geometry) (R : Replacement g.associativity) (D : Type) where
  cache : DataCache g R D
  dram : g.Address → D

inductive Op (g : Geometry) (D : Type)
  | read (address : g.Address)
  | fill (address : g.Address) (locals : Locals g D)
  | writeBack (address : g.Address) (data : D) (locals : Locals g D)

def setModified (l : DataLine D) : DataLine D := { l with cstate := .modified }

def write (c : DataCache g R D) (a : g.Address) (d : D) (locals : Locals g D) : DataCache g R D × Locals g D :=
  match c.peekSingleLine a with
  | some _ => ((c.modify a setModified).writeLine a d,locals)
  | none =>
    (c.insertSingleLine a d,match c.evicted a with
      | some v => ⟨v.cstate = .modified,evictAddress v,v.data⟩
      | none => { locals with eviction := false, evictAddress := LineAddress.tagToAddress (~~~0) })

namespace State
variable (s : State g R D)

def sendDataToNUCA (a : g.Address) (d : D) (locals : Locals g D) : State g R D × Option (DramWriteReq g D) :=
  let r := write s.cache a d locals
  if r.2.eviction then
    (⟨r.1,update s.dram r.2.evictAddress r.2.evictBuf⟩,some ⟨r.2.evictAddress,r.2.evictBuf⟩)
  else (⟨r.1,s.dram⟩,none)

def sendDataToDram (a : g.Address) (d : D) (locals : Locals g D) :
    State g R D × Option (DramWriteReq g D) := s.sendDataToNUCA a d locals

def read (a : g.Address) : State g R D × Option D := ({ s with cache := (s.cache.readLine a).1 },(s.cache.readLine a).2)

def answer (a : g.Address) : D := (s.read a).2.getD (s.dram a)

def step : Op g D → State g R D × Option (DramWriteReq g D)
  | .read a => ((s.read a).1,none)
  | .fill a locals => s.sendDataToNUCA a (s.dram a) locals
  | .writeBack a d locals => s.sendDataToDram a d locals

def evictedBy (a : g.Address) : Option g.Address :=
  match s.cache.peekSingleLine a with
  | some _ => none
  | none => (s.cache.evicted a).map evictAddress

def evicts : Op g D → Option g.Address
  | .read _ => none
  | .fill a _ | .writeBack a _ _ => s.evictedBy a

end State

structure History (g : Geometry) (R : Replacement g.associativity) (D : Type) where
  state : State g R D
  last : g.Address → D
  written : g.Address → Bool

namespace History

def initial (zero : D) (policy : R.State) (dram : g.Address → D) : History g R D where
  state := ⟨create zero policy,dram⟩
  last := dram
  written _ := false

def unwrite (written : g.Address → Bool) : Option g.Address → g.Address → Bool
  | none => written
  | some v => update written v false

def record (h : History g R D) : Op g D → (g.Address → D) × (g.Address → Bool)
  | .read _ => (h.last,h.written)
  | .fill a locals => (h.last,unwrite h.written (h.state.evicts (.fill a locals)))
  | .writeBack a d locals =>
    (update h.last a d,update (unwrite h.written (h.state.evicts (.writeBack a d locals))) a true)

def step (h : History g R D) (op : Op g D) : History g R D := ⟨(h.state.step op).1,(h.record op).1,(h.record op).2⟩

def request (h : History g R D) (op : Op g D) : Option (DramWriteReq g D) :=
  match h.state.evicts op with
  | none => none
  | some v => if h.written v then some ⟨v,h.last v⟩ else none

structure Correct (h : History g R D) (op : Op g D) : Prop where
  request : (h.state.step op).2 = h.request op
  answer : (h.step op).state.answer = (h.step op).last

def Tracked (h : History g R D) : Op g D → Prop
  | .read _ => True
  | .fill a _ => h.state.cache.peekSingleLine a = none
  | .writeBack a _ locals => h.state.cache.peekSingleLine a ≠ none ∧ locals.eviction = false

structure Agrees (h : History g R D) : Prop where
  wellFormed : h.state.cache.WellFormed
  sound : (h.state.cache.store h.state.dram).Sound
  view : (h.state.cache.store h.state.dram).view = h.last
  written : ∀ a, h.written a ↔ ∃ l, h.state.cache.peekSingleLine a = some l ∧ l.cstate = .modified

end History

section
variable {s : State g R D} {a v : g.Address} {d : D} {l : DataLine D} {locals : Locals g D}

theorem answer_eq_view (s : State g R D) : s.answer = (s.cache.store s.dram).view := by
  funext a
  simp [State.answer,State.read,readLine,view,store,DataLine.entry,Function.comp_def]

theorem wellFormed_setModified (h : s.cache.WellFormed) :
    (s.cache.modify a setModified).WellFormed := h.modify fun _ => rfl

section
variable (h : s.cache.WellFormed) (hl : s.cache.peekSingleLine a = some l)
include hl

theorem write_hit : write s.cache a d locals = ((s.cache.modify a setModified).writeLine a d,locals) := by
  simp only [write,hl]

theorem send_hit (he : locals.eviction = false) :
    s.sendDataToNUCA a d locals = (⟨(write s.cache a d locals).1,s.dram⟩,none) := by
  simp [State.sendDataToNUCA,write,hl,he]

theorem evictedBy_hit : s.evictedBy a = none := by
  simp only [State.evictedBy,hl]

include h

theorem peek_setModified :
    (s.cache.modify a setModified).peekSingleLine = update s.cache.peekSingleLine a (some (setModified l)) :=
  peek_modify h (fun _ => rfl) hl

theorem peek_setModified_self : (s.cache.modify a setModified).peekSingleLine a = some (setModified l) := by
  rw [peek_setModified h hl,update_self]

theorem store_write_hit : (write s.cache a d locals).1.store s.dram = (s.cache.store s.dram).put a ⟨true,d⟩ := by
  rw [write_hit hl,store_writeLine (wellFormed_setModified h) (peek_setModified_self h hl),
    store_modify h (f := setModified) (fun _ => rfl) hl,put_put]
  simp [DataLine.entry,setModified]
end

theorem send_miss (hmiss : s.cache.peekSingleLine a = none) : s.sendDataToNUCA a d locals =
    (⟨s.cache.insertSingleLine a d,s.cache.writtenBack a s.dram⟩,(s.cache.evicted a).bind fun v =>
      if v.cstate = .modified then some ⟨evictAddress v,v.data⟩ else none) := by
  cases hv : s.cache.evicted a with
  | none => simp [State.sendDataToNUCA,write,hmiss,hv,writtenBack]
  | some v => by_cases hm : v.cstate = .modified <;> simp [State.sendDataToNUCA,write,hmiss,hv,hm,writtenBack]

theorem evictedBy_miss (hmiss : s.cache.peekSingleLine a = none) :
    s.evictedBy a = (s.cache.evicted a).map evictAddress := by
  simp only [State.evictedBy,hmiss]
end

namespace History
variable {h : History g R D} {a : g.Address} {d : D} {l : DataLine D} {locals : Locals g D}

theorem unwrite_eq_true_iff {written : g.Address → Bool} {o : Option g.Address} :
    unwrite written o b ↔ written b ∧ o ≠ some b := by
  cases o with
  | none => simp [unwrite]
  | some v =>
    by_cases hb : b = v
    · simp [unwrite,hb]
    · simp [unwrite,hb,Ne.symm hb]

theorem agrees_initial (zero : D) (policy : R.State) (dram : g.Address → D) : (initial zero policy dram).Agrees := by
  constructor
  case wellFormed => exact wellFormed_create zero policy
  case sound => exact sound_create zero policy dram
  case view => exact view_create zero policy dram
  case written => simp [initial,peek_create]

section
variable (ha : h.Agrees)
include ha

theorem Agrees.read : (h.step (.read a)).Agrees := by
  constructor
  case wellFormed => exact ha.wellFormed.touch
  case sound => simpa [step,State.step,State.read,readLine] using ha.sound
  case view => simpa [step,State.step,State.read,readLine,record] using ha.view
  case written => simpa [step,State.step,State.read,readLine,record] using ha.written

theorem Agrees.writeBack (hl : h.state.cache.peekSingleLine a = some l)
    (he : locals.eviction = false) : (h.step (.writeBack a d locals)).Agrees := by
  have hstate : (h.step (.writeBack a d locals)).state = ⟨(write h.state.cache a d locals).1,h.state.dram⟩ := by
    simp only [step,State.step,State.sendDataToDram,send_hit hl he]
  have hwritten : (h.step (.writeBack a d locals)).written = update h.written a true := by
    simp only [step,record,State.evicts,evictedBy_hit hl,unwrite]
  constructor
  case wellFormed =>
    rw [hstate,write_hit hl]
    exact (wellFormed_setModified ha.wellFormed).writeLine
  case sound =>
    rw [hstate,store_write_hit ha.wellFormed hl]
    exact sound_put ha.sound (fun hd => by simp at hd)
  case view =>
    rw [hstate,store_write_hit ha.wellFormed hl,view_put,ha.view]
    rfl
  case written =>
    intro b
    rw [hstate,hwritten,write_hit hl,peek_writeLine (wellFormed_setModified ha.wellFormed)
      (peek_setModified_self ha.wellFormed hl),peek_setModified ha.wellFormed hl,update_idem]
    by_cases hb : b = a
    · subst hb
      simp [setModified]
    · simpa [hb] using ha.written b

variable (hmiss : h.state.cache.peekSingleLine a = none)
include hmiss

theorem Agrees.written_fill : unwrite h.written (h.state.evictedBy a) b ↔
      ∃ l, (h.state.cache.insertSingleLine a d).peekSingleLine b = some l ∧ l.cstate = .modified := by
  rw [unwrite_eq_true_iff,ha.written,evictedBy_miss hmiss,peek_insertSingleLine ha.wellFormed hmiss]
  by_cases hb : b = a
  · subst hb
    simp [hmiss,DataLine.filled]
  · simp only [update_of_ne hb,discard_eq_some_iff]
    constructor
    · rintro ⟨⟨l,hl,hm⟩,hv⟩
      exact ⟨l,⟨hl,hv⟩,hm⟩
    · rintro ⟨l,⟨hl,hv⟩,hm⟩
      exact ⟨⟨l,hl,hm⟩,hv⟩
end

theorem cache_fill (hmiss : h.state.cache.peekSingleLine a = none) : (h.step (.fill a locals)).state.cache =
      h.state.cache.insertSingleLine a (h.state.dram a) := by
  simp only [step,State.step,send_miss hmiss]

theorem Agrees.fill (ha : h.Agrees) (hmiss : h.state.cache.peekSingleLine a = none) :
    (h.step (.fill a locals)).Agrees := by
  obtain ⟨t,hsound,hview,hmem,hstore⟩ := evict_victim ha.wellFormed hmiss ha.sound
  have hfill := view_fill (by rw [hview,view_of_miss hmiss])
  constructor
  case wellFormed =>
    rw [cache_fill hmiss]
    exact ha.wellFormed.insertSingleLine hmiss
  case sound =>
    simp only [step,State.step,send_miss hmiss,hstore]
    exact sound_put hsound fun _ => hmem.symm
  case view =>
    simp only [step,State.step,send_miss hmiss,hstore]
    exact hfill.trans (hview.trans ha.view)
  case written =>
    intro b
    rw [cache_fill hmiss]
    exact ha.written_fill hmiss

theorem Agrees.step (ha : h.Agrees) (ht : h.Tracked op) : (h.step op).Agrees := by
  cases op with
  | read a => exact ha.read
  | fill a locals => exact ha.fill ht
  | writeBack a d locals =>
    obtain ⟨l,hl⟩ := Option.ne_none_iff_exists'.mp ht.1
    exact ha.writeBack hl ht.2

theorem Agrees.correct (ha : h.Agrees) (ht : h.Tracked op) : h.Correct op := by
  constructor
  case answer => rw [answer_eq_view,(ha.step ht).view]
  case request =>
    cases op with
    | read a => rfl
    | fill a locals =>
      simp only [request,State.evicts,evictedBy_miss ht,State.step,send_miss ht]
      cases hv : h.state.cache.evicted a with
      | none => rfl
      | some v =>
        have hpeek := peek_evicted ha.wellFormed hv
        have hw : h.written (evictAddress v) ↔ v.cstate = .modified := by simp [ha.written,hpeek]
        simp only [Option.bind_some,Option.map_some,hw,← ha.view,view_of_peek hpeek]
    | writeBack a d locals =>
      obtain ⟨l,hl⟩ := Option.ne_none_iff_exists'.mp ht.1
      simp only [State.step,State.sendDataToDram,send_hit hl ht.2,request,State.evicts,evictedBy_hit hl]

theorem write_back_correct (zero : D) (policy : R.State) (dram : g.Address → D) {ops : List (Op g D)}
    (ht : Run.Along step Tracked (initial zero policy dram) ops) :
    Run.Along step Correct (initial zero policy dram) ops :=
  Run.along_of_invariant (I := Agrees) (fun _ _ ha ht => Agrees.step ha ht) (fun _ _ ha ht => Agrees.correct ha ht)
    (agrees_initial zero policy dram) ht

instance decidableTracked (h : History g R D) : ∀ op, Decidable (h.Tracked op)
  | .read _ => isTrue trivial
  | .fill a _ => inferInstanceAs (Decidable (h.state.cache.peekSingleLine a = none))
  | .writeBack a _ _ => inferInstanceAs (Decidable (h.state.cache.peekSingleLine a ≠ none ∧ _ = false))

open DataCache (oneLine onlyWay lineA lineB)

def cleared : Locals oneLine Nat := ⟨false,lineA,0⟩

def start : History oneLine onlyWay Nat := initial 0 () fun _ => 0

def fillThenWriteBack : List (Op oneLine Nat) :=
  [.fill lineA cleared,.writeBack lineA 7 cleared,.read lineA,.fill lineB cleared]

theorem write_back_correct_fill_then_write_back : Run.Along step Tracked start fillThenWriteBack ∧
      Run.Along step Correct start fillThenWriteBack := by
  have ht : Run.Along step Tracked start fillThenWriteBack := by decide +kernel
  exact ⟨ht,write_back_correct (R := onlyWay) 0 () (fun _ => 0) ht⟩

def stale : Locals oneLine Nat := ⟨true,lineB,9⟩

theorem write_back_lost_and_spurious : (¬Run.Along step Correct start [.writeBack lineA 7 cleared,.fill lineB cleared] ∧
      ([Op.writeBack lineA 7 cleared,.fill lineB cleared].foldl step start).state.answer lineA = 0) ∧
    ¬Run.Along step Correct start [.fill lineA cleared,.writeBack lineA 7 stale] ∧
    ¬Run.Along step Correct start [.fill lineA cleared,.fill lineA cleared,.fill lineB cleared] := by
  refine ⟨⟨?_,by decide +kernel⟩,?_,?_⟩
  · intro h
    exact absurd h.2.1.request (by decide +kernel)
  · intro h
    exact absurd h.2.1.request (by decide +kernel)
  · intro h
    exact absurd h.2.2.1.request (by decide +kernel)

end History
end NucaCache
