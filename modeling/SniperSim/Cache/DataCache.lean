import SniperSim.Cache.CacheSetLRU
import SniperSim.Library.WriteBack

open Function Option WriteBack.Store

def LineAddress (k : Nat) := { a : IntPtr // (a >>> k) <<< k = a }

instance decidableEqLineAddress (k : Nat) : DecidableEq (LineAddress k) :=
  inferInstanceAs (DecidableEq { a : IntPtr // (a >>> k) <<< k = a })

namespace LineAddress
variable {k : Nat}

def tag (a : LineAddress k) : IntPtr := a.1 >>> k

theorem shift_back (t : IntPtr) : ((t <<< k) >>> k) <<< k = t <<< k := by
  apply BitVec.eq_of_getLsbD_eq
  intro i hi
  by_cases hk : i < k
  · simp [hk]
  · grind

def tagToAddress (t : IntPtr) : LineAddress k := ⟨t <<< k,shift_back t⟩

@[simp] theorem tagToAddress_tag (a : LineAddress k) : tagToAddress a.tag = a := Subtype.ext a.2

theorem tag_injective : Function.Injective (tag : LineAddress k → IntPtr) := by
  intro a b h
  rw [← tagToAddress_tag a,h,tagToAddress_tag]

theorem tag_ne_invalid (hk : 0 < k) (a : LineAddress k) : a.tag ≠ ~~~0 := by
  intro h
  have hbit := congrArg (fun t => t.getLsbD 63) h
  simp only [tag,BitVec.getLsbD_ushiftRight] at hbit
  rw [BitVec.getLsbD_of_ge _ _ (by omega)] at hbit
  simp at hbit

end LineAddress

structure Geometry where
  logBlocksize : Nat
  pos : 0 < logBlocksize
  associativity : Nat
  setIndex : LineAddress logBlocksize → Nat

abbrev Geometry.Address (g : Geometry) := LineAddress g.logBlocksize

structure Replacement (w : Nat) where
  State : Type
  getReplacementIndex : State → Nat → (Fin w → Bool) → State × Fin w
  updateReplacementIndex : State → Nat → Fin w → State

structure DataLine (D : Type) where
  tag : IntPtr
  cstate : CacheState
  prefetch : Bool
  data : D
deriving DecidableEq, Repr

namespace DataLine
variable {D : Type}

def isValid (l : DataLine D) : Bool := l.tag != ~~~0

def filled (tag : IntPtr) (data : D) : DataLine D := ⟨tag,.invalid,false,data⟩

def entry (l : DataLine D) : WriteBack.Entry D := ⟨l.cstate = .modified,l.data⟩

end DataLine

structure DataCache (g : Geometry) (R : Replacement g.associativity) (D : Type) where
  lines : Nat → Fin g.associativity → DataLine D
  policy : R.State

namespace DataCache
variable {g : Geometry} {R : Replacement g.associativity} {D : Type}

def create (zero : D) (policy : R.State) : DataCache g R D := ⟨fun _ _ => .filled (~~~0) zero,policy⟩

variable (c : DataCache g R D)

def find (a : g.Address) : Option (Fin g.associativity) :=
  (List.finRange g.associativity).reverse.find? fun i => (c.lines (g.setIndex a) i).tag == a.tag

def peekSingleLine (a : g.Address) : Option (DataLine D) := (c.find a).map (c.lines (g.setIndex a))

def setLine (n : Nat) (i : Fin g.associativity) (l : DataLine D) : DataCache g R D :=
  { c with lines := update c.lines n (update (c.lines n) i l) }

def modify (a : g.Address) (f : DataLine D → DataLine D) : DataCache g R D :=
  match c.find a with
  | none => c
  | some i => c.setLine (g.setIndex a) i (f (c.lines (g.setIndex a) i))

def touch (a : g.Address) : DataCache g R D :=
  match c.find a with
  | none => c
  | some i => { c with policy := R.updateReplacementIndex c.policy (g.setIndex a) i }

def readLine (a : g.Address) : DataCache g R D × Option D := (c.touch a,(c.peekSingleLine a).map DataLine.data)

def writeLine (a : g.Address) (d : D) : DataCache g R D := (c.modify a fun l => { l with data := d }).touch a

def replacement (a : g.Address) : R.State × Fin g.associativity :=
  R.getReplacementIndex c.policy (g.setIndex a) fun i => (c.lines (g.setIndex a) i).isValid

def victim (a : g.Address) : DataLine D := c.lines (g.setIndex a) (c.replacement a).2

def evicted (a : g.Address) : Option (DataLine D) :=
  if (c.victim a).isValid then some (c.victim a) else none

def insertSingleLine (a : g.Address) (d : D) : DataCache g R D :=
  { c.setLine (g.setIndex a) (c.replacement a).2 (.filled a.tag d) with
    policy := (c.replacement a).1 }

structure WellFormed (c : DataCache g R D) : Prop where
  unique : ∀ n i j, (c.lines n i).isValid → (c.lines n i).tag = (c.lines n j).tag → i = j
  homed : ∀ n i, (c.lines n i).isValid → ∃ a : g.Address, a.tag = (c.lines n i).tag ∧ g.setIndex a = n

variable (zero : D) (policy : R.State)
section
variable {c : DataCache g R D} {a : g.Address} {i : Fin g.associativity} {l : DataLine D} {d : D}

theorem isValid_of_tag (h : l.tag = a.tag) : l.isValid := by
  simpa [DataLine.isValid,h] using a.tag_ne_invalid g.pos

theorem tag_of_find (h : c.find a = some i) : (c.lines (g.setIndex a) i).tag = a.tag := by
  simpa using List.find?_some h

theorem tag_ne_of_find (h : c.find a = none) (i : Fin g.associativity) : (c.lines (g.setIndex a) i).tag ≠ a.tag := by
  simpa using List.find?_eq_none.mp h i (by simp)

theorem wellFormed_create : (create zero policy : DataCache g R D).WellFormed := by
  constructor
  case unique =>
    intro n i j h
    simp [create,DataLine.isValid,DataLine.filled] at h
  case homed =>
    intro n i h
    simp [create,DataLine.isValid,DataLine.filled] at h

theorem WellFormed.find_of_tag (h : c.WellFormed) (ht : (c.lines (g.setIndex a) i).tag = a.tag) :
    c.find a = some i := by
  cases hf : c.find a with
  | none => exact (tag_ne_of_find hf i ht).elim
  | some j => rw [h.unique _ i j (isValid_of_tag ht) (ht.trans (tag_of_find hf).symm)]

theorem WellFormed.peek_iff (h : c.WellFormed) :
    c.peekSingleLine a = some l ↔ ∃ i, c.lines (g.setIndex a) i = l ∧ l.tag = a.tag := by
  unfold peekSingleLine
  constructor
  · intro hl
    obtain ⟨i,hi,rfl⟩ := map_eq_some_iff.mp hl
    exact ⟨i,rfl,tag_of_find hi⟩
  · rintro ⟨i,rfl,ht⟩
    rw [h.find_of_tag ht]
    rfl

theorem peek_eq_none_iff : c.peekSingleLine a = none ↔ c.find a = none := map_eq_none_iff

theorem lines_setLine (n m : Nat) (i j : Fin g.associativity) (l : DataLine D) :
    (c.setLine n i l).lines m j = if m = n ∧ j = i then l else c.lines m j := by
  unfold setLine
  by_cases hm : m = n
  · subst hm
    by_cases hj : j = i
    · simp [hj]
    · simp [hj]
  · simp [hm]

variable (h : c.WellFormed)
include h

theorem WellFormed.setLine (hl : l.tag = a.tag)
    (hi : ∀ j, (c.lines (g.setIndex a) j).tag = a.tag → j = i) : (c.setLine (g.setIndex a) i l).WellFormed := by
  constructor
  case unique =>
    intro n j j' hv ht
    simp only [lines_setLine] at hv ht
    split_ifs at hv ht with hj hj' hj'
    · exact hj.2.trans hj'.2.symm
    · obtain ⟨rfl,rfl⟩ := hj
      exact (hi j' (ht.symm.trans hl)).symm
    · obtain ⟨rfl,rfl⟩ := hj'
      exact hi j (ht.trans hl)
    · exact h.unique n j j' hv ht
  case homed =>
    intro n j hv
    simp only [lines_setLine] at hv ⊢
    split_ifs at hv ⊢ with hj
    · exact ⟨a,hl.symm,hj.1.symm⟩
    · exact h.homed n j hv

theorem peek_setLine (hl : l.tag = a.tag) (hi : ∀ j, (c.lines (g.setIndex a) j).tag = a.tag → j = i) :
    (c.setLine (g.setIndex a) i l).peekSingleLine a = some l := by
  refine ((h.setLine hl hi).peek_iff).mpr ⟨i,?_,hl⟩
  simp [lines_setLine]

theorem peek_setLine_of_ne (hl : l.tag = a.tag) (hi : ∀ j, (c.lines (g.setIndex a) j).tag = a.tag → j = i) (hb : b ≠ a)
    (hv : (c.lines (g.setIndex a) i).tag ≠ b.tag) :
    (c.setLine (g.setIndex a) i l).peekSingleLine b = c.peekSingleLine b := by
  apply ext
  intro l'
  rw [(h.setLine hl hi).peek_iff,h.peek_iff]
  have htag : a.tag ≠ b.tag := fun ht => hb (LineAddress.tag_injective ht).symm
  constructor
  · rintro ⟨j,hj,ht⟩
    rw [lines_setLine] at hj
    split_ifs at hj with hij
    · exact (htag (by rw [← hl,hj,ht])).elim
    · exact ⟨j,hj,ht⟩
  · rintro ⟨j,hj,ht⟩
    refine ⟨j,?_,ht⟩
    rw [lines_setLine,if_neg]
    · exact hj
    · rintro ⟨hset,rfl⟩
      rw [← hset,hj] at hv
      exact hv ht

theorem peek_setLine_victim (hl : l.tag = a.tag) (hb : b ≠ a)
    (hset : g.setIndex b = g.setIndex a) (hv : (c.lines (g.setIndex a) i).tag = b.tag) :
    (c.setLine (g.setIndex a) i l).peekSingleLine b = none := by
  rw [peek_eq_none_iff]
  cases hf : (c.setLine (g.setIndex a) i l).find b with
  | none => rfl
  | some j =>
    have ht := tag_of_find hf
    rw [lines_setLine] at ht
    split_ifs at ht with hij
    · exact (hb (LineAddress.tag_injective (hl ▸ ht)).symm).elim
    · rw [hset] at ht hij
      exact (hij ⟨rfl,h.unique _ j i (isValid_of_tag ht) (ht.trans hv.symm)⟩).elim
end

section
variable {c : DataCache g R D} {a : g.Address} {l v : DataLine D} {d : D} {f : DataLine D → DataLine D}
  {c' : DataCache g R D}

def store (c : DataCache g R D) (dram : g.Address → D) : WriteBack.Store g.Address D where
  cached a := (c.peekSingleLine a).map DataLine.entry
  memory := dram

def evictAddress (v : DataLine D) : g.Address := LineAddress.tagToAddress v.tag

theorem WellFormed.congr (h : c.WellFormed) (hl : c'.lines = c.lines) : c'.WellFormed := by
  constructor
  case unique => rw [hl]; exact h.unique
  case homed => rw [hl]; exact h.homed

theorem lines_touch : (c.touch a).lines = c.lines := by
  unfold touch
  split <;> rfl

theorem WellFormed.touch (h : c.WellFormed) : (c.touch a).WellFormed := h.congr lines_touch

@[simp] theorem peek_touch : (c.touch a).peekSingleLine b = c.peekSingleLine b := by
  simp only [peekSingleLine,find,lines_touch]

@[simp] theorem store_touch (dram : g.Address → D) : (c.touch a).store dram = c.store dram := by
  unfold store
  simp

section
variable (h : c.WellFormed)
include h

theorem WellFormed.eq_of_tag (hf : c.find a = some i) (hj : (c.lines (g.setIndex a) j).tag = a.tag) : j = i :=
  h.unique _ j i (isValid_of_tag hj) (hj.trans (tag_of_find hf).symm)

section
variable (hf : ∀ l, (f l).tag = l.tag)
include hf

theorem WellFormed.modify : (c.modify a f).WellFormed := by
  unfold DataCache.modify
  split
  · exact h
  · next i hi => exact h.setLine ((hf _).trans (tag_of_find hi)) fun j => h.eq_of_tag hi

theorem peek_modify
    (hl : c.peekSingleLine a = some l) : (c.modify a f).peekSingleLine = update c.peekSingleLine a (some (f l)) := by
  obtain ⟨i,hi,rfl⟩ := map_eq_some_iff.mp hl
  have ht := (hf (c.lines (g.setIndex a) i)).trans (tag_of_find hi)
  unfold DataCache.modify
  simp only [hi]
  funext b
  by_cases hb : b = a
  · subst hb
    rw [update_self]
    exact peek_setLine h ht fun j => h.eq_of_tag hi
  · rw [update_of_ne hb]
    refine peek_setLine_of_ne h ht (fun j => h.eq_of_tag hi) hb ?_
    rw [tag_of_find hi]
    exact fun hab => hb (LineAddress.tag_injective hab).symm

theorem store_modify (hl : c.peekSingleLine a = some l) (dram : g.Address → D) :
    (c.modify a f).store dram = (c.store dram).put a (f l).entry := by
  rw [store,peek_modify h hf hl]
  exact congrArg (WriteBack.Store.mk · dram) (comp_update (Option.map DataLine.entry) _ a _)

theorem store_modify_of_entry (he : ∀ l, (f l).entry = l.entry) (dram : g.Address → D) :
    (c.modify a f).store dram = c.store dram := by
  cases hp : c.peekSingleLine a with
  | none =>
    unfold DataCache.modify
    rw [peek_eq_none_iff.mp hp]
  | some l =>
    rw [store_modify h hf hp,he]
    exact put_self (by simp [store,hp])
end

theorem WellFormed.writeLine : (c.writeLine a d).WellFormed :=
  (h.modify (f := fun l => { l with data := d }) fun _ => rfl).touch

theorem peek_writeLine (hl : c.peekSingleLine a = some l) : (c.writeLine a d).peekSingleLine =
      update c.peekSingleLine a (some { l with data := d }) := by
  rw [← peek_modify h (f := fun l => { l with data := d }) (fun _ => rfl) hl]
  funext b
  exact peek_touch

theorem store_writeLine (hl : c.peekSingleLine a = some l)
    (dram : g.Address → D) : (c.writeLine a d).store dram = (c.store dram).put a { l.entry with data := d } := by
  rw [writeLine,store_touch,store_modify h (f := fun l => { l with data := d }) (fun _ => rfl) hl]
  rfl

theorem evicted_spec (hv : c.evicted a = some v) : v = c.victim a ∧ v.tag = (evictAddress v : g.Address).tag ∧
      g.setIndex (evictAddress v) = g.setIndex a := by
  unfold evicted at hv
  split_ifs at hv with hvalid
  cases hv
  obtain ⟨b,hb,hset⟩ := h.homed _ _ hvalid
  have haddr : evictAddress (c.victim a) = b := by
    rw [evictAddress,victim,← hb,LineAddress.tagToAddress_tag]
  rw [haddr]
  exact ⟨rfl,hb.symm,hset⟩

theorem peek_evicted (hv : c.evicted a = some v) : c.peekSingleLine (evictAddress v) = some v := by
  obtain ⟨hvic,htag,hset⟩ := evicted_spec h hv
  rw [h.peek_iff,hset]
  exact ⟨(c.replacement a).2,hvic.symm,htag⟩

theorem evicted_address_ne (hmiss : c.peekSingleLine a = none) (hv : c.evicted a = some v) : evictAddress v ≠ a := by
  intro hva
  have hp := peek_evicted h hv
  rw [hva,hmiss] at hp
  cases hp

theorem WellFormed.insertSingleLine (hmiss : c.peekSingleLine a = none) : (c.insertSingleLine a d).WellFormed := by
  refine (h.setLine (a := a) (l := .filled a.tag d) (i := (c.replacement a).2) rfl ?_).congr rfl
  intro j hj
  exact (tag_ne_of_find (peek_eq_none_iff.mp hmiss) j hj).elim
end

def discard (f : g.Address → Option (DataLine D)) : Option (DataLine D) → g.Address → Option (DataLine D)
  | none => f
  | some v => update f (evictAddress v) none

theorem discard_eq_some_iff {f : g.Address → Option (DataLine D)} {o : Option (DataLine D)} :
    discard f o b = some l ↔ f b = some l ∧ o.map evictAddress ≠ some b := by
  cases o with
  | none => simp [discard]
  | some v =>
    by_cases hb : b = evictAddress v
    · simp [discard,hb]
    · simp [discard,hb,Ne.symm hb]

section
variable (h : c.WellFormed) (hmiss : c.peekSingleLine a = none)
include h hmiss

theorem peek_insertSingleLine : (c.insertSingleLine a d).peekSingleLine =
      update (discard c.peekSingleLine (c.evicted a)) a (some (.filled a.tag d)) := by
  have hi : ∀ j, (c.lines (g.setIndex a) j).tag = a.tag → j = (c.replacement a).2 := fun j hj =>
    (tag_ne_of_find (peek_eq_none_iff.mp hmiss) j hj).elim
  funext b
  by_cases hb : b = a
  · subst hb
    rw [update_self]
    exact peek_setLine h rfl hi
  · rw [update_of_ne hb]
    cases hv : c.evicted a with
    | none =>
      refine peek_setLine_of_ne h rfl hi hb fun ht => ?_
      have hvalid : (c.victim a).isValid := isValid_of_tag ht
      simp [evicted,hvalid] at hv
    | some v =>
      obtain ⟨hvic,htag,hset⟩ := evicted_spec h hv
      rw [discard]
      by_cases hbv : b = evictAddress v
      · rw [hbv,update_self]
        exact peek_setLine_victim h rfl (hbv ▸ hb) hset (hvic ▸ htag)
      · rw [update_of_ne hbv]
        refine peek_setLine_of_ne h rfl hi hb fun ht => hbv ?_
        exact LineAddress.tag_injective (ht.symm.trans ((congrArg DataLine.tag hvic).symm.trans htag))

theorem store_insert (hv : c.evicted a = none) (dram : g.Address → D)
    : (c.insertSingleLine a d).store dram = (c.store dram).put a ⟨false,d⟩ := by
  rw [store,peek_insertSingleLine h hmiss,hv]
  exact congrArg (WriteBack.Store.mk · dram) (comp_update (Option.map DataLine.entry) _ a _)

theorem store_insert_drop (hv : c.evicted a = some v) (dram : g.Address → D)
    : (c.insertSingleLine a d).store dram = ((c.store dram).drop (evictAddress v)).put a ⟨false,d⟩ := by
  rw [store,peek_insertSingleLine h hmiss,hv]
  refine congrArg (WriteBack.Store.mk · dram) ((comp_update (Option.map DataLine.entry) _ a _).trans ?_)
  rw [discard,comp_update]
  rfl
end

theorem view_of_peek (hl : c.peekSingleLine a = some l) (dram : g.Address → D) : (c.store dram).view a = l.data :=
  view_of_cached (e := l.entry) (by simp [store,hl])

theorem view_of_miss (hmiss : c.peekSingleLine a = none) (dram : g.Address → D) : (c.store dram).view a = dram a :=
  view_of_not_cached (by simp [store,hmiss])

def writtenBack (c : DataCache g R D) (a : g.Address) (dram : g.Address → D) : g.Address → D :=
  match c.evicted a with
  | some v => if v.cstate = .modified then update dram (evictAddress v) v.data else dram
  | none => dram

theorem evict_victim (h : c.WellFormed) (hmiss : c.peekSingleLine a = none) (hs : (c.store dram).Sound) :
    ∃ t : WriteBack.Store g.Address D, t.Sound ∧ t.view = (c.store dram).view ∧
      t.memory a = dram a ∧ ∀ d, (c.insertSingleLine a d).store (c.writtenBack a dram) = t.put a ⟨false,d⟩ := by
  cases hv : c.evicted a with
  | none =>
    simp only [writtenBack,hv]
    exact ⟨c.store dram,hs,rfl,rfl,fun _ => store_insert h hmiss hv dram⟩
  | some v =>
    have hpeek : (c.store dram).cached (evictAddress v) = some v.entry := by simp [store,peek_evicted h hv]
    have hback : c.writtenBack a dram = update dram (evictAddress v) v.data := by
      simp only [writtenBack,hv]
      split_ifs with hm
      · rfl
      · exact (update_eq_self_iff.mpr (hs _ _ hpeek (by simpa [DataLine.entry] using hm))).symm
    rw [hback]
    exact ⟨_,sound_flush hs,view_flush_of_cached hpeek rfl,
      update_of_ne (evicted_address_ne h hmiss hv).symm _ _,fun _ => store_insert_drop h hmiss hv _⟩

theorem peek_create (a : g.Address) : (create zero policy : DataCache g R D).peekSingleLine a = none := by
  cases hp : (create zero policy : DataCache g R D).peekSingleLine a with
  | none => rfl
  | some l =>
    obtain ⟨i,hi,ht⟩ := ((wellFormed_create zero policy).peek_iff).mp hp
    exact (a.tag_ne_invalid g.pos (by rw [← ht,← hi]; rfl)).elim

theorem sound_create (dram : g.Address → D) : ((create zero policy : DataCache g R D).store dram).Sound :=
  sound_of_empty fun a => by simp [store,peek_create]

theorem view_create (dram : g.Address → D) : ((create zero policy : DataCache g R D).store dram).view = dram :=
  funext fun a => view_of_miss (peek_create zero policy a) dram
end

def oneLine : Geometry := ⟨6,by decide,1,fun _ => 0⟩

def onlyWay : Replacement oneLine.associativity where
  State := Unit
  getReplacementIndex _ _ _ := ((),⟨0,by decide⟩)
  updateReplacementIndex _ _ _ := ()

def lineA : oneLine.Address := LineAddress.tagToAddress 1

def lineB : oneLine.Address := LineAddress.tagToAddress 2

end DataCache
