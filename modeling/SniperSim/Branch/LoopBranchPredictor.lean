import Mathlib.Algebra.Group.Int.Defs
import Mathlib.Algebra.Group.Nat.Defs
import Mathlib.Logic.Function.Basic
import Mathlib.Tactic.SplitIfs

open List Nat

structure SaturatingPredictor (n : Nat) where
  counter : Int
  lower : -2 ^ (n - 1) ≤ counter
  upper : counter ≤ 2 ^ (n - 1) - 1
deriving DecidableEq

namespace SaturatingPredictor
variable {n : Nat}

theorem half_pos (n : Nat) : (1 : Int) ≤ 2 ^ (n - 1) := Int.pow_pos (by decide)

def ofZero : SaturatingPredictor n := ⟨0,by have := half_pos n; omega,by have := half_pos n; omega⟩

def predict (p : SaturatingPredictor n) : Bool := decide (0 ≤ p.counter)

def reset (prediction : Bool) : SaturatingPredictor n :=
  if prediction then ⟨2 ^ (n - 1) - 1,by have := half_pos n; omega,Int.le_refl _⟩
  else ⟨-2 ^ (n - 1),Int.le_refl _,by have := half_pos n; omega⟩

def increment (p : SaturatingPredictor n) : SaturatingPredictor n :=
  if h : p.counter = 2 ^ (n - 1) - 1 then p
  else ⟨p.counter + 1,by have := p.lower; omega,by have := p.upper; omega⟩

def decrement (p : SaturatingPredictor n) : SaturatingPredictor n :=
  if h : p.counter = -2 ^ (n - 1) then p
  else ⟨p.counter - 1,by have := p.lower; omega,by have := p.upper; omega⟩

def update (p : SaturatingPredictor n) (actual : Bool) : SaturatingPredictor n :=
  if actual then p.increment else p.decrement

@[simp] theorem predict_reset (prediction : Bool) :
    (reset prediction : SaturatingPredictor n).predict = prediction := by
  have := half_pos n
  cases prediction with
  | true => exact decide_eq_true (by simp only [reset,if_true]; omega)
  | false => exact decide_eq_false (by simp only [reset,Bool.false_eq_true,if_false]; omega)

@[simp] theorem predict_update (p : SaturatingPredictor 1) (actual : Bool) : (p.update actual).predict = actual := by
  have hlower := p.lower
  have hupper := p.upper
  cases actual with
  | true =>
    refine decide_eq_true ?_
    simp only [update,increment,if_true,Nat.sub_self,Int.pow_zero]
    split_ifs
    · omega
    · change 0 ≤ p.counter + 1
      omega
  | false =>
    refine decide_eq_false ?_
    simp only [update,decrement,Bool.false_eq_true,if_false,Nat.sub_self,Int.pow_zero]
    split_ifs
    · omega
    · change ¬0 ≤ p.counter - 1
      omega

end SaturatingPredictor

structure LoopEntry where
  (previousActual enabled : Bool)
  predictor : SaturatingPredictor 1
  (count limit : Nat)
deriving DecidableEq

namespace LoopEntry

def counterSize : Nat := 2 ^ 32

def bump (count : Nat) : Nat := (count + 1) % counterSize

variable (e : LoopEntry) (actual : Bool)

def direction : Bool := e.predictor.predict

def prediction : Bool := if e.count = e.limit then !e.direction else e.direction

def predictionMatch : Bool :=
  if e.count = e.limit then e.direction != actual else e.direction == actual

def sameDirection : LoopEntry :=
  if e.predictionMatch actual = false then
    if e.count < e.limit then { e with count := 0, limit := e.count }
    else { e with count := bump e.count, limit := bump e.count, enabled := false }
  else if e.count = e.limit then { e with count := 0 }
  else { e with count := bump e.count }

def changeDirection : LoopEntry :=
  { e with count := 1, limit := 1, predictor := e.predictor.update actual, enabled := false }

def next : LoopEntry :=
  if e.previousActual = actual ∧ actual = !e.direction then e.changeDirection actual
  else if e.previousActual ≠ actual ∧ actual = !e.direction ∧ e.enabled = false then
    { e with enabled := true, count := 0 }
  else e.sameDirection actual

def learn : LoopEntry := { e.next actual with previousActual := actual }

def allocate : LoopEntry :=
  { e with predictor := .reset actual, previousActual := actual, count := 1, limit := 1 }

end LoopEntry

structure WayEntry where
  (tag lru : Nat)
  entry : LoopEntry
deriving DecidableEq

def WayEntry.aged (e : WayEntry) (lru : Nat) : WayEntry := { e with lru }

@[simp] theorem WayEntry.tag_aged (e : WayEntry) (lru : Nat) : (e.aged lru).tag = e.tag := rfl

@[simp] theorem WayEntry.entry_aged (e : WayEntry) (lru : Nat) : (e.aged lru).entry = e.entry := rfl

structure BranchPredictorReturnValue where
  (prediction hit : Bool)
deriving DecidableEq, Repr

structure LoopBranchPredictor where
  lruUseCount : Nat
  ways : Nat → List WayEntry

namespace LoopBranchPredictor

def genIndex (ip : Nat) : Nat := ip / 2 ^ 4 % 2 ^ 6

def genTag (ip : Nat) : Nat := ip / 2 ^ 10 % 2 ^ 6

def blank : WayEntry :=
  { tag := 0, lru := 0
    entry := { previousActual := false, enabled := false, predictor := .ofZero, count := 0, limit := 0 } }

def new (numWays : Nat) : LoopBranchPredictor :=
  { lruUseCount := 0, ways := fun _ => replicate numWays blank }

def tick (useCount : Nat) : Nat := (useCount + 1) % 2 ^ 64

def lruWay : List WayEntry → Nat
  | [] => 0
  | e :: es => scan es 1 0 e.lru
where
  scan : List WayEntry → Nat → Nat → Nat → Nat
    | [], _, best, _ => best
    | e :: es, w, best, age => if e.lru < age then scan es (w + 1) w e.lru else scan es (w + 1) best age

variable (s : LoopBranchPredictor)

def use (index w : Nat) (f : WayEntry → WayEntry) : LoopBranchPredictor :=
  { lruUseCount := tick s.lruUseCount
    ways := Function.update s.ways index ((s.ways index).modify w fun e => (f e).aged s.lruUseCount) }

def hitWay (ip : Nat) : Option Nat := (s.ways (genIndex ip)).findIdx? fun e => e.entry.enabled && e.tag == genTag ip

def tagWay (ip : Nat) : Option Nat := (s.ways (genIndex ip)).findIdx? fun e => e.tag == genTag ip

def lookup (ip : Nat) : BranchPredictorReturnValue × LoopBranchPredictor :=
  match s.hitWay ip with
  | none => (⟨false,false⟩,s)
  | some w => (⟨((s.ways (genIndex ip))[w]?).any (·.entry.prediction),true⟩,s.use (genIndex ip) w id)

def victim (ip : Nat) : Nat := lruWay (s.ways (genIndex ip))

def update (actual : Bool) (ip : Nat) : LoopBranchPredictor :=
  match s.tagWay ip with
  | some w => s.use (genIndex ip) w fun e => { e with entry := e.entry.learn actual }
  | none => s.use (genIndex ip) (s.victim ip) fun e =>
    { e with tag := genTag ip, entry := e.entry.allocate actual }

inductive Call
  | lookup (ip : Nat)
  | update (ip : Nat) (actual : Bool)
deriving DecidableEq, Repr

def Call.ip : Call → Nat
  | .lookup ip | .update ip _ => ip

def step : Call → LoopBranchPredictor
  | .lookup ip => (s.lookup ip).2
  | .update ip actual => s.update actual ip

end LoopBranchPredictor

namespace LoopEntry
section
variable {e : LoopEntry} {actual : Bool}

theorem learn_follow (h : e.direction = actual) (hne : e.count ≠ e.limit) :
    e.learn actual = { e with count := bump e.count, previousActual := actual } := by
  simp [learn,next,sameDirection,predictionMatch,h,hne]

theorem learn_longer (h : e.direction = actual) (heq : e.count = e.limit) :
    e.learn actual = { e with count := bump e.count, limit := bump e.count, enabled := false,
                              previousActual := actual } := by
  simp [learn,next,sameDirection,predictionMatch,h,heq]

theorem learn_change (h : e.direction = !actual) (hprev : e.previousActual = actual) :
    e.learn actual = { e.changeDirection actual with previousActual := actual } := by
  simp [learn,next,h,hprev]

structure Sane (e : LoopEntry) : Prop where
  le : e.count ≤ e.limit
  lt : e.limit < counterSize
  learning : e.enabled = false → e.count = e.limit

theorem one_lt_counterSize : 1 < counterSize := by decide

theorem learn_exit (hs : e.Sane) (h : e.direction = !actual) (hprev : e.previousActual = !actual) :
    e.learn actual = { e with enabled := true, count := 0, limit := e.count, previousActual := actual } := by
  have hlt := hs.le
  cases he : e.enabled with
  | false =>
    have heq := hs.learning he
    simp [learn,next,h,hprev,he,heq]
  | true =>
    rcases Nat.lt_or_eq_of_le hlt with hcl | hcl
    · simp [learn,next,sameDirection,predictionMatch,h,hprev,he,hcl,Nat.ne_of_lt hcl]
    · simp [learn,next,sameDirection,predictionMatch,h,hprev,he,hcl]

theorem Sane.learn_same (hs : e.Sane) (h : e.direction = actual) : (e.learn actual).Sane := by
  by_cases heq : e.count = e.limit
  · rw [learn_longer h heq]
    exact ⟨Nat.le_refl _,mod_lt _ (by decide),fun _ => rfl⟩
  · have hlt : e.count < e.limit := Nat.lt_of_le_of_ne hs.le heq
    have hbump : bump e.count = e.count + 1 := mod_eq_of_lt (by have := hs.lt; omega)
    rw [learn_follow h heq]
    exact ⟨by rw [hbump]; exact hlt,hs.lt,fun he => absurd (hs.learning he) heq⟩

theorem Sane.learn (hs : e.Sane) (actual : Bool) : (e.learn actual).Sane := by
  by_cases h : e.direction = actual
  · exact hs.learn_same h
  · have hd : e.direction = !actual := Bool.eq_not.mpr h
    by_cases hprev : e.previousActual = actual
    · rw [learn_change hd hprev]
      exact ⟨Nat.le_refl _,one_lt_counterSize,fun _ => rfl⟩
    · rw [learn_exit hs hd (Bool.eq_not.mpr hprev)]
      exact ⟨Nat.zero_le _,Nat.lt_of_le_of_lt hs.le hs.lt,fun he => Bool.noConfusion he⟩

theorem sane_allocate (e : LoopEntry) (actual : Bool) : (e.allocate actual).Sane :=
  ⟨Nat.le_refl _,one_lt_counterSize,fun _ => rfl⟩

@[simp] theorem direction_allocate (e : LoopEntry) (actual : Bool) :
    (e.allocate actual).direction = actual := SaturatingPredictor.predict_reset actual

@[simp] theorem direction_changeDirection (e : LoopEntry) (actual : Bool) :
    (e.changeDirection actual).direction = actual := SaturatingPredictor.predict_update _ actual

theorem previousActual_ne_of_enabled (he : e.enabled = false) (h : (e.learn actual).enabled) :
    e.previousActual ≠ actual := by
  rintro rfl
  by_cases hd : e.previousActual = !e.direction
  · rw [learn_change (by rw [hd,Bool.not_not]) rfl] at h
    exact Bool.noConfusion h
  · have hd : e.direction = e.previousActual := by
      cases hp : e.previousActual <;> cases hq : e.direction <;> simp [hp,hq] at hd ⊢
    by_cases heq : e.count = e.limit
    · rw [learn_longer hd heq] at h
      exact Bool.noConfusion h
    · rw [learn_follow hd heq] at h
      exact absurd (he.symm.trans h) (by decide)
end
end LoopEntry

namespace LoopBranchPredictor
section
variable {s : LoopBranchPredictor} {ip index w : Nat} {f : WayEntry → WayEntry}

theorem scan_lt (es : List WayEntry) (age : Nat) (h : best < w) : lruWay.scan es w best age < w + es.length := by
  induction es generalizing w best age with
  | nil => simpa [lruWay.scan] using h
  | cons e es ih =>
    rw [lruWay.scan,length_cons]
    split_ifs
    · exact lt_of_lt_of_eq (ih e.lru (lt_succ_self w)) (by omega)
    · exact lt_of_lt_of_eq (ih age (lt_succ_of_lt h)) (by omega)

theorem lruWay_lt (h : es ≠ []) : lruWay es < es.length := by
  cases es with
  | nil => exact absurd rfl h
  | cons e es =>
    have := scan_lt es e.lru Nat.zero_lt_one
    rw [lruWay,length_cons]
    omega

theorem ways_use_of_ne (h : index' ≠ index) :
    (s.use index w f).ways index' = s.ways index' := Function.update_of_ne h _ _

theorem ways_use_self : (s.use index w f).ways index =
    (s.ways index).modify w fun e => (f e).aged s.lruUseCount := Function.update_self ..

theorem getElem?_use (i : Nat) : ((s.use index w f).ways index)[i]? =
    if i = w then ((s.ways index)[i]?).map fun e => (f e).aged s.lruUseCount else (s.ways index)[i]? := by
  rw [ways_use_self,getElem?_modify]
  by_cases h : i = w
  · subst h
    simp
  · rw [if_neg h]
    simp [Ne.symm h]

theorem length_use (index' : Nat) : ((s.use index w f).ways index').length = (s.ways index').length := by
  by_cases h : index' = index
  · subst h
    rw [ways_use_self,length_modify]
  · rw [ways_use_of_ne h]

theorem step_update_some (h : s.tagWay ip = some w) : s.step (.update ip actual) =
    s.use (genIndex ip) w fun e => { e with entry := e.entry.learn actual } := by
  rw [step,update,h]

theorem step_update_none (h : s.tagWay ip = none) : s.step (.update ip actual) =
    s.use (genIndex ip) (s.victim ip) fun e =>
      { e with tag := genTag ip, entry := e.entry.allocate actual } := by
  rw [step,update,h]

theorem step_cases (c : Call) : (∃ ip, c = .lookup ip ∧ s.hitWay ip = none ∧ s.step c = s) ∨
    (∃ ip w, c = .lookup ip ∧ s.hitWay ip = some w ∧ s.step c = s.use (genIndex ip) w id) ∨
    (∃ ip actual w, c = .update ip actual ∧ s.tagWay ip = some w ∧
      s.step c = s.use (genIndex ip) w fun e => { e with entry := e.entry.learn actual }) ∨
    ∃ ip actual, c = .update ip actual ∧ s.tagWay ip = none ∧ s.step c = s.use (genIndex ip) (s.victim ip) fun e =>
        { e with tag := genTag ip, entry := e.entry.allocate actual } := by
  cases c with
  | lookup ip =>
    cases hw : s.hitWay ip with
    | none => exact .inl ⟨ip,rfl,hw,by rw [step,lookup,hw]⟩
    | some w => exact .inr (.inl ⟨ip,w,rfl,hw,by rw [step,lookup,hw]⟩)
  | update ip actual =>
    cases hw : s.tagWay ip with
    | some w => exact .inr (.inr (.inl ⟨ip,actual,w,rfl,hw,step_update_some hw⟩))
    | none => exact .inr (.inr (.inr ⟨ip,actual,rfl,hw,step_update_none hw⟩))

theorem ways_step_of_ne (h : genIndex c.ip ≠ index) : (s.step c).ways index = s.ways index := by
  obtain ⟨ip,rfl,-,hs⟩ | ⟨ip,w,rfl,-,hs⟩ | ⟨ip,actual,w,rfl,-,hs⟩ | ⟨ip,actual,rfl,-,hs⟩ := step_cases c
  · rw [hs]
  all_goals
    rw [hs]
    exact ways_use_of_ne (Ne.symm h)

theorem findIdx?_eq_some_iff {p : WayEntry → Bool} {ways : List WayEntry} : ways.findIdx? p = some w ↔
    (∃ e, ways[w]? = some e ∧ p e) ∧ ∀ j < w, ∀ e, ways[j]? = some e → ¬p e := by
  rw [findIdx?_eq_some_iff_getElem]
  constructor
  · rintro ⟨hlt,htag,hbefore⟩
    refine ⟨⟨_,getElem?_eq_getElem hlt,htag⟩,fun j hj e he => ?_⟩
    obtain ⟨hj',rfl⟩ := List.getElem?_eq_some_iff.mp he
    exact hbefore j hj
  · rintro ⟨⟨e,he,htag⟩,hbefore⟩
    obtain ⟨hlt,rfl⟩ := List.getElem?_eq_some_iff.mp he
    exact ⟨hlt,htag,fun j hj => hbefore j hj _ (getElem?_eq_getElem (Nat.lt_trans hj hlt))⟩

theorem tagWay_eq_some : s.tagWay ip = some w ↔ (∃ e, (s.ways (genIndex ip))[w]? = some e ∧ e.tag = genTag ip) ∧
      ∀ j < w, ∀ e, (s.ways (genIndex ip))[j]? = some e → e.tag ≠ genTag ip := by
  rw [tagWay,findIdx?_eq_some_iff]
  simp

theorem tagWay_eq_none : s.tagWay ip = none ↔ ∀ e ∈ s.ways (genIndex ip), e.tag ≠ genTag ip := by
  rw [tagWay,findIdx?_eq_none_iff]
  simp

theorem hitWay_eq_some : s.hitWay ip = some w ↔
    (∃ e, (s.ways (genIndex ip))[w]? = some e ∧ e.entry.enabled ∧ e.tag = genTag ip) ∧
      ∀ j < w, ∀ e, (s.ways (genIndex ip))[j]? = some e → ¬(e.entry.enabled ∧ e.tag = genTag ip) := by
  rw [hitWay,findIdx?_eq_some_iff]
  simp

theorem hitWay_eq_none : s.hitWay ip = none ↔ ∀ e ∈ s.ways (genIndex ip), ¬(e.entry.enabled ∧ e.tag = genTag ip) := by
  rw [hitWay,findIdx?_eq_none_iff]
  simp
end
end LoopBranchPredictor
