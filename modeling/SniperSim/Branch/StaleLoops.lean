import SniperSim.Branch.LoopBranchPredictor
import SniperSim.Library.Run

open List Option
namespace LoopBranchPredictor

structure Observed where
  predictor : LoopBranchPredictor
  outcomes : Nat → Nat → List Bool

def changed : List Bool → Bool
  | a :: b :: l => a != b || changed (b :: l)
  | _ => false

namespace Observed
variable (o : Observed)

def start (numWays : Nat) : Observed := { predictor := new numWays, outcomes := fun _ _ => [] }

def record (index w : Nat) (f : List Bool → List Bool) : Nat → Nat → List Bool := fun i v =>
  if i = index ∧ v = w then f (o.outcomes i v) else o.outcomes i v

def step : Call → Observed
  | .lookup ip => { o with predictor := o.predictor.step (.lookup ip) }
  | .update ip actual =>
    { predictor := o.predictor.step (.update ip actual)
      outcomes := match o.predictor.tagWay ip with
        | some w => o.record (genIndex ip) w (actual :: ·)
        | none => o.record (genIndex ip) (o.predictor.victim ip) fun _ => [actual] }

def Sound : Prop := ∀ ip, (o.predictor.lookup ip).1.hit →
  ∃ w, o.predictor.hitWay ip = some w ∧ changed (o.outcomes (genIndex ip) w)

def Clears : Call → Prop
  | .lookup _ => True
  | .update ip _ => o.predictor.tagWay ip = none →
      ∀ e, (o.predictor.ways (genIndex ip))[o.predictor.victim ip]? = some e → e.entry.enabled = false

end Observed

section
theorem changed_cons (a : Bool) (h : changed l) : changed (a :: l) := by
  cases l with
  | nil => exact Bool.noConfusion h
  | cons b l => rw [changed,h,Bool.or_true]

structure Tracks (e : LoopEntry) (outcomes : List Bool) : Prop where
  enabled : e.enabled → changed outcomes
  last : ∀ a, outcomes.head? = some a → e.previousActual = a
  fresh : outcomes = [] → e = blank.entry

variable {e : LoopEntry} {outcomes : List Bool}

theorem Tracks.learn (h : Tracks e outcomes) (actual : Bool) : Tracks (e.learn actual) (actual :: outcomes) := by
  refine ⟨fun hlea => ?_,fun a ha => some.inj ha,fun hnil => absurd hnil (cons_ne_nil _ _)⟩
  cases he : e.enabled with
  | true => exact changed_cons actual (h.enabled he)
  | false =>
    have hne := LoopEntry.previousActual_ne_of_enabled he hlea
    cases outcomes with
    | nil =>
      rw [h.fresh rfl] at hlea
      cases actual <;> cases hlea
    | cons b l =>
      rw [h.last b rfl] at hne
      rw [changed,bne_iff_ne.mpr (Ne.symm hne),Bool.true_or]
end

namespace Observed
section
variable {o : Observed}

def Tracked (o : Observed) : Prop := ∀ index w e, (o.predictor.ways index)[w]? = some e →
  Tracks e.entry (o.outcomes index w)

theorem tracked_start (numWays : Nat) : Tracked (start numWays) := by
  intro index w e he
  obtain rfl := eq_of_mem_replicate (mem_of_getElem? he)
  exact ⟨fun h => Bool.noConfusion h,fun a ha => by simp [start] at ha,fun _ => rfl⟩

theorem Tracked.use (h : Tracked o)
    (hw : ∀ e, (o.predictor.ways index)[w]? = some e → Tracks e.entry (o.outcomes index w) →
      Tracks (f e).entry (g (o.outcomes index w))) :
    Tracked { predictor := o.predictor.use index w f, outcomes := o.record index w g } := by
  intro i v e he
  by_cases hi : i = index
  · subst hi
    rw [getElem?_use] at he
    by_cases hv : v = w
    · subst hv
      rw [if_pos rfl] at he
      obtain ⟨e',he',rfl⟩ := map_eq_some_iff.mp he
      have ht := hw e' he' (h i v e' he')
      simpa [record] using ht
    · rw [if_neg hv] at he
      simpa [record,hv] using h i v e he
  · rw [ways_use_of_ne hi] at he
    simpa [record,hi] using h i v e he

theorem Tracked.step (h : Tracked o) (hc : o.Clears c) : Tracked (o.step c) := by
  obtain ⟨ip,rfl,-,hs⟩ | ⟨ip,w,rfl,-,hs⟩ | ⟨ip,actual,w,rfl,hw,hs⟩ | ⟨ip,actual,rfl,hw,hs⟩ := o.predictor.step_cases c
  · rwa [Observed.step,hs]
  · have hsame : o.record (genIndex ip) w id = o.outcomes := by
      funext i v
      simp [record]
    rw [Observed.step,hs,← hsame]
    exact h.use fun _ _ ht => ht
  · rw [Observed.step,hs,hw]
    exact h.use fun _ _ ht => ht.learn actual
  · rw [Observed.step,hs,hw]
    exact h.use fun e he _ => ⟨fun h => absurd ((hc hw e he).symm.trans h) (by decide),
      fun _ ha => some.inj ha,fun hnil => absurd hnil (cons_ne_nil _ _)⟩

theorem hit_iff (s : LoopBranchPredictor) (ip : Nat) : (s.lookup ip).1.hit ↔ ∃ w, s.hitWay ip = some w := by
  rw [lookup]
  cases s.hitWay ip with
  | none | some w => simp

theorem Tracked.sound (h : Tracked o) : o.Sound := by
  intro ip hhit
  obtain ⟨w,hw⟩ := (hit_iff _ ip).mp hhit
  obtain ⟨⟨e,he,henabled,-⟩,-⟩ := hitWay_eq_some.mp hw
  exact ⟨w,hw,(h _ w e he).enabled henabled⟩

theorem clears_of_sound (h : (o.step c).Sound) : o.Clears c := by
  cases c with
  | lookup ip => trivial
  | update ip actual =>
    intro hw e he
    by_contra henabled
    have hpredictor : (o.step (.update ip actual)).predictor =
        o.predictor.use (genIndex ip) (o.predictor.victim ip) fun e =>
          { e with tag := genTag ip, entry := e.entry.allocate actual } := step_update_none hw
    have hit : (o.step (.update ip actual)).predictor.hitWay ip = some (o.predictor.victim ip) := by
      rw [hpredictor,hitWay_eq_some]
      constructor
      · rw [getElem?_use,if_pos rfl,he]
        exact ⟨_,rfl,Bool.not_eq_false _ ▸ henabled,rfl⟩
      · intro j hj e' he' hbo
        rw [getElem?_use,if_neg (Nat.ne_of_lt hj)] at he'
        exact tagWay_eq_none.mp hw e' (mem_of_getElem? he') hbo.2
    obtain ⟨w,hhit,hch⟩ := h ip ((hit_iff _ ip).mpr ⟨_,hit⟩)
    obtain rfl := some.inj (hit.symm.trans hhit)
    simp only [step,hw,record,and_self,if_true,changed] at hch
    exact Bool.noConfusion hch

theorem no_stale_hit_iff (numWays : Nat) (calls : List Call) :
    (∀ pre, pre <+: calls → (pre.foldl step (start numWays)).Sound) ↔ Run.Along step Clears (start numWays) calls :=
  Run.prefixes_iff_along (I := Tracked) (fun _ h _ _ hc => h.step hc) (fun _ h => h.sound)
    (fun _ _ _ _ h => clears_of_sound h) (tracked_start numWays)

def takeover : List Call := [.update 0x400 true,.update 0x400 false,.update 0x800 true,.update 0xc00 true]

theorem takeover_hits : ((takeover.foldl step (start 2)).predictor.lookup 0xc00).1.hit = true ∧
      (takeover.foldl step (start 2)).predictor.hitWay 0xc00 = some 0 ∧
      (takeover.foldl step (start 2)).outcomes (genIndex 0xc00) 0 = [true] ∧
      ¬(takeover.foldl step (start 2)).Sound := by
  have hit : ((takeover.foldl step (start 2)).predictor.lookup 0xc00).1.hit := by decide
  have hway : (takeover.foldl step (start 2)).predictor.hitWay 0xc00 = some 0 := by decide
  have hout : (takeover.foldl step (start 2)).outcomes (genIndex 0xc00) 0 = [true] := by decide
  refine ⟨hit,hway,hout,fun h => ?_⟩
  obtain ⟨w,hw,hchanged⟩ := h 0xc00 hit
  obtain rfl := some.inj (hway.symm.trans hw)
  exact Bool.noConfusion hchanged
end
end Observed
end LoopBranchPredictor
