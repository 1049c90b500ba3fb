import SniperSim.Branch.LoopBranchPredictor
import SniperSim.Library.Run
import Mathlib.Data.List.Induction

open List Option Nat LoopEntry BranchPredictorReturnValue Bool
namespace LoopEntry
section
variable {N : Nat} {d : Bool} {e : LoopEntry} {r : Nat}

structure Follows (d : Bool) (e : LoopEntry) : Prop where
  direction : e.direction = d
  last : e.previousActual = d
  sane : e.Sane

structure Reversed (d : Bool) (e : LoopEntry) : Prop where
  direction : e.direction = !d
  last : e.previousActual = d
  sane : e.Sane
  count : e.count = 0

def First (d : Bool) (r : Nat) (e : LoopEntry) : Prop := e.Follows d ∨ r = 1 ∧ e.Reversed d

structure Counts (d : Bool) (r : Nat) (e : LoopEntry) : Prop where
  direction : e.direction = d
  last : 0 < r → e.previousActual = d
  sane : e.Sane
  count : e.count = r

structure Alternates (d : Bool) (r : Nat) (e : LoopEntry) : Prop where
  direction : e.direction = !d
  last : e.previousActual = if r = 0 then !d else d
  sane : e.Sane
  count : e.count = 1 - r

def Second (N : Nat) (d : Bool) (r : Nat) (e : LoopEntry) : Prop :=
  e.Counts d r ∨ N = 2 ∧ e.Alternates d r ∧ (0 < r → e.enabled ∧ e.limit = 1)

def Steady (N : Nat) (d : Bool) (r : Nat) (e : LoopEntry) : Prop :=
  e.enabled ∧ e.limit = N - 1 ∧ (e.Counts d r ∨ N = 2 ∧ e.Alternates d r)

def Stage (N : Nat) (d : Bool) : Nat → Nat → LoopEntry → Prop
  | 0 => First d
  | 1 => Second N d
  | _ => Steady N d

theorem count_learn_same (h : e.direction = d) : (e.learn d).count = bump e.count := by
  by_cases heq : e.count = e.limit
  · rw [learn_longer h heq]
  · rw [learn_follow h heq]

theorem direction_learn_same (h : e.direction = d) : (e.learn d).direction = d := by
  by_cases heq : e.count = e.limit
  · rwa [learn_longer h heq]
  · rwa [learn_follow h heq]

theorem follows_learn_same (h : e.direction = d) (hs : e.Sane) : (e.learn d).Follows d :=
  ⟨direction_learn_same h,rfl,hs.learn_same h⟩

theorem follows_learn_change (h : e.direction = !d) (hlast : e.previousActual = d) (hs : e.Sane) :
    (e.learn d).Follows d := by
  refine ⟨?_,rfl,hs.learn d⟩
  rw [learn_change h hlast]
  exact direction_changeDirection e d

theorem first_learn (hs : e.Sane) : First d 1 (e.learn d) := by
  by_cases h : e.direction = d
  · exact .inl (follows_learn_same h hs)
  · have h : e.direction = !d := eq_not.mpr h
    by_cases hlast : e.previousActual = d
    · exact .inl (follows_learn_change h hlast hs)
    · refine .inr ⟨rfl,?_,rfl,hs.learn d,?_⟩ <;> rw [learn_exit hs h (eq_not.mpr hlast)]
      exact h

theorem First.learn (h : First d r e) : First d (r + 1) (e.learn d) := by
  rcases h with h | ⟨-,h⟩
  · exact .inl (follows_learn_same h.direction h.sane)
  · exact .inl (follows_learn_change h.direction h.last h.sane)

theorem learn_leave (hs : e.Sane) (h : e.direction = d) (hlast : e.previousActual = d) :
    e.learn (!d) = { e with enabled := true, count := 0, limit := e.count, previousActual := !d } :=
  learn_exit hs (by rw [h,Bool.not_not]) (by rw [hlast,Bool.not_not])

theorem counts_exit (hs : e.Sane) (h : e.direction = d) (hlast : e.previousActual = d) : (e.learn (!d)).Counts d 0 := by
  have hleave := learn_leave hs h hlast
  exact ⟨by rw [hleave]; exact h,fun hpos => absurd hpos (Nat.lt_irrefl 0),hs.learn _,by rw [hleave]⟩

theorem bump_eq {count : Nat} (h : count + 1 < counterSize) : bump count = count + 1 := Nat.mod_eq_of_lt h

theorem First.exit (h : First d (N - 1) e) : Second N d 0 (e.learn (!d)) := by
  rcases h with h | ⟨hr,h⟩
  · exact .inl (counts_exit h.sane h.direction h.last)
  · refine .inr ⟨by omega,⟨direction_learn_same h.direction,rfl,h.sane.learn _,?_⟩,
      fun hpos => absurd hpos (Nat.lt_irrefl 0)⟩
    rw [count_learn_same h.direction,h.count]
    rfl

theorem Counts.learn (h : Counts d r e) (hr : r + 1 < counterSize) : Counts d (r + 1) (e.learn d) :=
  ⟨direction_learn_same h.direction,fun _ => rfl,h.sane.learn_same h.direction,
    by rw [count_learn_same h.direction,h.count,bump_eq hr]⟩

theorem Alternates.learn (h : Alternates d 0 e) :
    Alternates d 1 (e.learn d) ∧ (e.learn d).enabled ∧ (e.learn d).limit = 1 := by
  have hexi := learn_exit h.sane h.direction (by simpa using h.last)
  rw [hexi]
  refine ⟨⟨h.direction,rfl,?_,rfl⟩,rfl,h.count⟩
  rw [← hexi]
  exact h.sane.learn d

theorem Alternates.exit (h : Alternates d 1 e) (hli : e.limit = 1) :
    Alternates d 0 (e.learn (!d)) ∧ (e.learn (!d)).enabled = e.enabled ∧ (e.learn (!d)).limit = 1 := by
  have hcount := h.count
  have hfo := learn_follow h.direction (by rw [hcount,hli]; decide)
  refine ⟨⟨direction_learn_same h.direction,rfl,h.sane.learn _,?_⟩,by rw [hfo],by rw [hfo,hli]⟩
  rw [count_learn_same h.direction,hcount]
  rfl

theorem Second.learn (h : Second N d r e) (hr : r + 1 < N) (hN : N ≤ counterSize) : Second N d (r + 1) (e.learn d) := by
  rcases h with h | ⟨rfl,h,-⟩
  · exact .inl (h.learn (by omega))
  · obtain rfl : r = 0 := by omega
    obtain ⟨halt,hbo⟩ := h.learn
    exact .inr ⟨rfl,halt,fun _ => hbo⟩

theorem Second.exit (h : Second N d (N - 1) e) (hN : 2 ≤ N) : Steady N d 0 (e.learn (!d)) := by
  rcases h with h | ⟨rfl,h,hbo⟩
  · have hlast := h.last (by omega)
    have hleave := learn_leave h.sane h.direction hlast
    exact ⟨by rw [hleave],by rw [hleave]; exact h.count,.inl (counts_exit h.sane h.direction hlast)⟩
  · obtain ⟨henabled,hli⟩ := hbo (by decide)
    obtain ⟨halt,hen,hlim⟩ := h.exit hli
    exact ⟨hen.trans henabled,hlim,.inr ⟨rfl,halt⟩⟩

theorem Steady.learn (h : Steady N d r e) (hr : r + 1 < N) (hN : N ≤ counterSize) : Steady N d (r + 1) (e.learn d) := by
  obtain ⟨henabled,hli,h | ⟨rfl,h⟩⟩ := h
  · have hfo := learn_follow h.direction (by rw [h.count,hli]; omega)
    exact ⟨by rw [hfo,henabled],by rw [hfo,hli],.inl (h.learn (by omega))⟩
  · obtain rfl : r = 0 := by omega
    obtain ⟨halt,hen,hlim⟩ := h.learn
    exact ⟨hen,hlim,.inr ⟨rfl,halt⟩⟩

theorem Steady.exit (h : Steady N d (N - 1) e) (hN : 2 ≤ N) : Steady N d 0 (e.learn (!d)) := by
  obtain ⟨henabled,hli,h | ⟨hN2,h⟩⟩ := h
  · exact Second.exit (.inl h) hN
  · exact Second.exit (.inr ⟨hN2,h,fun _ => ⟨henabled,by omega⟩⟩) hN

theorem Steady.prediction (h : Steady N d r e) (hr : r < N) : e.prediction = if r = N - 1 then !d else d := by
  obtain ⟨-,hli,h | ⟨rfl,h⟩⟩ := h
  · rw [LoopEntry.prediction,h.count,hli,h.direction]
  · rw [LoopEntry.prediction,h.count,hli,h.direction,Bool.not_not]
    rcases (by omega : r = 0 ∨ r = 1) with rfl | rfl <;> rfl

theorem Stage.learn (h : Stage N d q r e) (hr : r + 1 < N) (hN : N ≤ counterSize) :
    Stage N d q (r + 1) (e.learn d) := by
  match q with
  | 0 => exact First.learn h
  | 1 => exact Second.learn h hr hN
  | _ + 2 => exact Steady.learn h hr hN

theorem Stage.exit (h : Stage N d q (N - 1) e) (hN : 2 ≤ N) : Stage N d (q + 1) 0 (e.learn (!d)) := by
  match q with
  | 0 => exact First.exit h
  | 1 => exact Second.exit h hN
  | _ + 2 => exact Steady.exit h hN

theorem long_run_lt {m : Nat} {E : Nat → LoopEntry} (hm : 2 ≤ m)
    (hri : ∀ j ≤ m, (E j).Sane ∧ (E j).enabled ∧ (E j).prediction = d)
    (hstep : ∀ j < m, E (j + 1) = (E j).learn d) : m + 1 < counterSize := by
  have hdir : (E 0).direction = d := by
    by_contra hne
    have hrev : (E 0).direction = !d := eq_not.mpr hne
    have hoff : ∀ j < m, (E j).direction = !d → (E j).previousActual = d → False := by
      intro j hj hdi hlast
      have henabled := (hri (j + 1) hj).2.1
      rw [hstep j hj,learn_change hdi hlast] at henabled
      exact Bool.noConfusion henabled
    by_cases hlast : (E 0).previousActual = d
    · exact hoff 0 (by omega) hrev hlast
    · have hexi := learn_exit (hri 0 (zero_le _)).1 hrev (eq_not.mpr hlast)
      rw [← hstep 0 (by omega)] at hexi
      exact hoff 1 (by omega) (by rw [hexi]; exact hrev) (by rw [hexi])
  have hcount : ∀ j ≤ m, (E j).direction = d ∧ (E j).count = (E 0).count + j ∧
      (E j).limit = (E 0).limit ∧ (E j).count < (E j).limit := by
    intro j
    induction j with
    | zero =>
      intro hj
      obtain ⟨hsa,-,hpre⟩ := hri 0 hj
      refine ⟨hdir,rfl,rfl,Nat.lt_of_le_of_ne hsa.le fun heq => ?_⟩
      rw [prediction,if_pos heq,hdir] at hpre
      exact absurd hpre (by cases d <;> decide)
    | succ j ih =>
      intro hj
      obtain ⟨hdi,hcount,hli,hlt⟩ := ih (le_of_succ_le hj)
      obtain ⟨hsa,-,hpre⟩ := hri (j + 1) hj
      have hbump : bump (E j).count = (E j).count + 1 := bump_eq (by have := (hri j (le_of_succ_le hj)).1.lt; omega)
      have hnext := (hstep j hj).trans (learn_follow hdi (Nat.ne_of_lt hlt))
      have hdirection' : (E (j + 1)).direction = d := by rw [hnext]; exact hdi
      refine ⟨hdirection',?_,?_,Nat.lt_of_le_of_ne hsa.le fun heq => ?_⟩
      · have hco' : (E (j + 1)).count = (E j).count + 1 := by rw [hnext,hbump]
        omega
      · rw [hnext,hli]
      · rw [prediction,if_pos heq,hdirection'] at hpre
        exact absurd hpre (by cases d <;> decide)
  obtain ⟨-,hco,-,hlt⟩ := hcount m (Nat.le_refl m)
  have hsize := (hri m (Nat.le_refl m)).1.lt
  omega
end
end LoopEntry

namespace LoopBranchPredictor

structure Shaped (numWays : Nat) (s : LoopBranchPredictor) : Prop where
  length : ∀ index, (s.ways index).length = numWays
  sane : ∀ (index w : Nat) (e : WayEntry), (s.ways index)[w]? = some e → e.entry.Sane
  ordered : ∀ (index v w : Nat) (e e' : WayEntry), v < w → (s.ways index)[v]? = some e →
    (s.ways index)[w]? = some e' → e.tag = e'.tag → e'.entry.enabled = false

section
variable {s : LoopBranchPredictor} {index w : Nat}

theorem shaped_new (nw : Nat) : Shaped nw (new nw) := by
  have hblank : ∀ index w e, ((new nw).ways index)[w]? = some e → e = blank := fun index w e he =>
    eq_of_mem_replicate (mem_of_getElem? he)
  refine ⟨fun _ => length_replicate,fun index w e he => ?_,fun index v w e e' _ _ he' _ => ?_⟩
  · rw [hblank index w e he]
    exact ⟨Nat.le_refl _,by decide,fun _ => rfl⟩
  · rw [hblank index w e' he']
    rfl

theorem Shaped.use (h : Shaped nw s) (hsa : ∀ e, (s.ways index)[w]? = some e → (f e).entry.Sane)
    (haf : ∀ e, (s.ways index)[w]? = some e → ∀ v e', w < v → (s.ways index)[v]? = some e' →
      (f e).tag = e'.tag → e'.entry.enabled = false)
    (hbefore : ∀ e, (s.ways index)[w]? = some e → ∀ v e', v < w → (s.ways index)[v]? = some e' →
      e'.tag = (f e).tag → (f e).entry.enabled = false) : Shaped nw (s.use index w f) := by
  refine ⟨fun i => (length_use i).trans (h.length i),fun i v e he => ?_,fun i u v e e' hlt he he' htag => ?_⟩
  · by_cases hi : i = index
    · subst hi
      rw [getElem?_use] at he
      split_ifs at he with hv
      · subst hv
        obtain ⟨e₀,he₀,rfl⟩ := map_eq_some_iff.mp he
        exact hsa e₀ he₀
      · exact h.sane i v e he
    · rw [ways_use_of_ne hi] at he
      exact h.sane i v e he
  · by_cases hi : i = index
    · subst hi
      rw [getElem?_use] at he he'
      split_ifs at he he' with hu hv hv
      · omega
      · subst hu
        obtain ⟨e₀,he₀,rfl⟩ := map_eq_some_iff.mp he
        exact haf e₀ he₀ v e' hlt he' htag
      · subst hv
        obtain ⟨e₀,he₀,rfl⟩ := map_eq_some_iff.mp he'
        exact hbefore e₀ he₀ u e hlt he htag
      · exact h.ordered i u v e e' hlt he he' htag
    · rw [ways_use_of_ne hi] at he he'
      exact h.ordered i u v e e' hlt he he' htag

theorem Shaped.step (h : Shaped nw s) (c : Call) : Shaped nw (s.step c) := by
  obtain ⟨ip,rfl,-,hs⟩ | ⟨ip,w,rfl,-,hs⟩ | ⟨ip,actual,w,rfl,hw,hs⟩ | ⟨ip,actual,rfl,hw,hs⟩ := step_cases c
  · rwa [hs]
  · rw [hs]
    exact h.use (fun e he => h.sane _ w e he)
      (fun e he v e' hlt he' htag => h.ordered _ w v e e' hlt he he' htag)
      (fun e he v e' hlt he' htag => h.ordered _ v w e' e hlt he' he htag)
  · rw [hs]
    obtain ⟨⟨e₀,he₀,htag₀⟩,hfirst⟩ := tagWay_eq_some.mp hw
    refine h.use (fun e he => (h.sane _ w e he).learn actual)
      (fun e he v e' hlt he' htag => h.ordered _ w v e e' hlt he he' htag)
      (fun e he v e' hlt he' htag => absurd htag ?_)
    obtain rfl := some.inj (he₀.symm.trans he)
    exact fun heq => hfirst v hlt e' he' (heq.trans htag₀)
  · rw [hs]
    have hnone := tagWay_eq_none.mp hw
    exact h.use (fun e _ => sane_allocate _ actual)
      (fun e _ v e' _ he' htag => absurd htag.symm (hnone e' (mem_of_getElem? he')))
      (fun e _ v e' _ he' htag => absurd htag (hnone e' (mem_of_getElem? he')))

theorem Shaped.foldl (h : Shaped nw s) (calls : List Call) : Shaped nw (calls.foldl LoopBranchPredictor.step s) :=
  Run.foldl_invariant (I := Shaped nw) (fun _ c h => h.step c) h calls
end

def entryOf (s : LoopBranchPredictor) (ip : Nat) : Option LoopEntry :=
  (s.tagWay ip).bind fun w => ((s.ways (genIndex ip))[w]?).map (·.entry)

section
variable {s : LoopBranchPredictor} {ip : Nat} {e : LoopEntry}

theorem entryOf_eq_some : s.entryOf ip = some e ↔
    ∃ w v, s.tagWay ip = some w ∧ (s.ways (genIndex ip))[w]? = some v ∧ v.entry = e := by
  simp [entryOf,bind_eq_some_iff]

theorem tagWay_use (hf : ∀ e, (f e).tag = e.tag) : (s.use index w f).tagWay ip = s.tagWay ip := by
  have htags : ((s.use index w f).ways (genIndex ip)).map (·.tag) = (s.ways (genIndex ip)).map (·.tag) := by
    by_cases hi : genIndex ip = index
    · subst hi
      refine ext_getElem? fun i => ?_
      rw [getElem?_map,getElem?_map,getElem?_use]
      split_ifs
      · cases (s.ways (genIndex ip))[i]? <;> simp [*]
      · rfl
    · rw [ways_use_of_ne hi]
  have hmap : ∀ es : List WayEntry, es.findIdx? (fun e => e.tag == genTag ip) =
      (es.map (·.tag)).findIdx? (· == genTag ip) := fun es => by
    rw [findIdx?_map]
    rfl
  rw [tagWay,tagWay,hmap,hmap,htags]

theorem entryOf_lookup (ip' : Nat) : (s.step (.lookup ip')).entryOf ip = s.entryOf ip := by
  obtain ⟨ip₁,hc,-,hs⟩ | ⟨ip₁,w,hc,-,hs⟩ | ⟨_,_,_,hc,-⟩ | ⟨_,_,hc,-⟩ := s.step_cases (.lookup ip')
  · rw [hs]
  · rw [hs,entryOf,entryOf,tagWay_use (f := id) fun _ => rfl]
    cases s.tagWay ip with
    | none => rfl
    | some v =>
      simp only [bind_some]
      by_cases hi : genIndex ip = genIndex ip₁
      · rw [hi,getElem?_use]
        split_ifs
        · rw [Option.map_map]
          rfl
        · rfl
      · rw [ways_use_of_ne hi]
  · exact Call.noConfusion hc
  · exact Call.noConfusion hc

theorem entryOf_update_some (h : s.entryOf ip = some e) (actual : Bool) :
    (s.step (.update ip actual)).entryOf ip = some (e.learn actual) := by
  obtain ⟨w,v,hw,hv,rfl⟩ := entryOf_eq_some.mp h
  rw [step_update_some hw]
  refine entryOf_eq_some.mpr ⟨w,({ v with entry := v.entry.learn actual } : WayEntry).aged s.lruUseCount,
    (tagWay_use (f := fun e => { e with entry := e.entry.learn actual }) fun _ => rfl).trans hw,?_,rfl⟩
  rw [getElem?_use,if_pos rfl,hv]
  rfl

theorem entryOf_update_none (hs : Shaped nw s) (hpos : 0 < nw) (h : s.entryOf ip = none)
    (actual : Bool) : ∃ e : LoopEntry, (s.step (.update ip actual)).entryOf ip = some (e.allocate actual) := by
  have hw : s.tagWay ip = none := by
    cases hw : s.tagWay ip with
    | none => rfl
    | some w =>
      obtain ⟨⟨e,he,-⟩,-⟩ := tagWay_eq_some.mp hw
      simp [entryOf,hw,he] at h
  have hlt : s.victim ip < (s.ways (genIndex ip)).length :=
    lruWay_lt (ne_nil_of_length_pos (by rw [hs.length]; exact hpos))
  obtain ⟨v,hv⟩ : ∃ v, ((s.step (.update ip actual)).ways (genIndex ip))[s.victim ip]? = some v ∧
      v.tag = genTag ip ∧ v.entry = (s.ways (genIndex ip))[s.victim ip].entry.allocate actual := by
    rw [step_update_none hw,getElem?_use,if_pos rfl,getElem?_eq_getElem hlt]
    exact ⟨_,rfl,rfl,rfl⟩
  refine ⟨_,entryOf_eq_some.mpr ⟨s.victim ip,v,tagWay_eq_some.mpr ⟨⟨v,hv.1,hv.2.1⟩,?_⟩,hv.1,hv.2.2⟩⟩
  intro j hj e he
  rw [step_update_none hw,getElem?_use,if_neg (Nat.ne_of_lt hj)] at he
  exact tagWay_eq_none.mp hw e (mem_of_getElem? he)

theorem lookup_of_entry (hs : Shaped nw s) (h : s.entryOf ip = some e) :
    (s.lookup ip).1 = if e.enabled then ⟨e.prediction,true⟩ else ⟨false,false⟩ := by
  obtain ⟨w,v,hw,hv,rfl⟩ := entryOf_eq_some.mp h
  obtain ⟨⟨v',hv',htag⟩,hfirst⟩ := tagWay_eq_some.mp hw
  obtain rfl := some.inj (hv.symm.trans hv')
  cases he : v.entry.enabled with
  | true =>
    have hit : s.hitWay ip = some w := hitWay_eq_some.mpr
      ⟨⟨v,hv,he,htag⟩,fun j hj e' he' hbo => hfirst j hj e' he' hbo.2⟩
    rw [lookup,hit]
    simp [hv]
  | false =>
    have hmiss : s.hitWay ip = none := by
      refine hitWay_eq_none.mpr fun e' hmem hbo => ?_
      obtain ⟨j,hj⟩ := getElem?_of_mem hmem
      rcases Nat.lt_trichotomy j w with hlt | rfl | hlt
      · exact hfirst j hlt e' hj hbo.2
      · obtain rfl := some.inj (hv.symm.trans hj)
        exact absurd (he.symm.trans hbo.1) (by decide)
      · have hoff := hs.ordered _ w j v e' hlt hv hj (htag.trans hbo.2.symm)
        exact absurd (hoff.symm.trans hbo.1) (by decide)
    rw [lookup,hmiss]
    rfl

theorem lookup_of_none (h : s.entryOf ip = none) : (s.lookup ip).1 = ⟨false,false⟩ := by
  have hmiss : s.hitWay ip = none := by
    refine hitWay_eq_none.mpr fun e hmem hbo => ?_
    cases hw : s.tagWay ip with
    | none => exact tagWay_eq_none.mp hw e hmem hbo.2
    | some w =>
      obtain ⟨⟨v,hv,-⟩,-⟩ := tagWay_eq_some.mp hw
      simp [entryOf,hw,hv] at h
  rw [lookup,hmiss]

theorem Shaped.entry (hs : Shaped nw s) (h : s.entryOf ip = some e) : e.Sane := by
  obtain ⟨w,v,-,hv,rfl⟩ := entryOf_eq_some.mp h
  exact hs.sane _ w v hv
end

def outcome (N : Nat) (d : Bool) (k : Nat) : Bool := if k % N = N - 1 then !d else d

def rounds (ip N : Nat) (d : Bool) : Nat → List Call
  | 0 => []
  | k + 1 => rounds ip N d k ++ [.lookup ip,.update ip (outcome N d k)]

def Learns (s : LoopBranchPredictor) (ip N : Nat) (d : Bool) : Prop := ∀ (calls : List Call) (k : Nat),
  calls.filter (fun c => genIndex c.ip == genIndex ip) = rounds ip N d k → 4 * N ≤ k →
    ((calls.foldl step s).lookup ip).1 = ⟨outcome N d k,true⟩

section
variable {ip N k : Nat} {d : Bool} {s : LoopBranchPredictor}

theorem next_round (hN : 2 ≤ N) (k : Nat) : k % N = N - 1 ∧ (k + 1) / N = k / N + 1 ∧ (k + 1) % N = 0 ∨
      k % N + 1 < N ∧ (k + 1) / N = k / N ∧ (k + 1) % N = k % N + 1 := by
  have hlt := mod_lt k (by omega : 0 < N)
  have hdiv := div_add_mod k N
  by_cases hlast : k % N = N - 1
  · have hk : k + 1 = N * (k / N + 1) := by rw [mul_succ]; omega
    refine .inl ⟨hlast,?_,?_⟩
    · rw [hk,Nat.mul_div_cancel_left _ (by omega)]
    · rw [hk,mul_mod_right]
  · have hk : k + 1 = k % N + 1 + N * (k / N) := by omega
    refine .inr ⟨by omega,?_,?_⟩
    · rw [hk,Nat.add_mul_div_left _ _ (by omega),Nat.div_eq_of_lt (by omega),Nat.zero_add]
    · rw [hk,add_mul_mod_self_left,Nat.mod_eq_of_lt (by omega)]

theorem rounds_succ (ip N : Nat) (d : Bool) (k : Nat) : rounds ip N d (k + 1) =
    rounds ip N d k ++ [.lookup ip] ++ [.update ip (outcome N d k)] := by
  rw [rounds,append_assoc]
  rfl

def Trained (s : LoopBranchPredictor) (ip N : Nat) (d : Bool) (k : Nat) (o : Option LoopEntry) : Prop :=
  k = 0 ∧ o = s.entryOf ip ∨ 0 < k ∧ ∃ e, o = some e ∧ LoopEntry.Stage N d (k / N) (k % N) e

theorem Trained.update (hpos : 0 < nw) (hN : 2 ≤ N) (hsize : N ≤ counterSize) (ht : Shaped nw t)
    (h : Trained s ip N d k (t.entryOf ip)) :
    Trained s ip N d (k + 1) ((t.step (.update ip (outcome N d k))).entryOf ip) := by
  refine .inr ⟨succ_pos k,?_⟩
  rcases h with ⟨rfl,-⟩ | ⟨-,e,he,hsta⟩
  · have hfirst : outcome N d 0 = d := by simp [outcome,show ¬0 = N - 1 by omega]
    rw [hfirst,Nat.div_eq_of_lt (by omega),Nat.mod_eq_of_lt (by omega)]
    cases he : t.entryOf ip with
    | none =>
      obtain ⟨e,he'⟩ := entryOf_update_none ht hpos he d
      exact ⟨_,he',.inl ⟨direction_allocate e d,rfl,sane_allocate e d⟩⟩
    | some e => exact ⟨_,entryOf_update_some he d,first_learn (ht.entry he)⟩
  · refine ⟨_,entryOf_update_some he _,?_⟩
    rcases next_round hN k with ⟨hlast,hq,hr⟩ | ⟨hlt,hq,hr⟩
    · rw [hlast] at hsta
      rw [hq,hr,outcome,if_pos hlast]
      exact hsta.exit hN
    · rw [hq,hr,outcome,if_neg (by omega)]
      exact hsta.learn hlt hsize

theorem trained_run (hpos : 0 < nw) (hN : 2 ≤ N) (hsize : N ≤ counterSize) (hs : Shaped nw s) (calls : List Call) : ∀ k,
    calls.filter (fun c => genIndex c.ip == genIndex ip) = rounds ip N d k ∨
      calls.filter (fun c => genIndex c.ip == genIndex ip) = rounds ip N d k ++ [.lookup ip] →
    Trained s ip N d k ((calls.foldl step s).entryOf ip) := by
  induction calls using reverseRecOn with
  | nil =>
    intro k hk
    cases k with
    | zero => exact .inl ⟨rfl,rfl⟩
    | succ k => simp [rounds] at hk
  | append_singleton calls c ih =>
    intro k hk
    have ht := hs.foldl calls
    rw [foldl_append,foldl_cons,foldl_nil]
    rw [filter_append] at hk
    by_cases hc : genIndex c.ip = genIndex ip
    · rw [show [c].filter (fun c => genIndex c.ip == genIndex ip) = [c] by simp [hc]] at hk
      rcases hk with hk | hk
      · cases k with
        | zero => simp [rounds] at hk
        | succ k =>
          rw [rounds_succ] at hk
          obtain ⟨hbefore,hlast⟩ := append_inj' hk rfl
          obtain rfl := singleton_inj.mp hlast
          exact (ih k (.inr hbefore)).update hpos hN hsize ht
      · obtain ⟨hbefore,hlast⟩ := append_inj' hk rfl
        obtain rfl := singleton_inj.mp hlast
        rw [entryOf_lookup]
        exact ih k (.inl hbefore)
    · rw [show [c].filter (fun c => genIndex c.ip == genIndex ip) = [] by simp [hc],append_nil] at hk
      simpa only [entryOf,tagWay,ways_step_of_ne hc] using ih k hk

theorem learns_of_le (hpos : 0 < nw) (hN : 2 ≤ N) (hsize : N ≤ counterSize) (hs : Shaped nw s) : s.Learns ip N d := by
  intro calls k hcalls hk
  have ht := hs.foldl calls
  rcases trained_run hpos hN hsize hs calls k (.inl hcalls) with ⟨rfl,-⟩ | ⟨-,e,he,hsta⟩
  · omega
  · obtain ⟨q,hq⟩ : ∃ q, k / N = q + 2 := ⟨k / N - 2,by have := (le_div_iff_mul_le (by omega : 0 < N)).mpr hk; omega⟩
    rw [hq] at hsta
    have hsteady : LoopEntry.Steady N d (k % N) e := hsta
    rw [lookup_of_entry ht he,hsteady.1,if_pos rfl,hsteady.prediction (mod_lt k (by omega)),outcome]

theorem filter_rounds (ip N : Nat) (d : Bool) (k : Nat) :
    (rounds ip N d k).filter (fun c => genIndex c.ip == genIndex ip) = rounds ip N d k := by
  induction k with
  | zero => rfl
  | succ k ih =>
    rw [rounds,filter_append,ih]
    simp [Call.ip]

theorem not_learns_of_lt (hsize : counterSize < N) (hs : Shaped nw s) : ¬s.Learns ip N d := by
  intro h
  have hbig : 2 ^ 32 < N := hsize
  let t := fun k => (rounds ip N d k).foldl step s
  have ht : ∀ k, Shaped nw (t k) := fun k => hs.foldl _
  have hlookup : ∀ k, 4 * N ≤ k → ((t k).lookup ip).1 = ⟨outcome N d k,true⟩ := fun k hk =>
    h (rounds ip N d k) k (filter_rounds ip N d k) hk
  have hentry : ∀ k, 4 * N ≤ k → ∃ e, (t k).entryOf ip = some e ∧ e.enabled ∧ e.prediction = outcome N d k := by
    intro k hk
    have hri := hlookup k hk
    cases he : (t k).entryOf ip with
    | none =>
      rw [lookup_of_none he] at hri
      exact Bool.noConfusion (congrArg hit hri)
    | some e =>
      rw [lookup_of_entry (ht k) he] at hri
      cases henabled : e.enabled with
      | true =>
        rw [henabled,if_pos rfl] at hri
        exact ⟨e,rfl,henabled,congrArg BranchPredictorReturnValue.prediction hri⟩
      | false =>
        rw [henabled] at hri
        exact Bool.noConfusion (congrArg hit hri)
  have hnext : ∀ k e, (t k).entryOf ip = some e → (t (k + 1)).entryOf ip = some (e.learn (outcome N d k)) := by
    intro k e he
    change ((rounds ip N d (k + 1)).foldl step s).entryOf ip = _
    rw [rounds,foldl_append,foldl_cons,foldl_cons,foldl_nil]
    exact entryOf_update_some ((entryOf_lookup ip).trans he) _
  have hsame : ∀ j < N - 1, outcome N d (4 * N + j) = d := by
    intro j hj
    rw [outcome,Nat.mul_comm,Nat.mul_add_mod,Nat.mod_eq_of_lt (by omega),if_neg (by omega)]
  let E := fun j => ((t (4 * N + j)).entryOf ip).getD blank.entry
  have hE : ∀ j, (t (4 * N + j)).entryOf ip = some (E j) := by
    intro j
    obtain ⟨e,he,-⟩ := hentry (4 * N + j) (le_add_right _ _)
    change _ = some (((t (4 * N + j)).entryOf ip).getD blank.entry)
    rw [he]
    rfl
  have hlt : N - 2 + 1 < counterSize := by
    refine long_run_lt (E := E) (d := d) (by omega) (fun j hj => ?_) fun j hj => ?_
    · obtain ⟨e,he,henabled,hpre⟩ := hentry (4 * N + j) (le_add_right _ _)
      obtain rfl := some.inj ((hE j).symm.trans he)
      exact ⟨(ht _).entry (hE j),henabled,by rw [hpre,hsame j (by omega)]⟩
    · have hstep := hnext (4 * N + j) (E j) (hE j)
      rw [hsame j (by omega)] at hstep
      exact some.inj ((hE (j + 1)).symm.trans hstep)
  omega

theorem learns_iff (hpos : 0 < numWays) (hN : 2 ≤ N) (before : List Call) (ip : Nat) (d : Bool) :
    (before.foldl step (new numWays)).Learns ip N d ↔ N ≤ 2 ^ 32 := by
  have hs := (shaped_new numWays).foldl before
  refine ⟨fun h => ?_,fun hle => learns_of_le hpos hN hle hs⟩
  by_contra hlt
  exact not_learns_of_lt (Nat.not_le.mp hlt) hs h

theorem learns_iff_three : (new 2).Learns 0 3 true ↔ 3 ≤ 2 ^ 32 := learns_iff (by decide) (by decide) [] 0 true

theorem loop_too_long : ¬(new 2).Learns 0 (2 ^ 32 + 1) true := not_learns_of_lt (by decide) (shaped_new 2)

theorem one_enabled_way_per_tag (numWays : Nat) (calls : List Call) (index : Nat) :
    let ways := (calls.foldl step (new numWays)).ways index
    ways.length = numWays ∧ (∀ e ∈ ways, e.entry.count ≤ e.entry.limit ∧ e.entry.limit < counterSize) ∧
    ∀ (v w : Nat) (e e' : WayEntry), ways[v]? = some e → ways[w]? = some e' → e.tag = e'.tag →
      e.entry.enabled → e'.entry.enabled → v = w := by
  have hs := (shaped_new numWays).foldl calls
  refine ⟨hs.length index,fun e he => ?_,fun v w e e' he he' htag hon hon' => ?_⟩
  · obtain ⟨w,hw⟩ := mem_iff_getElem?.mp he
    exact ⟨(hs.sane index w e hw).le,(hs.sane index w e hw).lt⟩
  · rcases Nat.lt_trichotomy v w with hlt | heq | hlt
    · exact absurd hon' (by simp [hs.ordered index v w e e' hlt he he' htag])
    · exact heq
    · exact absurd hon (by simp [hs.ordered index w v e' e hlt he' he htag.symm])

end
end LoopBranchPredictor
