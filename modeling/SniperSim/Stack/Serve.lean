import SniperSim.Stack.Snoop

open Function
namespace CacheStack
open Coherence
variable {ι D : Type} {H : Forest ι} {llc new s t : CacheState} {f g : ι → CacheState} {x y : ι}
  {op : MemOp D} {q : (ι → CacheState) × HitWhere}

inductive Under : CacheState → CacheState → Prop
  | invalid (t : CacheState) : Under .invalid t
  | shared {t : CacheState} (h : t ≠ .invalid) : Under .shared t
  | exclusive : Under .exclusive .exclusive
  | exclusiveModified : Under .exclusive .modified
  | modified : Under .modified .modified

namespace Under

theorem next_valid (h : Under s t) (hs : s ≠ .invalid) : t ≠ .invalid := by
  cases h with
  | invalid t => exact absurd rfl hs
  | shared h => exact h
  | _ => decide

theorem next_modified (h : Under .modified t) : t = .modified := by cases h; rfl

theorem next_owned (h : Under .exclusive t) : t = .exclusive ∨ t = .modified := by
  cases h <;> simp [*]

theorem of_invalid (h : Under s .invalid) : s = .invalid := by
  cases h with
  | invalid t => rfl
  | shared h => exact absurd rfl h

theorem not_owned (h : Under s t) : s ≠ .owned := by cases h <;> decide

theorem owned_modified (h : Under s .exclusive) : Under s .modified := by
  cases h with
  | invalid t => exact .invalid _
  | shared h => exact .shared (by decide)
  | exclusive => exact .exclusiveModified

end Under

def Consistent (H : Forest ι) (llc : CacheState) (f : ι → CacheState) : Prop :=
  ∀ y, Under (f y) (getCacheState llc f (H.next y))

def ConsistentOutside (H : Forest ι) (r : ι) (llc : CacheState) (f : ι → CacheState) : Prop :=
  ∀ y, ¬ H.Within r y → Under (f y) (getCacheState llc f (H.next y))

theorem Under.backed (h : Under (f y) (getCacheState llc f (H.next y)))
    (evicting : Option (Option ι)) : Backed H evicting llc f y := by
  intro hm
  rw [hm] at h
  exact .inr h.next_modified

theorem permissible_modified (op : MemOp D) : operationPermissibleinCache op .modified := by
  cases op <;> rfl

theorem permissible_exclusive (hx : op.exclusive) (h : operationPermissibleinCache op s) : s = .modified := by
  simpa [operationPermissibleinCache,hx,LlcLine.writable] using h

theorem exclusive_of_refused (h : operationPermissibleinCache op .exclusive = false) : op.exclusive := by
  cases op with
  | read => simp [operationPermissibleinCache,MemOp.exclusive,LlcLine.readable] at h
  | _ => rfl

theorem Under.self (h : operationPermissibleinCache op s) (ho : s ≠ .owned) : Under s s := by
  cases s with
  | invalid => exact .invalid _
  | shared => exact .shared (by decide)
  | exclusive => exact .exclusive
  | modified => exact .modified
  | owned => exact absurd rfl ho
  | sharedUpgrading =>
    cases op <;> simp [operationPermissibleinCache,MemOp.exclusive,LlcLine.readable,LlcLine.writable] at h

theorem under_settle [DecidablePred P] (hn : new = .invalid ∨ new = .shared) (hp : H.Closed P)
    (h : Under (f y) (getCacheState llc f (H.next y))) :
    Under (settle P new f y) (getCacheState llc (settle P new f) (H.next y)) := by
  by_cases hy : P y
  · by_cases hf : f y = .invalid
    · rw [settle_invalid hf]
      exact .invalid _
    · rw [settle_inside hy hf]
      rcases hn with rfl | rfl
      · exact .invalid _
      · refine .shared ?_
        have hv := h.next_valid hf
        cases hz : H.next y with
        | none => rwa [hz] at hv
        | some z =>
          rw [hz] at hv
          change settle P .shared f z ≠ .invalid
          unfold settle
          split
          · decide
          · exact hv
  · rwa [settle_outside hy,settle_next fun z hz hpz => hy (hp y z hz hpz)]

def lineAfter (op : MemOp D) (w : HitWhere) (llc : CacheState) : CacheState :=
  if w = .lastLevel ∧ op.exclusive then .modified else llc

structure Kept (H : Forest ι) (r : ι) (llc : CacheState) (f g : ι → CacheState) : Prop where
  inside : ∀ y, H.Within r y → g y = f y
  outside : ∀ y, ¬ H.Within r y → Under (g y) (getCacheState llc g (H.next y))

theorem Kept.lineAfter {r : ι} {w : HitWhere} (h : Kept H r llc f g)
    (hx : op.exclusive → llc = .exclusive ∨ llc = .modified) : Kept H r (lineAfter op w llc) f g := by
  refine ⟨h.inside,fun y hy => ?_⟩
  have hu := h.outside y hy
  unfold CacheStack.lineAfter
  split
  case isFalse => exact hu
  case isTrue hw =>
    cases hz : H.next y with
    | some z => rwa [hz] at hu
    | none =>
      rw [hz] at hu
      rcases hx hw.2 with rfl | rfl
      · exact hu.owned_modified
      · exact hu

structure Served (H : Forest ι) (op : MemOp D) (llc : CacheState) (r : ι) (f : ι → CacheState)
    (q : (ι → CacheState) × HitWhere) : Prop where
  kept : Kept H r (lineAfter op q.2 llc) f q.1
  permitted : q.2 ≠ .miss → operationPermissibleinCache op (getCacheState (lineAfter op q.2 llc) q.1 (H.next r))
  unowned : q.2 = .miss → getCacheState llc f (H.next r) ≠ .exclusive ∧ getCacheState llc f (H.next r) ≠ .modified

theorem Served.not_owned (hq : Served H op llc r f q) (ho : llc ≠ .owned) :
    getCacheState (lineAfter op q.2 llc) q.1 (H.next r) ≠ .owned := by
  cases hz : H.next r with
  | none =>
    change lineAfter op q.2 llc ≠ .owned
    unfold lineAfter
    split
    · decide
    · exact ho
  | some z => exact (hq.kept.outside z (H.not_within_next hz)).not_owned

variable [DecidableEq ι]

def Beside (H : Forest ι) (r : ι) (z : Option ι) (y : ι) : Prop := ∃ x ∈ siblings H r z, H.Within x y

instance decidableBeside (H : Forest ι) (r : ι) (z : Option ι) : DecidablePred (Beside H r z) :=
  fun _ => inferInstanceAs (Decidable (∃ x ∈ _, _))

def quiet (H : Forest ι) (r : ι) (z : Option ι) (new : Option CacheState) (f : ι → CacheState) : ι → CacheState :=
  match new with
  | none => f
  | some s => settle (Beside H r z) s f

def serve (H : Forest ι) (op : MemOp D) (llc : CacheState) : ι → List ι → (ι → CacheState) → (ι → CacheState) × HitWhere
  | r, [], f =>
    if operationPermissibleinCache op llc then (quiet H r none (snoop op llc) f,.lastLevel)
    else if llc = .exclusive then (quiet H r none (some .invalid) f,.lastLevel)
    else (quiet H r none (upgradeSnoop llc) f,.miss)
  | r, d :: ds, f =>
    if operationPermissibleinCache op (f d) then (quiet H r (some d) (snoop op (f d)) f,.below)
    else
      let q := serve H op llc d ds (update (quiet H r (some d) (upgradeSnoop (f d)) f) d .invalid)
      if q.2 = .miss then q
      else (update q.1 d (getCacheState (lineAfter op q.2 llc) q.1 (H.next d)),q.2)

def Restrains (new : Option CacheState) : Prop := ∀ s ∈ new, s = .invalid ∨ s = .shared

theorem restrains_snoop (op : MemOp D) (s : CacheState) : Restrains (snoop op s) := by
  intro t ht
  unfold snoop at ht
  split at ht
  · exact .inl (Option.some.inj ht).symm
  · split at ht
    · exact .inr (Option.some.inj ht).symm
    · split at ht
      · exact .inr (Option.some.inj ht).symm
      · cases ht

theorem restrains_upgradeSnoop (s : CacheState) : Restrains (upgradeSnoop s) := by
  intro t ht
  unfold upgradeSnoop at ht
  split at ht
  · exact .inl (Option.some.inj ht).symm
  · cases ht

theorem restrains_invalid : Restrains (some .invalid) := by
  rintro t ⟨⟩
  exact .inl rfl

section
variable {r : ι} {z : Option ι} {new : Option CacheState}

theorem mem_siblings : x ∈ siblings H r z ↔ H.next x = z ∧ x ≠ r := by
  unfold siblings
  rw [List.mem_filter,H.mem_prev]
  simp [Forest.next]

theorem not_beside (hr : H.next r = z) (h : H.Within r y) : ¬ Beside H r z y := by
  rintro ⟨x,hx,hw⟩
  obtain ⟨hn,hne⟩ := mem_siblings.mp hx
  exact hne (H.eq_of_next (hn.trans hr.symm) hw h)

theorem quiet_outside (h : ¬ Beside H r z y) : quiet H r z new f y = f y := by
  cases new with
  | none => rfl
  | some s => exact settle_outside h

theorem quiet_inside (hr : H.next r = z) (h : H.Within r y) : quiet H r z new f y = f y :=
  quiet_outside (not_beside hr h)

theorem quiet_next : getCacheState llc (quiet H r z new f) z = getCacheState llc f z := by
  cases z with
  | none => rfl
  | some d =>
    refine quiet_outside ?_
    rintro ⟨x,hx,hw⟩
    exact H.not_within_next (mem_siblings.mp hx).1 hw

theorem under_quiet (hn : Restrains new) (h : Under (f y) (getCacheState llc f (H.next y))) :
    Under (quiet H r z new f y) (getCacheState llc (quiet H r z new f) (H.next y)) := by
  cases new with
  | none => exact h
  | some s => exact under_settle (hn s rfl) (H.closed_exists _) h

theorem quiet_invalid (h : f y = .invalid) : quiet H r z new f y = .invalid := by
  cases new with
  | none => exact h
  | some s => exact settle_invalid (P := Beside H r z) h

theorem quiet_sibling (hy : y ∈ siblings H r z) : quiet H r z (some s) f y = s ∨ f y = .invalid := by
  by_cases hf : f y = .invalid
  · exact .inr hf
  · exact .inl (settle_inside ⟨y,hy,H.within_self y⟩ hf)
end

section
variable {r d : ι} {ds : List ι} {z : Option ι} {w : HitWhere}

theorem kept_quiet (hr : H.next r = z) {new : Option CacheState} (hn : Restrains new)
    (hu : ConsistentOutside H r llc f) : Kept H r llc f (quiet H r z new f) :=
  ⟨fun _ => quiet_inside hr,fun y hy => under_quiet hn (hu y hy)⟩

theorem serve_last_level (hr : H.next r = none) (hu : ConsistentOutside H r llc f) :
    Served H op llc r f (serve H op llc r [] f) := by
  unfold serve
  split
  case isTrue hp =>
    refine ⟨(kept_quiet hr (restrains_snoop op llc) hu).lineAfter
      fun hx => .inr (permissible_exclusive hx hp),fun _ => ?_,by simp⟩
    rw [hr]
    unfold lineAfter
    split
    · exact permissible_modified op
    · exact hp
  case isFalse hp =>
    split
    case isTrue he =>
      have hx : op.exclusive := exclusive_of_refused (by rw [← he]; simpa using hp)
      refine ⟨(kept_quiet hr restrains_invalid hu).lineAfter fun _ => .inl he,fun _ => ?_,by simp⟩
      rw [hr]
      change operationPermissibleinCache op (if _ ∧ op.exclusive then _ else _)
      rw [if_pos ⟨rfl,hx⟩]
      exact permissible_modified op
    case isFalse he =>
      refine ⟨kept_quiet hr (restrains_upgradeSnoop llc) hu,by simp,fun _ => ?_⟩
      rw [hr]
      refine ⟨he,?_⟩
      rintro rfl
      exact hp (permissible_modified op)

def lowered (H : Forest ι) (r d : ι) (f : ι → CacheState) : ι → CacheState :=
  update (quiet H r (some d) (upgradeSnoop (f d)) f) d .invalid

theorem lowered_self (r : ι) (f : ι → CacheState) : lowered H r d f d = .invalid := update_self _ _ _

theorem lowered_of_ne (hy : y ≠ d) : lowered H r d f y = quiet H r (some d) (upgradeSnoop (f d)) f y :=
  update_of_ne hy _ _

theorem lowered_inside (hr : H.next r = some d) (h : H.Within r y) : lowered H r d f y = f y := by
  rw [lowered_of_ne (H.ne_of_within_child hr h),quiet_inside hr h]

theorem lowered_outside (h : ¬ H.Within d y) : lowered H r d f y = f y := by
  rw [lowered_of_ne (H.ne_of_not_within h)]
  refine quiet_outside ?_
  rintro ⟨x,hx,hw⟩
  exact h (H.within_of_child (mem_siblings.mp hx).1 hw)

theorem lowered_next (h : ¬ H.Within d y) :
    getCacheState llc (lowered H r d f) (H.next y) = getCacheState llc f (H.next y) := by
  cases hz : H.next y with
  | none => rfl
  | some z => exact lowered_outside fun hw => h (H.within_of_next hz hw)

theorem lowered_next_self : getCacheState llc (lowered H r d f) (H.next d) = getCacheState llc f (H.next d) := by
  cases hz : H.next d with
  | none => rfl
  | some z => exact lowered_outside (H.not_within_next hz)

theorem lowered_sibling (hr : H.next r = some d) (hp : operationPermissibleinCache op (f d) = false)
    (hu : ConsistentOutside H r llc f) (hy : H.next y = some d) (hne : y ≠ r) : lowered H r d f y = .invalid ∨
      f d = .exclusive ∧ op.exclusive ∧ Under (lowered H r d f y) .exclusive := by
  have hyr : ¬ H.Within r y := fun h => hne (H.eq_of_next (hy.trans hr.symm) (H.within_self y) h)
  have hun := hu y hyr
  rw [hy] at hun
  change Under (f y) (f d) at hun
  rw [lowered_of_ne (H.ne_of_next hy)]
  have hd := hu d (H.not_within_next hr)
  generalize f d = t at hun hp hd
  cases t with
  | invalid => exact .inl (quiet_invalid hun.of_invalid)
  | shared =>
    rcases quiet_sibling (s := .invalid) (mem_siblings.mpr ⟨hy,hne⟩) with h | h
    · exact .inl h
    · exact .inl (quiet_invalid h)
  | exclusive => exact .inr ⟨rfl,exclusive_of_refused hp,hun⟩
  | modified => simp [permissible_modified] at hp
  | owned => exact absurd rfl hd.not_owned
  | sharedUpgrading => cases hd

theorem lowered_deeper {w : ι} (hu : ConsistentOutside H r llc f)
    (hy : H.next y = some w) (hyr : ¬ H.Within r y) (hw : w ≠ d) (hyd : y ≠ d) :
    Under (lowered H r d f y) (lowered H r d f w) := by
  have hun := under_quiet (r := r) (z := some d) (restrains_upgradeSnoop (f d)) (hu y hyr)
  rw [hy] at hun
  rwa [lowered_of_ne hyd,lowered_of_ne hw]

theorem position (d : ι) (hy : ¬ H.Within r y) : ¬ H.Within d y ∨ y = d ∨ (H.next y = some d ∧ y ≠ r) ∨
      ∃ w, H.next y = some w ∧ H.Within d w ∧ w ≠ d ∧ y ≠ d := by
  by_cases hd : H.Within d y
  · rcases eq_or_ne y d with rfl | hne
    · exact .inr (.inl rfl)
    · obtain ⟨w,hw,hdw⟩ := H.next_of_within hd hne
      rcases eq_or_ne w d with rfl | hwd
      · exact .inr (.inr (.inl ⟨hw,H.ne_of_not_within hy⟩))
      · exact .inr (.inr (.inr ⟨w,hw,hdw,hwd,hne⟩))
  · exact .inl hd

theorem serve_lowered_miss (hr : H.next r = some d) (hp : operationPermissibleinCache op (f d) = false)
    (hu : ConsistentOutside H r llc f)
    (hq : Served H op llc d (lowered H r d f) q) (hm : q.2 = .miss) : Served H op llc r f q := by
  have hd := hu d (H.not_within_next hr)
  have he : f d ≠ .exclusive := by
    intro he
    rw [he] at hd
    have hn := hq.unowned hm
    rw [lowered_next_self] at hn
    rcases hd.next_owned with h | h
    · exact hn.1 h
    · exact hn.2 h
  have hmod : f d ≠ .modified := by
    intro h
    simp [h,permissible_modified] at hp
  refine ⟨⟨fun y hy => ?_,fun y hy => ?_⟩,fun h => absurd hm h,fun _ => by rw [hr]; exact ⟨he,hmod⟩⟩
  · rw [hq.kept.inside y (H.within_of_child hr hy),lowered_inside hr hy]
  · rcases position d hy with h | rfl | ⟨hn,hne⟩ | ⟨w,hn,hw,hwd,hyd⟩
    · exact hq.kept.outside y h
    · rw [hq.kept.inside y (H.within_self y),lowered_self]
      exact .invalid _
    · rw [hq.kept.inside y (H.within_of_next hn (H.within_self d))]
      rcases lowered_sibling hr hp hu hn hne with h | ⟨h,-⟩
      · rw [h]
        exact .invalid _
      · exact absurd h he
    · rw [hn,hq.kept.inside y (H.within_of_next hn hw)]
      change Under _ (q.1 w)
      rw [hq.kept.inside w hw]
      exact lowered_deeper hu hn hy hwd hyd

theorem serve_lowered_hit (hr : H.next r = some d)
    (ho : llc ≠ .owned) (hp : operationPermissibleinCache op (f d) = false) (hu : ConsistentOutside H r llc f)
    (hq : Served H op llc d (lowered H r d f) q) (hm : q.2 ≠ .miss) :
    Served H op llc r f (update q.1 d (getCacheState (lineAfter op q.2 llc) q.1 (H.next d)),q.2) := by
  have hperm := hq.permitted hm
  have hown := hq.not_owned ho
  generalize hs : getCacheState (lineAfter op q.2 llc) q.1 (H.next d) = s at hperm hown
  refine ⟨⟨fun y hy => ?_,fun y hy => ?_⟩,fun _ => ?_,fun h => absurd h hm⟩
  · change update q.1 d s y = f y
    rw [update_of_ne (H.ne_of_within_child hr hy),hq.kept.inside y (H.within_of_child hr hy),lowered_inside hr hy]
  · change Under (update q.1 d s y) (getCacheState _ (update q.1 d s) (H.next y))
    rcases position d hy with h | rfl | ⟨hn,hne⟩ | ⟨w,hn,hw,hwd,hyd⟩
    · rw [update_of_ne (H.ne_of_not_within h),getCacheState_update fun hz => h (H.within_of_next hz (H.within_self d))]
      exact hq.kept.outside y h
    · rw [update_self,getCacheState_update fun hz => H.not_within_next hz (H.within_self y),hs]
      exact .self hperm hown
    · rw [update_of_ne (H.ne_of_next hn),hn,hq.kept.inside y (H.within_of_next hn (H.within_self d))]
      change Under _ (update q.1 d s d)
      rw [update_self]
      rcases lowered_sibling hr hp hu hn hne with h | ⟨-,hx,h⟩
      · rw [h]
        exact .invalid _
      · rw [permissible_exclusive hx hperm]
        exact h.owned_modified
    · rw [update_of_ne hyd,hn,hq.kept.inside y (H.within_of_next hn hw)]
      change Under _ (update q.1 d s w)
      rw [update_of_ne hwd,hq.kept.inside w hw]
      exact lowered_deeper hu hn hy hwd hyd
  · rw [hr]
    change operationPermissibleinCache op (update q.1 d s d)
    rwa [update_self]

theorem under_lowered (hr : H.next r = some d)
    (hu : ConsistentOutside H r llc f) : ConsistentOutside H d llc (lowered H r d f) := by
  intro y hy
  rw [lowered_outside hy,lowered_next hy]
  exact hu y fun h => hy (H.within_of_child hr h)

theorem serve_refused (hp : operationPermissibleinCache op (f d) = false) : serve H op llc r (d :: ds) f =
      let q := serve H op llc d ds (lowered H r d f)
      if q.2 = .miss then q
      else (update q.1 d (getCacheState (lineAfter op q.2 llc) q.1 (H.next d)),q.2) := by
  rw [serve,hp,if_neg Bool.false_ne_true]
  rfl

theorem serve_served (ho : llc ≠ .owned) (hr : H.above r = ds) (hu : ConsistentOutside H r llc f) :
    Served H op llc r f (serve H op llc r ds f) := by
  induction ds generalizing r f with
  | nil => exact serve_last_level (by rw [Forest.next,hr]; rfl) hu
  | cons d ds ih =>
    have hn : H.next r = some d := by rw [Forest.next,hr]; rfl
    cases hp : operationPermissibleinCache op (f d) with
    | true =>
      rw [serve,if_pos hp]
      refine ⟨kept_quiet hn (restrains_snoop op _) hu,fun _ => ?_,by simp⟩
      rwa [hn,quiet_next]
    | false =>
      have hq := ih (f := lowered H r d f) (H.above_cons r d ds hr) (under_lowered hn hu)
      rw [serve_refused hp]
      dsimp only
      split
      case isTrue hm => exact serve_lowered_miss hn hp hu hq hm
      case isFalse hm => exact serve_lowered_hit hn ho hp hu hq hm

def grants (op : MemOp D) (s : CacheState) : Bool := operationPermissibleinCache op s || s == .exclusive

theorem serve_where (op : MemOp D) (llc : CacheState) (r : ι) (ds : List ι) (f : ι → CacheState) :
    ((serve H op llc r ds f).2 = .lastLevel → grants op llc) ∧
      ((serve H op llc r ds f).2 = .miss → grants op llc = false) := by
  induction ds generalizing r f with
  | nil =>
    rw [serve]
    unfold grants
    split_ifs with hp he <;> simp [*]
  | cons d ds ih =>
    cases hp : operationPermissibleinCache op (f d) with
    | true =>
      rw [serve,if_pos hp]
      simp
    | false =>
      rw [serve_refused hp]
      dsimp only
      split_ifs with hm
      · exact ih d (lowered H r d f)
      · exact ih d (lowered H r d f)

theorem serve_invalid (hy : y ∉ ds) (hf : f y = .invalid) : (serve H op llc r ds f).1 y = .invalid := by
  induction ds generalizing r f with
  | nil =>
    rw [serve]
    split_ifs <;> dsimp only <;> exact quiet_invalid hf
  | cons d ds ih =>
    obtain ⟨hyd,hds⟩ := not_or.mp (mt List.mem_cons.mpr hy)
    cases hp : operationPermissibleinCache op (f d) with
    | true =>
      rw [serve,if_pos hp]
      exact quiet_invalid hf
    | false =>
      have hl : (serve H op llc d ds (lowered H r d f)).1 y = .invalid :=
        ih hds (by rw [lowered_of_ne hyd]; exact quiet_invalid hf)
      rw [serve_refused hp]
      dsimp only
      split_ifs <;> simp [*]

def refill (H : Forest ι) (op : MemOp D) (llc : CacheState) (x : ι) (f : ι → CacheState) :
    (ι → CacheState) × HitWhere :=
  let q := serve H op llc x (H.above x) f
  if q.2 = .miss then q
  else (update q.1 x (getCacheState (lineAfter op q.2 llc) q.1 (H.next x)),q.2)

theorem refill_where (op : MemOp D) (llc : CacheState) (x : ι) (f : ι → CacheState) :
    (refill H op llc x f).2 = (serve H op llc x (H.above x) f).2 := by
  unfold refill
  dsimp only
  split_ifs <;> rfl

theorem refill_invalid (hy : y ∉ H.above x) (hyx : y ≠ x) (hf : f y = .invalid) :
    (refill H op llc x f).1 y = .invalid := by
  unfold refill
  dsimp only
  split_ifs
  · exact serve_invalid hy hf
  · exact (update_of_ne hyx _ _).trans (serve_invalid hy hf)
end

section
variable (hx : H.prev (some x) = [])
include hx

theorem Consistent.drop (h : Consistent H llc f) : Consistent H llc (update f x .invalid) := by
  intro y
  rw [getCacheState_update (H.next_ne_leaf hx y)]
  rcases eq_or_ne y x with rfl | hy
  · rw [update_self]
    exact .invalid _
  · rw [update_of_ne hy]
    exact h y

theorem refill_served (ho : llc ≠ .owned) (h : Consistent H llc f) (hf : f x = .invalid) :
    Consistent H (lineAfter op (refill H op llc x f).2 llc) (refill H op llc x f).1 ∧
      ((refill H op llc x f).2 ≠ .miss → operationPermissibleinCache op ((refill H op llc x f).1 x)) ∧
      ((refill H op llc x f).2 = .miss → (refill H op llc x f).1 x = .invalid) := by
  have hq : Served H op llc x f (serve H op llc x (H.above x) f) := serve_served ho rfl fun y _ => h y
  have hout : ∀ {y}, y ≠ x → ¬ H.Within x y := fun hy hw => hy ((H.within_leaf hx).mp hw)
  unfold refill
  generalize serve H op llc x (H.above x) f = q at hq
  dsimp only
  split_ifs with hm
  · have hqx : q.1 x = .invalid := (hq.kept.inside x (H.within_self x)).trans hf
    refine ⟨fun y => ?_,fun hne => absurd hm hne,fun _ => hqx⟩
    rcases eq_or_ne y x with rfl | hy
    · rw [hqx]
      exact .invalid _
    · exact hq.kept.outside y (hout hy)
  · have hperm := hq.permitted hm
    refine ⟨fun y => ?_,fun _ => ?_,fun h => absurd h hm⟩
    · dsimp only
      rw [getCacheState_update (H.next_ne_leaf hx y)]
      rcases eq_or_ne y x with rfl | hy
      · rw [update_self]
        exact .self hperm (hq.not_owned ho)
      · rw [update_of_ne hy]
        exact hq.kept.outside y (hout hy)
    · dsimp only
      rwa [update_self]
end
end CacheStack
