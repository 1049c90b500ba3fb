import SniperSim.Stack.Inclusion

open List
open Coherence Function
namespace CacheStack
variable {ι D : Type} {H : Forest ι} {llc s : CacheState} {f : ι → CacheState} {x y r d : ι} {ds : List ι}
  {op : MemOp D} {z : Option ι} {w : HitWhere}

def Alone (H : Forest ι) (f : ι → CacheState) : Prop :=
  ∀ x y, x ≠ y → H.next x = H.next y → f x = .modified → f y = .invalid

def AloneOutside (H : Forest ι) (r : ι) (f : ι → CacheState) : Prop :=
  ∀ x y, x ≠ y → H.next x = H.next y → ¬ H.Within r x → ¬ H.Within r y → f x = .modified → f y = .invalid

structure Granted (H : Forest ι) (op : MemOp D) (llc : CacheState) (r : ι)
    (q : (ι → CacheState) × HitWhere) : Prop where
  clean : ∀ y, y ≠ r → H.next y = H.next r → q.1 y ≠ .modified
  alone : ∀ y, y ≠ r → H.next y = H.next r →
    getCacheState (lineAfter op q.2 llc) q.1 (H.next r) = .modified → q.1 y = .invalid

theorem Alone.shrink (h : Alone H f) (hg : ∀ y, g y = f y ∨ g y = .invalid) : Alone H g := by
  intro x y hne hn hx
  have hfx : f x = .modified := by
    rcases hg x with hs | hs
    · rw [← hs,hx]
    · simp [hs] at hx
  rcases hg y with hs | hs
  · exact hs.trans (h x y hne hn hfx)
  · exact hs

theorem sibling_outside (hy : H.next y = H.next r) (hne : y ≠ r) : ¬ H.Within r y :=
  fun hw => hne (H.eq_of_next hy (H.within_self y) hw)

theorem Consistent.modified_above (h : Consistent H llc f) (hx : f x = .modified)
    (hw : H.Within y x) : f y = .modified := by
  induction x using H.climb with
  | h x ih =>
    rcases eq_or_ne x y with rfl | hne
    · exact hx
    · obtain ⟨u,hu,hwu⟩ := H.next_of_within hw hne
      have hux := h x
      rw [hx,hu] at hux
      exact ih u hu hux.next_modified hwu

theorem Consistent.invalid_below (h : Consistent H llc f) (hx : f x = .invalid)
    (hw : H.Within x y) : f y = .invalid := by
  induction y using H.climb with
  | h y ih =>
    rcases eq_or_ne y x with rfl | hne
    · exact hx
    · obtain ⟨u,hu,hwu⟩ := H.next_of_within hw hne
      have hy := h y
      rw [hu,getCacheState,ih u hu hwu] at hy
      exact hy.of_invalid

theorem Alone.directory (h : Alone H f) (hk : Consistent H s f)
    (hc : m = .upgradeRep → ∀ y ∈ H.prev none, f y = .invalid) :
    Alone H ((demand s m).elim f fun new => settleAll new f) := by
  have hmod : ∀ new x, demand s m = some new → settleAll new f x ≠ .modified := by
    intro new x hd hx
    rcases eq_or_ne (f x) .invalid with hf | hf
    · simp [settleAll_invalid hf] at hx
    · rw [settleAll_valid hf] at hx
      subst hx
      cases m with
      | upgradeRep =>
        obtain ⟨z,hz,hw⟩ := H.exists_root x
        exact hf (hk.invalid_below (hc rfl z hz) hw)
      | exRep _ | shRep _ => cases hd
      | invReq | flushReq | wbReq =>
        dsimp only [demand] at hd
        split_ifs at hd
        cases hd
  cases hd : demand s m with
  | none => exact h
  | some new => exact fun x y _ _ hx => absurd hx (hmod new x hd)

variable [DecidableEq ι]

def unshared (H : Forest ι) (r : ι) (z : Option ι) (f : ι → CacheState) : Bool :=
  (siblings H r z).all fun y => f y == .invalid

def clearPath (H : Forest ι) (op : MemOp D) (llc : CacheState) : ι → List ι → (ι → CacheState) → Bool
  | r, [], f => op.exclusive || llc != .modified || unshared H r none f
  | r, d :: ds, f =>
    if operationPermissibleinCache op (f d) then
      op.exclusive || f d != .modified || unshared H r (some d) f
    else (f d != .exclusive || unshared H r (some d) f) && clearPath H op llc d ds f

theorem unshared_invalid (h : unshared H r z f) (hy : H.next y = z) (hne : y ≠ r) : f y = .invalid := by
  have hs := all_eq_true.mp h y (mem_siblings.mpr ⟨hy,hne⟩)
  simpa using hs

theorem unshared_congr (hr : H.next r = z) (h : ∀ y, ¬ H.Within r y → f y = g y) :
    unshared H r z f = unshared H r z g := by
  rw [Bool.eq_iff_iff,unshared,unshared,all_eq_true,all_eq_true]
  refine forall₂_congr fun y hy => ?_
  obtain ⟨hn,hne⟩ := mem_siblings.mp hy
  have hw : ¬ H.Within r y := fun hw => hne (H.eq_of_next (hn.trans hr.symm) (H.within_self y) hw)
  rw [h y hw]

theorem clearPath_congr (hr : H.above r = ds) (h : ∀ y, ¬ H.Within r y → f y = g y) :
    clearPath H op llc r ds f = clearPath H op llc r ds g := by
  induction ds generalizing r with
  | nil =>
    have hn : H.next r = none := by rw [Forest.next,hr]; rfl
    rw [clearPath,clearPath,unshared_congr hn h]
  | cons d ds ih =>
    have hn : H.next r = some d := by rw [Forest.next,hr]; rfl
    rw [clearPath,clearPath,unshared_congr hn h,h d (H.not_within_next hn),
      ih (H.above_cons r d ds hr) fun y hy => h y fun hw => hy (H.within_of_child hn hw)]

theorem quiet_modified (hn : Restrains new) (h : quiet H r z new f y = .modified) : f y = .modified := by
  cases new with
  | none => exact h
  | some t =>
    change settle (Beside H r z) t f y = .modified at h
    unfold settle at h
    split_ifs at h
    · subst h
      exact absurd (hn _ rfl) (by decide)
    · exact h

theorem AloneOutside.quiet (h : AloneOutside H r f) (hn : Restrains new) :
    AloneOutside H r (quiet H r z new f) := fun x y hne hxy hx hy hm =>
  quiet_invalid (h x y hne hxy hx hy (quiet_modified hn hm))

theorem quiet_granted (hp : operationPermissibleinCache op s)
    (hc : (op.exclusive || s != .modified || unshared H r z f))
    (hu : Under (f y) s) (hy : H.next y = z) (hne : y ≠ r) : quiet H r z (snoop op s) f y ≠ .modified ∧
      (op.exclusive ∨ s = .modified → quiet H r z (snoop op s) f y = .invalid) := by
  have hmem : y ∈ siblings H r z := mem_siblings.mpr ⟨hy,hne⟩
  cases hx : op.exclusive with
  | true =>
    have hi : quiet H r z (snoop op s) f y = .invalid := by
      rw [snoop,hx,if_pos rfl]
      rcases quiet_sibling (s := .invalid) hmem with h | h
      · exact h
      · exact quiet_invalid h
    rw [hi]
    exact ⟨by decide,fun _ => rfl⟩
  | false =>
    rcases eq_or_ne s .modified with rfl | hs
    · have hun : unshared H r z f := by simpa [hx] using hc
      have hi : quiet H r z (snoop op .modified) f y = .invalid := quiet_invalid (unshared_invalid hun hy hne)
      rw [hi]
      exact ⟨by decide,fun _ => rfl⟩
    · refine ⟨fun hm => hs ?_,fun h => ?_⟩
      · rw [quiet_modified (restrains_snoop op s) hm] at hu
        exact hu.next_modified
      · rcases h with h | h
        · cases h
        · exact absurd h hs

theorem lineAfter_modified (h : lineAfter op w llc = .modified) : w = .lastLevel ∧ op.exclusive ∨ llc = .modified := by
  unfold lineAfter at h
  split_ifs at h with hw
  · exact .inl hw
  · exact .inr h

theorem serve_last_level_alone (hr : H.next r = none) (hu : ConsistentOutside H r llc f)
    (ha : AloneOutside H r f) (hc : clearPath H op llc r [] f) : AloneOutside H r (serve H op llc r [] f).1 ∧
      ((serve H op llc r [] f).2 ≠ .miss → Granted H op llc r (serve H op llc r [] f)) := by
  have hsib : ∀ y, y ≠ r → H.next y = H.next r → Under (f y) llc := by
    intro y hne hy
    have h := hu y (sibling_outside hy hne)
    rwa [hy,hr] at h
  unfold serve
  split_ifs with hp he
  · refine ⟨ha.quiet (restrains_snoop op llc),fun _ => ⟨fun y hne hy => ?_,fun y hne hy hm => ?_⟩⟩
    · exact (quiet_granted hp hc (hsib y hne hy) (hy.trans hr) hne).1
    · rw [hr] at hm
      refine (quiet_granted hp hc (hsib y hne hy) (hy.trans hr) hne).2 ?_
      exact (lineAfter_modified hm).imp And.right id
  · have hi : ∀ y, y ≠ r → H.next y = H.next r → quiet H r none (some .invalid) f y = .invalid := by
      intro y hne hy
      rcases quiet_sibling (s := .invalid) (mem_siblings.mpr ⟨hy.trans hr,hne⟩) with h | h
      · exact h
      · exact quiet_invalid h
    refine ⟨ha.quiet restrains_invalid,fun _ => ⟨fun y hne hy => ?_,fun y hne hy _ => hi y hne hy⟩⟩
    dsimp only
    rw [hi y hne hy]
    decide
  · exact ⟨ha.quiet (restrains_upgradeSnoop llc),fun h => absurd rfl h⟩

theorem lowered_modified (h : lowered H r d f y = .modified) : f y = .modified := by
  rcases eq_or_ne y d with rfl | hne
  · simp [lowered_self] at h
  · rw [lowered_of_ne hne] at h
    exact quiet_modified (restrains_upgradeSnoop _) h

theorem lowered_invalid (h : f y = .invalid) : lowered H r d f y = .invalid := by
  rcases eq_or_ne y d with rfl | hne
  · exact lowered_self r f
  · rw [lowered_of_ne hne]
    exact quiet_invalid h

theorem lowered_alone (hr : H.next r = some d) (ha : AloneOutside H r f) : AloneOutside H d (lowered H r d f) := by
  intro x y hne hxy hx hy hm
  refine lowered_invalid (ha x y hne hxy (fun h => hx (H.within_of_child hr h))
    (fun h => hy (H.within_of_child hr h)) (lowered_modified hm))

theorem same_side (hxy : H.next x = H.next y) (d : ι) : (¬ H.Within d x ∧ ¬ H.Within d y) ∨ x = d ∨ y = d ∨
      (H.Within d x ∧ H.Within d y ∧ x ≠ d ∧ y ≠ d) := by
  rcases eq_or_ne x d with hx | hx
  · exact .inr (.inl hx)
  · rcases eq_or_ne y d with hy | hy
    · exact .inr (.inr (.inl hy))
    · have hiff : H.Within d x ↔ H.Within d y := by
        constructor
        · intro h
          obtain ⟨z,hz,hw⟩ := H.next_of_within h hx
          exact H.within_of_next (hxy.symm.trans hz) hw
        · intro h
          obtain ⟨z,hz,hw⟩ := H.next_of_within h hy
          exact H.within_of_next (hxy.trans hz) hw
      by_cases h : H.Within d x
      · exact .inr (.inr (.inr ⟨h,hiff.mp h,hx,hy⟩))
      · exact .inl ⟨h,fun h' => h (hiff.mpr h')⟩

theorem serve_lowered_alone {q : (ι → CacheState) × HitWhere} (hr : H.next r = some d)
    (ha : AloneOutside H r f) (hk : Kept H d (lineAfter op q.2 llc) (lowered H r d f) q.1)
    (hq : AloneOutside H d q.1) : AloneOutside H r q.1 := by
  intro x y hne hxy hx hy hm
  have hd : q.1 d = .invalid := by rw [hk.inside d (H.within_self d),lowered_self]
  rcases same_side hxy d with ⟨hxd,hyd⟩ | rfl | rfl | ⟨hxd,hyd,-,-⟩
  · exact hq x y hne hxy hxd hyd hm
  · simp [hd] at hm
  · exact hd
  · rw [hk.inside x hxd] at hm
    rw [hk.inside y hyd]
    exact lowered_invalid (ha x y hne hxy hx hy (lowered_modified hm))

theorem serve_copied_alone (hq : AloneOutside H r q.1) (hg : Granted H op llc d q) :
    AloneOutside H r (update q.1 d (getCacheState (lineAfter op q.2 llc) q.1 (H.next d))) := by
  intro x y hne hxy hx hy hm
  rcases eq_or_ne x d with rfl | hxd
  · rw [update_self] at hm
    rw [update_of_ne hne.symm]
    exact hg.alone y hne.symm hxy.symm hm
  · rw [update_of_ne hxd] at hm
    rcases eq_or_ne y d with rfl | hyd
    · exact absurd hm (hg.clean x hxd hxy)
    · rw [update_of_ne hyd]
      exact hq x y hne hxy hx hy hm

theorem serve_alone (ho : llc ≠ .owned) (hr : H.above r = ds) (hu : ConsistentOutside H r llc f)
    (ha : AloneOutside H r f) (hc : clearPath H op llc r ds f) : AloneOutside H r (serve H op llc r ds f).1 ∧
      ((serve H op llc r ds f).2 ≠ .miss → Granted H op llc r (serve H op llc r ds f)) := by
  induction ds generalizing r f with
  | nil => exact serve_last_level_alone (by rw [Forest.next,hr]; rfl) hu ha hc
  | cons d ds ih =>
    have hn : H.next r = some d := by rw [Forest.next,hr]; rfl
    rw [clearPath] at hc
    cases hp : operationPermissibleinCache op (f d) with
    | true =>
      rw [if_pos hp] at hc
      rw [serve,if_pos hp]
      have hsib : ∀ y, y ≠ r → H.next y = H.next r → Under (f y) (f d) := by
        intro y hne hy
        have h := hu y (sibling_outside hy hne)
        rwa [hy,hn] at h
      have hgr : ∀ y, y ≠ r → H.next y = H.next r → _ := fun y hne hy =>
        quiet_granted hp hc (hsib y hne hy) (hy.trans hn) hne
      refine ⟨ha.quiet (restrains_snoop op _),fun _ => ⟨fun y hne hy => (hgr y hne hy).1,
        fun y hne hy hm => (hgr y hne hy).2 (.inr ?_)⟩⟩
      rw [hn,quiet_next] at hm
      exact hm
    | false =>
      rw [hp,if_neg Bool.false_ne_true,Bool.and_eq_true] at hc
      have hd := H.above_cons r d ds hr
      have hq : Served H op llc d _ (serve H op llc d ds (lowered H r d f)) := serve_served ho hd (under_lowered hn hu)
      obtain ⟨hout,hgr⟩ := ih hd (under_lowered hn hu) (lowered_alone hn ha) (by
        rw [clearPath_congr hd fun y hy => lowered_outside hy]
        exact hc.2)
      have hkeep := serve_lowered_alone hn ha hq.kept hout
      rw [serve_refused hp]
      generalize serve H op llc d ds (lowered H r d f) = q at hq hgr hkeep
      dsimp only
      split_ifs with hm
      · exact ⟨hkeep,fun h => absurd hm h⟩
      · have hi : ∀ y, y ≠ r → H.next y = H.next r →
            update q.1 d (getCacheState (lineAfter op q.2 llc) q.1 (H.next d)) y = .invalid := by
          intro y hne hy
          rw [hn] at hy
          rw [update_of_ne (H.ne_of_next hy),hq.kept.inside y (H.within_of_next hy (H.within_self d))]
          rcases lowered_sibling hn hp hu hy hne with h | ⟨he,-⟩
          · exact h
          · have hun : unshared H r (some d) f := by simpa [he] using hc.1
            exact lowered_invalid (unshared_invalid hun hy hne)
        refine ⟨serve_copied_alone hkeep (hgr hm),fun _ => ⟨fun y hne hy => ?_,fun y hne hy _ => hi y hne hy⟩⟩
        dsimp only
        rw [hi y hne hy]
        decide

theorem refill_alone (hx : H.prev (some x) = []) (ho : llc ≠ .owned) (h : Consistent H llc f)
    (hf : f x = .invalid) (ha : Alone H f) (hc : clearPath H op llc x (H.above x) f) :
    Alone H (refill H op llc x f).1 := by
  have hq : Served H op llc x f (serve H op llc x (H.above x) f) := serve_served ho rfl fun y _ => h y
  obtain ⟨hout,hgr⟩ := serve_alone ho rfl (fun y _ => h y) (fun u v hne huv _ _ hm => ha u v hne huv hm) hc
  have hqx := (hq.kept.inside x (H.within_self x)).trans hf
  unfold refill
  generalize serve H op llc x (H.above x) f = q at hout hgr hqx
  dsimp only
  have hleaf : ∀ {y}, y ≠ x → ¬ H.Within x y := fun hy hw => hy ((H.within_leaf hx).mp hw)
  split_ifs with hm
  · intro u v hne huv hu
    rcases eq_or_ne u x with rfl | hux
    · simp [hqx] at hu
    · rcases eq_or_ne v x with rfl | hvx
      · exact hqx
      · exact hout u v hne huv (hleaf hux) (hleaf hvx) hu
  · intro u v hne huv hu
    have hcop := serve_copied_alone hout (hgr hm)
    dsimp only at hu ⊢
    rcases eq_or_ne u x with rfl | hux
    · rw [update_self] at hu
      rw [update_of_ne hne.symm]
      exact (hgr hm).alone v hne.symm huv.symm hu
    · rcases eq_or_ne v x with rfl | hvx
      · rw [update_of_ne hux] at hu
        exact absurd hu ((hgr hm).clean u hux huv)
      · exact hcop u v hne huv (hleaf hux) (hleaf hvx) hu

end CacheStack

namespace StackSystem
open CacheStack
variable {Addr ι : Type} {n : Nat} {cfg : Config} {H : Fin n → Forest ι} {s : StackSystem Addr ι n} {a : Addr}
  {c : Fin n} {x : ι}

def EachAlone (H : Fin n → Forest ι) (s : StackSystem Addr ι n) : Prop := ∀ c a, Alone (H c) (s.caches c a)

theorem EachAlone.stack (h : EachAlone H s) (ht : t.caches = update s.caches c m) (hm : ∀ v, Alone (H c) (m v)) :
    EachAlone H t := by
  rw [EachAlone,ht]
  exact (forall_update_iff s.caches fun c m => ∀ v, Alone (H c) (m v)).mpr ⟨hm,fun c' _ => h c'⟩

variable [DecidableEq Addr]

theorem EachAlone.line (h : EachAlone H s) (ht : t.caches = update s.caches c (update (s.caches c) a g))
    (hg : Alone (H c) g) : EachAlone H t := by
  exact h.stack ht ((forall_update_iff _ fun _ f => Alone (H c) f).mpr ⟨hg,fun v _ => h c v⟩)

theorem stepProtocol_caches (h : s.stepProtocol cfg l = .ok t) : t.caches = s.caches := by
  unfold stepProtocol at h
  split at h
  case h_1 p hp =>
    cases h
    rfl
  case h_2 => cases h

variable [DecidableEq ι]

def clear (H : Fin n → Forest ι) (s : StackSystem Addr ι n) : StackLabel Addr ι n → Bool
  | .core a c x op _ =>
    operationPermissibleinCache op (s.caches c a x) ||
      clearPath (H c) op (s.lastLevel c a) x ((H c).above x) (s.caches c a)
  | .user c _ =>
    match s.protocol.networkThread c with
    | some (a,.user) =>
      match s.protocol.directoryWaiters a c with
      | [] => true
      | w :: _ => clearPath (H c) w.op (s.lastLevel c a) w.thread ((H c).above w.thread) (s.caches c a)
    | _ => true
  | .network a c =>
    match (s.protocol.lines a).toLlc c with
    | .upgradeRep :: _ => ((H c).prev none).all fun y => s.caches c a y == .invalid
    | _ => true
  | _ => true

def Clear (H : Fin n → Forest ι) (s : StackSystem Addr ι n) (l : StackLabel Addr ι n) : Prop := clear H s l

instance decidableClear (H : Fin n → Forest ι) (s : StackSystem Addr ι n)
    (l : StackLabel Addr ι n) : Decidable (Clear H s l) :=
  inferInstanceAs (Decidable (_ = true))

section
variable (hs : Sound cfg H s)
include hs
section
variable (h : EachAlone H s)
include h

theorem accessed_alone (hx : (H c).prev (some x) = []) (hq : Accessed (H c) (s.lastLevel c) op a x (s.caches c) q)
    (hc : clearPath (H c) op (s.lastLevel c a) x ((H c).above x) (s.caches c a)) (v : Addr) : Alone (H c) (q.1 v) := by
  rcases eq_or_ne v a with rfl | hv
  · rw [hq.states]
    refine refill_alone hx (hs.unowned c v) ((hs.consistent c v).drop hx) (update_self _ _ _)
      ((h c v).shrink fun y => ?_) ?_
    · rcases eq_or_ne y x with rfl | hy <;> simp [*]
    · rwa [clearPath_congr rfl fun y hy => update_of_ne (fun he => hy (.inl he)) _ _]
  · exact (h c v).shrink (hq.others v hv).shrinks

theorem core_alone (hx : (H c).prev (some x) = []) (hc : Clear H s (.core a c x op victims))
    (ht : s.processMemOpFromCore cfg H a c x op victims = .ok t) : EachAlone H t := by
  unfold processMemOpFromCore at ht
  cases hperm : operationPermissibleinCache op (s.caches c a x) with
  | true =>
    rw [processMemOpFromCore_hit hperm] at ht
    cases ht
    exact h.stack rfl (h c)
  | false =>
    obtain ⟨⟨m,w⟩,hq,hacc⟩ := processMemOpFromCore_accessed hx (hs.unowned c a) (hs.consistent c) hperm victims
    have hpath : clearPath (H c) op (s.lastLevel c a) x ((H c).above x) (s.caches c a) := by
      simpa [Clear,clear,hperm] using hc
    have hm := accessed_alone hs h hx hacc hpath
    rw [hq] at ht
    cases w with
    | below =>
      cases ht
      exact h.stack rfl hm
    | lastLevel | miss => exact h.stack (stepProtocol_caches ht) hm

theorem user_alone (hn : s.protocol.networkThread c = some (a,.user)) (hc : Clear H s (.user c victims))
    (ht : s.runUserThread cfg H a c victims = .ok t) : EachAlone H t := by
  unfold runUserThread at ht
  cases hq : s.protocol.directoryWaiters a c with
  | nil =>
    rw [hq] at ht
    cases ht
  | cons w rest =>
    have hw := hs.woken hn hq
    obtain ⟨⟨m,wh⟩,hop,-,hacc⟩ := hw.served victims
    have hpath : clearPath (H c) w.op (s.lastLevel c a) w.thread ((H c).above w.thread) (s.caches c a) := by
      simpa [Clear,clear,hn,hq] using hc
    have hm := accessed_alone hs h hw.leaf hacc hpath
    rw [hq] at ht
    dsimp only at ht
    rw [hop] at ht
    cases wh with
    | below =>
      cases ht
      exact h.stack rfl hm
    | lastLevel | miss => exact h.stack (stepProtocol_caches ht) hm

theorem network_alone (hc : Clear H s (.network a c))
    (ht : s.handleMsgFromDramDirectory cfg H a c = .ok t) : EachAlone H t := by
  unfold handleMsgFromDramDirectory at ht
  cases hi : (s.protocol.lines a).toLlc c with
  | nil =>
    rw [hi] at ht
    cases ht
  | cons m ms =>
    rw [hi] at ht
    dsimp only at ht
    rw [updateForDirectory_eq (hs.consistent c a)] at ht
    refine h.line (stepProtocol_caches ht) ((h c a).directory (hs.consistent c a) ?_)
    rintro rfl y hy
    have hall : ((H c).prev none).all (fun y => s.caches c a y == .invalid) := by
      simpa [Clear,clear,hi] using hc
    simpa using all_eq_true.mp hall y hy

theorem step_alone (hc : Clear H s l) (ht : s.step cfg H l = .ok t) : EachAlone H t := by
  cases l with rw [step] at ht
  | core a c x op victims =>
    split_ifs at ht with hx hp hn
    exact core_alone hs h (not_not.mp hx) hc ht
  | network a c =>
    split_ifs at ht
    exact network_alone hs h hc ht
  | user c victims =>
    split at ht
    case h_1 a hn => exact user_alone hs h hn hc ht
    case h_2 => cases ht
  | resume c | directory a l =>
    intro c' v
    rw [stepProtocol_caches ht]
    exact h c' v
  | evict a c =>
    split_ifs at ht
    rw [evictFromLastLevel_eq hs] at ht
    exact h.line (stepProtocol_caches ht) fun _ _ _ _ _ => rfl
end
end

theorem reaches_alone (h : Run.Reaches (step cfg H) (Clear H) (initial Addr ι n) s) : Sound cfg H s ∧ EachAlone H s :=
  Run.Reaches.invariant (I := fun s => Sound cfg H s ∧ EachAlone H s)
    (fun _ l _ hs hc ht => ⟨(step_sound hs.1 l).of_ok ht,step_alone hs.1 hs.2 hc ht⟩)
    ⟨sound_initial cfg H,fun _ _ _ _ _ _ => nofun⟩ h

theorem modified_first_level_alone (h : Run.Reaches (step cfg H) (Clear H) (initial Addr ι n) s)
    (c : Fin n) (a : Addr) (x y : ι) (hx : (H c).prev (some x) = []) (hy : (H c).prev (some y) = [])
    (hne : x ≠ y) (hm : s.caches c a x = .modified) : LlcLine.readable (s.caches c a y) = false := by
  obtain ⟨hs,ha⟩ := reaches_alone h
  obtain ⟨d,e,hde,hn,hd,he⟩ := (H c).exists_fork (fun hw => hne (((H c).within_leaf hx).mp hw).symm)
    (fun hw => hne (((H c).within_leaf hy).mp hw))
  have hk := hs.consistent c a
  rw [hk.invalid_below (ha c a d e hde hn (hk.modified_above hm hd)) he]
  rfl

def afterClearWrite : StackSystem Unit Bool 1 :=
  (Run.guided (step mesiFullMap fun _ => privateFirstLevels) (Clear fun _ => privateFirstLevels)
    (initial Unit Bool 1) coldWrite).getD (initial Unit Bool 1)

theorem modified_alone_after_cold_write : afterClearWrite.caches 0 () false = .modified ∧
      LlcLine.readable (afterClearWrite.caches 0 () true) = false := by
  have hm : afterClearWrite.caches 0 () false = .modified := by decide +kernel
  exact ⟨hm,modified_first_level_alone (s := afterClearWrite) (Run.reaches_guided (by decide +kernel))
    0 () false true rfl rfl (by decide) hm⟩

def writeThenRead : List (StackLabel Unit Bool 1) := coldWrite ++ [.core () onlyCore true .read fun _ => none]

def afterWriteThenRead : StackSystem Unit Bool 1 :=
  (Run.guided (step mesiFullMap fun _ => privateFirstLevels) (fun _ _ => True)
    (initial Unit Bool 1) writeThenRead).getD (initial Unit Bool 1)

theorem read_of_modified_leaves_two_copies : Reachable mesiFullMap (fun _ => privateFirstLevels) afterWriteThenRead ∧
      afterWriteThenRead.caches 0 () true = .modified ∧
      LlcLine.readable (afterWriteThenRead.caches 0 () false) = true :=
  ⟨Run.reaches_guided (by decide +kernel),by decide +kernel,by decide +kernel⟩

end StackSystem
