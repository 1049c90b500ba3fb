import SniperSim.Stack.Serve

open Function
namespace CacheStack
open Coherence
variable {Addr ι D : Type} {H : Forest ι} {x y : ι} {op : MemOp D}

structure Evicted (H : Forest ι) (llc : CacheState) (f g : ι → CacheState) : Prop where
  consistent : Consistent H llc g
  shrinks : ∀ y, g y = f y ∨ g y = .invalid

namespace Evicted
variable {llc : CacheState} {f g h : ι → CacheState}

theorem refl (hf : Consistent H llc f) : Evicted H llc f f := ⟨hf,fun _ => .inl rfl⟩

theorem trans (hg : Evicted H llc f g) (hh : Evicted H llc g h) : Evicted H llc f h := by
  refine ⟨hh.consistent,fun y => ?_⟩
  rcases hh.shrinks y with h | h
  · rw [h]
    exact hg.shrinks y
  · exact .inr h

end Evicted

def settleAll (new : CacheState) (f : ι → CacheState) : ι → CacheState := settle (fun _ => True) new f

variable {new : CacheState} {f : ι → CacheState}

theorem settleAll_invalid (h : f y = .invalid) : settleAll new f y = .invalid := settle_invalid h

theorem settleAll_valid (h : f y ≠ .invalid) : settleAll new f y = new := settle_inside trivial h

theorem Consistent.settle [DecidablePred P] (h : Consistent H llc f) (hn : new = .invalid ∨ new = .shared)
    (hp : H.Closed P) : Consistent H llc (settle P new f) := fun y => under_settle hn hp (h y)

section
variable {llc : Addr → CacheState} {a : Addr} {m m' : Addr → ι → CacheState} {f g : ι → CacheState}

structure Filled (H : Forest ι) (llc : Addr → CacheState) (a : Addr) (f : ι → CacheState)
    (m m' : Addr → ι → CacheState) : Prop where
  line : m' a = f
  others : ∀ v ≠ a, Evicted H (llc v) (m v) (m' v)

theorem Filled.trans (h : Filled H llc a f m m') (h' : Filled H llc a g m' m'') :
    Filled H llc a g m m'' := ⟨h'.line,fun v hv => (h.others v hv).trans (h'.others v hv)⟩

variable [DecidableEq Addr]

theorem filled_update (hv : ∀ v ≠ a, Consistent H (llc v) (m v)) : Filled H llc a f m (update m a f) := by
  refine ⟨update_self _ _ _,fun v hne => ?_⟩
  rw [update_of_ne hne]
  exact .refl (hv v hne)

theorem onLine_eq {g : (ι → CacheState) → Except StackAssertion (ι → CacheState)}
    (h : g (m a) = .ok f) : onLine a g m = .ok (update m a f) := by
  rw [onLine,h]
  rfl
end

variable [DecidableEq ι]

theorem snoopSiblings_eq {llc : CacheState} {r : ι} {z : Option ι}
    {new : Option CacheState} (hr : H.next r = z) (hn : Restrains new) (hu : ConsistentOutside H r llc f) :
    snoopSiblings H llc r z new f = .ok (quiet H r z new f) := by
  cases new with
  | none => rfl
  | some s =>
    have hs : Assignable s := (hn s rfl).imp id .inl
    refine updatePrevCaches_eq (z := z) hs ((H.nodup z).filter _)
      (fun x hx => (mem_siblings.mp hx).1) fun x hx y hy => ?_
    exact (hu y fun h => not_beside hr h ⟨x,hx,hy⟩).backed none

theorem dropCacheBlock_eq (hm : f x ≠ .modified) : dropCacheBlock x f = .ok (update f x .invalid) := by
  unfold dropCacheBlock
  split
  case isTrue hi => rw [← hi,update_eq_self]
  case isFalse hi => rw [invalidateCacheBlock,if_neg hm,if_neg hi]

section
variable {llc : CacheState} {f : ι → CacheState}

theorem backed_evicting (h : Consistent H llc f) (hc : H.next c = some x) (hy : H.Within c y) :
    Backed H (some (some x)) llc (update f x .invalid) y := by
  intro hm
  rw [update_of_ne (H.ne_of_within_child hc hy)] at hm
  have hu := h y
  rw [hm] at hu
  rcases eq_or_ne (H.next y) (some x) with hz | hz
  · exact .inl (congrArg some hz.symm)
  · rw [getCacheState_update hz]
    exact .inr hu.next_modified

theorem settle_evicted (hx : f x ≠ .invalid) :
    settle (fun y => ∃ c ∈ H.prev (some x), H.Within c y) .invalid (update f x .invalid) =
      settle (H.Within x) .invalid f := by
  funext y
  rcases eq_or_ne y x with rfl | hy
  · rw [settle_invalid (update_self _ _ _),settle_inside (H.within_self y) hx]
  · simp only [settle,update_of_ne hy,H.within_iff (x := x),hy,false_or]

theorem evictCacheBlock_eq (h : Consistent H llc f) (hx : f x ≠ .invalid) :
    evictCacheBlock H llc x f = .ok (settle (H.Within x) .invalid f) := by
  unfold evictCacheBlock
  rw [updatePrevCaches_eq (.inl rfl) (H.nodup (some x)) (fun _ => next_of_mem_prev)
    (fun c hc y hy => backed_evicting h (next_of_mem_prev hc) hy),settle_evicted hx]
  change (if f x = .modified then _ else _) = _
  split
  case isTrue hm =>
    have hu := h x
    rw [hm] at hu
    have hn : getCacheState llc (settle (H.Within x) .invalid f) (H.next x) = .modified := by
      rw [settle_next fun z hz => H.not_within_next hz]
      exact hu.next_modified
    rw [writeCacheBlock,hn]
    rfl
  case isFalse => rfl
end

section
variable {llc : Addr → CacheState} {a : Addr} {m : Addr → ι → CacheState} {q : (Addr → ι → CacheState) × HitWhere}

structure Accessed (H : Forest ι) (llc : Addr → CacheState) (op : MemOp D) (a : Addr) (x : ι)
    (m : Addr → ι → CacheState) (q : (Addr → ι → CacheState) × HitWhere) : Prop where
  line : (q.1 a,q.2) = refill H op (llc a) x (update (m a) x .invalid)
  others : ∀ v ≠ a, Evicted H (llc v) (m v) (q.1 v)

variable (h : Accessed H llc op a x m q)
include h

theorem Accessed.states : q.1 a = (refill H op (llc a) x (update (m a) x .invalid)).1 := congrArg Prod.fst h.line

theorem Accessed.where_eq : q.2 = (refill H op (llc a) x (update (m a) x .invalid)).2 := congrArg Prod.snd h.line

theorem Accessed.served (hx : H.prev (some x) = []) (ho : llc a ≠ .owned) (hc : Consistent H (llc a) (m a)) :
    Consistent H (lineAfter op q.2 (llc a)) (q.1 a) ∧
      (q.2 ≠ .miss → operationPermissibleinCache op (q.1 a x)) ∧ (q.2 = .miss → q.1 a x = .invalid) := by
  rw [h.states,h.where_eq]
  exact refill_served hx ho (hc.drop hx) (update_self _ _ _)

theorem Accessed.granted : (q.2 = .lastLevel → grants op (llc a)) ∧ (q.2 = .miss → grants op (llc a) = false) := by
  rw [h.where_eq,refill_where]
  exact serve_where op (llc a) x (H.above x) _

theorem Accessed.keeps_invalid (hy : H.prev (some y) = []) (hyx : y ≠ x) (hf : m v y = .invalid) :
    q.1 v y = .invalid := by
  rcases eq_or_ne v a with rfl | hne
  · rw [h.states]
    refine refill_invalid (H.not_mem_above_leaf hy x) hyx ?_
    rwa [update_of_ne hyx]
  · rcases (h.others v hne).shrinks y with hs | hs <;> simp [*]
end

variable [DecidableEq Addr] {llc : Addr → CacheState} {a : Addr} {m : Addr → ι → CacheState}

theorem insertCacheBlock_filled (hx : m a x = .invalid) (s : CacheState) (victim : Option Addr)
    (hv : ∀ v ≠ a, Consistent H (llc v) (m v)) : ∃ m', insertCacheBlock H llc a x s victim m = .ok m' ∧
      Filled H llc a (update (m a) x s) m m' := by
  rw [insertCacheBlock,if_pos hx]
  cases victim with
  | none => exact ⟨_,rfl,filled_update hv⟩
  | some v =>
    dsimp only
    split
    case isTrue => exact ⟨_,rfl,filled_update hv⟩
    case isFalse hvx =>
      rw [not_or] at hvx
      obtain ⟨hne,hvx⟩ : v ≠ a ∧ _ := hvx
      rw [update_of_ne hne] at hvx
      refine ⟨_,onLine_eq (evictCacheBlock_eq (by rw [update_of_ne hne]; exact hv v hne)
        (by rwa [update_of_ne hne])),?_,fun u hu => ?_⟩
      · rw [update_of_ne hne.symm,update_self]
      · rw [update_of_ne hne]
        rcases eq_or_ne u v with rfl | huv
        · rw [update_self]
          refine ⟨(hv u hu).settle (.inl rfl) (H.closed_within x),fun y => ?_⟩
          unfold settle
          split <;> simp [*]
        · rw [update_of_ne huv,update_of_ne hu]
          exact .refl (hv u hu)

theorem lastLevelAfter_self (op : MemOp D) (a : Addr) (w : HitWhere) (llc : Addr → CacheState) :
    lastLevelAfter op a w llc a = lineAfter op w (llc a) := by
  unfold lastLevelAfter lineAfter
  split <;> simp [*]

theorem lastLevelAfter_of_ne (op : MemOp D) (w : HitWhere) (llc : Addr → CacheState) (h : v ≠ a) :
    lastLevelAfter op a w llc v = llc v := by
  unfold lastLevelAfter
  split <;> simp [*]

theorem copyDataFromNextLevel_filled (w : HitWhere) (hx : m a x = .invalid) (victim : Option Addr)
    (hp : operationPermissibleinCache op
      (getCacheState (lineAfter op w (llc a)) (m a) (H.next x))) (hv : ∀ v ≠ a, Consistent H (llc v) (m v)) :
    ∃ m', copyDataFromNextLevel H (lastLevelAfter op a w llc) op a x victim m = .ok m' ∧
      Filled H llc a (update (m a) x (getCacheState (lineAfter op w (llc a)) (m a) (H.next x))) m m' := by
  rw [copyDataFromNextLevel,lastLevelAfter_self,if_pos hp,if_pos hx]
  have hv' : ∀ v ≠ a, Consistent H (lastLevelAfter op a w llc v) (m v) := fun v hne => by
    rw [lastLevelAfter_of_ne op w llc hne]
    exact hv v hne
  obtain ⟨m',he,hf⟩ := insertCacheBlock_filled hx (getCacheState (lineAfter op w (llc a)) (m a) (H.next x)) victim hv'
  refine ⟨m',he,hf.line,fun v hne => ?_⟩
  rw [← lastLevelAfter_of_ne op w llc hne]
  exact hf.others v hne

theorem onLine_snoop_filled {z : Option ι} {new : Option CacheState} (hr : H.next r = z) (hn : Restrains new)
    (hu : ConsistentOutside H r (llc a) (m a))
    (hv : ∀ v ≠ a, Consistent H (llc v) (m v)) (w : HitWhere) : ∃ m', (do
        let m ← onLine a (snoopSiblings H (llc a) r z new) m
        return (m,w) : Except StackAssertion _) = .ok (m',w) ∧ Filled H llc a (quiet H r z new (m a)) m m' := by
  rw [onLine_eq (snoopSiblings_eq hr hn hu)]
  exact ⟨_,rfl,filled_update hv⟩

theorem process_refused (hr : H.next r = some d) (hp : operationPermissibleinCache op (m a d) = false)
    (hu : ConsistentOutside H r (llc a) (m a)) : processShmemReqFromPrevCache H llc op a vi r (d :: ds) m = (do
      let q ← processShmemReqFromPrevCache H llc op a vi d ds (update m a (lowered H r d (m a)))
      if q.2 = .miss then return q
      else do
        let m ← copyDataFromNextLevel H (lastLevelAfter op a q.2 llc) op a d (vi d) q.1
        return (m,q.2)) := by
  have hm : quiet H r (some d) (upgradeSnoop (m a d)) (m a) d ≠ .modified := by
    change getCacheState (llc a) (quiet H r (some d) (upgradeSnoop (m a d)) (m a)) (some d) ≠ _
    rw [quiet_next]
    intro h
    change m a d = .modified at h
    simp [h,permissible_modified] at hp
  have hdrop : onLine a (dropCacheBlock d) (update m a (quiet H r (some d) (upgradeSnoop (m a d)) (m a))) =
        .ok (update m a (lowered H r d (m a))) := by
    rw [onLine_eq (dropCacheBlock_eq (by rwa [update_self])),update_self,update_idem]
    rfl
  rw [processShmemReqFromPrevCache,hp,if_neg Bool.false_ne_true,
    onLine_eq (snoopSiblings_eq hr (restrains_upgradeSnoop _) hu)]
  change (do let m ← onLine a (dropCacheBlock d) _; _) = _
  rw [hdrop]
  rfl

theorem process_filled (ho : llc a ≠ .owned) (hr : H.above r = ds) (hu : ConsistentOutside H r (llc a) (m a))
    (hv : ∀ v ≠ a, Consistent H (llc v) (m v)) : ∃ m', processShmemReqFromPrevCache H llc op a vi r ds m =
        .ok (m',(serve H op (llc a) r ds (m a)).2) ∧ Filled H llc a (serve H op (llc a) r ds (m a)).1 m m' := by
  induction ds generalizing r m with
  | nil =>
    have hn : H.next r = none := by rw [Forest.next,hr]; rfl
    rw [processShmemReqFromPrevCache,serve]
    split
    case isTrue => exact onLine_snoop_filled hn (restrains_snoop op _) hu hv .lastLevel
    case isFalse =>
      split
      case isTrue => exact onLine_snoop_filled hn restrains_invalid hu hv .lastLevel
      case isFalse => exact onLine_snoop_filled hn (restrains_upgradeSnoop _) hu hv .miss
  | cons d ds ih =>
    have hn : H.next r = some d := by rw [Forest.next,hr]; rfl
    cases hp : operationPermissibleinCache op (m a d) with
    | true =>
      rw [processShmemReqFromPrevCache,serve,if_pos hp,if_pos hp]
      exact onLine_snoop_filled hn (restrains_snoop op _) hu hv .below
    | false =>
      have hd := H.above_cons r d ds hr
      have hul : ∀ y, ¬ H.Within d y →
          Under (lowered H r d (m a) y) (getCacheState (llc a) (lowered H r d (m a)) (H.next y)) :=
        under_lowered hn hu
      have hq : Served H op (llc a) d _ (serve H op (llc a) d ds (lowered H r d (m a))) := serve_served ho hd hul
      obtain ⟨m',he,hf⟩ := ih (m := update m a (lowered H r d (m a))) hd (by rwa [update_self]) fun v hne => by
          rw [update_of_ne hne]
          exact hv v hne
      rw [update_self] at he hf
      replace hf := (filled_update hv).trans hf
      rw [process_refused hn hp hu,he,serve_refused hp]
      generalize serve H op (llc a) d ds (lowered H r d (m a)) = q at hq hf
      change ∃ m'', (if q.2 = .miss then pure (m',q.2) else _) = _ ∧ _
      dsimp only
      by_cases hm : q.2 = .miss
      · rw [if_pos hm,if_pos hm]
        exact ⟨m',rfl,hf⟩
      · have hx : m' a d = .invalid := by
          rw [hf.line,hq.kept.inside d (H.within_self d),lowered_self]
        have hperm := hq.permitted hm
        rw [← hf.line] at hperm
        obtain ⟨m'',hc,hf'⟩ := copyDataFromNextLevel_filled q.2 hx (vi d) hperm
          fun v hne => (hf.others v hne).consistent
        rw [if_neg hm,if_neg hm,hc]
        refine ⟨m'',rfl,?_⟩
        rw [hf.line] at hf'
        exact hf.trans hf'

theorem processMemOpFromCore_hit (h : operationPermissibleinCache op (m a x)) :
    processMemOpFromCore H llc op a vi x m = .ok (m,.below) := if_pos h

theorem fill_filled (hs : Served H op (llc a) x f (m a,w)) (hx : m a x = .invalid) (hm : w ≠ .miss)
    (hv : ∀ v ≠ a, Consistent H (llc v) (m v)) : ∃ m', fill H llc op a vi x (m,w) = .ok (m',w) ∧
      Filled H llc a (update (m a) x (getCacheState (lineAfter op w (llc a)) (m a) (H.next x))) m m' := by
  have hp := hs.permitted hm
  obtain ⟨m',hc,hf⟩ := copyDataFromNextLevel_filled w hx (vi x) hp hv
  refine ⟨m',?_,hf⟩
  have hperm : operationPermissibleinCache op (m' a x) := by
    rwa [hf.line,update_self]
  rw [fill,hc]
  exact if_pos hperm

theorem processMemOpFromCore_refused (hp : operationPermissibleinCache op (m a x) = false) :
    processMemOpFromCore H llc op a vi x m = (do
      let q ← processShmemReqFromPrevCache H llc op a vi x (H.above x)
        (update m a (update (m a) x .invalid))
      if q.2 = .miss then return q else fill H llc op a vi x q) := by
  have hmod : m a x ≠ .modified := by
    intro h
    simp [h,permissible_modified] at hp
  rw [processMemOpFromCore,hp,if_neg Bool.false_ne_true,onLine_eq (dropCacheBlock_eq hmod)]
  rfl

theorem processMemOpFromCore_accessed (hx : H.prev (some x) = []) (ho : llc a ≠ .owned)
    (hc : ∀ v, Consistent H (llc v) (m v))
    (hp : operationPermissibleinCache op (m a x) = false) (vi : ι → Option Addr) :
    ∃ q, processMemOpFromCore H llc op a vi x m = .ok q ∧ Accessed H llc op a x m q := by
  have hd := (hc a).drop hx
  have hdrop : update m a (update (m a) x .invalid) a = update (m a) x .invalid := update_self _ _ _
  have hs : Served H op (llc a) x _ (serve H op (llc a) x (H.above x) (update (m a) x .invalid)) :=
    serve_served ho rfl fun y _ => hd y
  obtain ⟨m',he,hf⟩ := process_filled (m := update m a (update (m a) x .invalid))
    ho rfl (by rw [hdrop]; exact fun y _ => hd y)
    fun v hne => by
      rw [update_of_ne hne]
      exact hc v
  rw [hdrop] at he hf
  replace hf := (filled_update fun v _ => hc v).trans hf
  obtain ⟨⟨f,w⟩,hq⟩ : ∃ q,serve H op (llc a) x (H.above x) (update (m a) x .invalid) = q := ⟨_,rfl⟩
  rw [hq] at hs he hf
  rw [processMemOpFromCore_refused hp,he]
  change ∃ q', (if w = .miss then pure (m',w) else fill H llc op a vi x (m',w)) = _ ∧ _
  by_cases hm : w = .miss
  · rw [if_pos hm]
    refine ⟨_,rfl,?_,hf.others⟩
    change (m' a,w) = _
    rw [refill,hq,if_pos hm,hf.line]
  · have hi : m' a x = .invalid := by
      rw [hf.line,hs.kept.inside x (H.within_self x),update_self]
    rw [← show m' a = f from hf.line] at hs
    obtain ⟨m'',hfill,hf'⟩ := fill_filled hs hi hm fun v hne => (hf.others v hne).consistent
    rw [if_neg hm,hfill]
    refine ⟨_,rfl,?_,(hf.trans hf').others⟩
    change (m'' a,w) = _
    rw [refill,hq,if_neg hm,hf'.line]
    rw [hf.line]

theorem refused_invalid (op : MemOp D) : operationPermissibleinCache op .invalid = false := by
  cases op <;> rfl

theorem processMemOpAfterReply_eq (hi : m a x = .invalid) (hq : processMemOpFromCore H llc op a vi x m = .ok q)
    (hm : q.2 ≠ .miss) : processMemOpAfterReply H llc op a vi x m = .ok q := by
  have hself : update m a (update (m a) x .invalid) = m := by
    rw [← hi,update_eq_self,update_eq_self]
  rw [processMemOpFromCore_refused (by rw [hi]; exact refused_invalid op),hself] at hq
  unfold processMemOpAfterReply
  obtain ⟨r,hp,hq⟩ := Outcome.bind_ok hq
  rw [hp]
  change (if r.2 = .miss then .error .dataGone else fill H llc op a vi x r) = .ok q
  split_ifs at hq with hr
  · cases hq
    exact absurd hr hm
  · rwa [if_neg hr]

section
variable {new : CacheState} {f : ι → CacheState}

theorem settle_roots (new : CacheState) (f : ι → CacheState) :
    settle (fun y => ∃ x ∈ H.prev none, H.Within x y) new f = settleAll new f :=
  settle_congr fun y => iff_true_intro (H.exists_root y)

theorem updatePrevCaches_roots (hn : Assignable new) (h : Consistent H s f)
    (evicting : Option (Option ι)) : updatePrevCaches H evicting s new (H.prev none) f = .ok (settleAll new f) := by
  rw [updatePrevCaches_eq hn (H.nodup none) (fun _ => next_of_mem_prev)
    fun _ _ y _ => (h y).backed evicting,settle_roots]
end
end CacheStack
