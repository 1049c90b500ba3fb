import SniperSim.Stack.CacheStack

open Function List
namespace CacheStack
variable {ι : Type} {H : Forest ι} {llc new : CacheState} {f : ι → CacheState} {y : ι}

def settle (P : ι → Prop) [DecidablePred P] (new : CacheState) (f : ι → CacheState) (y : ι) : CacheState :=
  if P y ∧ f y ≠ .invalid then new else f y

section
variable {P Q : ι → Prop} [DecidablePred P] [DecidablePred Q]

theorem settle_invalid (h : f y = .invalid) : settle P new f y = .invalid := by simp [settle,h]

theorem settle_outside (h : ¬ P y) : settle P new f y = f y := by simp [settle,h]

theorem settle_inside (h : P y) (hf : f y ≠ .invalid) : settle P new f y = new := by
  simp [settle,h,hf]

theorem settle_congr (h : ∀ y, P y ↔ Q y) : settle P new f = settle Q new f := by
  funext y
  simp only [settle,h y]

theorem settle_settle : settle Q new (settle P new f) = settle (fun y => P y ∨ Q y) new f := by
  funext y
  by_cases hf : f y = .invalid
  · simp [settle,hf]
  · by_cases hp : P y <;> by_cases hq : Q y <;> simp [settle,hf,hp,hq]

theorem settle_next (h : ∀ w, z = some w → ¬ P w) : getCacheState llc (settle P new f) z = getCacheState llc f z := by
  cases z with
  | none => rfl
  | some w => exact settle_outside (h w rfl)
end

theorem next_of_mem_prev (h : x ∈ H.prev z) : H.next x = z := (H.mem_prev x z).mp h

def Assignable (new : CacheState) : Prop := new = .invalid ∨ new = .shared ∨ new = .modified

def Backed (H : Forest ι) (evicting : Option (Option ι)) (llc : CacheState) (f : ι → CacheState) (y : ι) : Prop :=
  f y = .modified → evicting = some (H.next y) ∨ getCacheState llc f (H.next y) = .modified

theorem Backed.settle [DecidablePred P] (hp : H.Closed P) (hy : ¬ P y) (h : Backed H e llc f y) :
    Backed H e llc (settle P new f) y := by
  intro hm
  rw [settle_outside hy] at hm
  rw [settle_next fun w hw hpw => hy (hp y w hw hpw)]
  exact h hm

variable [DecidableEq ι]

theorem getCacheState_update (h : z ≠ some x) : getCacheState llc (update f x new) z = getCacheState llc f z := by
  cases z with
  | none => rfl
  | some w => exact update_of_ne (fun hw => h (congrArg some hw)) _ _

theorem writeCacheBlock_backed (hb : Backed H e llc f x) (hm : f x = .modified) :
    writeCacheBlock e llc f (H.next x) = .ok () := by
  unfold writeCacheBlock
  rcases hb hm with h | h
  · rw [if_pos h]
  · simp [h]

theorem changeState_eq (hn : Assignable new) (hi : f x ≠ .invalid) (hm : f x ≠ .modified) :
    changeState new x f = .ok (update f x new) := by
  rcases hn with rfl | rfl | rfl
  · simp [changeState,invalidateCacheBlock,hi,hm]
  · rfl
  · rfl

theorem settle_self (hi : f x ≠ .invalid) : settle (· = x) new f = update f x new := by
  funext y
  rcases eq_or_ne y x with rfl | hy
  · rw [settle_inside (P := (· = y)) rfl hi,update_self]
  · rw [settle_outside (P := (· = x)) hy,update_of_ne hy]

theorem updateOwnBlock_eq (hn : Assignable new) (hb : Backed H e llc f x) :
    updateOwnBlock H e llc new x f = .ok (settle (· = x) new f) := by
  unfold updateOwnBlock
  by_cases hi : f x = .invalid
  · rw [if_pos hi]
    congr 1
    funext y
    rcases eq_or_ne y x with rfl | hy
    · rw [settle_invalid hi,hi]
    · rw [settle_outside (P := (· = x)) hy]
  · rw [if_neg hi,settle_self hi]
    by_cases hm : f x = .modified
    · rw [if_pos hm,writeCacheBlock_backed hb hm]
      change changeState new x (update f x .shared) = _
      rw [changeState_eq hn (by simp) (by simp),update_idem]
    · rw [if_neg hm,changeState_eq hn hi hm]

theorem foldlM_settle {g : (ι → CacheState) → ι → Except StackAssertion (ι → CacheState)}
    {xs : List ι} (hd : xs.Nodup) (hx : ∀ x ∈ xs, H.next x = z)
    (hg : ∀ x ∈ xs, ∀ f, (∀ y, H.Within x y → Backed H e llc f y) →
      g f x = .ok (settle (H.Within x) new f)) (hb : ∀ x ∈ xs, ∀ y, H.Within x y → Backed H e llc f y) :
    xs.foldlM g f = .ok (settle (fun y => ∃ x ∈ xs, H.Within x y) new f) := by
  induction xs generalizing f with
  | nil => exact congrArg Except.ok (funext fun y => (settle_outside (by simp)).symm)
  | cons x xs ih =>
    obtain ⟨hmem,hd⟩ := nodup_cons.mp hd
    rw [foldlM_cons,hg x mem_cons_self f (hb x mem_cons_self)]
    change xs.foldlM g (settle (H.Within x) new f) = _
    rw [ih hd (fun w hw => hx w (mem_cons_of_mem _ hw)) (fun w hw => hg w (mem_cons_of_mem _ hw)) ?_,settle_settle]
    · congr 1
      exact settle_congr (by simp)
    · intro w hw y hy
      have hne : ¬ H.Within x y := by
        intro hxy
        have he := H.eq_of_next ((hx x mem_cons_self).trans (hx w (mem_cons_of_mem _ hw)).symm) hxy hy
        exact hmem (he ▸ hw)
      exact (hb w (mem_cons_of_mem _ hw) y hy).settle (H.closed_within x) hne

theorem updateCacheBlock_eq {k : Nat} (hn : Assignable new) (hk : H.height x ≤ k)
    (hb : ∀ y, H.Within x y → Backed H e llc f y) :
    updateCacheBlock H e llc new k x f = .ok (settle (H.Within x) new f) := by
  induction k generalizing x f with
  | zero =>
    rw [updateCacheBlock,updateOwnBlock_eq hn (hb x (H.within_self x))]
    congr 1
    refine settle_congr fun y => ?_
    rw [H.within_iff]
    constructor
    · exact .inl
    · rintro (h | ⟨c,hc,-⟩)
      · exact h
      · exact absurd (H.height_lt c x hc) (by omega)
  | succ k ih =>
    have hprev : ∀ c ∈ H.prev (some x), ∀ y, H.Within c y → H.Within x y :=
      fun c hc y hy => H.within_iff.mpr (.inr ⟨c,hc,hy⟩)
    rw [updateCacheBlock,foldlM_settle (H.nodup (some x)) (fun _ => next_of_mem_prev)
      (fun c hc f hf => ih (by have := H.height_lt c x hc; omega) hf)
      (fun c hc y hy => hb y (hprev c hc y hy))]
    change updateOwnBlock H e llc new x _ = _
    have hself : ¬ ∃ c ∈ H.prev (some x), H.Within c x := by
      rintro ⟨c,hc,hw⟩
      exact H.not_within_next (next_of_mem_prev hc) hw
    rw [updateOwnBlock_eq hn ((hb x (H.within_self x)).settle (H.closed_exists _) hself),settle_settle]
    congr 1
    refine settle_congr fun y => ?_
    rw [H.within_iff,or_comm]

theorem updatePrevCaches_eq {xs : List ι} (hn : Assignable new) (hd : xs.Nodup)
    (hx : ∀ x ∈ xs, H.next x = z) (hb : ∀ x ∈ xs, ∀ y, H.Within x y → Backed H e llc f y) :
    updatePrevCaches H e llc new xs f = .ok (settle (fun y => ∃ x ∈ xs, H.Within x y) new f) :=
  foldlM_settle hd hx (fun _ _ _ hf => updateCacheBlock_eq hn (Nat.le_refl _) hf) hb

end CacheStack
