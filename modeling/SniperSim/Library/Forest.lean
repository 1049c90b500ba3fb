import Mathlib.Data.List.Nodup

open List

structure Forest (ι : Type) where
  above : ι → List ι
  prev : Option ι → List ι
  height : ι → Nat
  mem_prev : ∀ x y, x ∈ prev y ↔ (above x).head? = y
  above_cons : ∀ x y ys, above x = y :: ys → above y = ys
  nodup : ∀ y, (prev y).Nodup
  height_lt : ∀ x y, x ∈ prev (some y) → height x < height y

namespace Forest
variable {ι : Type} (F : Forest ι) {c d x y z : ι}

def next (x : ι) : Option ι := (F.above x).head?

def Within (x y : ι) : Prop := y = x ∨ x ∈ F.above y

instance decidableWithin [DecidableEq ι] (x y : ι) : Decidable (F.Within x y) := inferInstanceAs (Decidable (_ ∨ _))

theorem above_of_next (h : F.next x = some y) : F.above x = y :: F.above y := by
  unfold next at h
  cases ha : F.above x with
  | nil => simp [ha] at h
  | cons z zs =>
    rw [ha] at h
    obtain rfl := Option.some.inj h
    rw [F.above_cons x z zs ha]

theorem mem_above_of_next (h : F.next x = some y) : y ∈ F.above x := by
  rw [F.above_of_next h]
  exact mem_cons_self

theorem climb {P : ι → Prop} (h : ∀ x, (∀ z, F.next x = some z → P z) → P x) (x : ι) : P x := by
  generalize hl : F.above x = l
  induction l generalizing x with
  | nil => exact h x fun z hz => by simp [next,hl] at hz
  | cons y ys ih =>
    refine h x fun z hz => ih z ?_
    obtain rfl : y = z := by simpa [next,hl] using hz
    exact F.above_cons x y ys hl

theorem above_split {l : List ι} (hl : F.above y = l) (h : x ∈ l) : ∃ pre, F.above y = pre ++ x :: F.above x := by
  induction l generalizing y with
  | nil => simp at h
  | cons z zs ih =>
    have hz := F.above_cons y z zs hl
    rcases mem_cons.mp h with rfl | h
    · exact ⟨[],by rw [hl,hz]; rfl⟩
    · obtain ⟨pre,hpre⟩ := ih hz h
      exact ⟨z :: pre,by rw [hl,← hz,hpre]; rfl⟩

theorem length_above (h : x ∈ F.above y) : (F.above x).length < (F.above y).length := by
  obtain ⟨pre,hpre⟩ := F.above_split rfl h
  rw [hpre,length_append,length_cons]
  omega

theorem not_mem_above (x : ι) : x ∉ F.above x := fun h => absurd (F.length_above h) (by omega)

theorem within_self (x : ι) : F.Within x x := .inl rfl

theorem within_of_next (h : F.next y = some z) (hz : F.Within x z) : F.Within x y := by
  right
  rw [F.above_of_next h]
  rcases hz with rfl | hz <;> simp [*]

theorem next_of_within (h : F.Within x y) (hne : y ≠ x) : ∃ z, F.next y = some z ∧ F.Within x z := by
  rcases h with rfl | h
  · exact absurd rfl hne
  · cases ha : F.above y with
    | nil => simp [ha] at h
    | cons z zs =>
      refine ⟨z,by rw [next,ha]; rfl,?_⟩
      rw [ha] at h
      rcases mem_cons.mp h with rfl | h
      · exact F.within_self x
      · right
        rwa [F.above_cons y z zs ha]

theorem not_within_next (h : F.next c = some x) : ¬ F.Within c x := by
  have hx := F.mem_above_of_next h
  rintro (rfl | hc)
  · exact F.not_mem_above x hx
  · exact Nat.lt_asymm (F.length_above hc) (F.length_above hx)

theorem ne_of_within_child (h : F.next c = some x) (hc : F.Within c y) : y ≠ x := by
  rintro rfl
  exact F.not_within_next h hc

theorem ne_of_next (h : F.next c = some x) : c ≠ x := F.ne_of_within_child h (F.within_self c)

theorem ne_of_not_within (h : ¬ F.Within x y) : y ≠ x := by
  rintro rfl
  exact h (F.within_self y)

theorem within_iff : F.Within x y ↔ y = x ∨ ∃ c ∈ F.prev (some x), F.Within c y := by
  constructor
  · intro h
    induction y using F.climb with
    | h y ih =>
      rcases eq_or_ne y x with hyx | hne
      · exact .inl hyx
      · obtain ⟨z,hn,hw⟩ := F.next_of_within h hne
        rcases ih z hn hw with rfl | ⟨c,hc,hc'⟩
        · exact .inr ⟨y,(F.mem_prev y (some z)).mpr hn,F.within_self y⟩
        · exact .inr ⟨c,hc,F.within_of_next hn hc'⟩
  · rintro (rfl | ⟨c,hc,hw⟩)
    · exact F.within_self y
    · have hx := F.mem_above_of_next ((F.mem_prev c (some x)).mp hc)
      rcases hw with rfl | hw
      · exact .inr hx
      · obtain ⟨pre,hpre⟩ := F.above_split rfl hw
        right
        rw [hpre]
        exact mem_append_right _ (mem_cons_of_mem _ hx)

theorem within_of_child (hc : F.next c = some x) (h : F.Within c y) : F.Within x y :=
  F.within_iff.mpr (.inr ⟨c,(F.mem_prev c (some x)).mpr hc,h⟩)

theorem path_of_within (h : F.Within x y) : ∃ pre, y :: F.above y = pre ++ x :: F.above x := by
  rcases h with rfl | h
  · exact ⟨[],rfl⟩
  · obtain ⟨pre,hpre⟩ := F.above_split rfl h
    exact ⟨y :: pre,by rw [hpre]; rfl⟩

theorem eq_of_within (hc : F.Within c y) (hd : F.Within d y) (h : (F.above c).length = (F.above d).length) : c = d := by
  obtain ⟨pre,hpre⟩ := F.path_of_within hc
  obtain ⟨pre',hpre'⟩ := F.path_of_within hd
  rw [hpre] at hpre'
  have hl := congrArg length hpre'
  simp only [length_append,length_cons] at hl
  exact (cons.inj (append_inj hpre' (by omega)).2).1

theorem length_above_of_next (h : F.next c = F.next d) : (F.above c).length = (F.above d).length := by
  cases hc : F.next c with
  | none =>
    have hd := h.symm.trans hc
    rw [next,head?_eq_none_iff] at hc hd
    rw [hc,hd]
  | some x => rw [F.above_of_next hc,F.above_of_next (h.symm.trans hc)]

theorem eq_of_next (h : F.next c = F.next d) (hc : F.Within c y) (hd : F.Within d y) : c = d :=
  F.eq_of_within hc hd (F.length_above_of_next h)

theorem exists_root (y : ι) : ∃ x ∈ F.prev none, F.Within x y := by
  induction y using F.climb with
  | h y ih =>
    cases hn : F.next y with
    | none => exact ⟨y,(F.mem_prev y none).mpr hn,F.within_self y⟩
    | some z =>
      obtain ⟨x,hx,hw⟩ := ih z hn
      exact ⟨x,hx,F.within_of_next hn hw⟩

theorem next_none_of_length (h : (F.above x).length = 0) : F.next x = none := by
  rw [next,length_eq_zero_iff.mp h]
  rfl

theorem exists_next (h : 0 < (F.above x).length) :
    ∃ z, F.next x = some z ∧ (F.above x).length = (F.above z).length + 1 := by
  cases ha : F.above x with
  | nil => simp [ha] at h
  | cons z zs =>
    exact ⟨z,by rw [next,ha]; rfl,by rw [F.above_cons x z zs ha]; rfl⟩

theorem length_of_within (h : F.Within x y) : (F.above x).length ≤ (F.above y).length := by
  rcases h with rfl | h
  · exact Nat.le_refl _
  · exact Nat.le_of_lt (F.length_above h)

theorem apart_next (hxy : ¬ F.Within x y) (hz : F.next y = some z) (hl : (F.above x).length ≤ (F.above z).length) :
    ¬ F.Within x z ∧ ¬ F.Within z x := by
  have hxz : ¬ F.Within x z := fun h => hxy (F.within_of_next hz h)
  refine ⟨hxz,fun h => ?_⟩
  have hle := F.length_of_within h
  exact hxz (.inl (F.eq_of_within h (F.within_self x) (by omega)))

theorem exists_fork (hxy : ¬ F.Within x y) (hyx : ¬ F.Within y x) :
    ∃ c d, c ≠ d ∧ F.next c = F.next d ∧ F.Within c x ∧ F.Within d y := by
  generalize hn : (F.above x).length + (F.above y).length = n
  induction n using Nat.strongRecOn generalizing x y with
  | ind n ih =>
    rcases Nat.lt_trichotomy (F.above x).length (F.above y).length with hl | hl | hl
    · obtain ⟨z,hz,hlen⟩ := F.exists_next (x := y) (by omega)
      obtain ⟨hxz,hzx⟩ := F.apart_next hxy hz (by omega)
      obtain ⟨c,d,hne,hnext,hc,hd⟩ := ih _ (by omega) hxz hzx rfl
      exact ⟨c,d,hne,hnext,hc,F.within_of_next hz hd⟩
    · by_cases hnext : F.next x = F.next y
      · refine ⟨x,y,?_,hnext,F.within_self x,F.within_self y⟩
        rintro rfl
        exact hxy (F.within_self x)
      · have hpos : 0 < (F.above x).length := by
          rcases Nat.eq_zero_or_pos (F.above x).length with h0 | h0
          · exact absurd ((F.next_none_of_length h0).trans (F.next_none_of_length (hl ▸ h0)).symm) hnext
          · exact h0
        obtain ⟨u,hu,hulen⟩ := F.exists_next hpos
        obtain ⟨v,hv,hvlen⟩ := F.exists_next (x := y) (by omega)
        have huv : u ≠ v := by
          rintro rfl
          exact hnext (hu.trans hv.symm)
        have h1 : ¬ F.Within u v := fun h => huv (F.eq_of_within h (F.within_self v) (by omega))
        have h2 : ¬ F.Within v u := fun h => huv (F.eq_of_within (F.within_self u) h (by omega))
        obtain ⟨c,d,hne,hcd,hc,hd⟩ := ih _ (by omega) h1 h2 rfl
        exact ⟨c,d,hne,hcd,F.within_of_next hu hc,F.within_of_next hv hd⟩
    · obtain ⟨z,hz,hlen⟩ := F.exists_next (x := x) (by omega)
      obtain ⟨hyz,hzy⟩ := F.apart_next hyx hz (by omega)
      obtain ⟨c,d,hne,hnext,hc,hd⟩ := ih _ (by omega) hzy hyz rfl
      exact ⟨c,d,hne,hnext,F.within_of_next hz hc,hd⟩

theorem next_ne_leaf (hx : F.prev (some x) = []) (y : ι) : F.next y ≠ some x := by
  intro h
  have hm := (F.mem_prev y (some x)).mpr h
  simp [hx] at hm

theorem within_leaf (hx : F.prev (some x) = []) : F.Within x y ↔ y = x := by
  rw [F.within_iff,hx]
  simp

theorem not_mem_above_leaf (hx : F.prev (some x) = []) (y : ι) : x ∉ F.above y := by
  intro h
  have hw : F.Within x y := .inr h
  obtain rfl := (F.within_leaf hx).mp hw
  exact F.not_mem_above y h

def Closed (P : ι → Prop) : Prop := ∀ y z, F.next y = some z → P z → P y

theorem closed_within (x : ι) : F.Closed (F.Within x) := fun _ _ => F.within_of_next

theorem closed_exists (xs : List ι) : F.Closed fun y => ∃ x ∈ xs, F.Within x y := by
  rintro y z hz ⟨x,hx,hw⟩
  exact ⟨x,hx,F.within_of_next hz hw⟩

end Forest
