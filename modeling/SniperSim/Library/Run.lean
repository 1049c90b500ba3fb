import Mathlib.Tactic.Common

open List Option
namespace Run
variable {S L : Type} {step : S → L → S}

def Along (step : S → L → S) (P : S → L → Prop) : S → List L → Prop
  | _, [] => True
  | s, l :: ls => P s l ∧ Along step P (step s l) ls

instance decidableAlong (P : S → L → Prop) [∀ s l, Decidable (P s l)] :
    ∀ (s : S) (ls : List L), Decidable (Along step P s ls)
  | _, [] => isTrue trivial
  | s, l :: ls => @instDecidableAnd _ _ _ (decidableAlong P (step s l) ls)

theorem foldl_invariant {I : S → Prop} (hstep : ∀ s l, I s → I (step s l)) {s : S} (h : I s)
    (ls : List L) : I (ls.foldl step s) := by
  induction ls generalizing s with
  | nil => exact h
  | cons l ls ih => exact ih (hstep s l h)

theorem foldl_along {I : S → Prop} {C : S → L → Prop} (hstep : ∀ s l, I s → C s l → I (step s l)) {s : S} (h : I s)
    {ls : List L} (hc : Along step C s ls) : I (ls.foldl step s) := by
  induction ls generalizing s with
  | nil => exact h
  | cons l ls ih => exact ih (hstep s l h hc.1) hc.2

theorem along_of_invariant {I : S → Prop} {C P : S → L → Prop}
    (hstep : ∀ s l, I s → C s l → I (step s l)) (hP : ∀ s l, I s → C s l → P s l) {s : S} (h : I s)
    {ls : List L} (hc : Along step C s ls) : Along step P s ls := by
  induction ls generalizing s with
  | nil => trivial
  | cons l ls ih => exact ⟨hP s l h hc.1,ih (hstep s l h hc.1) hc.2⟩

theorem prefixes_iff_along {I P : S → Prop} {C : S → L → Prop} {ls : List L}
    (hstep : ∀ s, I s → ∀ l ∈ ls, C s l → I (step s l)) (hP : ∀ s, I s → P s)
    (hC : ∀ s, I s → ∀ l ∈ ls, P (step s l) → C s l) {s : S} (h : I s) :
    (∀ pre, pre <+: ls → P (pre.foldl step s)) ↔ Along step C s ls := by
  induction ls generalizing s with
  | nil =>
    refine ⟨fun _ => trivial,fun _ pre hpre => ?_⟩
    obtain rfl := prefix_nil.mp hpre
    exact hP s h
  | cons l ls ih =>
    have htail := @ih (fun s hs l hl => hstep s hs l (mem_cons_of_mem _ hl))
      (fun s hs l hl => hC s hs l (mem_cons_of_mem _ hl))
    constructor
    · intro hall
      have hc : C s l := hC s h l mem_cons_self (hall [l] ((prefix_cons_inj l).mpr nil_prefix))
      refine ⟨hc,(htail (hstep s h l mem_cons_self hc)).mp fun pre hpre => ?_⟩
      exact hall (l :: pre) ((prefix_cons_inj l).mpr hpre)
    · rintro ⟨hc,hls⟩ pre hpre
      cases pre with
      | nil => exact hP s h
      | cons l' pre =>
        obtain ⟨rfl,hrest⟩ := cons_prefix_cons.mp hpre
        exact (htail (hstep s h l' mem_cons_self hc)).mpr hls pre hrest

section
variable {T O : Type} {f : S → L → S × O} {g : T → L → T × O}

def outputs (f : S → L → S × O) : S → List L → List O
  | _, [] => []
  | s, l :: ls => (f s l).2 :: outputs f (f s l).1 ls

def final (f : S → L → S × O) (s : S) (ls : List L) : S := ls.foldl (fun s l => (f s l).1) s

theorem simulation {R : S → T → Prop} {C : S → L → Prop}
    (hstep : ∀ s t l, R s t → C s l → R (f s l).1 (g t l).1 ∧ (f s l).2 = (g t l).2) {s : S} {t : T}
    (h : R s t) {ls : List L} (hc : Along (fun s l => (f s l).1) C s ls) :
    R (final f s ls) (final g t ls) ∧ outputs f s ls = outputs g t ls := by
  induction ls generalizing s t with
  | nil => exact ⟨h,rfl⟩
  | cons l ls ih =>
    obtain ⟨hr,ho⟩ := hstep s t l h hc.1
    obtain ⟨hf,hos⟩ := ih hr hc.2
    refine ⟨hf,?_⟩
    rw [outputs,outputs,ho,hos]
end

section
variable {ε : Type} {next : S → L → Except ε S} {C : S → L → Prop}

inductive Reaches (next : S → L → Except ε S) (C : S → L → Prop) (s : S) : S → Prop
  | refl : Reaches next C s s
  | tail {t u : S} {l : L} (h : Reaches next C s t) (hc : C t l) (hn : next t l = .ok u) : Reaches next C s u

variable {s t : S}

theorem Reaches.invariant {I : S → Prop} (hstep : ∀ s l t, I s → C s l → next s l = .ok t → I t) (hs : I s)
    (h : Reaches next C s t) : I t := by
  induction h with
  | refl => exact hs
  | tail _ hc hn ih => exact hstep _ _ _ ih hc hn

theorem Reaches.imp {C' : S → L → Prop} (hc : ∀ s l, C s l → C' s l)
    (h : Reaches next C s t) : Reaches next C' s t := by
  induction h with
  | refl => exact .refl
  | tail _ hl hn ih => exact ih.tail (hc _ _ hl) hn

theorem Reaches.trans {u : S} (h : Reaches next C s t) (h' : Reaches next C t u) : Reaches next C s u := by
  induction h' with
  | refl => exact h
  | tail _ hc hn ih => exact ih.tail hc hn

def guided (next : S → L → Except ε S) (C : S → L → Prop) [∀ s l, Decidable (C s l)] : S → List L → Option S
  | s, [] => some s
  | s, l :: ls =>
    if C s l then
      match next s l with
      | .ok t => guided next C t ls
      | .error _ => none
    else none

theorem reaches_of_guided [∀ s l, Decidable (C s l)] {ls : List L}
    (h : guided next C s ls = some t) : Reaches next C s t := by
  induction ls generalizing s with
  | nil =>
    cases h
    exact .refl
  | cons l ls ih =>
    rw [guided] at h
    split_ifs at h with hc
    split at h
    · next u hu => exact (Reaches.refl.tail hc hu).trans (ih h)
    · simp at h

theorem reaches_guided [∀ s l, Decidable (C s l)] {ls : List L}
    (h : (guided next C s ls).isSome) : Reaches next C s ((guided next C s ls).getD s) := by
  obtain ⟨t,ht⟩ := isSome_iff_exists.mp h
  rw [ht]
  exact reaches_of_guided ht

theorem guided_append [∀ s l, Decidable (C s l)] (ls ls' : List L) :
    guided next C s (ls ++ ls') = (guided next C s ls).bind fun t => guided next C t ls' := by
  induction ls generalizing s with
  | nil => rfl
  | cons l ls ih =>
    rw [cons_append,guided,guided]
    split_ifs
    · split
      · exact ih
      · rfl
    · rfl

theorem next_guided [∀ s l, Decidable (C s l)] {d : S} {ls : List L} {l : L}
    (h : (guided next C s (ls ++ [l])).isSome) :
    next ((guided next C s ls).getD d) l = .ok ((guided next C s (ls ++ [l])).getD d) := by
  rw [guided_append] at h ⊢
  cases ht : guided next C s ls with
  | none => simp [ht] at h
  | some t =>
    rw [ht,bind_some,guided] at h
    rw [bind_some,guided,getD_some]
    split_ifs at h ⊢
    · split at h
      · next u hu => simp [hu,guided]
      · simp at h
    · simp at h
end
end Run
