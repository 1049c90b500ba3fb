import Mathlib.Data.List.Nodup

open List
namespace WaitQueue
variable {α : Type} {p : α → Bool} {q : List α} {x y : α} {n : Nat}

def dequeue (p : α → Bool) : Nat → List α → List α × List α
  | 0, q => ([],q)
  | n + 1, q =>
    match q.find? p with
    | none => ([],q)
    | some x => (x :: (dequeue p n (q.eraseP p)).1,(dequeue p n (q.eraseP p)).2)

theorem find_split (h : q.find? p = some x) :
    ∃ l l', q = l ++ x :: l' ∧ q.eraseP p = l ++ l' ∧ ∀ y ∈ l, p y = false := by
  obtain ⟨hx,l,l',hq,hl⟩ := find?_eq_some_iff_append.mp h
  have hl' : ∀ y ∈ l, p y = false := fun y hy => by simpa using hl y hy
  refine ⟨l,l',hq,?_,hl'⟩
  rw [hq,eraseP_append_right _ (fun y hy => by simp [hl' y hy]),eraseP_cons_of_pos hx]

theorem filter_eq_cons_of_find (h : q.find? p = some x) : q.filter p = x :: (q.eraseP p).filter p := by
  obtain ⟨l,l',hq,herase,hl⟩ := find_split h
  have hnil : l.filter p = [] := by simpa using hl
  rw [herase,hq,filter_append,filter_append,hnil,filter_cons_of_pos (find?_some h)]
  rfl

theorem filter_eq_nil_of_find (h : q.find? p = none) : q.filter p = [] := by
  rw [filter_eq_nil_iff]
  exact find?_eq_none.mp h

theorem dequeue_fst (p : α → Bool) (n : Nat) (q : List α) : (dequeue p n q).1 = (q.filter p).take n := by
  induction n generalizing q with
  | zero => rw [dequeue,take_zero]
  | succ n ih =>
    rw [dequeue]
    cases h : q.find? p with
    | none => rw [filter_eq_nil_of_find h,take_nil]
    | some x => rw [filter_eq_cons_of_find h,take_succ_cons,ih]

theorem take_filter_eq_iff {r : α → Bool} (h : ∀ x ∈ q, p x → r x) :
    (q.filter p).take n = (q.filter r).take n ↔ ∀ x ∈ (q.filter r).take n, p x := by
  constructor
  · intro he x hx
    rw [← he] at hx
    exact (mem_filter.mp (mem_of_mem_take hx)).2
  · intro ha
    induction q generalizing n with
    | nil => rfl
    | cons y q ih =>
      have hq : ∀ x ∈ q, p x → r x := fun x hx => h x (mem_cons_of_mem y hx)
      cases hr : r y with
      | true =>
        rw [filter_cons_of_pos hr] at ha ⊢
        cases n with
        | zero => rw [take_zero,take_zero]
        | succ n =>
          rw [filter_cons_of_pos (ha y mem_cons_self),take_succ_cons,
            take_succ_cons,ih hq fun x hx => ha x (mem_cons_of_mem y hx)]
      | false =>
        have hp : ¬ p y := fun hp => by simp [h y mem_cons_self hp] at hr
        have hr' : ¬ r y := by simp [hr]
        rw [filter_cons_of_neg hr'] at ha ⊢
        rw [filter_cons_of_neg hp,ih hq ha]

section
variable [DecidableEq α]

theorem eraseP_eq_filter (hq : q.Nodup) (h : q.find? p = some x) : q.eraseP p = q.filter (· ≠ x) := by
  obtain ⟨l,l',rfl,herase,-⟩ := find_split h
  have hx := (nodup_cons.mp (nodup_middle.mp hq)).1
  rw [herase,filter_append,filter_cons_of_neg (by simp),← filter_append,eq_comm,filter_eq_self]
  exact fun z hz => decide_eq_true (ne_of_mem_of_not_mem hz hx)

theorem dequeue_snd (p : α → Bool) (n : Nat) (hq : q.Nodup) :
    (dequeue p n q).2 = q.filter (· ∉ (q.filter p).take n) := by
  induction n generalizing q with
  | zero => simp [dequeue]
  | succ n ih =>
    rw [dequeue]
    cases h : q.find? p with
    | none => simp [filter_eq_nil_of_find h]
    | some x =>
      have hsub : (q.eraseP p).Sublist q := eraseP_sublist
      dsimp only
      rw [ih (hq.sublist hsub),filter_eq_cons_of_find h,take_succ_cons,eraseP_eq_filter hq h,filter_filter]
      congr 1
      funext y
      simp [not_or,Bool.and_comm]

theorem eq_filter_of_sublist {l : List α} (hq : q.Nodup) (h : l.Sublist q) : l = q.filter (· ∈ l) := by
  have hsub : l.Sublist (q.filter (· ∈ l)) := by
    have hfilter := h.filter (· ∈ l)
    rwa [filter_eq_self.mpr (by simp)] at hfilter
  refine hsub.eq_of_length ((perm_ext_iff_of_nodup (hq.sublist h) (hq.filter _)).mpr fun x => ?_).length_eq
  simpa using fun hx => h.subset hx

theorem eq_of_filter_notMem {l l' : List α} (hq : q.Nodup) (h : l.Sublist q) (h' : l'.Sublist q)
    (he : q.filter (· ∉ l) = q.filter (· ∉ l')) : l = l' := by
  rw [eq_filter_of_sublist hq h,eq_filter_of_sublist hq h']
  refine filter_congr fun x hx => ?_
  have hm : x ∈ q.filter (· ∉ l) ↔ x ∈ q.filter (· ∉ l') := by rw [he]
  simp only [mem_filter,hx,decide_not,true_and,Bool.not_eq_true',decide_eq_false_iff_not,not_iff_not] at hm
  simp [hm]
end
end WaitQueue
