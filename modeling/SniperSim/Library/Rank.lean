import Mathlib.Tactic.Common

namespace List
variable {α : Type} {p : α → Bool} {l : List α} {i j n : Nat} {x : α}

def rank (p : α → Bool) (l : List α) (i : Nat) : Nat := (l.take i).countP p

@[simp] theorem rank_zero : l.rank p 0 = 0 := rfl

theorem rank_cons_succ : (x :: l).rank p (i + 1) = l.rank p i + if p x then 1 else 0 := by
  simp [rank,countP_cons]

theorem rank_succ (h : l[i]? = some x) : l.rank p (i + 1) = l.rank p i + if p x then 1 else 0 := by
  simp [rank,take_add_one,h,countP_append,countP_singleton]

theorem rank_succ_none (h : l[i]? = none) : l.rank p (i + 1) = l.rank p i := by
  simp [rank,take_add_one,h]

theorem rank_mono (h : i ≤ j) : l.rank p i ≤ l.rank p j := (take_prefix_take_left h).sublist.countP_le

theorem rank_add_rank_not (h : i ≤ l.length) : l.rank p i + l.rank (fun x => !p x) i = i := by
  have hlen : (l.take i).length = i := length_take_of_le h
  have hsum := length_eq_countP_add_countP p (l := l.take i)
  rw [hlen] at hsum
  simpa [rank] using hsum.symm

theorem rank_add : l.rank p (i + j) = l.rank p i + (l.drop i).rank p j := by
  rw [rank,rank,rank,take_add,countP_append]

theorem rank_map {β : Type} (f : β → α) (l : List β) (i : Nat) : (l.map f).rank p i = l.rank (fun x => p (f x)) i := by
  rw [rank,rank,← map_take,countP_map]
  rfl

theorem exists_rank_iff (h : i ≤ j) : (l.rank p i ≤ n ∧ n < l.rank p j) ↔
      ∃ k x, i ≤ k ∧ k < j ∧ l[k]? = some x ∧ p x ∧ l.rank p k = n := by
  constructor
  · rintro ⟨hle,hlt⟩
    induction h with
    | refl => omega
    | @step j hj ih =>
      by_cases hbefore : n < l.rank p j
      · obtain ⟨k,x,hik,hkj,hx⟩ := ih hbefore
        exact ⟨k,x,hik,Nat.lt_succ_of_lt hkj,hx⟩
      · cases hget : l[j]? with
        | none =>
          rw [rank_succ_none hget] at hlt
          omega
        | some x =>
          rw [rank_succ hget] at hlt
          by_cases hp : p x
          · rw [if_pos hp] at hlt
            exact ⟨j,x,hj,Nat.lt_succ_self j,hget,hp,by omega⟩
          · rw [if_neg hp] at hlt
            omega
  · rintro ⟨k,x,hik,hkj,hget,hp,rfl⟩
    have hsucc := rank_succ (p := p) hget
    rw [if_pos hp] at hsucc
    have hle : l.rank p (k + 1) ≤ l.rank p j := rank_mono hkj
    exact ⟨rank_mono hik,by omega⟩

end List
