import Mathlib.Data.List.DropRight
import Mathlib.Data.List.Nodup

open List
namespace BoundedQueue
variable {α : Type}

def push (capacity : Nat) (queue : List α) (x : α) : List α :=
  if queue.length < capacity then queue ++ [x] else queue.tail ++ [x]

theorem push_rtake (c : Nat) (h : 1 ≤ c) (history : List α) (x : α) :
    push c (history.rtake c) x = (history ++ [x]).rtake c := by
  obtain ⟨k,rfl⟩ : ∃ k, c = k + 1 := ⟨c - 1,by omega⟩
  rw [rtake_concat_succ]
  unfold push rtake
  rw [length_drop]
  split
  · rename_i hlt
    have hk : history.length - (k + 1) = 0 := by omega
    have hk' : history.length - k = 0 := by omega
    rw [hk,hk']
  · rename_i hge
    have hk : history.length - k = history.length - (k + 1) + 1 := by omega
    rw [tail_drop,hk]

theorem length_rtake_le (c : Nat) (history : List α) : (history.rtake c).length ≤ c := by
  unfold rtake
  rw [length_drop]
  omega

theorem length_push_le (c : Nat) (h : 1 ≤ c) (queue : List α) (x : α)
    (hq : queue.length ≤ c) : (push c queue x).length ≤ c := by
  unfold push
  split <;> simp <;> omega

theorem nodup_concat {queue : List α} {x : α} (hq : queue.Nodup) (hx : x ∉ queue) : (queue ++ [x]).Nodup := by
  rw [← concat_eq_append]
  exact Nodup.concat hx hq

theorem nodup_push (c : Nat) (queue : List α) (x : α) (hq : queue.Nodup) (hx : x ∉ queue) : (push c queue x).Nodup := by
  unfold push
  split
  · exact nodup_concat hq hx
  · exact nodup_concat hq.tail (fun h => hx (mem_of_mem_tail h))

end BoundedQueue
