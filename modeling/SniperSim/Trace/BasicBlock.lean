import Mathlib.Data.List.SplitBy

open List
namespace TraceThread

structure Instruction where
  addr : BitVec 64
  size : BitVec 8
  isBranch : Bool

def Instruction.after (i : Instruction) : BitVec 64 := i.addr + i.size.setWidth 64

structure State where
  bbvBase : BitVec 64 := 0
  bbvLast : BitVec 64 := 0
  bbvCount : Nat := 0
  bbvEnd := false
  calls : List (BitVec 64 × Nat) := []
  handed : List Instruction := []

def handle (s : State) (i : Instruction) : State :=
  let s := if s.bbvEnd || s.bbvLast != i.addr then
      { s with calls := s.calls ++ [(s.bbvBase,s.bbvCount)], bbvBase := i.addr, bbvCount := 0 }
    else s
  { s with bbvCount := s.bbvCount + 1, bbvLast := i.after, bbvEnd := i.isBranch, handed := s.handed ++ [i] }

def loop (s : State) (i : Instruction) : List Instruction → State
  | [] => s
  | j :: trace => loop (handle s i) j trace

def run : List Instruction → State
  | [] => {}
  | i :: trace => loop {} i trace

def reported (s : State) : List (BitVec 64 × Nat) := s.calls.filter fun p => 0 < p.2

def continues (i j : Instruction) : Bool := !i.isBranch && i.after == j.addr

def summary (block : List Instruction) : BitVec 64 × Nat := (block.head?.elim 0 (·.addr),block.length)

def Partitions (handed : List Instruction) (calls : List (BitVec 64 × Nat)) : Prop :=
  ∃ blocks : List (List Instruction), (handed = blocks.flatten ∧ [] ∉ blocks ∧ (∀ b ∈ blocks, b.IsChain fun i j => continues i j) ∧
    blocks.IsChain fun b b' => ∃ h h', continues (b.getLast h) (b'.head h') = false) ∧ calls = blocks.map summary

theorem partitions_iff : Partitions handed calls ↔ calls = (handed.splitBy continues).map summary := by
  simp only [Partitions,← splitBy_eq_iff,exists_eq_left']

theorem loop_eq (s : State) (i : Instruction) (trace : List Instruction) :
    loop s i trace = (i :: trace).dropLast.foldl handle s := by
  induction trace generalizing s i with
  | nil => rfl
  | cons j trace ih => exact ih (handle s i) j

theorem handed_foldl (s : State) (is : List Instruction) : (is.foldl handle s).handed = s.handed ++ is := by
  induction is generalizing s with
  | nil => simp
  | cons i is ih =>
    rw [foldl_cons,ih]
    simp only [handle]
    split <;> simp

structure Within (s : State) (i : Instruction) (g : List Instruction) (gs : List (List Instruction)) : Prop where
  opened : (s.bbvBase,s.bbvCount) = summary (i :: g).reverse
  last : s.bbvLast = i.after
  ended : s.bbvEnd = i.isBranch
  closed : reported s = gs.reverse.map summary

theorem reported_foldl (h : Within s i g gs) (is : List Instruction) :
    reported (is.foldl handle s) = (splitBy.loop continues is i g gs).dropLast.map summary := by
  induction is generalizing s i g gs with
  | nil => simp [splitBy.loop,h.closed]
  | cons j is ih =>
    obtain ⟨ho,hl,he,hc⟩ := h
    rw [foldl_cons,splitBy.loop]
    cases hj : continues i j with
    | true =>
      have hs : (s.bbvEnd || s.bbvLast != j.addr) = false := by simpa [continues,he,hl] using hj
      exact ih ⟨by simpa [handle,hs,summary] using ho,by simp [handle],rfl,by simpa [handle,hs,reported] using hc⟩
    | false =>
      have hs : (s.bbvEnd || s.bbvLast != j.addr) := by
        cases hb : i.isBranch <;> simp_all [continues]
      refine ih ⟨by simp [handle,hs,summary],by simp [handle],rfl,?_⟩
      rw [Prod.mk.injEq] at ho
      simpa [handle,hs,reported,ho,summary] using hc

theorem run_reported (trace : List Instruction) : (run trace).handed = trace.dropLast ∧
      reported (run trace) = (trace.dropLast.splitBy continues).dropLast.map summary := by
  have hloop : run trace = trace.dropLast.foldl handle {} := by
    cases trace with
    | nil => rfl
    | cons i trace => exact loop_eq {} i trace
  rw [hloop,handed_foldl]
  refine ⟨rfl,?_⟩
  cases trace.dropLast with
  | nil => rfl
  | cons i is =>
    refine reported_foldl ⟨?_,by simp [handle],rfl,?_⟩ is
    · by_cases hi : 0#64 = i.addr <;> simp [handle,hi,summary]
    · by_cases hi : 0#64 = i.addr <;> simp [handle,hi,reported]

theorem blocks_counted_iff (trace : List Instruction) :
    Partitions (run trace).handed (reported (run trace)) ↔ trace.length ≤ 1 := by
  obtain ⟨hhanded,hreported⟩ := run_reported trace
  have hnil : trace.length ≤ 1 ↔ trace.dropLast.splitBy continues = [] := by
    rw [splitBy_eq_nil,← length_eq_zero_iff,length_dropLast,Nat.sub_eq_zero_iff_le]
  rw [partitions_iff,hhanded,hreported,hnil]
  constructor
  · intro h
    have hlen := congrArg length h
    rw [length_map,length_dropLast,length_map] at hlen
    exact eq_nil_of_length_eq_zero (by omega)
  · intro h
    rw [h]
    rfl

theorem last_block_uncounted :
    ¬Partitions (run [⟨16,4,false⟩,⟨20,4,false⟩]).handed (reported (run [⟨16,4,false⟩,⟨20,4,false⟩])) := by
  rw [partitions_iff]
  decide

end TraceThread
