import SniperSim.Interval.BranchResolution

open List Nat
namespace Windows

def contents (w : Windows) (start len : Nat) : List (Option IntervalUop) :=
  (range len).map fun i => (w.doubleWindow ((start + i) % w.doubleWindowSize)).map (·.uop)

inductive History (windowSize cutoff : Nat) : Windows → List IntervalUop → Nat → Nat → Prop
  | create : History windowSize cutoff (create windowSize cutoff) [] 0 0
  | add (uop : IntervalUop) : History windowSize cutoff w added dispatched cleared → w.windowLength ≠ w.windowSize →
      History windowSize cutoff (w.add uop) (added ++ [uop]) dispatched cleared
  | dispatchInstruction : History windowSize cutoff w added dispatched cleared → w.windowLength ≠ 0 →
      History windowSize cutoff w.dispatchInstruction added (dispatched + 1) cleared
  | clearOldWindow (newCpHead : Nat) : History windowSize cutoff w added dispatched cleared →
      History windowSize cutoff (w.clearOldWindow newCpHead) added dispatched dispatched

variable {windowSize cutoff n len dispatched cleared : Nat} {w : Windows} {added : List IntervalUop}

def Holds (added : List IntervalUop) (w : Windows) : Prop := w.LaidBy fun n uop => added[n]? = some uop

structure Tracks (windowSize : Nat) (w : Windows) (added : List IntervalUop) (dispatched cleared : Nat) : Prop where
  laid : w.Holds added
  size : w.windowSize = windowSize
  next : w.nextSequenceNumber = added.length
  head : w.windowLength + dispatched = added.length
  old : w.oldWindowLength = min (dispatched - cleared) windowSize
  cleared : cleared ≤ dispatched

theorem Holds.moved (h : w.Holds added) : w.dispatchInstruction.windowSize = w.windowSize ∧
    w.dispatchInstruction.nextSequenceNumber = w.nextSequenceNumber ∧
    w.dispatchInstruction.windowLength = w.windowLength - 1 ∧
    w.dispatchInstruction.oldWindowLength = min (w.oldWindowLength + 1) w.windowSize := by
  have harith := h.arith
  unfold Windows.dispatchInstruction
  split
  · refine ⟨rfl,rfl,rfl,?_⟩
    simp only [moveToOld,dropOldest]
    omega
  · refine ⟨rfl,rfl,rfl,?_⟩
    simp only [moveToOld]
    omega

theorem History.tracks (h : History windowSize cutoff w added dispatched cleared) (hpos : 0 < windowSize) :
    Tracks windowSize w added dispatched cleared := by
  induction h with
  | create => exact ⟨laid_create hpos,rfl,rfl,rfl,by simp [Windows.create],le_refl 0⟩
  | @add w added dispatched cleared uop _ hfull ih =>
    refine ⟨?_,ih.size,?_,?_,ih.old,ih.cleared⟩
    · refine LaidBy.add { ih.laid with slots := fun n hn hnear => ?_ } hfull ?_
      · obtain ⟨e,he,hnumber,hq⟩ := ih.laid.slots n hn hnear
        exact ⟨e,he,hnumber,(getElem?_append_left (ih.next ▸ hn)).trans hq⟩
      · rw [ih.next,getElem?_concat_length]
    · rw [length_append,← ih.next]
      rfl
    · rw [length_append,← ih.head]
      exact Nat.add_right_comm _ _ _
  | dispatchInstruction _ hne ih =>
    obtain ⟨hsize,hnext,hlength,hold⟩ := ih.laid.moved
    have htracked := And.intro ih.head (And.intro ih.old ih.cleared)
    have hbound := ih.laid.arith
    refine ⟨ih.laid.dispatchInstruction hne,hsize.trans ih.size,hnext.trans ih.next,?_,?_,le_succ_of_le ih.cleared⟩
    · omega
    · rw [hold,ih.size]
      omega
  | clearOldWindow newCpHead _ ih =>
    refine ⟨ih.laid.clearOldWindow newCpHead,ih.size,ih.next,ih.head,?_,le_refl _⟩
    rw [Nat.sub_self,Nat.zero_min]
    rfl

theorem Holds.contents (h : w.Holds added) (hlast : n + len ≤ w.nextSequenceNumber)
    (hnear : w.nextSequenceNumber ≤ n + w.doubleWindowSize) :
    w.contents (w.slot n) len = ((added.drop n).take len).map some := by
  refine ext_getElem? fun i => ?_
  rcases Nat.lt_or_ge i len with hi | hi
  · obtain ⟨e,he,-,hq⟩ := h.slots (n + i) (by omega) (by omega)
    have hslot : (w.slot n + i) % w.doubleWindowSize = w.slot (n + i) := Nat.mod_add_mod _ _ _
    rw [Windows.contents,getElem?_map,getElem?_range hi,getElem?_map,getElem?_take_of_lt hi,getElem?_drop,hq]
    exact congrArg some ((congrArg (fun j => (w.doubleWindow j).map (·.uop)) hslot).trans (congrArg _ he))
  · rw [getElem?_eq_none (by simpa [Windows.contents] using hi),getElem?_eq_none (by simp; omega)]

theorem Holds.windowContains_iff (h : w.Holds added) (hne : w.windowLength ≠ 0) :
    w.windowContains n ↔ w.headNumber ≤ n ∧ n < w.nextSequenceNumber := by
  have harith := h.arith
  obtain ⟨low,hlow,hlown,-⟩ := h.head_entry hne
  obtain ⟨high,hhigh,hhighn,-⟩ := h.slots (w.nextSequenceNumber - 1) (by omega) (by omega)
  rw [windowContains,h.tail,decrementIndex_slot h.size_pos (by omega),← entry,hlow,hhigh,Windows.contains,
    decide_eq_true_iff,hlown,hhighn]
  omega

theorem windows_hold_history (hpos : 0 < windowSize) (h : History windowSize cutoff w added dispatched cleared) :
    w.contents w.windowHead w.windowLength = (added.drop dispatched).map some ∧
    w.contents w.oldWindowHead w.oldWindowLength =
      ((added.take dispatched).drop (max cleared (dispatched - windowSize))).map some ∧
    (w.windowLength ≠ 0 → 0 < dispatched → ∀ n, (w.windowContains n ↔ dispatched ≤ n ∧ n < added.length) ∧
      (w.oldWindowContains n ↔ max cleared (dispatched - windowSize) ≤ n ∧ n < dispatched) ∧
      (w.windowContains n ∨ w.oldWindowContains n → ∃ index e, w.getInstruction n = some (index,e) ∧
        e.sequenceNumber = n ∧ added[n]? = some e.uop)) := by
  obtain ⟨hlaid,hsize,hnext,hhead,hold,hcleared⟩ := h.tracks hpos
  have harith := hlaid.arith
  have hnumber : w.headNumber = dispatched := by omega
  have hoffset : dispatched - w.oldWindowLength = max cleared (dispatched - windowSize) := by omega
  refine ⟨?_,?_,fun hne hsome n => ?_⟩
  · rw [hlaid.head,hlaid.contents (by omega) (by omega),hnumber,take_of_length_le (by rw [length_drop]; omega)]
  · rw [hlaid.oldHead,hlaid.contents (by omega) (by omega),hnumber,drop_take,← hoffset]
    congr 3
    omega
  · have hwindow : w.windowContains n ↔ _ := hlaid.windowContains_iff hne
    have hwold : w.oldWindowContains n ↔ _ := hlaid.oldWindowContains_iff hne (by omega)
    rw [hnumber,hnext] at hwindow
    rw [inOldWindow,hnumber] at hwold
    refine ⟨hwindow,hwold.trans (by omega),fun hin => ?_⟩
    rw [hwindow,hwold] at hin
    obtain ⟨e,he,hseq,hq⟩ := hlaid.slots n (by omega) (by omega)
    exact ⟨_,e,hlaid.getInstruction hne he hseq,hseq,hq⟩

theorem pair_holds_history : (pair 5).contents (pair 5).windowHead (pair 5).windowLength = [some (plain 1 [0])] ∧
    ∃ index e, (pair 5).getInstruction 0 = some (index,e) ∧ e.sequenceNumber = 0 ∧ e.uop = plain 5 [] := by
  have hrun : History 2 30 (pair 5) [plain 5 [],plain 1 [0]] 1 0 :=
    .add _ (.dispatchInstruction (.add _ .create (by decide)) (by decide)) (by decide)
  obtain ⟨hwindow,-,hin⟩ := windows_hold_history (by decide) hrun
  obtain ⟨index,e,he,hseq,huop⟩ := (hin (by decide) (by decide) 0).2.2 (.inr (by decide))
  exact ⟨hwindow,index,e,he,hseq,(Option.some.inj huop).symm⟩

end Windows
