import SniperSim.Library.Run
import Mathlib.Data.List.TakeWhile

open List
namespace TraceThread

structure Output where
  leftover : List (BitVec 8) := []
  printed : List (List (BitVec 8)) := []

def newline (b : BitVec 8) : Bool := b == 13 || b == 10

def handleLoop : Nat → Output → List (BitVec 8) → Output
  | 0, s, _ => s
  | fuel + 1, s, data =>
    if data = [] then s
    else
      match data.dropWhile (!newline ·) with
      | [] => { s with leftover := data.take 160 }
      | b :: rest =>
        handleLoop fuel ⟨[],s.printed ++ [s.leftover ++ data.takeWhile (!newline ·)]⟩ ((b :: rest).dropWhile newline)

def handleOutputFunc (s : Output) (data : List (BitVec 8)) : Output := handleLoop data.length s data

def lines (stream : List (BitVec 8)) : List (List (BitVec 8)) := (stream.splitOnP newline).filter (· ≠ [])

def Plain (line : List (BitVec 8)) : Prop := ∀ b ∈ line, newline b = false

def Whole (s : Output) (data : List (BitVec 8)) : Prop := data = [] ∨ s.leftover = [] ∨ ¬Plain data

variable {s : Output} {stream done data line rest : List (BitVec 8)} {chunks : List (List (BitVec 8))} {b : BitVec 8}
  {fuel : Nat}

theorem lines_nil : lines [] = [] := by decide

theorem lines_append_cons (hb : newline b) : lines (line ++ b :: rest) = lines line ++ lines rest := by
  rw [lines,splitOnP_append_cons line rest hb,filter_append,lines,lines]

theorem lines_plain (h : Plain line) : lines line = [line].filter (· ≠ []) := by
  rw [lines,splitOnP_eq_singleton h]

theorem lines_gap (h : ∀ b ∈ gap, newline b) : lines (gap ++ rest) = lines rest := by
  induction gap with
  | nil => rfl
  | cons b gap ih =>
    rw [forall_mem_cons] at h
    exact (@lines_append_cons [] _ _ h.1).trans (ih h.2)

theorem flatten_lines (stream : List (BitVec 8)) : (lines stream).flatten = stream.filter (!newline ·) := by
  rw [lines,flatten_filter_ne_nil]
  induction stream with
  | nil => rfl
  | cons b stream ih =>
    obtain ⟨l,ls,hl⟩ := exists_cons_of_ne_nil (splitOnP_ne_nil newline stream)
    rw [hl] at ih
    cases hb : newline b <;> simpa [splitOnP_cons_eq_if_modifyHead,hl,hb] using ih

theorem loop_plain (hne : data ≠ []) (h : Plain data) :
    handleLoop (fuel + 1) s data = { s with leftover := data.take 160 } := by
  have hd : data.dropWhile (!newline ·) = [] := dropWhile_eq_nil_iff.mpr fun b hb => by simp [h b hb]
  rw [handleLoop,if_neg hne,hd]

theorem loop_newline (h : ¬Plain data) : ∃ line b gap rest, data = line ++ b :: (gap ++ rest) ∧ Plain line ∧
    newline b ∧ (∀ b ∈ gap, newline b) ∧
    ∀ fuel s, handleLoop (fuel + 1) s data = handleLoop fuel ⟨[],s.printed ++ [s.leftover ++ line]⟩ rest := by
  have hd : data.dropWhile (!newline ·) ≠ [] := fun hd => h fun b hb => by simpa using dropWhile_eq_nil_iff.mp hd b hb
  have hb := head_dropWhile_not (!newline ·) hd
  obtain ⟨b,rest,hd⟩ := exists_cons_of_ne_nil hd
  have hne : data ≠ [] := by rintro rfl; cases hd
  simp only [hd,head_cons,Bool.not_eq_false'] at hb
  refine ⟨data.takeWhile (!newline ·),b,rest.takeWhile newline,rest.dropWhile newline,?_,
    fun b hb => by simpa using mem_takeWhile_imp hb,hb,fun b => mem_takeWhile_imp,fun fuel s => ?_⟩
  · rw [takeWhile_append_dropWhile,← hd,takeWhile_append_dropWhile]
  · simp [handleLoop,hne,hd,hb]

structure Follows (done : List (BitVec 8)) (s : Output) : Prop where
  plain : Plain s.leftover
  lines : ∀ rest, lines (done ++ rest) = s.printed.filter (· ≠ []) ++ lines rest

theorem Follows.loop (h : Follows done s) (hf : data.length ≤ fuel) (hw : Whole s data)
    (hlen : ∀ r, r <:+ data → Plain r → r.length ≤ 160) : ∃ done', Follows done' (handleLoop fuel s data) ∧
    done' ++ (handleLoop fuel s data).leftover = done ++ s.leftover ++ data := by
  induction fuel generalizing s done data with
  | zero =>
    obtain rfl := eq_nil_of_length_eq_zero (Nat.le_zero.mp hf)
    exact ⟨done,h,(append_nil _).symm⟩
  | succ fuel ih =>
    by_cases hp : Plain data
    · by_cases hne : data = []
      · exact ⟨done,by simpa [handleLoop,hne] using h,by simp [handleLoop,hne]⟩
      have hempty : s.leftover = [] := by simpa [Whole,hne,hp] using hw
      rw [loop_plain hne hp,take_of_length_le (hlen data (suffix_refl data) hp)]
      exact ⟨done,⟨hp,h.lines⟩,by simp [hempty]⟩
    · obtain ⟨line,b,gap,rest,rfl,hl,hb,hgap,hloop⟩ := loop_newline hp
      have hplain : Plain (s.leftover ++ line) := by simpa [Plain,or_imp,forall_and] using ⟨h.plain,hl⟩
      have hs : Follows (done ++ (s.leftover ++ line ++ b :: gap)) ⟨[],s.printed ++ [s.leftover ++ line]⟩ := by
        refine ⟨by simp [Plain],fun rest => ?_⟩
        rw [append_assoc,h.lines,append_assoc,cons_append,lines_append_cons hb,lines_gap hgap,lines_plain hplain]
        simp
      simp only [length_append,length_cons] at hf
      have hrest : rest <:+ line ++ b :: (gap ++ rest) := ⟨line ++ b :: gap,by simp⟩
      simpa [hloop] using ih hs (by omega) (.inr (.inl rfl)) fun r hr => hlen r (hr.trans hrest)

theorem follows_run (h : Follows done s) (hlen : ∀ r, r <:+: chunks.flatten → Plain r → r.length ≤ 160) :
    ∃ done', Follows done' (chunks.foldl handleOutputFunc s) ∧ (Run.Along handleOutputFunc Whole s chunks →
      done' ++ (chunks.foldl handleOutputFunc s).leftover = done ++ s.leftover ++ chunks.flatten) ∧
    (¬Run.Along handleOutputFunc Whole s chunks →
      done'.countP (!newline ·) < (done ++ s.leftover ++ chunks.flatten).countP (!newline ·)) := by
  induction chunks generalizing s done with
  | nil => exact ⟨done,h,by simp,fun hw => absurd trivial hw⟩
  | cons data chunks ih =>
    have hfirst r (hr : r <:+ data) := hlen r (hr.isInfix.trans (prefix_append data _).isInfix)
    have hrest r (hr : r <:+: chunks.flatten) := hlen r (hr.trans (suffix_append data _).isInfix)
    by_cases hw : Whole s data
    · obtain ⟨now,hnow,hkept⟩ : ∃ done', Follows done' (handleOutputFunc s data) ∧ _ := h.loop le_rfl hw hfirst
      obtain ⟨done',h',hall,hlost⟩ := ih hnow hrest
      rw [handleOutputFunc,hkept] at hall hlost
      rw [flatten_cons,← append_assoc]
      exact ⟨done',h',fun hrun => hall hrun.2,fun hrun => hlost fun hr => hrun ⟨hw,hr⟩⟩
    · obtain ⟨hne,hleft,hp⟩ : data ≠ [] ∧ s.leftover ≠ [] ∧ Plain data := by simpa [Whole] using hw
      have hs : handleOutputFunc s data = { s with leftover := data } := by
        obtain ⟨b,rest,rfl⟩ := exists_cons_of_ne_nil hne
        rw [handleOutputFunc,length_cons,loop_plain hne hp,take_of_length_le (hfirst _ (suffix_refl _) hp)]
      have hpos : 0 < s.leftover.countP (!newline ·) := by
        rw [countP_eq_length.mpr fun b hb => by simp [h.plain b hb]]
        exact length_pos_iff.mpr hleft
      obtain ⟨done',h',hall,hlost⟩ := @ih { s with leftover := data } done ⟨hp,h.lines⟩ hrest
      refine ⟨done',by rwa [foldl_cons,hs],fun hrun => absurd hrun.1 hw,fun _ => ?_⟩
      by_cases hr : Run.Along handleOutputFunc Whole { s with leftover := data } chunks
      · have := congrArg (countP (!newline ·)) (hall hr)
        simp only [countP_append,flatten_cons] at *
        omega
      · have := hlost hr
        simp only [countP_append,flatten_cons] at *
        omega

theorem lines_printed_iff (hend : chunks.flatten = stream ++ [b]) (hb : newline b)
    (hlen : ∀ r, r <:+: chunks.flatten → Plain r → r.length ≤ 160) :
    (chunks.foldl handleOutputFunc {}).printed.filter (· ≠ []) = lines chunks.flatten ↔
    Run.Along handleOutputFunc Whole {} chunks := by
  have hempty : Follows [] {} := ⟨by simp [Plain],fun _ => rfl⟩
  obtain ⟨done,h,hall,hlost⟩ := follows_run hempty hlen
  have hprinted := h.lines []
  rw [append_nil,lines_nil,append_nil] at hprinted
  rw [← hprinted]
  constructor
  · intro heq
    by_contra hw
    have hflat := congrArg (length ∘ flatten) heq
    have := hlost hw
    simp only [Function.comp_apply,flatten_lines,← countP_eq_length_filter] at hflat
    exact this.ne hflat
  · intro hw
    have hall := hall hw
    obtain hl | ⟨l,c,hl⟩ := eq_nil_or_concat (chunks.foldl handleOutputFunc {}).leftover
    · simpa [hl] using congrArg lines hall
    · have hc := h.plain c (by simp [hl])
      rw [hl,concat_eq_append] at hall
      simp [hend,← append_assoc] at hall
      simp [hall,hb] at hc

theorem two_halves_printed :
    (([[104],[10]] : List (List (BitVec 8))).foldl handleOutputFunc {}).printed.filter (· ≠ []) = lines [104,10] :=
  (@lines_printed_iff [104] [[104],[10]] 10 rfl rfl fun r hr _ => hr.length_le.trans (by decide)).mpr
    ⟨.inr (.inl rfl),.inr (.inr (by simp [Plain,newline])),trivial⟩

theorem middle_overwritten : (([[97],[98],[10]] : List (List (BitVec 8))).foldl handleOutputFunc {}).printed = [[98]] ∧
    lines [97,98,10] = [[97,98]] := by decide

end TraceThread
