import SniperSim.Library.Run
import SniperSim.Predictor.SoftwareLlcSpec

variable (bt : Nat) (s : SoftwareLlc)
namespace SoftwareLlc

def Bounded (s : SoftwareLlc) : Prop := ∀ set, s.allocBlocks set ≤ llcAssociativity

theorem allocBlocks_step (c : Call) {set : Nat}
    (h : s.allocBlocks set ≤ llcAssociativity) : (s.step bt c).allocBlocks set ≤ llcAssociativity := by
  rw [step]
  cases access_case bt c.pfq s c.address with
  | hit i hi ht first outcome state writes | overfull above outcome state writes =>
    rwa [state]
  | fill absent room outcome state writes =>
    rw [state]
    by_cases hs : set = getSetSw c.address
    · subst hs
      simpa using Nat.succ_le_of_lt room
    · simpa [hs] using h
  | bypass absent full dead outcome state writes | evict absent full live outcome state writes =>
    rwa [state]

theorem bounded_step (c : Call) (h : s.Bounded) : (s.step bt c).Bounded := fun set => allocBlocks_step bt s c (h set)

theorem bounded_run (h : s.Bounded) (calls : List Call) : (s.run bt calls).Bounded :=
  Run.foldl_invariant (bounded_step bt) h calls

def Confined (bhistThd : Nat) (s : SoftwareLlc) (c : Call) : Prop :=
  (∀ w ∈ (s.accessLLCSw bhistThd c.pfq c.address).writes,w.1 = getSetSw c.address ∧ w.2 < llcAssociativity) ∧
  ∀ set way, set ≠ getSetSw c.address → way < llcAssociativity →
    (s.step bhistThd c).llc (cell set way) = s.llc (cell set way)

def EvictingMiss (bhistThd : Nat) (s : SoftwareLlc) (c : Call) : Prop :=
  s.allocBlocks (getSetSw c.address) = llcAssociativity ∧
  ¬ s.Resident (getSetSw c.address) (getTagSw c.address) ∧
  s.shouldBypassLLC bhistThd c.pfq (getTagSw c.address) = false

theorem rowInsert_cell (llc : Nat → IntPtr) (set pivot way : Nat) (tag : IntPtr) :
    rowInsert llc set pivot tag (cell set way) =
      if way = 0 then tag else if way ≤ pivot then llc (cell set (way - 1)) else llc (cell set way) := by
  cases way <;> simp [*,rowInsert,cell]

theorem rowInsert_other (llc : Nat → IntPtr) {set row pivot way : Nat} (tag : IntPtr)
    (hne : row ≠ set) (hp : pivot ≤ llcAssociativity) (hs : pivot = llcAssociativity → row ≠ set + 1)
    (hw : way < llcAssociativity) : rowInsert llc set pivot tag (cell row way) = llc (cell row way) := by
  have h0 : cell row way ≠ cell set 0 := by
    simp only [cell,llcAssociativity] at *
    omega
  have hr : ¬ (cell set 0 < cell row way ∧ cell row way ≤ cell set pivot) := by
    simp only [cell,llcAssociativity] at *
    omega
  simp [rowInsert,h0,hr]

theorem confined_of_pivot {bt pivot : Nat} {s : SoftwareLlc} {c : Call} (hp : pivot < llcAssociativity)
    (hw : ∀ w, w ∈ (s.accessLLCSw bt c.pfq c.address).writes ↔ w.1 = getSetSw c.address ∧ w.2 ≤ pivot)
    (hl : (s.step bt c).llc = rowInsert s.llc (getSetSw c.address) pivot (getTagSw c.address)) : Confined bt s c := by
  refine ⟨fun w hmem => ?_,fun set way hne hway => ?_⟩
  · obtain ⟨h1,h2⟩ := (hw w).mp hmem
    exact ⟨h1,lt_of_le_of_lt h2 hp⟩
  · rw [hl]
    exact rowInsert_other s.llc _ hne (le_of_lt hp) (fun h => absurd h (ne_of_lt hp)) hway

theorem confined_iff (h : s.Bounded) (c : Call) : Confined bt s c ↔ ¬ EvictingMiss bt s c := by
  cases access_case bt c.pfq s c.address with
  | hit i hi ht first outcome state writes =>
    refine iff_of_true (confined_of_pivot (lt_of_lt_of_le hi (h _)) writes ?_) ?_
    · rw [step,state]
    · rintro ⟨-,hr,-⟩
      exact hr ⟨i,hi,ht⟩
  | fill absent room outcome state writes =>
    refine iff_of_true (confined_of_pivot room writes ?_) ?_
    · rw [step,state]
    · rintro ⟨hfull,-,-⟩
      omega
  | bypass absent full dead outcome state writes =>
    refine iff_of_true ⟨?_,?_⟩ ?_
    · intro w hw
      rw [writes] at hw
      cases hw
    · intro set way hne hway
      rw [step,state]
    · rintro ⟨-,-,hlive⟩
      rw [dead] at hlive
      cases hlive
  | evict absent full live outcome state writes =>
    refine iff_of_false ?_ (not_not_intro ⟨full,absent,live⟩)
    rintro ⟨hw,-⟩
    have hspill := (hw (getSetSw c.address,llcAssociativity) ((writes _).mpr ⟨rfl,le_refl _⟩)).2
    exact absurd hspill (lt_irrefl _)
  | overfull above outcome state writes =>
    have := h (getSetSw c.address)
    omega

theorem access_confined_iff (bhistThd : Nat) (calls : List Call) (c : Call) :
    Confined bhistThd (create.run bhistThd calls) c ↔ ¬ EvictingMiss bhistThd (create.run bhistThd calls) c :=
  confined_iff bhistThd _ (bounded_run bhistThd create (fun _ => Nat.zero_le _) calls) c

def fillCalls : List Call := (List.range 16).map fun i => ⟨[],BitVec.ofNat 64 ((i + 1) * 2 ^ 17)⟩

theorem full_set_miss_spills : ¬ Confined defaultBhistThd (create.run defaultBhistThd fillCalls) ⟨[],0x220000⟩ ∧
      (create.run defaultBhistThd fillCalls).llc (cell 1 0) = 0 ∧
      ((create.run defaultBhistThd fillCalls).step defaultBhistThd ⟨[],0x220000⟩).llc (cell 1 0) = 1 := by
  refine ⟨?_,by decide +kernel,by decide +kernel⟩
  rintro ⟨-,h⟩
  have h1 := h 1 0 (by decide) (by decide)
  revert h1
  decide +kernel

end SoftwareLlc
