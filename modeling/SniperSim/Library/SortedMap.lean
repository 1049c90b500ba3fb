import Mathlib.Data.List.Nodup
import Mathlib.Order.Lattice

open List

structure SortedMap (K V : Type) [LinearOrder K] where
  entries : List (K × V)
  sorted : entries.Pairwise fun e e' => e.1 < e'.1

namespace SortedMap
variable {K V : Type} [LinearOrder K]

def insertEntry (k : K) (v : V) : List (K × V) → List (K × V)
  | [] => [(k,v)]
  | e :: es => if k < e.1 then (k,v) :: e :: es else if e.1 < k then e :: insertEntry k v es else (k,v) :: es

theorem mem_insertEntry {k : K} {v : V} {es : List (K × V)} (h : es.Pairwise fun e e' => e.1 < e'.1)
    (e : K × V) : e ∈ insertEntry k v es ↔ e = (k,v) ∨ e.1 ≠ k ∧ e ∈ es := by
  induction es with
  | nil => simp [insertEntry]
  | cons e' es ih =>
    obtain ⟨hhead,htail⟩ := pairwise_cons.mp h
    rw [insertEntry]
    split_ifs with hlt hgt
    · have hne : e ∈ e' :: es → e.1 ≠ k := by
        intro hmem
        rcases mem_cons.mp hmem with rfl | hmem
        · exact hlt.ne'
        · exact (hlt.trans (hhead e hmem)).ne'
      rw [mem_cons]
      exact or_congr_right ⟨fun hmem => ⟨hne hmem,hmem⟩,fun hmem => hmem.2⟩
    · rw [mem_cons,ih htail,mem_cons]
      constructor
      · rintro (rfl | rfl | ⟨hne,hmem⟩)
        · exact .inr ⟨hgt.ne,.inl rfl⟩
        · exact .inl rfl
        · exact .inr ⟨hne,.inr hmem⟩
      · rintro (rfl | ⟨hne,rfl | hmem⟩)
        · exact .inr (.inl rfl)
        · exact .inl rfl
        · exact .inr (.inr ⟨hne,hmem⟩)
    · obtain rfl : k = e'.1 := le_antisymm (not_lt.mp hgt) (not_lt.mp hlt)
      rw [mem_cons,mem_cons]
      refine or_congr_right ⟨fun hmem => ⟨(hhead e hmem).ne',.inr hmem⟩,?_⟩
      rintro ⟨hne,rfl | hmem⟩
      · exact absurd rfl hne
      · exact hmem

theorem sorted_insertEntry {es : List (K × V)} (h : es.Pairwise fun e e' => e.1 < e'.1) (k : K) (v : V) :
    (insertEntry k v es).Pairwise fun e e' => e.1 < e'.1 := by
  induction es with
  | nil => exact pairwise_singleton _ _
  | cons e es ih =>
    obtain ⟨hhead,htail⟩ := pairwise_cons.mp h
    rw [insertEntry]
    split_ifs with hlt hgt
    · refine pairwise_cons.mpr ⟨fun e' he' => ?_,h⟩
      rcases mem_cons.mp he' with rfl | he'
      · exact hlt
      · exact hlt.trans (hhead e' he')
    · refine pairwise_cons.mpr ⟨fun e' he' => ?_,ih htail⟩
      rcases (mem_insertEntry htail e').mp he' with rfl | ⟨_,he'⟩ <;> simp [*]
    · obtain rfl : k = e.1 := le_antisymm (not_lt.mp hgt) (not_lt.mp hlt)
      exact pairwise_cons.mpr ⟨hhead,htail⟩

def empty : SortedMap K V := ⟨[],.nil⟩

variable (m : SortedMap K V)

def insert (k : K) (v : V) : SortedMap K V := ⟨insertEntry k v m.entries,sorted_insertEntry m.sorted k v⟩

def erase (k : K) : SortedMap K V := ⟨m.entries.filter fun e => e.1 != k,m.sorted.filter _⟩

def upperBound (k : K) : Option (K × V) := m.entries.find? fun e => k < e.1

def Holds (k : K) (v : V) : Prop := (k,v) ∈ m.entries

variable {m : SortedMap K V} {k k' : K} {v v' : V}

theorem not_holds_empty : ¬(empty : SortedMap K V).Holds k v := not_mem_nil

theorem holds_insert : (m.insert k v).Holds k' v' ↔ k' = k ∧ v' = v ∨ k' ≠ k ∧ m.Holds k' v' := by
  rw [Holds,insert,mem_insertEntry m.sorted,Prod.mk.injEq]
  rfl

theorem holds_erase : (m.erase k).Holds k' v' ↔ k' ≠ k ∧ m.Holds k' v' := by
  rw [Holds,erase,mem_filter,bne_iff_ne,and_comm]
  rfl

theorem Holds.unique (h : m.Holds k v) (h' : m.Holds k v') : v = v' := by
  have hkeys : (m.entries.map Prod.fst).Nodup := pairwise_map.mpr (m.sorted.imp fun hlt => hlt.ne)
  exact congrArg Prod.snd (inj_on_of_nodup_map hkeys h h' rfl)

theorem holds_of_upperBound (h : m.upperBound k = some (k',v)) : m.Holds k' v := mem_of_find?_eq_some h

theorem lt_of_upperBound (h : m.upperBound k = some (k',v)) : k < k' := by
  have hlt := find?_some h
  exact of_decide_eq_true hlt

theorem le_of_upperBound_none (h : m.upperBound k = none) (h' : m.Holds k' v') : k' ≤ k := by
  have hle := find?_eq_none.mp h _ h'
  exact not_lt.mp fun hlt => hle (decide_eq_true hlt)

theorem upperBound_le (h : m.upperBound k = some (k',v)) {l : K} (h' : m.Holds l v') (hlt : k < l) : k' ≤ l := by
  obtain ⟨_,before,after,heq,hbefore⟩ := find?_eq_some_iff_append.mp h
  have hsorted := m.sorted
  rw [Holds,heq] at h'
  rw [heq] at hsorted
  rcases mem_append.mp h' with hmem | hmem
  · exact absurd hlt (by simpa using hbefore _ hmem)
  · rcases mem_cons.mp hmem with heq' | hmem
    · exact (congrArg Prod.fst heq').ge
    · exact (rel_of_pairwise_cons (pairwise_append.mp hsorted).2.1 hmem).le

end SortedMap
