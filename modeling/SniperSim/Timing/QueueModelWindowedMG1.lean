import SniperSim.System.ThreadManager
import Mathlib.Algebra.BigOperators.Group.List.Basic
import Mathlib.Algebra.Group.Prod
import Mathlib.Data.BitVec

open List
namespace QueueModelWindowedMG1

structure Entry where
  (arrival service : SubsecondTime)
deriving DecidableEq, Repr

def Entry.ps (e : Entry) : BitVec 64 := e.service / 1000

structure State where
  window : List Entry
  (numArrivals serviceTimeSum serviceTimeSum2 : BitVec 64)

structure Request where
  globalTime : SubsecondTime
  entry : Entry

def addItem (s : State) (e : Entry) : State :=
  ⟨s.window.orderedInsert (fun x y => x.arrival < y.arrival) e,s.numArrivals + 1,s.serviceTimeSum + e.ps,
    s.serviceTimeSum2 + e.ps * e.ps⟩

def removeItems (earliest : SubsecondTime) : List Entry → BitVec 64 → BitVec 64 → BitVec 64 → State
  | [], n, sum, sum2 => ⟨[],n,sum,sum2⟩
  | e :: es, n, sum, sum2 =>
    if e.arrival < earliest then removeItems earliest es (n - 1) (sum - e.ps) (sum2 - e.ps * e.ps)
    else ⟨e :: es,n,sum,sum2⟩

variable (size : SubsecondTime) (s : State) (r : Request)

def earliest : SubsecondTime :=
  if r.globalTime - size < r.entry.arrival - 10 * size then r.entry.arrival - 10 * size else r.globalTime - size

def advance : State := removeItems (earliest size r) s.window s.numArrivals s.serviceTimeSum s.serviceTimeSum2

def computeQueueDelay : State := addItem (advance size s r) r.entry

def served (rs : List Request) : State := rs.foldl (computeQueueDelay size) ⟨[],0,0,0⟩

def Tallied : Prop :=
  (s.numArrivals,s.serviceTimeSum,s.serviceTimeSum2) = (s.window.map fun e => (1,e.ps,e.ps * e.ps)).sum

def Recent (e : Entry) : Prop :=
  r.globalTime.toNat ≤ e.arrival.toNat + size.toNat ∧ r.entry.arrival.toNat ≤ e.arrival.toNat + 10 * size.toNat

def Late : Prop := size.toNat ≤ r.globalTime.toNat ∧ 10 * size.toNat ≤ r.entry.arrival.toNat

variable {size s r} {e : Entry} {es : List Entry} {rs : List Request} {n sum sum2 : BitVec 64}

theorem removeItems_tallied (h : Tallied ⟨es,n,sum,sum2⟩) : Tallied (removeItems a es n sum sum2) := by
  induction es generalizing n sum sum2 with
  | nil => exact h
  | cons e es ih =>
    rw [removeItems]
    split_ifs
    · exact ih (sub_eq_of_eq_add' h)
    · exact h

theorem addItem_tallied (h : Tallied s) (e : Entry) : Tallied (addItem s e) := by
  have hp := perm_orderedInsert (fun x y : Entry => x.arrival < y.arrival) e s.window
  refine Eq.trans ?_ (hp.map _).sum_eq.symm
  rw [map_cons,sum_cons,add_comm]
  exact congrArg (· + (1,e.ps,e.ps * e.ps)) h

theorem served_concat : served size (rs ++ [r]) = computeQueueDelay size (served size rs) r := by
  rw [served,foldl_append]
  rfl

theorem served_tallied : Tallied (served size rs) := by
  induction rs using reverseRecOn with
  | nil => rfl
  | append_singleton rs r ih =>
    rw [served_concat]
    exact addItem_tallied (removeItems_tallied ih) r.entry

theorem mem_removeItems (h : e ∈ es) (ha : ¬e.arrival < a) : e ∈ (removeItems a es n sum sum2).window := by
  induction es generalizing n sum sum2 with
  | nil => cases h
  | cons x es ih =>
    rw [removeItems]
    split_ifs with hx
    · rcases mem_cons.mp h with rfl | h
      · exact (ha hx).elim
      · exact ih h
    · exact h

theorem Late.not_lt (h : Late size r) (hr : Recent size r e) : ¬e.arrival < earliest size r := by
  obtain ⟨hg,hp⟩ := h
  obtain ⟨hg',hp'⟩ := hr
  have hten : (10 * size).toNat = 10 * size.toNat := by
    have := r.entry.arrival.isLt
    rw [BitVec.toNat_mul]
    exact Nat.mod_eq_of_lt (by simp; omega)
  rw [BitVec.lt_def,earliest]
  split_ifs
  · rw [BitVec.toNat_sub_of_le (BitVec.le_def.mpr (hten ▸ hp)),hten]
    omega
  · rw [BitVec.toNat_sub_of_le (BitVec.le_def.mpr hg)]
    omega

theorem mem_served (h : ∀ r ∈ rs, Late size r) (he : e ∈ rs.map Request.entry) :
    e ∈ (served size rs).window ∨ ∃ r ∈ rs, ¬Recent size r e := by
  induction rs using reverseRecOn with
  | nil => cases he
  | append_singleton rs r ih =>
    rw [map_append,mem_append,map_singleton,mem_singleton] at he
    rw [served_concat,computeQueueDelay,addItem,mem_orderedInsert]
    rcases he with he | rfl
    · rcases ih (fun r hr => h r (mem_append_left _ hr)) he with hw | ⟨q,hq,hn⟩
      · by_cases hr : Recent size r e
        · exact .inl (.inr (mem_removeItems hw ((h r (by simp)).not_lt hr)))
        · exact .inr ⟨r,by simp,hr⟩
      · exact .inr ⟨q,mem_append_left _ hq,hn⟩
    · exact .inl (.inl rfl)

theorem windowed_bookkeeping (size : SubsecondTime) (rs : List Request) (r : Request) :
    Tallied (served size rs) ∧ Tallied (advance size (served size rs) r) ∧
    ((∀ q ∈ rs, q.globalTime ≤ r.globalTime ∧
        q.entry.arrival.toNat ≤ max r.entry.arrival.toNat (r.globalTime.toNat + 9 * size.toNat) ∧ Late size q) →
      Late size r → ∀ e ∈ rs.map Request.entry, Recent size r e → e ∈ (advance size (served size rs) r).window) := by
  refine ⟨served_tallied,removeItems_tallied served_tallied,fun h hr e he hrec => ?_⟩
  rcases mem_served (fun q hq => (h q hq).2.2) he with hw | ⟨q,hq,hn⟩
  · exact mem_removeItems hw (hr.not_lt hrec)
  · obtain ⟨hg,hp,-⟩ := h q hq
    obtain ⟨hglobal,hpacket⟩ := hrec
    exact (hn ⟨Nat.le_trans hg hglobal,by omega⟩).elim

theorem entry_kept : ⟨1100,5⟩ ∈ (advance 100 (served 100 [⟨200,1100,5⟩]) ⟨250,1150,7⟩).window := by
  refine (windowed_bookkeeping 100 [⟨200,1100,5⟩] ⟨250,1150,7⟩).2.2 ?_ ⟨by decide,by decide⟩ _ mem_cons_self
    ⟨by decide,by decide⟩
  simp only [mem_singleton,forall_eq]
  exact ⟨by decide,by decide,by decide,by decide⟩

theorem entry_lost : Recent 100 ⟨0,60,7⟩ ⟨50,5⟩ ∧ ⟨50,5⟩ ∉ (advance 100 (served 100 [⟨0,50,5⟩]) ⟨0,60,7⟩).window ∧
    Recent 100 ⟨250,1150,7⟩ ⟨1100,5⟩ ∧
    ⟨1100,5⟩ ∉ (advance 100 (served 100 [⟨200,1100,5⟩,⟨250,9000,6⟩]) ⟨250,1150,7⟩).window :=
  ⟨⟨by decide,by decide⟩,by decide,⟨by decide,by decide⟩,by decide⟩

end QueueModelWindowedMG1
