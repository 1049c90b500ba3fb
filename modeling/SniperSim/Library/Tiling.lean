import Mathlib.Algebra.Group.Nat.Defs

open BitVec Nat
namespace Tiling

inductive Tiles : Nat → Nat → List (Nat × Nat) → Prop
  | nil (a : Nat) : Tiles a a []
  | cons {a n b : Nat} {rs : List (Nat × Nat)} : 0 < n → Tiles (a + n) b rs → Tiles a b ((a,n) :: rs)

namespace Tiles
variable {a b : Nat} {rs : List (Nat × Nat)}

theorem eq_of_nil (h : Tiles a b []) : a = b := by
  cases h
  rfl

theorem le (h : Tiles a b rs) : a ≤ b := by
  induction h with
  | nil => exact Nat.le_refl _
  | cons hn ht ih => omega

theorem within (h : Tiles a b rs) {r : Nat × Nat} (hr : r ∈ rs) : a ≤ r.1 ∧ 0 < r.2 ∧ r.1 + r.2 ≤ b := by
  induction h with
  | nil => simp at hr
  | cons hn ht ih =>
    rcases List.mem_cons.mp hr with rfl | hr
    · exact ⟨Nat.le_refl _,hn,ht.le⟩
    · obtain ⟨hle,hrest⟩ := ih hr
      exact ⟨le_of_add_right_le hle,hrest⟩

end Tiles

variable {w : Nat} {β : Type}

def copy (source : BitVec w → β) (s d : BitVec w) (n : Nat) (target : BitVec w → β) : BitVec w → β :=
  fun x => if (x - d).toNat < n then source (s + (x - d)) else target x

theorem copy_at {n i : Nat} (hi : i < n) (hn : n ≤ 2 ^ w) (source : BitVec w → β) (s d : BitVec w)
    (target : BitVec w → β) : copy source s d n target (d + BitVec.ofNat w i) = source (s + BitVec.ofNat w i) := by
  have hsub : d + BitVec.ofNat w i - d = BitVec.ofNat w i := by
    rw [BitVec.add_comm,BitVec.add_sub_cancel]
  rw [copy,hsub,BitVec.toNat_ofNat,Nat.mod_eq_of_lt (Nat.lt_of_lt_of_le hi hn),if_pos hi]

theorem sub_ofNat_toNat {n : Nat} (v : BitVec w) (hv : n ≤ v.toNat) : (v - BitVec.ofNat w n).toNat = v.toNat - n := by
  have hmod : n % 2 ^ w = n := Nat.mod_eq_of_lt (Nat.lt_of_le_of_lt hv v.isLt)
  have hle : BitVec.ofNat w n ≤ v := by rwa [BitVec.le_def,BitVec.toNat_ofNat,hmod]
  rw [toNat_sub_of_le hle,BitVec.toNat_ofNat,hmod]

theorem copy_append {n m : Nat} (h : n + m ≤ 2 ^ w) (source : BitVec w → β) (s d : BitVec w) (target : BitVec w → β) :
    copy source (s + BitVec.ofNat w n) (d + BitVec.ofNat w n) m (copy source s d n target) =
      copy source s d (n + m) target := by
  funext x
  have hsub : x - (d + BitVec.ofNat w n) = x - d - BitVec.ofNat w n := by
    rw [sub_sub]
  simp only [copy,hsub]
  rcases Nat.lt_or_ge (x - d).toNat n with hlt | hge
  · have hwrap : ¬(x - d - BitVec.ofNat w n).toNat < m := by
      have hn : n < 2 ^ w ∨ m = 0 := by omega
      rcases hn with hn | rfl
      · rw [toNat_sub,BitVec.toNat_ofNat,Nat.mod_eq_of_lt hn,Nat.mod_eq_of_lt (by omega)]
        omega
      · exact not_lt_zero _
    rw [if_neg hwrap,if_pos hlt,if_pos (by omega)]
  · rw [sub_ofNat_toNat _ hge,if_neg (Nat.not_lt.mpr hge)]
    have hshift : s + BitVec.ofNat w n + (x - d - BitVec.ofNat w n) = s + (x - d) := by
      rw [BitVec.add_assoc,BitVec.add_comm (BitVec.ofNat w n),BitVec.sub_add_cancel]
    rw [hshift]
    congr 1
    exact propext ⟨fun h => by omega,fun h => by omega⟩

theorem Tiles.foldl_copy {a b : Nat} {rs : List (Nat × Nat)} (h : Tiles a b rs) (hb : b ≤ 2 ^ w)
    (source : BitVec w → β) (s d : BitVec w) (target : BitVec w → β) :
    rs.foldl (fun t r => copy source (s + BitVec.ofNat w r.1) (d + BitVec.ofNat w r.1) r.2 t) target =
      copy source (s + BitVec.ofNat w a) (d + BitVec.ofNat w a) (b - a) target := by
  induction h generalizing target with
  | nil a =>
    funext x
    simp [copy]
  | @cons a n b rs hn ht ih =>
    have hle := ht.le
    rw [List.foldl_cons,ih hb,BitVec.ofNat_add,← BitVec.add_assoc,← BitVec.add_assoc,copy_append (by omega)]
    congr 1
    omega

end Tiling
