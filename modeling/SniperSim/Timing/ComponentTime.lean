import Mathlib.Algebra.Group.Nat.Defs
import SniperSim.System.ThreadManager

open Nat BitVec

def SubsecondTime.divideRounded (lhs rhs : SubsecondTime) : BitVec 64 := (lhs + (rhs / 2 + 1)) / rhs

structure ComponentTime where
  (period time : SubsecondTime)
deriving DecidableEq, Repr

namespace ComponentTime
open SubsecondTime

def create (period : SubsecondTime) : ComponentTime := ⟨period,SubsecondTime.zero⟩

def addCycleLatency (t : ComponentTime) (numCycles : BitVec 64) : ComponentTime :=
  { t with time := t.time + t.period * numCycles }

def addLatency (t : ComponentTime) (timeToAdd : SubsecondTime) : ComponentTime :=
  { t with time := t.time + timeToAdd }

def getCycleCount (t : ComponentTime) : BitVec 64 := divideRounded t.time t.period

def Nearest (m p q : Nat) : Prop := 2 * (m - q * p) ≤ p ∧ 2 * (q * p - m) ≤ p

variable {m p : SubsecondTime}

theorem toNat_divideRounded (hp : 1 ≤ p.toNat) (hm : m.toNat + p.toNat < 2 ^ 64) :
    (divideRounded m p).toNat = (m.toNat + (p.toNat / 2 + 1)) / p.toNat := by
  have hbias : (p / 2 + 1).toNat = p.toNat / 2 + 1 := by
    rw [toNat_add,toNat_udiv]
    exact mod_eq_of_lt (by simp; omega)
  rw [divideRounded,toNat_udiv,toNat_add,hbias,mod_eq_of_lt (by omega)]

theorem divideRounded_eq (hp : 1 ≤ p.toNat) (hm : m.toNat + p.toNat < 2 ^ 64) :
    (divideRounded m p).toNat = m.toNat / p.toNat + if m.toNat % p.toNat < (p.toNat - 1) / 2 then 0 else 1 := by
  have hlt := mod_lt m.toNat hp
  rw [toNat_divideRounded hp hm]
  nth_rewrite 1 [← div_add_mod m.toNat p.toNat]
  rw [Nat.add_assoc,mul_add_div hp]
  congr 1
  split_ifs with hr
  · exact div_eq_of_lt (by omega)
  · exact Nat.div_eq_of_lt_le (by omega) (by omega)

theorem cycle_rounding_iff (hp : 1 ≤ p.toNat) : (∀ m : SubsecondTime, m.toNat + p.toNat < 2 ^ 64 →
      (Nearest m.toNat p.toNat (divideRounded m p).toNat ↔ m.toNat % p.toNat ≠ (p.toNat - 1) / 2)) ∧
    (∀ n : BitVec 64, n.toNat * p.toNat + p.toNat < 2 ^ 64 →
      (((create p).addCycleLatency n).getCycleCount = n ↔ 3 ≤ p.toNat)) ∧
    ∀ m d : SubsecondTime, d.toNat ≤ p.toNat → m.toNat + d.toNat + p.toNat < 2 ^ 64 →
      (getCycleCount ⟨p,m⟩).toNat ≤ (addLatency ⟨p,m⟩ d).getCycleCount.toNat ∧
        (addLatency ⟨p,m⟩ d).getCycleCount.toNat ≤ (getCycleCount ⟨p,m⟩).toNat + 1 := by
  refine ⟨fun m hm => ?_,fun n hn => ?_,fun m d hd hm => ?_⟩
  · have hlt := mod_lt m.toNat hp
    have hsplit := div_add_mod' m.toNat p.toNat
    rw [Nearest,divideRounded_eq hp hm,Nat.add_mul]
    split_ifs with hr <;> omega
  · have htime : ((create p).addCycleLatency n).getCycleCount = divideRounded (p * n) p :=
      congrArg (divideRounded · p) (BitVec.zero_add _)
    have hmul : (p * n).toNat = n.toNat * p.toNat := by rw [toNat_mul,Nat.mul_comm,mod_eq_of_lt (by omega)]
    rw [htime,← toNat_inj,divideRounded_eq hp (by rwa [hmul]),hmul,mul_div_left _ hp,mul_mod_left]
    split_ifs <;> omega
  · have hsum : (m + d).toNat = m.toNat + d.toNat := by rw [toNat_add,mod_eq_of_lt (by omega)]
    simp only [addLatency,getCycleCount]
    rw [toNat_divideRounded hp (by omega),toNat_divideRounded hp (by omega),hsum]
    refine ⟨Nat.div_le_div_right (by omega),?_⟩
    rw [← Nat.add_div_right _ hp]
    exact Nat.div_le_div_right (by omega)

theorem seven_cycles : ((create 500000).addCycleLatency 7).getCycleCount = 7 :=
  ((cycle_rounding_iff (by decide)).2.1 7 (by decide)).mpr (by decide)

theorem third_rounded_up : ¬ Nearest 1 3 (divideRounded 1 3).toNat ∧
    ((create 1).addCycleLatency 5).getCycleCount = 6 := by
  simp only [Nearest]
  decide

end ComponentTime
