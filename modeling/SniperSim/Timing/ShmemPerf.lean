import SniperSim.Library.Roster
import SniperSim.Library.Run
import SniperSim.System.ThreadManager
import Mathlib.Data.BitVec

inductive ShmemTimesType
  | nocBase | nocQueue | tdAccess | invImbalance | remoteCacheInv | remoteCacheFwd | remoteCacheWb | pendingHit
  | nucaTags | nucaQueue | nucaBus | nucaData | dramCache | dramCacheTags | dramCacheQueue | dramCacheBus
  | dramCacheData | dram | dramQueue | dramBus | dramDevice | unknown
deriving DecidableEq, Repr

instance : Fintype ShmemTimesType :=
  .ofSurjective (fun i : Fin 22 => .ofNat i) fun r => ⟨⟨r.ctorIdx,by cases r <;> decide⟩,r.ofNat_ctorIdx⟩

structure ShmemPerf where
  timeLast : SubsecondTime
  times : ShmemTimesType → SubsecondTime

namespace ShmemPerf

def reset (time : SubsecondTime) : ShmemPerf := ⟨time,fun _ => 0⟩

variable (s : ShmemPerf)

def charge (reason : ShmemTimesType) (delay : SubsecondTime) : ShmemPerf :=
  ⟨s.timeLast + delay,Function.update s.times reason (s.times reason + delay)⟩

def updateTime (time : SubsecondTime) (reason : ShmemTimesType) : ShmemPerf :=
  if s.timeLast < time then s.charge reason (time - s.timeLast) else s

def updatePacket (time queueDelay : SubsecondTime) : ShmemPerf :=
  if s.timeLast < time then (s.charge .nocQueue queueDelay).updateTime time .nocBase else s

inductive Call
  | time (time : SubsecondTime) (reason : ShmemTimesType)
  | packet (time queueDelay : SubsecondTime)
deriving DecidableEq, Repr

def step (s : ShmemPerf × Nat) : Call → ShmemPerf × Nat
  | .time t reason => (s.1.updateTime t reason,max s.2 t.toNat)
  | .packet t queueDelay => (s.1.updatePacket t queueDelay,max s.2 t.toNat)

def Attributed (t0 : SubsecondTime) (s : ShmemPerf × Nat) : Prop :=
  ∑ reason, s.1.times reason = s.1.timeLast - t0 ∧ s.1.timeLast.toNat ≤ s.2

def Covered (s : ShmemPerf × Nat) : Call → Prop
  | .time _ _ => True
  | .packet t queueDelay => s.1.timeLast < t → (s.1.timeLast + queueDelay).toNat ≤ max s.2 t.toNat

variable {s} {t0 t delay : SubsecondTime} {reason : ShmemTimesType}
section
variable (h : ∑ r, s.times r = s.timeLast - t0)
include h

theorem sum_charge (reason : ShmemTimesType) (delay : SubsecondTime)
    : ∑ r, (s.charge reason delay).times r = (s.charge reason delay).timeLast - t0 := by
  rw [charge,Finset.sum_update_add (Finset.mem_univ _),h]
  exact sub_add_eq_add_sub ..

theorem sum_updateTime : ∑ r, (s.updateTime t reason).times r = (s.updateTime t reason).timeLast - t0 := by
  rw [updateTime]
  split_ifs
  · exact sum_charge h ..
  · exact h

theorem sum_updatePacket : ∑ r, (s.updatePacket t delay).times r = (s.updatePacket t delay).timeLast - t0 := by
  rw [updatePacket]
  split_ifs
  · exact sum_updateTime (sum_charge h ..)
  · exact h
end

theorem timeLast_updateTime : (s.updateTime t reason).timeLast.toNat = max s.timeLast.toNat t.toNat := by
  rw [updateTime]
  split_ifs with hlt
  · rw [charge,add_sub_cancel,max_eq_right (Nat.le_of_lt hlt)]
  · exact (max_eq_left (Nat.le_of_not_lt hlt)).symm

theorem latency_attributed_iff (t0 : SubsecondTime) (calls : List Call) :
    (∀ pre, pre <+: calls → Attributed t0 (pre.foldl step (reset t0,t0.toNat))) ↔
      Run.Along step Covered (reset t0,t0.toNat) calls := by
  refine Run.prefixes_iff_along (fun s h c _ hc => ?_) (fun _ h => h) (fun s h c _ hn => ?_)
    ⟨by simp [reset],le_refl _⟩
  · cases c with
    | time t reason => exact ⟨sum_updateTime h.1,timeLast_updateTime.trans_le (max_le_max_right _ h.2)⟩
    | packet t delay =>
      refine ⟨sum_updatePacket h.1,?_⟩
      simp only [step,updatePacket]
      split_ifs with hlt
      · rw [timeLast_updateTime]
        exact max_le (hc hlt) (le_max_right _ _)
      · exact le_max_of_le_left h.2
  · cases c with
    | time t reason => trivial
    | packet t delay =>
      intro hlt
      have hle := hn.2
      simp only [step,updatePacket,if_pos hlt,timeLast_updateTime] at hle
      exact (le_max_left _ _).trans hle

theorem delay_overtakes_packet : (step (reset 5,5) (.packet 6 6)).1.timeLast = 11 ∧
    (step (reset 5,5) (.packet 6 6)).2 = 6 := by
  decide

end ShmemPerf
