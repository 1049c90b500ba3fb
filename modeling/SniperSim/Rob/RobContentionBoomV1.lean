import SniperSim.Rob.IssuePorts

open Function
namespace RobTimer

namespace BoomV1

inductive Port
  | port0 | port1 | port2 | port012
deriving DecidableEq, Repr

end BoomV1

structure BoomV1 where
  now : Nat
  ports : BoomV1.Port → Bool
  (portsGeneric012 aluUsedUntil : Nat)

namespace BoomV1

def take (b : BoomV1) (p : Port) : BoomV1 := { b with ports := update b.ports p true }

def takeGeneric012 (b : BoomV1) : BoomV1 := { b with portsGeneric012 := b.portsGeneric012 + 1 }

def claimPort (b : BoomV1) (p : Port) : Option BoomV1 :=
  if p = .port012 then if 3 ≤ b.portsGeneric012 then none else some b.takeGeneric012
  else if b.ports p then none
  else if 3 ≤ b.portsGeneric012 then none
  else some (b.take p).takeGeneric012

def tryIssue (port : Port) (trig : Bool) (b : BoomV1) : Bool × BoomV1 :=
  match b.claimPort port with
  | none => (false,b)
  | some b' => (!trig || decide (b.aluUsedUntil ≤ b.now),b')

theorem claimPort_ne {b b' : BoomV1} {p : Port} (h : b.claimPort p = some b') : b' ≠ b := by
  have hcount : b'.portsGeneric012 = b.portsGeneric012 + 1 := by
    rw [claimPort] at h
    split_ifs at h <;> cases h <;> rfl
  rintro rfl
  omega

theorem tryIssue_snd_iff (port : Port) (trig : Bool) (b : BoomV1) :
    (tryIssue port trig b).2 = b ↔ b.claimPort port = none := by
  rw [tryIssue]
  cases h : b.claimPort port with
  | none => exact iff_of_true rfl rfl
  | some b' => exact iff_of_false (claimPort_ne h) (Option.some_ne_none _)

end BoomV1

namespace Nehalem

theorem claimPort_ne {k k' : Nehalem} {p : RobTimer.Port} (h : k.claimPort p = some k') : k' ≠ k := by
  have hc := claims_of_claimPort h
  rintro rfl
  cases p with
  | port0 | port1 | port5 | port015 => exact absurd hc.generic (by simp [onGeneric])
  | port05 => exact absurd hc.generic05 (by simp [onGeneric05])
  | port2 | port34 =>
    have hfree := hc.free rfl
    rw [hc.ports] at hfree
    simp [onSingle] at hfree

theorem tryIssue_snd_iff (uop : DynamicMicroOp) (k : Nehalem) :
    (tryIssue uop k).2 = k ↔ k.claimPort uop.port = none := by
  rw [tryIssue]
  cases h : k.claimPort uop.port with
  | none => exact iff_of_true rfl rfl
  | some k' => exact iff_of_false (claimPort_ne h) (Option.some_ne_none _)

theorem rejected_without_effect_iff (uop : DynamicMicroOp) (k : Nehalem) (port : BoomV1.Port) (trig : Bool)
    (b : BoomV1) : ((k.tryIssue uop).1 = false → ((k.tryIssue uop).2 = k ↔ k.claimPort uop.port = none)) ∧
      ((b.tryIssue port trig).1 = false → ((b.tryIssue port trig).2 = b ↔ b.claimPort port = none)) :=
  ⟨fun _ => tryIssue_snd_iff uop k,fun _ => BoomV1.tryIssue_snd_iff port trig b⟩

theorem busy_port_rejects : ((idle.take .port2).tryIssue (execute .port2)).2 = idle.take .port2 :=
  ((rejected_without_effect_iff (execute .port2) (idle.take .port2) .port0 false ⟨0,fun _ => false,0,0⟩).1 rfl).mpr rfl

theorem busy_alu_keeps_port :
    ({ idle with aluUsedUntil := 5 }.tryIssue { execute .port0 with aluLatency := some 20 }).1 = false ∧
      (({ idle with aluUsedUntil := 5 }.tryIssue { execute .port0 with aluLatency := some 20 }).2.tryIssue
        (execute .port0)).1 = false ∧ ({ idle with aluUsedUntil := 5 }.tryIssue (execute .port0)).1 ∧
      (BoomV1.tryIssue .port0 true ⟨0,fun _ => false,0,5⟩).1 = false ∧
      (BoomV1.tryIssue .port0 true ⟨0,fun _ => false,0,5⟩).2.ports .port0 := by
  decide

end Nehalem
end RobTimer
