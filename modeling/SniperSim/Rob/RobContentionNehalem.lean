import SniperSim.Rob.RobTimer

open Function
namespace RobTimer

structure Nehalem where
  now : Nat
  ports : Port → Bool
  (portsGeneric portsGeneric05 : Nat)
  aluUsedUntil : Nat

namespace Nehalem

def initCycle (now : Nat) (k : Nehalem) : Nehalem :=
  { k with now, ports := fun _ => false, portsGeneric := 0, portsGeneric05 := 0 }

def take (k : Nehalem) (p : Port) : Nehalem := { k with ports := update k.ports p true }

def takeGeneric (k : Nehalem) : Nehalem := { k with portsGeneric := k.portsGeneric + 1 }

def takeGeneric05 (k : Nehalem) : Nehalem := { k with portsGeneric05 := k.portsGeneric05 + 1 }

def claimPort (k : Nehalem) : Port → Option Nehalem
  | .port015 => if 3 ≤ k.portsGeneric then none else some k.takeGeneric
  | .port05 => if 2 ≤ k.portsGeneric05 then none else some k.takeGeneric05
  | .port2 => if k.ports .port2 then none else some (k.take .port2)
  | .port34 => if k.ports .port34 then none else some (k.take .port34)
  | .port1 =>
    if k.ports .port1 then none
    else if 3 ≤ k.portsGeneric then none
    else some (k.take .port1).takeGeneric
  | .port0 => claim05 .port0
  | .port5 => claim05 .port5
where
  claim05 (p : Port) : Option Nehalem :=
    if k.ports p then none
    else if 3 ≤ k.portsGeneric then none
    else if 2 ≤ k.portsGeneric05 then none
    else some (k.take p).takeGeneric.takeGeneric05

def tryIssue (uop : DynamicMicroOp) (k : Nehalem) : Bool × Nehalem :=
  match k.claimPort uop.port with
  | none => (false,k)
  | some k' => (uop.aluLatency.isNone || decide (k.aluUsedUntil ≤ k.now),k')

def doIssue (uop : DynamicMicroOp) (k : Nehalem) : Nehalem :=
  { k with aluUsedUntil := uop.aluLatency.elim k.aluUsedUntil fun latency => k.now + latency }

def noMore (k : Nehalem) : Bool := k.ports .port2 && k.ports .port34 && decide (3 ≤ k.portsGeneric)

end Nehalem

def robContentionNehalem : RobContention Nehalem :=
  { initCycle := Nehalem.initCycle
    tryIssue := Nehalem.tryIssue
    noMore := Nehalem.noMore
    doIssue := Nehalem.doIssue
    initCycle_initCycle := fun _ _ _ => rfl
    noMore_initCycle := fun _ _ => rfl }

namespace Nehalem
section
variable {k k' : Nehalem} {p : Port}

def onGeneric : Port → Bool
  | .port0 | .port1 | .port5 | .port015 => true
  | _ => false

def onGeneric05 : Port → Bool
  | .port0 | .port5 | .port05 => true
  | _ => false

def onSingle : Port → Bool
  | .port05 | .port015 => false
  | _ => true

structure Claims (k : Nehalem) (p : Port) (k' : Nehalem) : Prop where
  generic : k'.portsGeneric = k.portsGeneric + (onGeneric p).toNat
  generic05 : k'.portsGeneric05 = k.portsGeneric05 + (onGeneric05 p).toNat
  generic_lt : onGeneric p → k.portsGeneric < 3
  generic05_lt : onGeneric05 p → k.portsGeneric05 < 2
  free : onSingle p → k.ports p = false
  ports : k'.ports = if onSingle p then update k.ports p true else k.ports

theorem claims_of_claim05 (h : claimPort.claim05 k p = some k') (hg : onGeneric p)
    (hg5 : onGeneric05 p) (hs : onSingle p) : Claims k p k' := by
  rw [claimPort.claim05] at h
  split_ifs at h with hfree hlt hlt5
  cases h
  refine ⟨by rw [hg]; rfl,by rw [hg5]; rfl,fun _ => by omega,fun _ => by omega, fun _ => by simpa using hfree,?_⟩
  rw [if_pos hs]
  rfl

theorem claims_of_claimPort (h : k.claimPort p = some k') : Claims k p k' := by
  cases p with
  | port0 | port5 => exact claims_of_claim05 h rfl rfl rfl
  | port1 | port2 | port34 | port05 | port015 =>
    rw [claimPort] at h
    split_ifs at h
    cases h
    refine ⟨rfl,rfl,fun _ => ?_,fun _ => ?_,fun _ => ?_,rfl⟩ <;> simp_all [onGeneric,onGeneric05,onSingle]
end

structure Granted (g : Nehalem × List DynamicMicroOp) : Prop where
  generic : g.2.countP (fun uop => onGeneric uop.port) ≤ g.1.portsGeneric
  generic_le : g.1.portsGeneric ≤ 3
  generic05 : g.2.countP (fun uop => onGeneric05 uop.port) ≤ g.1.portsGeneric05
  generic05_le : g.1.portsGeneric05 ≤ 2
  single : ∀ p, onSingle p → g.2.countP (fun uop => uop.port == p) ≤ (g.1.ports p).toNat

theorem Granted.claim (h : Granted g) (hc : Claims g.1 uop.port k) (issued : Bool) :
    Granted (k,g.2 ++ if issued then [uop] else []) := by
  have hgeneric := h.generic
  have hgeneric05 := h.generic05
  have hcount : ∀ f : DynamicMicroOp → Bool,
      (g.2 ++ if issued then [uop] else []).countP f ≤ g.2.countP f + (f uop).toNat := fun f => by
    cases issued <;> cases hf : f uop <;> simp [hf]
  refine ⟨?_,?_,?_,?_,fun p hp => ?_⟩
  · have hle := hcount fun uop => onGeneric uop.port
    simp only [hc.generic] at hle ⊢
    omega
  · have hle := h.generic_le
    simp only [hc.generic]
    cases hg : onGeneric uop.port with
    | false => simpa using hle
    | true => exact hc.generic_lt hg
  · have hle := hcount fun uop => onGeneric05 uop.port
    simp only [hc.generic05] at hle ⊢
    omega
  · have hle := h.generic05_le
    simp only [hc.generic05]
    cases hg : onGeneric05 uop.port with
    | false => simpa using hle
    | true => exact hc.generic05_lt hg
  · have hle := hcount fun uop => uop.port == p
    have hsingle := h.single p hp
    simp only [hc.ports]
    by_cases heq : uop.port = p
    · subst heq
      rw [hc.free hp] at hsingle
      simp only [hp,if_true,update_self,beq_self_eq_true] at hle ⊢
      exact Nat.le_trans hle (Nat.add_le_add_right hsingle 1)
    · have hports : (if onSingle uop.port then update g.1.ports uop.port true else g.1.ports) p = g.1.ports p := by
        split_ifs
        · exact update_of_ne (Ne.symm heq) _ _
        · rfl
      rw [hports]
      simp only [beq_eq_false_iff_ne.mpr heq] at hle
      exact Nat.le_trans hle hsingle

theorem granted_initCycle (now : Nat) (k : Nehalem) : Granted (initCycle now k,[]) :=
  ⟨Nat.le_refl _,Nat.zero_le _,Nat.le_refl _,Nat.zero_le _,fun _ _ => Nat.le_refl _⟩

end Nehalem
end RobTimer
