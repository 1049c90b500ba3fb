import SniperSim.Rob.PortSchedule
import SniperSim.Rob.RobContentionNehalem

open List
namespace RobTimer

namespace Nehalem

inductive Call
  | tryIssue (uop : DynamicMicroOp)
  | doIssue (uop : DynamicMicroOp)

def call (g : Nehalem × List DynamicMicroOp) : Call → Nehalem × List DynamicMicroOp
  | .tryIssue uop => ((tryIssue uop g.1).2,g.2 ++ if (tryIssue uop g.1).1 then [uop] else [])
  | .doIssue uop => (doIssue uop g.1,g.2)

def granted (now : Nat) (k : Nehalem) (calls : List Call) : List DynamicMicroOp :=
  (calls.foldl call (initCycle now k,[])).2

def onThree : Port → Bool
  | .port2 | .port34 => false
  | _ => true

-- uops that hold one of the ports 0, 1 and 5: a uop of port 0 or 5 is in both counters
def claimed (k : Nehalem) : Nat :=
  k.portsGeneric + (k.portsGeneric05 - ((k.ports .port0).toNat + (k.ports .port5).toNat))

def Spare (g : Nehalem × List DynamicMicroOp) : Call → Prop
  | .tryIssue uop =>
    match uop.port with
    | .port2 | .port34 => True
    | .port05 => g.1.portsGeneric05 < 2 → claimed g.1 < 3
    | .port0 | .port1 | .port5 | .port015 => g.1.portsGeneric < 3 → claimed g.1 < 3
  | .doIssue _ => True

section
variable {g : Nehalem × List DynamicMicroOp}

theorem tryIssue_claims (uop : DynamicMicroOp) (k : Nehalem) :
    tryIssue uop k = (false,k) ∨ Claims k uop.port (tryIssue uop k).2 := by
  rw [tryIssue]
  cases h : k.claimPort uop.port with
  | none => exact .inl rfl
  | some k' => exact .inr (claims_of_claimPort h)

theorem Granted.call (h : Granted g) (c : Call) : Granted (call g c) := by
  cases c with
  | doIssue uop => exact ⟨h.generic,h.generic_le,h.generic05,h.generic05_le,h.single⟩
  | tryIssue uop =>
    simp only [Nehalem.call]
    rcases tryIssue_claims uop g.1 with htry | hc
    · simpa [htry] using h
    · exact h.claim hc _

theorem countP_port (uops : List DynamicMicroOp) (f : Port → Bool) :
    uops.countP (fun uop => f uop.port) = (uops.map (·.port)).countP f := by
  rw [countP_map]
  rfl

theorem countP_onGeneric05 (ports : List Port) : ports.countP onGeneric05 =
    ports.count .port0 + ports.count .port5 + ports.count .port05 := by
  induction ports with
  | nil => rfl
  | cons p ports ih =>
    rw [countP_cons,count_cons,count_cons,count_cons,ih]
    cases p <;> simp [onGeneric05] <;> omega

theorem countP_onThree (ports : List Port) : ports.countP onThree =
    ports.count .port0 + ports.count .port1 + ports.count .port5 + ports.count .port05 + ports.count .port015 := by
  induction ports with
  | nil => rfl
  | cons p ports ih =>
    rw [countP_cons,count_cons,count_cons,count_cons,count_cons,count_cons,ih]
    cases p <;> simp [onThree] <;> omega

theorem Granted.assignable_iff (h : Granted g) : Slots.Assignable Port.allowed (g.2.map (·.port)) ↔
      g.2.countP (fun uop => onThree uop.port) ≤ 3 := by
  rw [← Slots.schedulable_one,Port.schedulable_iff_fits,countP_port,countP_onThree]
  refine ⟨fun hfits => hfits.port015,fun hthree => ⟨fun p hp => ?_,?_,hthree⟩⟩
  · have hone : g.2.countP (fun uop => uop.port == p) ≤ 1 :=
      Nat.le_trans (h.single p (by cases p <;> first | rfl | exact Bool.noConfusion hp)) (Bool.toNat_le _)
    rwa [countP_port g.2 (· == p)] at hone
  · have htwo := Nat.le_trans h.generic05 h.generic05_le
    rwa [countP_port,countP_onGeneric05] at htwo

structure Counted (g : Nehalem × List DynamicMicroOp) : Prop where
  granted : Granted g
  flags : (g.1.ports .port0).toNat + (g.1.ports .port5).toNat ≤ g.1.portsGeneric05
  three : g.2.countP (fun uop => onThree uop.port) ≤ claimed g.1
  three_le : claimed g.1 ≤ 3

theorem Claims.claimed (h : Claims k p k') (hflags : (k.ports .port0).toNat + (k.ports .port5).toNat ≤ k.portsGeneric05) :
    (k'.ports .port0).toNat + (k'.ports .port5).toNat ≤ k'.portsGeneric05 ∧
      claimed k' = claimed k + (onThree p).toNat := by
  have hfree := h.free
  rw [Nehalem.claimed,Nehalem.claimed,h.generic,h.generic05,h.ports]
  cases p <;> simp_all [onGeneric,onGeneric05,onSingle,onThree] <;> omega

theorem Spare.claimed_lt (h : Spare g (.tryIssue uop)) (hc : Claims g.1 uop.port k) (hthree : onThree uop.port) :
    claimed g.1 < 3 := by
  have hgeneric := hc.generic_lt
  have hgeneric05 := hc.generic05_lt
  rw [Spare] at h
  cases hp : uop.port <;> simp_all [onGeneric,onGeneric05,onThree]

theorem Counted.call (h : Counted g) (c : Call) (hs : Spare g c) : Counted (call g c) := by
  have hgranted := h.granted.call c
  cases c with
  | doIssue uop => exact ⟨hgranted,h.flags,h.three,h.three_le⟩
  | tryIssue uop =>
    rcases tryIssue_claims uop g.1 with htry | hc
    · simpa [Nehalem.call,htry] using h
    · obtain ⟨hflags,hclaimed⟩ := hc.claimed h.flags
      have hthree := h.three
      have hle := h.three_le
      refine ⟨hgranted,hflags,?_,?_⟩
      · simp only [Nehalem.call,countP_append,hclaimed]
        cases (tryIssue uop g.1).1 <;> cases hon : onThree uop.port <;> simp [hon] <;> omega
      · simp only [Nehalem.call,hclaimed]
        cases hon : onThree uop.port with
        | false => exact hle
        | true => exact hs.claimed_lt hc hon

theorem counted_initCycle (now : Nat) (k : Nehalem) : Counted (initCycle now k,[]) :=
  ⟨granted_initCycle now k,Nat.le_refl _,Nat.le_refl _,Nat.zero_le _⟩

theorem granted_assignable (now : Nat) (k : Nehalem) (calls : List Call)
    (hs : Run.Along call Spare (initCycle now k,[]) calls) :
    Slots.Assignable Port.allowed ((granted now k calls).map (·.port)) := by
  have h : Counted (calls.foldl call (initCycle now k,[])) :=
    Run.foldl_along (fun _ c hg hc => hg.call c hc) (counted_initCycle now k) hs
  exact h.granted.assignable_iff.mpr (Nat.le_trans h.three h.three_le)
end

def idle : Nehalem :=
  { now := 0, ports := fun _ => false, portsGeneric := 0, portsGeneric05 := 0, aluUsedUntil := 0 }

def execute (port : Port) : DynamicMicroOp := { simpleUop .execute 1 with dCacheKnown := false, port }

def threePorts : List Call := [.port015,.port05,.port0,.port2].map fun port => .tryIssue (execute port)

theorem three_ports_assignable : Run.Along call Spare (initCycle 1 idle,[]) threePorts ∧
    granted 1 idle threePorts = [.port015,.port05,.port0,.port2].map execute ∧
    Slots.Assignable Port.allowed ((granted 1 idle threePorts).map (·.port)) := by
  have hs : Run.Along call Spare (initCycle 1 idle,[]) threePorts :=
    ⟨fun _ => by decide,fun _ => by decide,fun _ => by decide,trivial,trivial⟩
  exact ⟨hs,by decide,granted_assignable 1 idle threePorts hs⟩

def fourOnThreePorts : List Call := [.port015,.port015,.port015,.port05].map fun port => .tryIssue (execute port)

theorem four_granted_on_three_ports :
    granted 1 idle fourOnThreePorts = [.port015,.port015,.port015,.port05].map execute ∧
      ¬Slots.Assignable Port.allowed ((granted 1 idle fourOnThreePorts).map (·.port)) := by
  have hgranted : granted 1 idle fourOnThreePorts = [.port015,.port015,.port015,.port05].map execute := by decide
  refine ⟨hgranted,fun h => ?_⟩
  rw [hgranted,← Slots.schedulable_one,Port.schedulable_iff_fits] at h
  exact absurd h.port015 (by decide)

end Nehalem
end RobTimer
