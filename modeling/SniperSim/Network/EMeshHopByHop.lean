import SniperSim.Library.Fuel
import Mathlib.Order.Basic

open Fuel Int

structure EMesh where
  (meshWidth meshHeight concentration : Int)
  wrapAround : Bool
  width_pos : 1 ≤ meshWidth
  height_pos : 1 ≤ meshHeight
  concentration_pos : 1 ≤ concentration

namespace EMesh

inductive OutputDirection
  | up | down | left | right | self | peer | destination
deriving DecidableEq, Repr

structure Hop where
  direction : OutputDirection
  nextDest : Int
deriving DecidableEq, Repr

def absDiff (a b : Int) : Int := (a - b).natAbs

variable (m : EMesh)

def applicationCores : Int := m.concentration * m.meshHeight * m.meshWidth

def fakeNode (coreId : Int) : Bool :=
  coreId % m.concentration != 0 || coreId ≥ m.concentration * m.meshWidth * m.meshHeight

def positionX (coreId : Int) : Int := coreId / m.concentration % m.meshWidth

def positionY (coreId : Int) : Int := coreId / m.concentration / m.meshWidth

def computeCoreId (x y : Int) : Int :=
  ((y + m.meshHeight) % m.meshHeight * m.meshWidth + (x + m.meshWidth) % m.meshWidth) * m.concentration

def computeDistance (sender receiver : Int) : Int :=
  let dx := absDiff (m.positionX sender) (m.positionX receiver)
  let dy := absDiff (m.positionY sender) (m.positionY receiver)
  if m.wrapAround then min dx (m.meshWidth - dx) + min dy (m.meshHeight - dy) else dx + dy

def lowers (size s d : Int) : Bool := (decide (d < s)).xor (m.wrapAround && decide ((size + 1) / 2 < absDiff s d))

def getNextDest (coreId finalDest : Int) : Hop :=
  let sx := m.positionX coreId
  let sy := m.positionY coreId
  let dx := m.positionX finalDest
  let dy := m.positionY finalDest
  if finalDest ≥ m.applicationCores then ⟨.destination,finalDest⟩
  else if coreId / m.concentration = finalDest / m.concentration then ⟨.destination,finalDest⟩
  else if m.fakeNode coreId then ⟨.peer,coreId - coreId % m.concentration⟩
  else if m.lowers m.meshWidth sx dx then ⟨.left,m.computeCoreId (sx - 1) sy⟩
  else if sx ≠ dx then ⟨.right,m.computeCoreId (sx + 1) sy⟩
  else if m.lowers m.meshHeight sy dy then ⟨.down,m.computeCoreId sx (sy - 1)⟩
  else if sy ≠ dy then ⟨.up,m.computeCoreId sx (sy + 1)⟩
  else ⟨.self,coreId⟩

def routePacket (coreId receiver : Int) : Hop :=
  if m.fakeNode coreId then ⟨.destination,receiver⟩ else m.getNextDest coreId receiver

def hopLoop (receiver : Int) : Nat → Hop → Option (List Hop)
  | 0, _ => none
  | fuel + 1, hop =>
    if hop.nextDest = receiver then some [hop]
    else (hopLoop receiver fuel (m.routePacket hop.nextDest receiver)).map (hop :: ·)

def netSend (sender receiver : Int) (fuel : Nat) : Option (List Hop) :=
  m.hopLoop receiver fuel (m.routePacket sender receiver)

def OutputDirection.isLink : OutputDirection → Bool
  | .up | .down | .left | .right => true
  | _ => false

def linkHops (hops : List Hop) : Nat := hops.countP fun h => h.direction.isLink

theorem wrap_pred {n s : Int} (h0 : 0 ≤ s) (hn : s < n) : (s - 1 + n) % n = if s = 0 then n - 1 else s - 1 := by
  split_ifs with hs
  · rw [hs,show 0 - 1 + n = n - 1 by omega,Int.emod_eq_of_lt (by omega) (by omega)]
  · rw [add_emod_right,Int.emod_eq_of_lt (by omega) (by omega)]

theorem wrap_succ {n s : Int} (h0 : 0 ≤ s) (hn : s < n) : (s + 1 + n) % n = if s = n - 1 then 0 else s + 1 := by
  rw [add_emod_right]
  split_ifs with hs
  · rw [hs,Int.sub_add_cancel,Int.emod_self]
  · rw [Int.emod_eq_of_lt (by omega) (by omega)]

theorem wrap_self {n s : Int} (h0 : 0 ≤ s) (hn : s < n) : (s + n) % n = s := by
  rw [add_emod_right,Int.emod_eq_of_lt h0 hn]

def axisHops (size s d : Int) : Int :=
  if m.wrapAround ∧ (size + 1) / 2 < absDiff s d then size - absDiff s d else absDiff s d

def axisDistance (size s d : Int) : Int :=
  if m.wrapAround then min (absDiff s d) (size - absDiff s d) else absDiff s d

section
variable {m} {size s d : Int}

theorem absDiff_cases (s d : Int) : absDiff s d = s - d ∧ d ≤ s ∨ absDiff s d = d - s ∧ s < d := by
  simp only [absDiff]
  omega

theorem lowers_iff : m.lowers size s d ↔ ¬(d < s ↔ m.wrapAround ∧ (size + 1) / 2 < absDiff s d) := by
  cases hw : m.wrapAround with
  | false => simp [lowers,hw]
  | true => by_cases hd : d < s <;> by_cases ht : (size + 1) / 2 < absDiff s d <;> simp [lowers,hw,hd,ht]

section
variable (hs : 0 ≤ s ∧ s < size)
include hs

theorem axisHops_nonneg (hd : 0 ≤ d ∧ d < size) : 0 ≤ m.axisHops size s d := by
  have habs := absDiff_cases s d
  rw [axisHops]
  split_ifs
  · omega
  · omega

theorem axisHops_eq_zero (hd : 0 ≤ d ∧ d < size) : m.axisHops size s d = 0 ↔ s = d := by
  have habs := absDiff_cases s d
  rw [axisHops]
  split_ifs
  · omega
  · omega

theorem ne_of_lowers (h : m.lowers size s d) : s ≠ d := by
  rintro rfl
  have habs := absDiff_cases s s
  exact lowers_iff.mp h ⟨fun hlt => by omega,fun hlt => by omega⟩

theorem axisHops_step (hd : 0 ≤ d ∧ d < size) (hne : s ≠ d)
    (ht : m.lowers size s d ∧ (s = 0 ∧ t = size - 1 ∨ t = s - 1 ∧ 0 ≤ t) ∨
      m.lowers size s d = false ∧ (s = size - 1 ∧ t = 0 ∨ t = s + 1 ∧ t < size)) :
    m.axisHops size t d = m.axisHops size s d - 1 := by
  have hnow := absDiff_cases s d
  have hnext := absDiff_cases t d
  rw [← Bool.not_eq_true,lowers_iff] at ht
  rw [axisHops,axisHops]
  cases hw : m.wrapAround with
  | false =>
    simp only [hw,Bool.false_eq_true,false_and,iff_false,not_not,if_false] at ht ⊢
    omega
  | true =>
    simp only [hw,true_and] at ht ⊢
    split_ifs <;> omega

theorem axisHops_lower (hd : 0 ≤ d ∧ d < size) (h : m.lowers size s d) :
    m.axisHops size ((s - 1 + size) % size) d = m.axisHops size s d - 1 := by
  refine axisHops_step hs hd (ne_of_lowers hs h) (.inl ⟨h,?_⟩)
  rw [wrap_pred hs.1 hs.2]
  split_ifs with hzero
  · exact .inl ⟨hzero,rfl⟩
  · exact .inr ⟨rfl,by omega⟩

theorem axisHops_raise (hd : 0 ≤ d ∧ d < size) (h : m.lowers size s d = false) (hne : s ≠ d) :
    m.axisHops size ((s + 1 + size) % size) d = m.axisHops size s d - 1 := by
  refine axisHops_step hs hd hne (.inr ⟨h,?_⟩)
  rw [wrap_succ hs.1 hs.2]
  split_ifs with hlast
  · exact .inl ⟨hlast,rfl⟩
  · exact .inr ⟨rfl,by omega⟩
end

theorem axisDistance_le (s d size : Int) : m.axisDistance size s d ≤ m.axisHops size s d := by
  rw [axisDistance,axisHops]
  cases hw : m.wrapAround with
  | false => simp
  | true =>
    simp only [true_and,if_true]
    split_ifs <;> omega

theorem axisHops_eq_distance (s d size : Int) :
    m.axisHops size s d = m.axisDistance size s d ↔ (m.wrapAround → 2 * absDiff s d ≠ size + 1) := by
  rw [axisDistance,axisHops]
  cases hw : m.wrapAround with
  | false => simp
  | true =>
    simp only [true_and,if_true,forall_const]
    split_ifs <;> omega
end

def node (x y : Int) : Int := (y * m.meshWidth + x) * m.concentration

structure OnMesh (x y : Int) : Prop where
  x : 0 ≤ x ∧ x < m.meshWidth
  y : 0 ≤ y ∧ y < m.meshHeight

section
variable {m} {x y : Int}

theorem OnMesh.index_lt (h : m.OnMesh x y) : y * m.meshWidth + x < m.meshHeight * m.meshWidth := by
  have hrow : y * m.meshWidth ≤ (m.meshHeight - 1) * m.meshWidth :=
    Int.mul_le_mul_of_nonneg_right (by have := h.y; omega) (by have := m.width_pos; omega)
  rw [Int.sub_mul,Int.one_mul] at hrow
  have := h.x
  omega

theorem node_div (x y : Int) : m.node x y / m.concentration = y * m.meshWidth + x :=
  mul_ediv_cancel _ (by have := m.concentration_pos; omega)

theorem OnMesh.positionX (h : m.OnMesh x y) : m.positionX (m.node x y) = x := by
  rw [EMesh.positionX,node_div,Int.add_comm,Int.add_mul_emod_self_right,Int.emod_eq_of_lt h.x.1 h.x.2]

theorem OnMesh.positionY (h : m.OnMesh x y) : m.positionY (m.node x y) = y := by
  rw [EMesh.positionY,node_div,Int.add_comm,
    add_mul_ediv_right _ _ (by have := m.width_pos; omega),ediv_eq_zero_of_lt h.x.1 h.x.2,Int.zero_add]

theorem OnMesh.not_fake (h : m.OnMesh x y) : m.fakeNode (m.node x y) = false := by
  have hlt : m.node x y < m.concentration * m.meshWidth * m.meshHeight := by
    have hc := m.concentration_pos
    calc m.node x y < m.meshHeight * m.meshWidth * m.concentration :=
          Int.mul_lt_mul_of_pos_right h.index_lt (by omega)
      _ = m.concentration * m.meshWidth * m.meshHeight := by
          rw [Int.mul_comm m.meshHeight,Int.mul_comm _ m.concentration,← Int.mul_assoc]
  have hmod : m.node x y % m.concentration = 0 := mul_emod_left _ _
  simp [fakeNode,hmod,hlt]

theorem position_onMesh (h0 : 0 ≤ coreId) (h : coreId < m.concentration * m.meshHeight * m.meshWidth) :
    m.OnMesh (m.positionX coreId) (m.positionY coreId) := by
  have hc := m.concentration_pos
  have hw := m.width_pos
  have hq : coreId / m.concentration < m.meshHeight * m.meshWidth := by
    apply Int.ediv_lt_of_lt_mul (by omega)
    rwa [Int.mul_comm _ m.concentration,← Int.mul_assoc]
  have hq0 : 0 ≤ coreId / m.concentration := Int.ediv_nonneg h0 (by omega)
  exact ⟨⟨emod_nonneg _ (by omega),emod_lt_of_pos _ (by omega)⟩,
    ⟨Int.ediv_nonneg hq0 (by omega),Int.ediv_lt_of_lt_mul (by omega) hq⟩⟩

theorem eq_node (h : m.fakeNode coreId = false) : coreId = m.node (m.positionX coreId) (m.positionY coreId) := by
  have hmod : coreId % m.concentration = 0 := by
    simp only [fakeNode,Bool.or_eq_false_iff,bne_eq_false_iff_eq] at h
    exact h.1
  have hindex : m.positionY coreId * m.meshWidth + m.positionX coreId = coreId / m.concentration :=
    ediv_mul_add_emod _ _
  rw [node,hindex,Int.ediv_mul_cancel (Int.dvd_of_emod_eq_zero hmod)]

theorem div_eq_iff : a / m.concentration = b / m.concentration ↔
    m.positionX a = m.positionX b ∧ m.positionY a = m.positionY b := by
  constructor
  · intro h
    rw [EMesh.positionX,EMesh.positionY,h]
    exact ⟨rfl,rfl⟩
  · rintro ⟨hx,hy⟩
    rw [← ediv_mul_add_emod (a / m.concentration) m.meshWidth,← ediv_mul_add_emod (b / m.concentration) m.meshWidth]
    exact congrArg₂ (fun x y => y * m.meshWidth + x) hx hy
end

def remaining (receiver x y : Int) : Int :=
  m.axisHops m.meshWidth x (m.positionX receiver) + m.axisHops m.meshHeight y (m.positionY receiver)

def Receives (receiver : Int) : Prop := 0 ≤ receiver ∧ receiver < m.applicationCores

section
variable {m} {r x y : Int} {sender : Int}
section
variable (hr : m.Receives r)
include hr

theorem Receives.onMesh : m.OnMesh (m.positionX r) (m.positionY r) := position_onMesh hr.1 hr.2

theorem remaining_nonneg (h : m.OnMesh x y) : 0 ≤ m.remaining r x y := by
  have hx := axisHops_nonneg (m := m) h.x hr.onMesh.x
  have hy := axisHops_nonneg (m := m) h.y hr.onMesh.y
  rw [remaining]
  omega

theorem remaining_eq_zero (h : m.OnMesh x y) : m.remaining r x y = 0 ↔ x = m.positionX r ∧ y = m.positionY r := by
  have hx := axisHops_nonneg (m := m) h.x hr.onMesh.x
  have hy := axisHops_nonneg (m := m) h.y hr.onMesh.y
  rw [← axisHops_eq_zero (m := m) h.x hr.onMesh.x,← axisHops_eq_zero (m := m) h.y hr.onMesh.y,remaining]
  omega

theorem routePacket_arrived (h : m.OnMesh x y) (hx : x = m.positionX r) (hy : y = m.positionY r) :
    m.routePacket (m.node x y) r = ⟨.destination,r⟩ := by
  have hsame : m.node x y / m.concentration = r / m.concentration :=
    div_eq_iff.mpr ⟨h.positionX.trans hx,h.positionY.trans hy⟩
  have happ : ¬r ≥ m.applicationCores := by have := hr.2; omega
  simp only [routePacket,h.not_fake,getNextDest,if_neg happ,if_pos hsame]
  rfl

theorem routePacket_link (h : m.OnMesh x y) (hne : ¬(x = m.positionX r ∧ y = m.positionY r)) :
    ∃ direction x' y', m.routePacket (m.node x y) r = ⟨direction,m.node x' y'⟩ ∧
      direction.isLink ∧ m.OnMesh x' y' ∧ m.remaining r x' y' = m.remaining r x y - 1 := by
  have hd := hr.onMesh
  have hw := m.width_pos
  have hh := m.height_pos
  have hother : ¬m.node x y / m.concentration = r / m.concentration := fun hsame =>
    hne ⟨h.positionX.symm.trans (div_eq_iff.mp hsame).1,h.positionY.symm.trans (div_eq_iff.mp hsame).2⟩
  have happ : ¬r ≥ m.applicationCores := by have := hr.2; omega
  have hin : ∀ a n : Int, 1 ≤ n → 0 ≤ a % n ∧ a % n < n := fun a n hn =>
    ⟨emod_nonneg _ (by omega),emod_lt_of_pos _ (by omega)⟩
  simp only [routePacket,h.not_fake,getNextDest,if_neg happ,if_neg hother,h.positionX,h.positionY,
    computeCoreId,wrap_self h.x.1 h.x.2,wrap_self h.y.1 h.y.2,Bool.false_eq_true,if_false]
  split_ifs with hleft hright hdown hup
  · refine ⟨.left,_,y,rfl,rfl,⟨hin _ _ hw,h.y⟩,?_⟩
    rw [remaining,remaining,axisHops_lower h.x hd.x hleft]
    omega
  · refine ⟨.right,_,y,rfl,rfl,⟨hin _ _ hw,h.y⟩,?_⟩
    rw [remaining,remaining,axisHops_raise h.x hd.x (Bool.not_eq_true _ ▸ hleft) hright]
    omega
  · refine ⟨.down,x,_,rfl,rfl,⟨h.x,hin _ _ hh⟩,?_⟩
    rw [remaining,remaining,axisHops_lower h.y hd.y hdown]
    omega
  · refine ⟨.up,x,_,rfl,rfl,⟨h.x,hin _ _ hh⟩,?_⟩
    rw [remaining,remaining,axisHops_raise h.y hd.y (Bool.not_eq_true _ ▸ hdown) hup]
    omega
  · exact absurd ⟨Decidable.not_not.mp hright,Decidable.not_not.mp hup⟩ hne
end

theorem hopLoop_last (h : m.hopLoop r fuel hop = some hops) :
    ∃ last, hops.getLast? = some last ∧ last.nextDest = r := by
  induction fuel generalizing hop hops with
  | zero => simp [hopLoop] at h
  | succ fuel ih =>
    rw [hopLoop] at h
    split_ifs at h with hend
    · cases h
      exact ⟨hop,rfl,hend⟩
    · obtain ⟨rest,hrest,rfl⟩ := Option.map_eq_some_iff.mp h
      obtain ⟨last,hlast,hdest⟩ := ih hrest
      refine ⟨last,?_,hdest⟩
      rw [List.getLast?_cons,hlast]
      rfl

theorem hopLoop_spec (hr : m.Receives r) (n : Nat) (h : m.OnMesh x y) (hn : m.remaining r x y = n) :
    ∃ hops, Returns (fun fuel => m.hopLoop r fuel (m.routePacket (m.node x y) r)) hops ∧ linkHops hops = n := by
  induction n generalizing x y with
  | zero =>
    obtain ⟨hx,hy⟩ := (remaining_eq_zero hr h).mp hn
    refine ⟨[⟨.destination,r⟩],.of_succ ?_,rfl⟩
    simp only [routePacket_arrived hr h hx hy,hopLoop,if_true]
    exact .const _
  | succ n ih =>
    have hne : ¬(x = m.positionX r ∧ y = m.positionY r) := fun hzero => by
      have := (remaining_eq_zero hr h).mpr hzero
      omega
    obtain ⟨direction,x',y',hroute,hlink,hmesh,hless⟩ := routePacket_link hr h hne
    have hn' : m.remaining r x' y' = n := by omega
    by_cases hend : m.node x' y' = r
    · have hzero : n = 0 := by
        have hat := (remaining_eq_zero hr hmesh).mpr ⟨by rw [← hend,hmesh.positionX],by rw [← hend,hmesh.positionY]⟩
        omega
      refine ⟨[⟨direction,m.node x' y'⟩],.of_succ ?_,by simp [linkHops,hlink,hzero]⟩
      simp only [hroute,hopLoop,if_pos hend]
      exact .const _
    · obtain ⟨hops,hruns,hcount⟩ := ih hmesh hn'
      refine ⟨⟨direction,m.node x' y'⟩ :: hops,.of_succ ?_,?_⟩
      · simp only [hroute,hopLoop,if_neg hend]
        exact hruns.map _
      · rw [linkHops,List.countP_cons,if_pos hlink]
        exact congrArg (· + 1) hcount

theorem computeDistance_eq (sender r : Int) : m.computeDistance sender r =
    m.axisDistance m.meshWidth (m.positionX sender) (m.positionX r) +
      m.axisDistance m.meshHeight (m.positionY sender) (m.positionY r) := by
  simp only [computeDistance,axisDistance]
  split_ifs
  · rfl
  · rfl

structure Sends (m : EMesh) (sender : Int) : Prop where
  nonneg : 0 ≤ sender
  real : m.fakeNode sender = false

theorem Sends.onMesh (hs : m.Sends sender) : m.OnMesh (m.positionX sender) (m.positionY sender) := by
  have hreal := hs.real
  simp only [fakeNode,Bool.or_eq_false_iff,decide_eq_false_iff_not] at hreal
  have hlt : sender < m.concentration * m.meshHeight * m.meshWidth := by
    rw [Int.mul_right_comm]
    omega
  exact position_onMesh hs.nonneg hlt

theorem netSend_spec (hs : m.Sends sender) (hr : m.Receives r) : ∃ hops, Returns (m.netSend sender r) hops ∧
      (∃ last, hops.getLast? = some last ∧ last.nextDest = r) ∧
      (linkHops hops : Int) = m.remaining r (m.positionX sender) (m.positionY sender) := by
  obtain ⟨n,hn⟩ := eq_ofNat_of_zero_le (remaining_nonneg hr hs.onMesh)
  obtain ⟨hops,hruns,hcount⟩ := hopLoop_spec hr n hs.onMesh hn
  rw [← eq_node hs.real] at hruns
  obtain ⟨fuel,hfuel⟩ := hruns
  refine ⟨hops,⟨fuel,hfuel⟩,hopLoop_last (hfuel fuel (Nat.le_refl _)),?_⟩
  rw [hn,hcount]

theorem remaining_eq_distance : m.remaining r (m.positionX sender) (m.positionY sender) = m.computeDistance sender r ↔
    (m.wrapAround → 2 * absDiff (m.positionX sender) (m.positionX r) ≠ m.meshWidth + 1 ∧
      2 * absDiff (m.positionY sender) (m.positionY r) ≠ m.meshHeight + 1) := by
  have hx := axisDistance_le (m := m) (m.positionX sender) (m.positionX r) m.meshWidth
  have hy := axisDistance_le (m := m) (m.positionY sender) (m.positionY r) m.meshHeight
  rw [remaining,computeDistance_eq,imp_and,← axisHops_eq_distance,← axisHops_eq_distance]
  omega
end

theorem mesh_routing_minimal (m : EMesh) (sender receiver : Int) (hs : m.Sends sender) (hr : m.Receives receiver) :
    (∃ hops, Returns (m.netSend sender receiver) hops ∧ ∃ last, hops.getLast? = some last ∧ last.nextDest = receiver) ∧
    ((∃ hops, Returns (m.netSend sender receiver) hops ∧
      (linkHops hops : Int) = m.computeDistance sender receiver) ↔ (m.wrapAround = true →
        2 * absDiff (m.positionX sender) (m.positionX receiver) ≠ m.meshWidth + 1 ∧
        2 * absDiff (m.positionY sender) (m.positionY receiver) ≠ m.meshHeight + 1)) := by
  obtain ⟨hops,hruns,hlast,hcount⟩ := netSend_spec hs hr
  refine ⟨⟨hops,hruns,hlast⟩,?_⟩
  rw [← remaining_eq_distance,← hcount]
  constructor
  · rintro ⟨hops',hruns',hdist⟩
    rwa [hruns.unique hruns']
  · intro hdist
    exact ⟨hops,hruns,hdist⟩

def torus (width height : Int) (hw : 1 ≤ width) (hh : 1 ≤ height) : EMesh :=
  { meshWidth := width
    meshHeight := height
    concentration := 1
    wrapAround := true
    width_pos := hw
    height_pos := hh
    concentration_pos := by decide }

theorem torus_of_four_by_four_minimal :
    ((torus 4 4 (by decide) (by decide)).Sends 0 ∧ (torus 4 4 (by decide) (by decide)).Receives 15) ∧
    ∃ hops, Returns ((torus 4 4 (by decide) (by decide)).netSend 0 15) hops ∧
      (linkHops hops : Int) = (torus 4 4 (by decide) (by decide)).computeDistance 0 15 := by
  have hs : (torus 4 4 (by decide) (by decide)).Sends 0 := ⟨by decide,by decide⟩
  have hr : (torus 4 4 (by decide) (by decide)).Receives 15 := by unfold Receives; decide
  exact ⟨⟨hs,hr⟩,(mesh_routing_minimal _ 0 15 hs hr).2.mpr (by decide)⟩

theorem ring_of_three_detours :
    (torus 3 1 (by decide) (by decide)).Sends 0 ∧ (torus 3 1 (by decide) (by decide)).Receives 2 ∧
    ((torus 3 1 (by decide) (by decide)).netSend 0 2 3).map linkHops = some 2 ∧
    (torus 3 1 (by decide) (by decide)).computeDistance 0 2 = 1 ∧
    ¬∃ hops, Returns ((torus 3 1 (by decide) (by decide)).netSend 0 2) hops ∧
      (linkHops hops : Int) = (torus 3 1 (by decide) (by decide)).computeDistance 0 2 := by
  have hs : (torus 3 1 (by decide) (by decide)).Sends 0 := ⟨by decide,by decide⟩
  have hr : (torus 3 1 (by decide) (by decide)).Receives 2 := by unfold Receives; decide
  refine ⟨hs,hr,by decide,by decide,?_⟩
  rintro ⟨hops,hruns,hdist⟩
  obtain ⟨hops',hruns',-,hcount⟩ := netSend_spec hs hr
  rw [hruns.unique hruns',hcount] at hdist
  exact absurd hdist (by decide)

end EMesh
