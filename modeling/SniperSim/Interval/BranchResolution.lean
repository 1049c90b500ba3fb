import SniperSim.Interval.Windows
import SniperSim.Library.LongestPath

open Function List Option Nat
open RobTimer (DynamicMicroOp)
namespace Windows
section
variable (w : Windows)

def slot (n : Nat) : Nat := n % w.doubleWindowSize

def entry (n : Nat) : Option WindowEntry := w.doubleWindow (w.slot n)

def headNumber : Nat := w.nextSequenceNumber - w.windowLength

def inOldWindow (n : Nat) : Prop := w.headNumber ≤ n + w.oldWindowLength ∧ n < w.headNumber

structure LaidBy (Q : Nat → IntervalUop → Prop) : Prop where
  size_pos : 0 < w.windowSize
  window : w.windowLength ≤ w.windowSize
  oldWindow : w.oldWindowLength ≤ w.windowSize
  numbered : w.windowLength + w.oldWindowLength ≤ w.nextSequenceNumber
  tail : w.windowTail = w.slot w.nextSequenceNumber
  head : w.windowHead = w.slot w.headNumber
  oldHead : w.oldWindowHead = w.slot (w.headNumber - w.oldWindowLength)
  slots : ∀ n < w.nextSequenceNumber, w.nextSequenceNumber ≤ n + w.doubleWindowSize →
    ∃ e, w.entry n = some e ∧ e.sequenceNumber = n ∧ Q n e.uop
  cleared : w.execTimeMap = fun _ => 0

def Laid : Prop := w.LaidBy fun n uop => ∀ d ∈ uop.dependencies, d < n

variable {w} {n : Nat} {Q : Nat → IntervalUop → Prop}

theorem slot_ne (hlt : m < n) (hnear : n < m + w.doubleWindowSize) : w.slot m ≠ w.slot n := by
  intro heq
  have hzero := sub_mod_eq_zero_of_mod_eq heq.symm
  rw [mod_eq_of_lt (by omega)] at hzero
  omega

theorem incrementIndex_slot (n : Nat) : w.incrementIndex (w.slot n) = w.slot (n + 1) := Nat.mod_add_mod n _ 1

theorem windowIndex_slot {k : Int} (hk : 0 ≤ n - k) : w.windowIndex (w.slot n - k) = w.slot (n - k).toNat := by
  rw [windowIndex,slot,slot,Int.natCast_mod,Int.emod_sub_emod,Int.toNat_emod hk (Int.natCast_nonneg _),
    Int.toNat_natCast]

theorem decrementIndex_slot (hpos : 0 < w.windowSize) (hn : 0 < n) : w.decrementIndex (w.slot n) = w.slot (n - 1) := by
  have hsize : 1 ≤ w.doubleWindowSize := by rw [doubleWindowSize]; omega
  rw [decrementIndex,slot,slot,Nat.add_sub_assoc hsize,Nat.mod_add_mod,
    show n + (w.doubleWindowSize - 1) = n - 1 + w.doubleWindowSize by omega,add_mod_right]

theorem laid_create {windowSize cutoff : Nat} (hpos : 0 < windowSize) : LaidBy (create windowSize cutoff) Q where
  size_pos := hpos
  window := zero_le _
  oldWindow := zero_le _
  numbered := le_refl 0
  tail := (zero_mod _).symm
  head := (zero_mod _).symm
  oldHead := (zero_mod _).symm
  slots := fun n hn => absurd hn (not_lt_zero n)
  cleared := rfl

variable (h : w.LaidBy Q)
include h

theorem LaidBy.arith : 0 < w.windowSize ∧ w.windowLength ≤ w.windowSize ∧ w.oldWindowLength ≤ w.windowSize ∧
    w.windowLength + w.oldWindowLength ≤ w.nextSequenceNumber ∧
    w.headNumber = w.nextSequenceNumber - w.windowLength ∧ w.doubleWindowSize = 2 * w.windowSize :=
  ⟨h.size_pos,h.window,h.oldWindow,h.numbered,rfl,rfl⟩

theorem LaidBy.add (hfull : w.windowLength ≠ w.windowSize) (huop : Q w.nextSequenceNumber uop) :
    (w.add uop).LaidBy Q := by
  have hhead : (w.add uop).headNumber = w.headNumber := Nat.add_sub_add_right _ 1 _
  refine ⟨h.size_pos,?_,h.oldWindow,?_,?_,?_,?_,fun n hn hnear => ?_,h.cleared⟩
  · exact lt_of_le_of_ne h.window hfull
  · have hnumbered := h.numbered
    simp only [Windows.add]
    omega
  · exact (congrArg w.incrementIndex h.tail).trans (incrementIndex_slot _)
  · exact h.head.trans (congrArg w.slot hhead.symm)
  · exact h.oldHead.trans (congrArg (fun b => w.slot (b - w.oldWindowLength)) hhead.symm)
  · rcases Nat.lt_succ_iff_lt_or_eq.mp hn with hold | rfl
    · have hne : w.slot n ≠ w.windowTail := h.tail ▸ slot_ne hold hnear
      obtain ⟨e,he,hrest⟩ := h.slots n hold (le_of_succ_le hnear)
      exact ⟨e,(update_of_ne hne _ _).trans he,hrest⟩
    · exact ⟨.init uop w.nextSequenceNumber,
        (congrArg (w.add uop).doubleWindow h.tail.symm).trans (update_self _ _ _),rfl,huop⟩

theorem LaidBy.dropOldest (hne : w.oldWindowLength ≠ 0) : w.dropOldest.LaidBy Q := by
  have harith := h.arith
  refine { h with oldWindow := (sub_le _ 1).trans h.oldWindow, numbered := ?_, oldHead := ?_ }
  · simp only [Windows.dropOldest]
    omega
  · refine (congrArg w.incrementIndex h.oldHead).trans ((incrementIndex_slot _).trans (congrArg w.slot ?_))
    simp only [Windows.dropOldest,headNumber]
    omega

theorem LaidBy.moveToOld (hne : w.windowLength ≠ 0) (hroom : w.oldWindowLength ≠ w.windowSize) :
    w.moveToOld.LaidBy Q := by
  have harith := h.arith
  have hhead : w.moveToOld.headNumber = w.headNumber + 1 := by
    simp only [Windows.moveToOld,headNumber]
    omega
  refine ⟨h.size_pos,(sub_le _ 1).trans h.window,lt_of_le_of_ne h.oldWindow hroom,?_,h.tail,?_,?_,h.slots,h.cleared⟩
  · simp only [Windows.moveToOld]
    omega
  · exact (congrArg w.incrementIndex h.head).trans ((incrementIndex_slot _).trans (congrArg w.slot hhead.symm))
  · refine h.oldHead.trans (congrArg w.slot ?_)
    rw [hhead]
    exact (Nat.add_sub_add_right _ 1 _).symm

theorem LaidBy.dispatchInstruction (hne : w.windowLength ≠ 0) : w.dispatchInstruction.LaidBy Q := by
  have hpos := h.size_pos
  rw [Windows.dispatchInstruction]
  split
  · next hfull =>
    refine (h.dropOldest (by omega)).moveToOld hne ?_
    simp only [Windows.dropOldest]
    omega
  · next hroom => exact h.moveToOld hne hroom

theorem LaidBy.clearOldWindow (newCpHead : Nat) : (w.clearOldWindow newCpHead).LaidBy Q :=
  { h with
    oldWindow := zero_le _
    numbered := (le_add_right _ _).trans h.numbered
    oldHead := h.head }

theorem LaidBy.modify (index : Nat) (hf : ∀ e, (f e).sequenceNumber = e.sequenceNumber ∧
    (Q e.sequenceNumber e.uop → Q e.sequenceNumber (f e).uop)) : (w.modify index f).LaidBy Q := by
  refine { h with slots := fun n hn hnear => ?_ }
  obtain ⟨e,he,rfl,hq⟩ := h.slots n hn hnear
  by_cases hindex : w.slot e.sequenceNumber = index
  · refine ⟨f e,?_,(hf e).1,(hf e).2 hq⟩
    subst hindex
    exact (update_self _ _ _).trans (congrArg (Option.map f) he)
  · exact ⟨e,(update_of_ne hindex _ _).trans he,rfl,hq⟩
end

variable {b : WindowEntry}
section
variable {w : Windows} {n d i c : Nat} {times : Nat → Nat} {g : WindowEntry → Nat → Nat}
section
variable {Q : Nat → IntervalUop → Prop} (h : w.LaidBy Q)
include h

theorem LaidBy.old_entry (hn : w.inOldWindow n) : ∃ e, w.entry n = some e ∧ e.sequenceNumber = n ∧ Q n e.uop := by
  have harith := h.arith
  obtain ⟨hlow,hhigh⟩ := hn
  exact h.slots n (by omega) (by omega)

theorem LaidBy.head_entry (hne : w.windowLength ≠ 0) :
    ∃ e, w.doubleWindow w.windowHead = some e ∧ e.sequenceNumber = w.headNumber ∧ Q w.headNumber e.uop := by
  have harith := h.arith
  rw [h.head]
  exact h.slots w.headNumber (by omega) (by omega)

theorem LaidBy.old_ne (hm : w.inOldWindow m) (hlt : m < n) (hn : n ≤ w.headNumber) : w.slot m ≠ w.slot n := by
  have harith := h.arith
  have hlow := hm.1
  exact slot_ne hlt (by omega)

theorem LaidBy.slot_inj (hm : w.inOldWindow m) (hn : w.inOldWindow n) (heq : w.slot m = w.slot n) : m = n := by
  rcases lt_trichotomy m n with hlt | rfl | hlt
  · exact absurd heq (h.old_ne hm hlt (le_of_lt hn.2))
  · rfl
  · exact absurd heq.symm (h.old_ne hn hlt (le_of_lt hm.2))

theorem LaidBy.oldWindowContains_iff (hne : w.windowLength ≠ 0) (hpos : 0 < w.headNumber) :
    w.oldWindowContains d ↔ w.inOldWindow d := by
  have harith := h.arith
  obtain ⟨low,hlow,hlown,-⟩ := h.slots (w.headNumber - w.oldWindowLength) (by omega) (by omega)
  obtain ⟨high,hhigh,hhighn,-⟩ := h.slots (w.headNumber - 1) (by omega) (by omega)
  rw [oldWindowContains,h.oldHead,h.head,decrementIndex_slot h.size_pos (by omega),← entry,← entry,hlow,hhigh,contains,
    decide_eq_true_iff,hlown,hhighn,inOldWindow]
  omega

theorem LaidBy.getInstruction (hne : w.windowLength ≠ 0) {e : WindowEntry} (he : w.entry n = some e)
    (hnumber : e.sequenceNumber = n) : w.getInstruction n = some (w.slot n,e) := by
  obtain ⟨head,hhead,hheadn,-⟩ := h.head_entry hne
  have hindex : w.windowIndex (w.windowHead - (w.headNumber - n)) = w.slot n := by
    rw [h.head,windowIndex_slot (by omega)]
    exact congrArg w.slot (by omega)
  rw [Windows.getInstruction,hhead,bind_some]
  dsimp only
  rw [hheadn,hindex,← entry,he,bind_some,if_pos hnumber]

theorem LaidBy.visitProducers (hne : w.windowLength ≠ 0) (value : (Nat → Nat) → Nat × WindowEntry → Nat)
    (times : Nat → Nat) (hidem : ∀ e x, g e (g e x) = g e x)
    (hvalue : ∀ times p, times i = c → value times p = g p.2 (times p.1)) (hdeps : ∀ d ∈ deps, d < w.headNumber)
    (hi : ∀ d ∈ deps, w.inOldWindow d → w.slot d ≠ i) (hc : times i = c) :
    ∃ times', w.visitProducers value deps times = some times' ∧
      (∀ j, (∀ d ∈ deps, w.inOldWindow d → w.slot d ≠ j) → times' j = times j) ∧
      ∀ d e, d ∈ deps → w.inOldWindow d → w.entry d = some e → times' (w.slot d) = g e (times (w.slot d)) := by
  induction deps generalizing times with
  | nil => exact ⟨times,rfl,fun _ _ => rfl,fun d e hd => absurd hd not_mem_nil⟩
  | cons d deps ih =>
    have hrest := forall_mem_cons.mp hdeps
    have hirest := forall_mem_cons.mp hi
    rw [Windows.visitProducers,foldlM_cons]
    by_cases hd : w.inOldWindow d
    · obtain ⟨e,he,hnumber,-⟩ := h.old_entry hd
      rw [if_pos ((h.oldWindowContains_iff hne (zero_lt_of_lt hrest.1)).mpr hd),h.getInstruction hne he hnumber,
        map_some,hvalue _ _ hc]
      obtain ⟨times',hrun,hkeep,hset⟩ := ih (update times (w.slot d) (g e (times (w.slot d))))
        hrest.2 hirest.2 ((update_of_ne (hirest.1 hd).symm _ _).trans hc)
      refine ⟨times',hrun,fun j hj => ?_,fun d' e' hmem hd' he' => ?_⟩
      · have hj' := forall_mem_cons.mp hj
        exact (hkeep j hj'.2).trans (update_of_ne (hj'.1 hd).symm _ _)
      · by_cases hmore : d' ∈ deps
        · rw [hset d' e' hmore hd' he']
          by_cases heq : d' = d
          · subst heq
            obtain rfl := some.inj (he.symm.trans he')
            rw [update_self,hidem]
          · rw [update_of_ne fun hslot => heq (h.slot_inj hd' hd hslot)]
        · obtain rfl := (mem_cons.mp hmem).resolve_right hmore
          obtain rfl := some.inj (he.symm.trans he')
          rw [hkeep _ fun d hd hold hslot => hmore (h.slot_inj hold hd' hslot ▸ hd),update_self]
    · rw [if_neg fun hin => hd ((h.oldWindowContains_iff hne (zero_lt_of_lt hrest.1)).mp hin)]
      obtain ⟨times',hrun,hkeep,hset⟩ := ih times hrest.2 hirest.2 hc
      refine ⟨times',hrun,fun j hj => hkeep j (forall_mem_cons.mp hj).2,fun d' e' hmem hd' he' => ?_⟩
      exact hset d' e' ((mem_cons.mp hmem).resolve_left fun heq => hd (heq ▸ hd')) hd' he'
end

def latency (w : Windows) (n : Nat) : Nat := ((w.entry n).map fun e => e.uop.execLatency).getD 0

def uses (w : Windows) (q p : Nat) : Prop := w.inOldWindow q ∧ ∃ e, w.entry q = some e ∧ p ∈ e.uop.dependencies

def Chain (w : Windows) (b : WindowEntry) : Nat → Nat → Prop :=
  LongestPath.Chain w.inOldWindow (· ∈ b.uop.dependencies) w.uses w.latency

def IsLongest (w : Windows) (b : WindowEntry) : Nat → Prop :=
  LongestPath.IsLongest w.inOldWindow (· ∈ b.uop.dependencies) w.uses w.latency

theorem Laid.older (h : w.Laid) (hu : w.uses q p) : p < q := by
  obtain ⟨hq,e,he,hmem⟩ := hu
  obtain ⟨e',he',-,hdeps⟩ := h.old_entry hq
  obtain rfl := some.inj (he.symm.trans he')
  exact hdeps p hmem

theorem latency_eq (he : w.entry n = some e) : w.latency n = e.uop.execLatency := by
  rw [latency,he]
  rfl

open LongestPath in
theorem Laid.resolutionLoop (h : w.Laid) (hne : w.windowLength ≠ 0) {root : Nat → Prop} {left best : Nat}
    (hleft : left ≤ w.oldWindowLength) (hclear : ∀ j, times j ≠ 0 →
      ∃ p, w.inOldWindow p ∧ p < w.headNumber - w.oldWindowLength + left ∧ w.slot p = j) :
    ∃ r, w.resolutionLoop left (w.windowIndex (w.slot (w.headNumber - w.oldWindowLength + left) - 1)) times best =
        some (r,fun _ => 0) ∧ ((∀ p, w.inOldWindow p → 0 < w.latency p) →
        (∀ p n, LongestPath.Chain w.inOldWindow root w.uses w.latency p n → n < 2 ^ 32) →
        Relaxed w.inOldWindow root w.uses w.latency (w.headNumber - w.oldWindowLength + left)
          (fun p => times (w.slot p)) best → LongestPath.IsLongest w.inOldWindow root w.uses w.latency r) := by
  have harith := h.arith
  induction left generalizing times best with
  | zero =>
    refine ⟨best,?_,fun _ _ hrel => hrel.isLongest fun p hp => ?_⟩
    · have hzero : times = fun _ => 0 := by
        funext j
        by_contra hj
        obtain ⟨p,hp,hlt,-⟩ := hclear j hj
        have := hp.1
        omega
      rw [resolutionLoop,hzero]
    · have := hp.1
      omega
  | succ left ih =>
    generalize hf : w.headNumber - w.oldWindowLength + left = f at ih
    have hin : w.inOldWindow f := ⟨by omega,by omega⟩
    rw [← add_assoc,hf] at hclear ⊢
    have hindex : w.windowIndex (w.slot (f + 1) - 1) = w.slot f := by
      rw [windowIndex_slot (by omega)]
      exact congrArg w.slot (by omega)
    rw [hindex,resolutionLoop]
    by_cases hz : times (w.slot f) = 0
    · rw [if_pos hz]
      obtain ⟨r,hrun,hlong⟩ := @ih times best (by omega) fun j hj => by
        obtain ⟨p,hp,hlt,rfl⟩ := hclear j hj
        exact ⟨p,hp,lt_of_le_of_ne (le_of_lt_succ hlt) fun heq => hj (heq ▸ hz),rfl⟩
      refine ⟨r,hrun,fun hlat hmax hrel => hlong hlat hmax ?_⟩
      have hvisit := hrel.visit (fun p => times (w.slot p)) (fun _ _ => h.older) hlat hin
        (fun _ _ _ hnz => absurd hz hnz) fun _ _ _ _ => rfl
      rwa [hz,max_zero] at hvisit
    · obtain ⟨op,hop,-,hdeps⟩ := h.old_entry hin
      have hlow : ∀ d ∈ op.uop.dependencies, w.inOldWindow d → w.slot d ≠ w.slot f := fun d hd hold =>
        h.old_ne hold (hdeps d hd) (le_of_lt hin.2)
      obtain ⟨times',hvisits,hkeep,hset⟩ := h.visitProducers hne (extend (w.slot f)) times
        (g := fun e x => max ((e.uop.execLatency + times (w.slot f)) % 2 ^ 32) x)
        (fun e x => by omega) (fun t p ht => by rw [extend,ht])
        (fun d hd => lt_trans (hdeps d hd) hin.2) hlow rfl
      have hsame : times' (w.slot f) = times (w.slot f) := hkeep _ hlow
      obtain ⟨r,hrun,hlong⟩ := @ih (update times' (w.slot f) 0) (max best (times (w.slot f))) (by omega) fun j hj => by
          have hjf : j ≠ w.slot f := fun heq => hj (heq ▸ update_self _ _ _)
          rw [update_of_ne hjf] at hj
          by_cases hdep : ∃ d ∈ op.uop.dependencies, w.inOldWindow d ∧ w.slot d = j
          · obtain ⟨d,hd,hold,hslot⟩ := hdep
            exact ⟨d,hold,hdeps d hd,hslot⟩
          · rw [hkeep j fun d hd hold hslot => hdep ⟨d,hd,hold,hslot⟩] at hj
            obtain ⟨p,hp,hlt,rfl⟩ := hclear j hj
            exact ⟨p,hp,lt_of_le_of_ne (le_of_lt_succ hlt) fun heq => hjf (heq ▸ rfl),rfl⟩
      refine ⟨r,?_,fun hlat hmax hrel => hlong hlat hmax ?_⟩
      · rwa [if_neg hz,← entry,hop,bind_some,hvisits,bind_some,hsame]
      · refine hrel.visit _ (fun _ _ => h.older) hlat hin (fun p hp hu hnz => ?_) fun p hp hlt hu => ?_
        · have hpf := hmax p _ (.cons hp hu ((hrel.sound f hin (lt_succ_self f)).resolve_left hnz))
          obtain ⟨-,e,he,hmem⟩ := hu
          obtain rfl := some.inj (hop.symm.trans he)
          obtain ⟨e,he,-⟩ := h.old_entry hp
          rw [latency_eq he] at hpf ⊢
          rw [update_of_ne (hlow p hmem hp),hset p e hmem hp he,mod_eq_of_lt hpf]
        · rw [update_of_ne (h.old_ne hp hlt (le_of_lt hin.2)),hkeep]
          exact fun d hd hold hslot => hu ⟨⟨hin,op,hop,h.slot_inj hold hp hslot ▸ hd⟩,hz⟩

theorem Laid.calculateBranchResolutionLatency (h : w.Laid) (hne : w.windowLength ≠ 0)
    (hb : w.getInstructionToDispatch = some b) :
    ∃ r : Nat, w.calculateBranchResolutionLatency = some (Int.bmod r (2 ^ 32),w) ∧
      ((∀ n, w.inOldWindow n → 0 < w.latency n) → (∀ p n, w.Chain b p n → n < 2 ^ 32) → w.IsLongest b r) := by
  have harith := h.arith
  obtain ⟨b',hb',-,hdeps⟩ := h.head_entry hne
  obtain rfl := some.inj (hb.symm.trans hb')
  obtain ⟨times,hvisits,hkeep,hset⟩ := h.visitProducers hne mark w.execTimeMap
    (g := fun e _ => e.uop.execLatency) (i := w.slot w.headNumber) (fun _ _ => rfl) (fun _ _ _ => rfl) hdeps
    (fun d hd hold => h.old_ne hold (hdeps d hd) (le_refl _)) rfl
  rw [h.cleared] at hkeep
  have hfront : w.headNumber - w.oldWindowLength + w.oldWindowLength = w.headNumber := by omega
  obtain ⟨r,hrun,hlong⟩ := @Laid.resolutionLoop w times h hne (· ∈ b.uop.dependencies) w.oldWindowLength 0
    (le_refl _) fun j hj => by
      by_contra hnone
      refine hj (hkeep j fun d hd hold hslot => hnone ⟨d,hold,?_,hslot⟩)
      rw [hfront]
      exact hold.2
  rw [hfront,← h.head] at hrun
  rw [hfront] at hlong
  refine ⟨r,?_,fun hlat hmax => hlong hlat hmax (.start (fun p hp => hp.2) (fun p hp hroot => ?_) fun p hp hroot => ?_)⟩
  · rw [Windows.calculateBranchResolutionLatency,hb,bind_some,hvisits,bind_some,hrun,map_some,← h.cleared]
  · obtain ⟨e,he,-⟩ := h.old_entry hp
    rw [hset p e hroot hp he,latency_eq he]
  · exact hkeep _ fun d hd hold hslot => hroot (h.slot_inj hold hp hslot ▸ hd)
end

inductive Reachable (windowSize cutoff : Nat) : Windows → Prop
  | create : Reachable windowSize cutoff (create windowSize cutoff)
  | add {w : Windows} (uop : IntervalUop) : Reachable windowSize cutoff w → w.windowLength ≠ w.windowSize →
      (∀ d ∈ uop.dependencies, d < w.nextSequenceNumber) → Reachable windowSize cutoff (w.add uop)
  | dispatchInstruction {w : Windows} : Reachable windowSize cutoff w → w.windowLength ≠ 0 →
      Reachable windowSize cutoff w.dispatchInstruction
  | clearOldWindow {w : Windows} (newCpHead : Nat) : Reachable windowSize cutoff w →
      Reachable windowSize cutoff (w.clearOldWindow newCpHead)
  | updateCriticalPathTail {w : Windows} (e : WindowEntry) : Reachable windowSize cutoff w →
      Reachable windowSize cutoff (w.updateCriticalPathTail e)
  | modify {w : Windows} (index : Nat) (f : WindowEntry → WindowEntry) : Reachable windowSize cutoff w →
      (∀ e, (f e).sequenceNumber = e.sequenceNumber ∧ (f e).uop.dependencies = e.uop.dependencies) →
      Reachable windowSize cutoff (w.modify index f)
  | resolve {w w' : Windows} {latency : Int} : Reachable windowSize cutoff w → w.windowLength ≠ 0 →
      w.calculateBranchResolutionLatency = some (latency,w') → Reachable windowSize cutoff w'

theorem Reachable.laid {windowSize cutoff : Nat} {w : Windows} (h : Reachable windowSize cutoff w)
    (hpos : 0 < windowSize) : w.Laid := by
  induction h with
  | create => exact laid_create hpos
  | add uop _ hfull hdeps ih => exact ih.add hfull hdeps
  | dispatchInstruction _ hne ih => exact ih.dispatchInstruction hne
  | clearOldWindow newCpHead _ ih => exact ih.clearOldWindow newCpHead
  | updateCriticalPathTail e _ ih => exact { ih with }
  | modify index f _ hf ih => exact ih.modify index fun e => ⟨(hf e).1,(hf e).2 ▸ id⟩
  | resolve _ hne hcalc ih =>
    obtain ⟨b,hb,-⟩ := ih.head_entry hne
    obtain ⟨r,hr,-⟩ := ih.calculateBranchResolutionLatency hne hb
    obtain ⟨-,rfl⟩ := Prod.mk.inj (some.inj (hr.symm.trans hcalc))
    exact ih

theorem branch_resolution_longest {windowSize cutoff : Nat} (hpos : 0 < windowSize) {w : Windows}
    (h : Reachable windowSize cutoff w) (hne : w.windowLength ≠ 0)
    (hb : w.getInstructionToDispatch = some b) (hlat : ∀ n, w.inOldWindow n → 1 ≤ w.latency n)
    (hmax : ∀ p n, w.Chain b p n → n < 2 ^ 31) :
    ∃ (r : Nat) (w' : Windows), w.calculateBranchResolutionLatency = some ((r : Int),w') ∧ w.IsLongest b r ∧
      w'.execTimeMap = fun _ => 0 := by
  have hlaid := h.laid hpos
  obtain ⟨r,hcalc,hlong⟩ := hlaid.calculateBranchResolutionLatency hne hb
  have hlongest := hlong hlat fun p n hc => lt_trans (hmax p n hc) (by decide)
  have hr : r < 2 ^ 31 := by
    rcases hlongest.1 with rfl | ⟨p,hp⟩
    · decide
    · exact hmax p r hp
  exact ⟨r,w,by rw [hcalc,Int.bmod_eq_of_le (by omega) (by omega)],hlongest,hlaid.cleared⟩

def pair (execLatency : Nat) : Windows :=
  ((create 2 30).add (plain execLatency [])).dispatchInstruction.add (plain 1 [0])

theorem reachable_pair (execLatency : Nat) : Reachable 2 30 (pair execLatency) := by
  have hfirst : Reachable 2 30 ((create 2 30).add (plain execLatency [])) :=
    .add _ .create (by decide) fun _ hd => absurd hd not_mem_nil
  refine .add _ (hfirst.dispatchInstruction one_ne_zero) (show 0 ≠ 2 by decide) fun d hd => ?_
  rw [mem_singleton.mp hd]
  exact one_pos

variable {n : Nat}

theorem old_pair (h : (pair l).inOldWindow n) : n = 0 := lt_one_iff.mp h.2

theorem chain_pair (h : (pair l).Chain b p n) : n = l := by
  cases h with
  | root hp _ => exact congrArg (pair l).latency (old_pair hp)
  | cons _ hu _ =>
    obtain ⟨hq,e,he,hmem⟩ := hu
    rw [old_pair hq] at he
    cases he
    exact absurd hmem not_mem_nil

theorem pair_resolution_longest : ∃ (r : Nat) (w' : Windows),
    (pair 5).calculateBranchResolutionLatency = some ((r : Int),w') ∧
      (pair 5).IsLongest (.init (plain 1 [0]) 1) r ∧ w'.execTimeMap = fun _ => 0 :=
  branch_resolution_longest (by decide) (reachable_pair 5) (by decide) rfl
    (fun n hn => by rw [old_pair hn]; decide) fun p n hc => by rw [chain_pair hc]; decide

theorem resolution_turns_negative : Reachable 2 30 (pair (2 ^ 31)) ∧
    (∀ n, (pair (2 ^ 31)).inOldWindow n → 1 ≤ (pair (2 ^ 31)).latency n) ∧
    (pair (2 ^ 31)).Chain (.init (plain 1 [0]) 1) 0 (2 ^ 31) ∧
    (pair (2 ^ 31)).getInstructionToDispatch = some (.init (plain 1 [0]) 1) ∧
    (pair (2 ^ 31)).calculateBranchResolutionLatency.map Prod.fst = some (-2 ^ 31) := by
  refine ⟨reachable_pair _,fun n hn => ?_,.root (by constructor <;> decide) (mem_singleton_self 0),rfl,?_⟩
  · rw [old_pair hn]
    decide
  · decide

end Windows
