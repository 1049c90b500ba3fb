import SniperSim.Predictor.LltRun
import SniperSim.Predictor.SoftwareLlc

open SoftwareLlc

structure TlbPool (ι : Type) where
  tlbs : ι → Tlb
  (pfq bypassed : List IntPtr)

inductive PoolCall (ι : Type)
  | allocate (i : ι) (address : IntPtr)
  | lookup (i : ι) (call : LookupCall)

namespace TlbPool
variable {ι : Type} [DecidableEq ι]

def record (bypassed : List IntPtr) : Option Tlb.AllocCall → List IntPtr
  | some ⟨address,_,.bypassed⟩ => bypassed ++ [address]
  | _ => bypassed

variable (settings : TlbSettings)

def step (p : TlbPool ι) : PoolCall ι → TlbPool ι
  | .allocate i address =>
    let a := (p.tlbs i).allocate settings p.pfq address
    ⟨Function.update p.tlbs i a.tlb,a.pfq,record p.bypassed (some ⟨address,(p.tlbs i).lastPc,a.outcome⟩)⟩
  | .lookup i call =>
    let s : Llt := ⟨p.tlbs i,p.pfq⟩
    ⟨Function.update p.tlbs i (s.step settings call).tlb,(s.step settings call).pfq,
      record p.bypassed (s.allocCall settings call)⟩

def run (p : TlbPool ι) (calls : List (PoolCall ι)) : TlbPool ι := calls.foldl (step settings) p

def frame (address : IntPtr) : IntPtr := address >>> Tlb.swPageBitshift

def Agrees (pfq bypassed : List IntPtr) : Prop := pfq = (bypassed.map frame).rtake settings.pfqSize

theorem frame_vpnOf (address : IntPtr) : Tlb.vpnOf address >>> Tlb.swPageBitshift = frame address := by
  have h : ∀ a : IntPtr, a >>> Tlb.swPageBitshift = a >>> 12 >>> 5 := by
    intro a
    rfl
  rw [frame,h,h,Tlb.vpnOf_shiftRight]

theorem allocate_agrees (hq : 1 ≤ settings.pfqSize) (t : Tlb)
    (pfq bypassed : List IntPtr) (address lastPc : IntPtr) (h : Agrees settings pfq bypassed) :
    Agrees settings (t.allocate settings pfq address).pfq
      (record bypassed (some ⟨address,lastPc,(t.allocate settings pfq address).outcome⟩)) := by
  rcases Tlb.allocate_cases settings t pfq address with ⟨-,-,-,he⟩ | ⟨-,-,-,he⟩ | ⟨-,he⟩
  · rw [he]
    simp only [Agrees,Tlb.bypassPage,Tlb.addRecentPfn,frame_vpnOf,record,List.map_append,List.map_cons,List.map_nil]
    rw [h]
    exact BoundedQueue.push_rtake _ hq _ _
  · rwa [he,Tlb.insertPage_eq]
  · rwa [he,Tlb.insertPage_eq]

theorem step_agrees (hq : 1 ≤ settings.pfqSize) (p : TlbPool ι)
    (call : PoolCall ι) (h : Agrees settings p.pfq p.bypassed) :
    Agrees settings (p.step settings call).pfq (p.step settings call).bypassed := by
  cases call with
  | allocate i address => exact allocate_agrees settings hq (p.tlbs i) p.pfq p.bypassed address _ h
  | lookup i call =>
    simp only [step]
    by_cases hc : (p.tlbs i).cache.contains call.address
    · obtain ⟨hs,ha⟩ := Llt.step_hit settings ⟨p.tlbs i,p.pfq⟩ call hc
      rwa [hs,ha]
    · cases hal : call.allocateOnMiss with
      | false =>
        obtain ⟨hs,ha⟩ := Llt.step_skip settings ⟨p.tlbs i,p.pfq⟩ call hc hal
        rwa [hs,ha]
      | true =>
        obtain ⟨hs,ha⟩ := Llt.step_allocate settings ⟨p.tlbs i,p.pfq⟩ call hc hal
        rw [hs,ha]
        exact allocate_agrees settings hq _ p.pfq p.bypassed call.address _ h

theorem recent_frames_agree (hq : 1 ≤ settings.pfqSize) (tlbs : ι → Tlb) (calls : List (PoolCall ι)) :
    let p := TlbPool.run settings ⟨tlbs,[],[]⟩ calls
    p.pfq.length ≤ settings.pfqSize ∧
    ∀ b : IntPtr, SoftwareLlc.recentPFNContains p.pfq (SoftwareLlc.getTagSw b) ↔
      ∃ a ∈ p.bypassed.rtake settings.pfqSize, a.toNat / 2 ^ 17 = b.toNat / 2 ^ 17 := by
  intro p
  have h : Agrees settings p.pfq p.bypassed :=
    Run.foldl_invariant (I := fun p : TlbPool ι => Agrees settings p.pfq p.bypassed) (step_agrees settings hq)
      (by simp [Agrees]) calls
  refine ⟨?_,?_⟩
  · rw [h]
    exact BoundedQueue.length_rtake_le _ _
  · intro b
    have hm : recentPFNContains p.pfq (getTagSw b) ↔ getTagSw b ∈ p.pfq := by
      simp [recentPFNContains]
    rw [hm,h]
    simp [List.rtake,← List.map_drop,frame,getTagSw,Tlb.swPageBitshift,swPageBitshift,BitVec.toNat_eq,
      Nat.shiftRight_eq_div_pow]

def twoTlbs : Bool → Tlb := fun _ => .create Tlb.lltSize 1 0

def bypassingCalls : List (PoolCall Bool) :=
  [.lookup true ⟨0,false,true⟩,.lookup true ⟨0x400000,false,true⟩,.lookup false ⟨0x1000,false,true⟩,
    .lookup true ⟨0,false,true⟩]

def eagerSettings : TlbSettings := ⟨true,0,1,2⟩

theorem recent_frames_agree_after_bypass : let p := TlbPool.run eagerSettings ⟨twoTlbs,[],[]⟩ bypassingCalls
    p.bypassed = [0] ∧ p.pfq.length ≤ eagerSettings.pfqSize ∧
    ∀ b : IntPtr, SoftwareLlc.recentPFNContains p.pfq (SoftwareLlc.getTagSw b) ↔
      ∃ a ∈ p.bypassed.rtake eagerSettings.pfqSize, a.toNat / 2 ^ 17 = b.toNat / 2 ^ 17 := by
  intro p
  have hb : p.bypassed = [0] := by decide +kernel
  exact ⟨hb,recent_frames_agree eagerSettings (by decide) twoTlbs bypassingCalls⟩

end TlbPool
