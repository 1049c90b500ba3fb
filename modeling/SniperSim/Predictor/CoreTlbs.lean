import SniperSim.Predictor.LltRun

open Tlb

structure CoreTlbs where
  (itlb dtlb stlb : Tlb)
  pfq : List IntPtr

inductive TlbAccess
  | ifetch (address : IntPtr)
  | data (address : IntPtr)
deriving DecidableEq, Repr

namespace CoreTlbs
variable (settings : TlbSettings) (m : CoreTlbs)

def accessTLB : TlbAccess → Tlb.Lookup
  | .ifetch address => Tlb.lookup settings [m.itlb,m.stlb] m.pfq address true true
  | .data address => Tlb.lookup settings [m.dtlb,m.stlb] m.pfq address false true

def step (a : TlbAccess) : CoreTlbs :=
  let r := m.accessTLB settings a
  match a with
  | .ifetch _ => ⟨r.levels.headD m.itlb,m.dtlb,r.levels.tail.headD m.stlb,r.pfq⟩
  | .data _ => ⟨m.itlb,r.levels.headD m.dtlb,r.levels.tail.headD m.stlb,r.pfq⟩

def run (accesses : List TlbAccess) : CoreTlbs := accesses.foldl (step settings) m

def stlbAllocCall (a : TlbAccess) : Option Tlb.AllocCall := (m.accessTLB settings a).allocs.tail.head?.join

def lastFetch (accesses : List TlbAccess) : Option IntPtr :=
  accesses.foldl (fun last a => match a with
    | .ifetch address => some address
    | .data _ => last) none

theorem allocate_lastPc (t : Tlb) (pfq : List IntPtr) (ad : IntPtr) :
    (t.allocate settings pfq ad).tlb.lastPc = t.lastPc := by
  rcases allocate_cases settings t pfq ad with ⟨-,-,-,he⟩ | ⟨-,-,-,he⟩ | ⟨-,he⟩
  · rw [he]
    rfl
  · rw [he,insertPage_eq]
    rfl
  · rw [he,insertPage_eq]

theorem enter_lastPc (t : Tlb) (ad : IntPtr) : (t.enter ad false).1.lastPc = t.lastPc := by
  by_cases h : t.cache.contains ad
  · rw [enter_hit t ad false h]
    rfl
  · rw [enter_miss t ad false h]
    rfl

structure SecondLevel (lastPc : IntPtr) (stlb : Tlb) (r : Tlb.Lookup) : Prop where
  kept : (r.levels.tail.headD stlb).lastPc = lastPc
  used : ∀ c, r.allocs.tail.head?.join = some c → c.lastPc = lastPc

theorem lookup_secondLevel (first stlb : Tlb) (pfq : List IntPtr) (ad : IntPtr) (isIfetch : Bool) :
    SecondLevel stlb.lastPc stlb (lookup settings [first,stlb] pfq ad isIfetch true) := by
  cases h1 : (first.enter ad isIfetch).2 with
  | true =>
    refine ⟨?_,?_⟩
    · simp [lookup,h1]
    · simp [lookup,h1]
  | false =>
    cases h2 : (stlb.enter ad false).2 with
    | true =>
      refine ⟨?_,?_⟩
      · simpa [lookup,h1,h2] using enter_lastPc stlb ad
      · simp [lookup,h1,h2]
    | false =>
      refine ⟨?_,?_⟩
      · simpa [lookup,h1,h2,allocate_lastPc] using enter_lastPc stlb ad
      · intro c hc
        simp only [lookup,h1,h2,Bool.false_eq_true,if_false,if_true,List.tail_cons,
          List.head?_cons,Option.join_some,Option.some.injEq] at hc
        rw [← hc]
        exact enter_lastPc stlb ad

theorem access_secondLevel (a : TlbAccess) : SecondLevel m.stlb.lastPc m.stlb (m.accessTLB settings a) := by
  cases a with
  | ifetch ad => exact lookup_secondLevel settings m.itlb m.stlb m.pfq ad true
  | data ad => exact lookup_secondLevel settings m.dtlb m.stlb m.pfq ad false

theorem step_stlb_lastPc (a : TlbAccess) : (m.step settings a).stlb.lastPc = m.stlb.lastPc := by
  have h := (access_secondLevel settings m a).kept
  cases a with
  | ifetch ad | data ad => exact h

theorem run_stlb_lastPc (accesses : List TlbAccess) : (m.run settings accesses).stlb.lastPc = m.stlb.lastPc :=
  Run.foldl_invariant (I := fun m' : CoreTlbs => m'.stlb.lastPc = m.stlb.lastPc)
    (fun m' a h => (step_stlb_lastPc settings m' a).trans h) rfl accesses

theorem llt_pc_is_last_fetch_iff (accesses : List TlbAccess) (a : TlbAccess) (c : Tlb.AllocCall)
    (hc : (m.run settings accesses).stlbAllocCall settings a = some c) :
    lastFetch (accesses ++ [a]) = some c.lastPc ↔ lastFetch (accesses ++ [a]) = some m.stlb.lastPc := by
  have hused := (access_secondLevel settings (m.run settings accesses) a).used c hc
  rw [hused,run_stlb_lastPc]

def freshCore : CoreTlbs := ⟨.create 64 4 0,.create 64 4 0,.create Tlb.lltSize 1 0,[]⟩

theorem llt_pc_is_last_fetch_iff_first_fetch : freshCore.stlbAllocCall Tlb.defaultSettings (.ifetch 0) =
        some ⟨0,0,.inserted none⟩ ∧
      (lastFetch [.ifetch 0] = some 0 ↔ lastFetch [.ifetch 0] = some freshCore.stlb.lastPc) :=
  ⟨by decide,llt_pc_is_last_fetch_iff defaultSettings freshCore [] (.ifetch 0) ⟨0,0,.inserted none⟩ (by decide)⟩

theorem llt_pc_is_not_last_fetch : ∃ c, freshCore.stlbAllocCall Tlb.defaultSettings (.ifetch 0x401000) = some c ∧
      lastFetch [.ifetch 0x401000] ≠ some c.lastPc :=
  ⟨⟨0x401000,0,.inserted none⟩,by decide,by decide⟩

end CoreTlbs
