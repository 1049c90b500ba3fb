import SniperSim.Library.Run
import SniperSim.Predictor.TlbSpec

structure LookupCall where
  address : IntPtr
  (isIfetch allocateOnMiss : Bool)
deriving DecidableEq, Repr

structure Llt where
  tlb : Tlb
  pfq : List IntPtr

namespace Llt

def create (associativity : Nat) (lastPc : IntPtr) (pfq : List IntPtr) : Llt :=
  ⟨.create Tlb.lltSize associativity lastPc,pfq⟩

variable (settings : TlbSettings) (s : Llt)

def lookup (c : LookupCall) : Tlb.Lookup := Tlb.lookup settings [s.tlb] s.pfq c.address c.isIfetch c.allocateOnMiss

def step (c : LookupCall) : Llt := ⟨(s.lookup settings c).levels.headD s.tlb,(s.lookup settings c).pfq⟩

def run (calls : List LookupCall) : Llt := calls.foldl (step settings) s

def allocCall (c : LookupCall) : Option Tlb.AllocCall := (s.lookup settings c).allocs.head?.join

def missed (t : Tlb) (c : LookupCall) : Tlb := (t.enter c.address c.isIfetch).1

theorem step_hit (c : LookupCall) (h : s.tlb.cache.contains c.address) :
    s.step settings c = ⟨(s.tlb.enter c.address c.isIfetch).1,s.pfq⟩ ∧ s.allocCall settings c = none := by
  simp [step,allocCall,lookup,Tlb.lookup,Tlb.enter_hit _ _ _ h]

theorem step_skip (c : LookupCall) (h : ¬ s.tlb.cache.contains c.address) (ha : c.allocateOnMiss = false) :
    s.step settings c = ⟨missed s.tlb c,s.pfq⟩ ∧ s.allocCall settings c = none := by
  simp [step,allocCall,lookup,Tlb.lookup,missed,Tlb.enter_miss _ _ _ h,ha]

theorem step_allocate (c : LookupCall) (h : ¬ s.tlb.cache.contains c.address) (ha : c.allocateOnMiss) :
    s.step settings c = ⟨((missed s.tlb c).allocate settings s.pfq c.address).tlb,
          ((missed s.tlb c).allocate settings s.pfq c.address).pfq⟩ ∧ s.allocCall settings c =
        some ⟨c.address,(missed s.tlb c).lastPc,((missed s.tlb c).allocate settings s.pfq c.address).outcome⟩ := by
  simp [step,allocCall,lookup,Tlb.lookup,missed,Tlb.enter_miss _ _ _ h,ha]

end Llt
