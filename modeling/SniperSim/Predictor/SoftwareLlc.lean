import SniperSim.Predictor.Tlb

open Function

structure SoftwareLlc where
  llc : Nat → IntPtr
  allocBlocks : Nat → Nat
  llcHits : IntPtr → Option Nat
  bhist : IntPtr → Nat
  (llcAcc llcBypass llcMiss : Nat)

namespace SoftwareLlc

def llcSets : Nat := 2048
def llcAssociativity : Nat := 16
def maxCounterVal : Nat := 16
def defaultBhistThd : Nat := 6
def blockBits : Nat := 12
def indexSize : Nat := 32
def swPageBitshift : Nat := 17

def create : SoftwareLlc where
  llc := fun _ => 0
  allocBlocks := fun _ => 0
  llcHits := fun _ => none
  bhist := fun _ => 0
  llcAcc := 0
  llcBypass := 0
  llcMiss := 0

def cell (set way : Nat) : Nat := set * llcAssociativity + way

def capCounters (s : SoftwareLlc) (blockHash : IntPtr) : SoftwareLlc :=
  if s.bhist blockHash > maxCounterVal then
    { s with bhist := update s.bhist blockHash maxCounterVal }
  else s

def findHash (index : IntPtr) (bits : Nat) : IntPtr := XorFold.fold bits (indexSize / bits) index 0

def updateCounters (s : SoftwareLlc) (evictTag : IntPtr) : SoftwareLlc :=
  match s.llcHits evictTag with
  | none => s
  | some hits =>
    let blockHash := findHash evictTag blockBits
    if hits = 0 then
      capCounters { s with bhist := update s.bhist blockHash (s.bhist blockHash + 1) } blockHash
    else { s with bhist := update s.bhist blockHash 0 }

def recentPFNContains (pfq : List IntPtr) (tag : IntPtr) : Bool := pfq.any (· == tag)

def shouldBypassLLC (bhistThd : Nat) (pfq : List IntPtr) (s : SoftwareLlc) (tag : IntPtr) : Bool :=
  recentPFNContains pfq tag && s.bhist (findHash tag blockBits) > bhistThd

def shiftRow (set : Nat) : Nat → (Nat → IntPtr) → (Nat → IntPtr) × List (Nat × Nat)
  | 0, llc => (llc,[])
  | i + 1, llc =>
    let r := shiftRow set i (update llc (cell set (i + 1)) (llc (cell set i)))
    (r.1,(set,i + 1) :: r.2)

inductive Outcome
  | hit
  | inserted (evicted : Option IntPtr)
  | bypassed | ignored
deriving DecidableEq, Repr

structure Access where
  state : SoftwareLlc
  writes : List (Nat × Nat)
  outcome : Outcome

def updateLLCSw (pfq : List IntPtr) (s : SoftwareLlc) (latestTag : IntPtr) (pivotIndex set : Nat)
    (outcome : Outcome) : Access :=
  let r := shiftRow set pivotIndex s.llc
  let s := { s with llc := update r.1 (cell set 0) latestTag }
  let s :=
    if recentPFNContains pfq latestTag then
      { s with llcHits := update s.llcHits latestTag (some 0) }
    else s
  ⟨s,r.2 ++ [(set,0)],outcome⟩

def handleFullSetMiss (bhistThd : Nat) (pfq : List IntPtr) (s : SoftwareLlc) (tag : IntPtr) (set : Nat) : Access :=
  if s.shouldBypassLLC bhistThd pfq tag then
    ⟨{ s with llcBypass := s.llcBypass + 1 },[],.bypassed⟩
  else
    let evictTag := s.llc (cell set (llcAssociativity - 1))
    updateLLCSw pfq (s.updateCounters evictTag) tag llcAssociativity set (.inserted (some evictTag))

def insertIntoPartialSet (pfq : List IntPtr) (s : SoftwareLlc) (tag : IntPtr) (set : Nat) : Access :=
  let insertPos := s.allocBlocks set
  updateLLCSw pfq { s with allocBlocks := update s.allocBlocks set (insertPos + 1) } tag insertPos set (.inserted none)

def handleLLCMiss (bhistThd : Nat) (pfq : List IntPtr) (s : SoftwareLlc) (tag : IntPtr) (set : Nat) : Access :=
  let s := { s with llcMiss := s.llcMiss + 1 }
  if s.allocBlocks set < llcAssociativity then s.insertIntoPartialSet pfq tag set
  else if s.allocBlocks set = llcAssociativity then s.handleFullSetMiss bhistThd pfq tag set
  else ⟨s,[],.ignored⟩

def handleLLCHit (pfq : List IntPtr) (s : SoftwareLlc) (tag : IntPtr) (pivotIndex set : Nat) : Access :=
  s.updateLLCSw pfq tag pivotIndex set .hit

def findFrom (llc : Nat → IntPtr) (set : Nat) (tag : IntPtr) : Nat → Nat → Option Nat
  | 0, _ => none
  | k + 1, i => if llc (cell set i) = tag then some i else findFrom llc set tag k (i + 1)

def findTagInSet (s : SoftwareLlc) (set : Nat) (tag : IntPtr) : SoftwareLlc × Option Nat :=
  match findFrom s.llc set tag (s.allocBlocks set) 0 with
  | some i =>
    (match s.llcHits tag with
      | some hits => { s with llcHits := update s.llcHits tag (some (hits + 1)) }
      | none => s,some i)
  | none => (s,none)

def getTagSw (address : IntPtr) : IntPtr := address >>> swPageBitshift

def getSetSw (address : IntPtr) : Nat := (address >>> 6).toNat % llcSets

def accessLLCSw (bhistThd : Nat) (pfq : List IntPtr) (s : SoftwareLlc) (address : IntPtr) : Access :=
  let s := { s with llcAcc := s.llcAcc + 1 }
  let set := getSetSw address
  let tag := getTagSw address
  match s.findTagInSet set tag with
  | (s,some pivotIndex) => s.handleLLCHit pfq tag pivotIndex set
  | (s,none) => s.handleLLCMiss bhistThd pfq tag set

structure Call where
  pfq : List IntPtr
  address : IntPtr
deriving DecidableEq, Repr

def step (bhistThd : Nat) (s : SoftwareLlc) (c : Call) : SoftwareLlc := (s.accessLLCSw bhistThd c.pfq c.address).state

def run (bhistThd : Nat) (s : SoftwareLlc) (calls : List Call) : SoftwareLlc := calls.foldl (step bhistThd) s

theorem findHash_linear_and_covers_iff {bits : Nat} (hpos : 1 ≤ bits) (hle : bits ≤ 16) :
    ∀ hash ∈ [Tlb.findHash,findHash],
      (∀ x y, (hash x bits).toNat < 2 ^ bits ∧ hash (x ^^^ y) bits = hash x bits ^^^ hash y bits) ∧
      ((∀ x, ∀ i < indexSize, hash (x ^^^ 1#64 <<< i) bits ≠ hash x bits) ↔ bits ∣ indexSize) := by
  intro hash hmem
  obtain rfl : hash = findHash := by
    rcases List.mem_pair.mp hmem with rfl | rfl <;> rfl
  have hxor (x y : IntPtr) : findHash (x ^^^ y) bits = findHash x bits ^^^ findHash y bits :=
    XorFold.fold_xor (by omega) _ x y 0 0
  have hflip (x : IntPtr) {i : Nat} (hi : i < indexSize) :
      findHash (x ^^^ 1#64 <<< i) bits ≠ findHash x bits ↔ i < bits * (indexSize / bits) := by
    have hi' : i < 64 := hi.trans (by decide)
    have hself (e : IntPtr) : findHash x bits ^^^ e = findHash x bits ↔ e = 0#64 := by
      rw [← BitVec.xor_right_inj (x := e) (findHash x bits),BitVec.xor_zero]
    rw [hxor,← XorFold.fold_bit_ne_zero_iff (by omega) hi']
    exact not_congr (hself _)
  refine ⟨fun x y => ⟨XorFold.toNat_fold_lt (by omega) _ _ _ (Nat.two_pow_pos bits),hxor x y⟩,fun h => ?_,?_⟩
  · by_contra hn
    have hlt : bits * (indexSize / bits) < indexSize :=
      Nat.lt_of_le_of_ne (Nat.mul_div_le _ _) fun he => hn ⟨_,he.symm⟩
    exact Nat.lt_irrefl _ ((hflip 0 hlt).mp (h 0 _ hlt))
  · intro h x i hi
    rwa [hflip x hi,Nat.mul_div_cancel' h]

theorem vpn_hash_covers : Tlb.findHash (0 ^^^ 1#64 <<< 31) Tlb.vpnBits ≠ Tlb.findHash 0 Tlb.vpnBits :=
  (findHash_linear_and_covers_iff (by decide) (by decide) _ List.mem_cons_self).2.mpr (by decide) 0 31 (by decide)

theorem high_bits_unhashed : Tlb.findHash (0 ^^^ 1#64 <<< 30) Tlb.pcBits = Tlb.findHash 0 Tlb.pcBits ∧
    findHash (0 ^^^ 1#64 <<< 24) blockBits = findHash 0 blockBits := by
  decide

end SoftwareLlc
