import SniperSim.Cache.Cache
import SniperSim.Library.BoundedQueue
import SniperSim.Library.XorFold

open Function

structure TlbSettings where
  dppred : Bool
  (phistThd pfqSize shadowTableSize : Nat)
deriving DecidableEq, Repr

structure Tlb where
  size : Nat
  cache : Cache
  (access miss alloc bypass : Nat)
  phist : IntPtr → IntPtr → Nat
  lltHits : IntPtr → Nat
  pcHist : IntPtr → IntPtr
  shadowTable : List IntPtr
  lastPc : IntPtr

namespace Tlb

def defaultSettings : TlbSettings := ⟨true,6,8,2⟩

def lltSize : Nat := 1024
def pcBits : Nat := 6
def vpnBits : Nat := 4
def indexSize : Nat := 32
def hwPageBitmask : IntPtr := 0xfffffffffffff000
def swPageBitshift : Nat := 17
def logPageSize : Nat := 12

def create (numEntries associativity : Nat) (lastPc : IntPtr) : Tlb where
  size := numEntries
  cache := .create (numEntries / associativity) associativity logPageSize
  access := 0
  miss := 0
  alloc := 0
  bypass := 0
  phist := fun _ _ => 0
  lltHits := fun _ => 0
  pcHist := fun _ => 0
  shadowTable := []
  lastPc := lastPc

def findHash (index : IntPtr) (bits : Nat) : IntPtr := XorFold.fold bits (indexSize / bits) index 0

variable (settings : TlbSettings)

def addRecentPfn (pfq : List IntPtr) (address : IntPtr) : List IntPtr :=
  BoundedQueue.push settings.pfqSize pfq (address >>> swPageBitshift)

def vpnOf (address : IntPtr) : IntPtr := address &&& hwPageBitmask

variable (t : Tlb)

def inLlt : Bool := t.size == lltSize

def shadowTableSearch (vpn : IntPtr) : Bool := t.shadowTable.any (· == vpn)

def shadowTableInsert (vpn : IntPtr) : Tlb :=
  let table :=
    if t.shadowTable.length = settings.shadowTableSize then t.shadowTable.tail
    else t.shadowTable
  { t with shadowTable := table ++ [vpn] }

def setPhist (vpnHash pcHash : IntPtr) (n : Nat) : Tlb :=
  { t with phist := update t.phist vpnHash (update (t.phist vpnHash) pcHash n) }

def flushingVpnColumn (vpnHash : IntPtr) : Tlb :=
  (List.range (2 ^ pcBits)).foldl (fun t pcHash => t.setPhist vpnHash (BitVec.ofNat 64 pcHash) 0) t

def updatingPhist (evictAddr : IntPtr) : Tlb :=
  let evictVpn := vpnOf evictAddr
  let vpnHash := findHash evictVpn vpnBits
  let pcHash := findHash (t.pcHist evictVpn) pcBits
  if t.lltHits evictVpn = 0 then t.setPhist vpnHash pcHash (t.phist vpnHash pcHash + 1)
  else t.setPhist vpnHash pcHash 0

inductive AllocOutcome
  | bypassed
  | inserted (evicted : Option IntPtr)
deriving DecidableEq, Repr

structure Allocation where
  tlb : Tlb
  pfq : List IntPtr
  outcome : AllocOutcome

def consult (address : IntPtr) : Tlb :=
  let vpn := vpnOf address
  let t := { t with pcHist := update t.pcHist vpn t.lastPc }
  if t.shadowTableSearch vpn then t.flushingVpnColumn (findHash vpn vpnBits) else t

def satThd (address : IntPtr) : Bool :=
  t.phist (findHash (vpnOf address) vpnBits) (findHash t.lastPc pcBits) > settings.phistThd

def insertPage (pfq : List IntPtr) (address : IntPtr) : Allocation :=
  let r := t.cache.insertSingleLine address
  let t := { t with alloc := t.alloc + 1, cache := r.1 }
  match r.2 with
  | some evictAddr => ⟨if settings.dppred && t.inLlt then t.updatingPhist evictAddr else t,pfq,.inserted r.2⟩
  | none => ⟨t,pfq,.inserted none⟩

def bypassPage (pfq : List IntPtr) (address : IntPtr) : Allocation :=
  ⟨({ t with bypass := t.bypass + 1 }).shadowTableInsert settings (vpnOf address),
    addRecentPfn settings pfq (vpnOf address),.bypassed⟩

def allocate (pfq : List IntPtr) (address : IntPtr) : Allocation :=
  if settings.dppred && t.inLlt then
    let t := t.consult address
    if t.satThd settings address then t.bypassPage settings pfq address
    else
      insertPage settings { t with lltHits := update t.lltHits (vpnOf address) 0 } pfq address
  else t.insertPage settings pfq address

structure AllocCall where
  (address lastPc : IntPtr)
  outcome : AllocOutcome
deriving DecidableEq, Repr

structure Lookup where
  levels : List Tlb
  pfq : List IntPtr
  hit : Bool
  allocs : List (Option AllocCall)

def enter (address : IntPtr) (isIfetch : Bool) : Tlb × Bool :=
  let r := t.cache.accessSingleLine address
  let lastPc := if isIfetch then address else t.lastPc
  let t := { t with cache := r.1, access := t.access + 1, lastPc := lastPc }
  if r.2 then
    (if t.inLlt then
      { t with lltHits := update t.lltHits (vpnOf address) (t.lltHits (vpnOf address) + 1) }
    else t,true)
  else ({ t with miss := t.miss + 1 },false)

def lookup (settings : TlbSettings) : List Tlb → List IntPtr → IntPtr → Bool → Bool → Lookup
  | [], pfq, _, _, _ => ⟨[],pfq,false,[]⟩
  | t :: nextLevel, pfq, address, isIfetch, allocateOnMiss =>
    let r := t.enter address isIfetch
    if r.2 then ⟨r.1 :: nextLevel,pfq,true,none :: nextLevel.map fun _ => none⟩
    else
      let next := lookup settings nextLevel pfq address false true
      if allocateOnMiss then
        let a := r.1.allocate settings next.pfq address
        ⟨a.tlb :: next.levels,a.pfq,next.hit,some ⟨address,r.1.lastPc,a.outcome⟩ :: next.allocs⟩
      else ⟨r.1 :: next.levels,next.pfq,next.hit,none :: next.allocs⟩

end Tlb
