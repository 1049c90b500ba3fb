import SniperSim.Cache.CacheSetLRU
import SniperSim.Library.Tiling
import SniperSim.Library.Fuel

open List Option BitVec Nat
namespace Core
open Tiling Fuel

structure CacheBlockSize where
  bytes : BitVec 32
  log : Nat
  power : bytes.toNat = 2 ^ log

inductive MemOp
  | read | readEx | write
deriving DecidableEq, Repr

structure MemoryRequest where
  address : IntPtr
  offset : BitVec 32
  dataBuf : Option IntPtr
  size : BitVec 32
deriving DecidableEq, Repr

variable (B : CacheBlockSize)

def aligned (a : IntPtr) : IntPtr := a - a % B.bytes.setWidth 64

def currOffset (beginAddr curr : IntPtr) : BitVec 32 :=
  if curr = aligned B beginAddr then (beginAddr % B.bytes.setWidth 64).setWidth 32 else 0

def currSize (beginAddr endAddr curr : IntPtr) : BitVec 32 :=
  if curr = aligned B endAddr then
    (endAddr % B.bytes.setWidth 64 - (currOffset B beginAddr curr).setWidth 64).setWidth 32
  else B.bytes - currOffset B beginAddr curr

def currRequest (beginAddr endAddr : IntPtr) (dataBuf : Option IntPtr) (curr head : IntPtr) : MemoryRequest :=
  { address := curr
    offset := currOffset B beginAddr curr
    dataBuf := dataBuf.map fun _ => head
    size := currSize B beginAddr endAddr curr }

def accessBlocks (B : CacheBlockSize) (beginAddr endAddr : IntPtr) (dataBuf : Option IntPtr) :
    Nat → IntPtr → IntPtr → Option (List MemoryRequest)
  | 0, _, _ => none
  | fuel + 1, curr, head =>
    if curr ≤ aligned B endAddr then
      if curr = aligned B endAddr ∧ currSize B beginAddr endAddr curr = 0 then
        accessBlocks B beginAddr endAddr dataBuf fuel (curr + B.bytes.setWidth 64) head
      else
        (accessBlocks B beginAddr endAddr dataBuf fuel (curr + B.bytes.setWidth 64)
          (head + (currSize B beginAddr endAddr curr).setWidth 64)).map
            (currRequest B beginAddr endAddr dataBuf curr head :: ·)
    else some []

def initiateMemoryAccess (fuel : Nat) (B : CacheBlockSize) (address : IntPtr)
    (dataBuf : Option IntPtr) (dataSize : BitVec 32) : Option (List MemoryRequest) :=
  if dataSize = 0 then some []
  else accessBlocks B address (address + dataSize.setWidth 64) dataBuf fuel (aligned B address) (dataBuf.getD 0)

namespace CacheBlockSize
variable (B : CacheBlockSize)

theorem pos : 0 < B.bytes.toNat := by
  rw [B.power]
  exact Nat.two_pow_pos _

theorem toNat_setWidth : (B.bytes.setWidth 64).toNat = B.bytes.toNat := by
  rw [BitVec.toNat_setWidth,Nat.mod_eq_of_lt (by have := B.bytes.isLt; omega)]

theorem toNat_mod (a : IntPtr) : (a % B.bytes.setWidth 64).toNat = a.toNat % B.bytes.toNat := by
  rw [toNat_umod,toNat_setWidth]

theorem toNat_aligned (a : IntPtr) : (aligned B a).toNat = a.toNat - a.toNat % B.bytes.toNat := by
  have hle : a % B.bytes.setWidth 64 ≤ a := by
    exact mod_le _ _
  rw [aligned,toNat_sub_of_le hle,toNat_mod]

theorem aligned_eq_iff (curr a : IntPtr) : curr = aligned B a ↔ curr.toNat = a.toNat - a.toNat % B.bytes.toNat := by
  rw [← toNat_inj,toNat_aligned]

theorem aligned_toNat (a : IntPtr) : (aligned B a).toNat = B.bytes.toNat * (a.toNat / B.bytes.toNat) := by
  have hsplit := div_add_mod a.toNat B.bytes.toNat
  rw [toNat_aligned]
  omega

end CacheBlockSize

def MemoryRequest.start (r : MemoryRequest) : Nat := r.address.toNat + r.offset.toNat

def MemoryRequest.range (r : MemoryRequest) : Nat × Nat := (r.start,r.size.toNat)

structure Visited (B : CacheBlockSize) (beginAddr endAddr curr : IntPtr) : Prop where
  dvd : B.bytes.toNat ∣ curr.toNat
  first : beginAddr.toNat < curr.toNat + B.bytes.toNat
  last : curr.toNat ≤ endAddr.toNat
  order : beginAddr.toNat ≤ endAddr.toNat

namespace Visited
variable {B : CacheBlockSize} {ba ea curr : IntPtr} (h : Visited B ba ea curr)
include h

theorem eq_aligned_iff : curr = aligned B ba ↔ curr.toNat ≤ ba.toNat := by
  rw [B.aligned_eq_iff]
  obtain ⟨q,hq⟩ := h.dvd
  have hf := h.first
  constructor
  · omega
  · intro hle
    have hdiv : ba.toNat / B.bytes.toNat = q :=
      Nat.div_eq_of_lt_le (by rw [Nat.mul_comm]; omega) (by rw [Nat.succ_mul,Nat.mul_comm]; omega)
    have hsplit := div_add_mod ba.toNat B.bytes.toNat
    rw [hdiv] at hsplit
    omega

theorem start : curr.toNat + (currOffset B ba curr).toNat = max ba.toNat curr.toNat := by
  rw [currOffset]
  split_ifs with hc
  · have hle := h.eq_aligned_iff.mp hc
    rw [B.aligned_eq_iff] at hc
    have hlt := Nat.lt_trans (Nat.mod_lt ba.toNat B.pos) B.bytes.isLt
    rw [BitVec.toNat_setWidth,B.toNat_mod,Nat.mod_eq_of_lt hlt,Nat.max_eq_left hle]
    have := mod_le ba.toNat B.bytes.toNat
    omega
  · have hle := mt h.eq_aligned_iff.mpr hc
    simp only [ofNat_eq_ofNat,toNat_ofNat,zero_mod]
    omega

theorem last_iff : curr = aligned B ea ↔ ea.toNat < curr.toNat + B.bytes.toNat := by
  have hv : ea.toNat < curr.toNat + B.bytes.toNat → Visited B ea ea curr := fun hlt => ⟨h.dvd,hlt,h.last,Nat.le_refl _⟩
  constructor
  · intro hc
    rw [B.aligned_eq_iff] at hc
    have := Nat.mod_lt ea.toNat B.pos
    omega
  · intro hlt
    exact (hv hlt).eq_aligned_iff.mpr h.last

theorem stop : max ba.toNat curr.toNat + (currSize B ba ea curr).toNat = min (curr.toNat + B.bytes.toNat) ea.toNat := by
  have hstart := h.start
  have hf := h.first
  have ho := h.order
  rw [currSize]
  split_ifs with hc
  · have hlt := h.last_iff.mp hc
    rw [B.aligned_eq_iff] at hc
    have hm := mod_le ea.toNat B.bytes.toNat
    have hoff : (currOffset B ba curr).toNat ≤ ea.toNat % B.bytes.toNat := by omega
    have hle : (currOffset B ba curr).setWidth 64 ≤ ea % B.bytes.setWidth 64 := by
      exact hoff
    rw [BitVec.toNat_setWidth,toNat_sub_of_le hle,B.toNat_mod,BitVec.toNat_setWidth,
      Nat.mod_eq_of_lt (by omega : (currOffset B ba curr).toNat < 2 ^ 64),Nat.mod_eq_of_lt (by omega)]
    omega
  · have hge := mt h.last_iff.mpr hc
    have hle : currOffset B ba curr ≤ B.bytes := by
      rw [le_def]
      omega
    rw [toNat_sub_of_le hle]
    omega

theorem size_ne_zero (hskip : ¬(curr = aligned B ea ∧ currSize B ba ea curr = 0)) : currSize B ba ea curr ≠ 0 := by
  intro hzero
  have hstop := h.stop
  have hf := h.first
  have hpos := B.pos
  have hz : (currSize B ba ea curr).toNat = 0 := by rw [hzero]; rfl
  exact hskip ⟨h.last_iff.mpr (by omega),hzero⟩

theorem head_advance {base head : IntPtr} (hhead : head = base + BitVec.ofNat 64 (max ba.toNat curr.toNat - ba.toNat)) :
    head + (currSize B ba ea curr).setWidth 64 = base +
      BitVec.ofNat 64 (min (curr.toNat + B.bytes.toNat) ea.toNat - ba.toNat) := by
  have hwidth : (currSize B ba ea curr).setWidth 64 = BitVec.ofNat 64 (currSize B ba ea curr).toNat := by
    apply eq_of_toNat_eq
    rw [BitVec.toNat_setWidth,toNat_ofNat]
  rw [hhead,hwidth,BitVec.add_assoc,← BitVec.ofNat_add,← h.stop]
  congr 2
  omega

end Visited

structure Splits (B : CacheBlockSize) (beginAddr : IntPtr) (dataBuf : Option IntPtr)
    (pos endAddr : Nat) (calls : List MemoryRequest) : Prop where
  tiles : Tiles pos endAddr (calls.map MemoryRequest.range)
  inside : ∀ r ∈ calls, B.bytes.toNat ∣ r.address.toNat ∧ r.offset.toNat + r.size.toNat ≤ B.bytes.toNat
  ascending : calls.Pairwise fun r r' => r.address.toNat < r'.address.toNat
  buffer : ∀ r ∈ calls, r.dataBuf = dataBuf.map (· + BitVec.ofNat 64 (r.start - beginAddr.toNat))

theorem Splits.nil (ba : IntPtr) (db : Option IntPtr) (pos : Nat) : Splits B ba db pos pos [] :=
  ⟨.nil pos,by simp,.nil,by simp⟩

section
variable {B : CacheBlockSize} {ba ea : IntPtr}

theorem Splits.cons {curr head : IntPtr} {calls : List MemoryRequest} {next : Nat}
    (hv : Visited B ba ea curr) (hsize : currSize B ba ea curr ≠ 0)
    (hnext : next = min (curr.toNat + B.bytes.toNat) ea.toNat)
    (hhead : head = db.getD 0 + BitVec.ofNat 64 (max ba.toNat curr.toNat - ba.toNat))
    (hrest : Splits B ba db next ea.toNat calls) (habove : ∀ r ∈ calls, curr.toNat < r.address.toNat) :
    Splits B ba db (max ba.toNat curr.toNat) ea.toNat (currRequest B ba ea db curr head :: calls) := by
  have hstart := hv.start
  have hstop := hv.stop
  have hpos : 0 < (currSize B ba ea curr).toNat := Nat.pos_of_ne_zero fun h => hsize (eq_of_toNat_eq h)
  refine ⟨?_,?_,?_,?_⟩
  · rw [map_cons]
    have hrange : (currRequest B ba ea db curr head).range =
        (max ba.toNat curr.toNat,(currSize B ba ea curr).toNat) := by
      simp only [MemoryRequest.range,MemoryRequest.start,currRequest,hstart]
    rw [hrange]
    exact .cons hpos (by rw [hstop,← hnext]; exact hrest.tiles)
  · simp only [mem_cons,forall_eq_or_imp]
    exact ⟨⟨hv.dvd,by simp only [currRequest]; omega⟩,hrest.inside⟩
  · exact .cons habove hrest.ascending
  · simp only [mem_cons,forall_eq_or_imp]
    refine ⟨?_,hrest.buffer⟩
    cases db <;> simp [*,currRequest,MemoryRequest.start]

theorem accessBlocks_spec (horder : ba.toNat ≤ ea.toNat)
    (hfit : ea.toNat + B.bytes.toNat < 2 ^ 64) (n : Nat) {curr head : IntPtr}
    (hn : curr.toNat + n * B.bytes.toNat = (aligned B ea).toNat + B.bytes.toNat)
    (hdvd : B.bytes.toNat ∣ curr.toNat) (hfirst : ba.toNat < curr.toNat + B.bytes.toNat)
    (hhead : head = db.getD 0 + BitVec.ofNat 64 (min (max ba.toNat curr.toNat) ea.toNat - ba.toNat)) :
    ∃ calls, (∀ fuel, n < fuel → accessBlocks B ba ea db fuel curr head = some calls) ∧
      Splits B ba db (min (max ba.toNat curr.toNat) ea.toNat)
        ea.toNat calls ∧ ∀ r ∈ calls, curr.toNat ≤ r.address.toNat := by
  have hend := B.toNat_aligned ea
  have hmod := Nat.mod_lt ea.toNat B.pos
  induction n generalizing curr head with
  | zero =>
    have hpast : ¬curr ≤ aligned B ea := by
      rw [le_def]
      omega
    have hpos : min (max ba.toNat curr.toNat) ea.toNat = ea.toNat := by omega
    refine ⟨[],fun fuel hfuel => ?_,by rw [hpos]; exact .nil ..,by simp⟩
    obtain ⟨fuel,rfl⟩ := Nat.exists_eq_add_of_lt hfuel
    rw [zero_add,accessBlocks,if_neg hpast]
  | succ n ih =>
    have hsucc : curr.toNat + B.bytes.toNat + n * B.bytes.toNat = (aligned B ea).toNat + B.bytes.toNat := by
      rw [Nat.succ_mul] at hn
      omega
    have hin : curr.toNat ≤ (aligned B ea).toNat := by
      omega
    have hlast : curr.toNat ≤ ea.toNat := by omega
    have hv : Visited B ba ea curr := ⟨hdvd,hfirst,hlast,horder⟩
    have hstop := hv.stop
    have hnext : (curr + B.bytes.setWidth 64).toNat = curr.toNat + B.bytes.toNat := by
      rw [BitVec.toNat_add,B.toNat_setWidth,Nat.mod_eq_of_lt (by omega)]
    have hnow : min (max ba.toNat curr.toNat) ea.toNat = max ba.toNat curr.toNat := by omega
    have hthen : min (max ba.toNat (curr + B.bytes.setWidth 64).toNat) ea.toNat =
        min (curr.toNat + B.bytes.toNat) ea.toNat := by
      omega
    rw [hnow] at hhead ⊢
    have hrest : ∀ rest : IntPtr, rest = db.getD 0 + BitVec.ofNat 64
        (min (curr.toNat + B.bytes.toNat) ea.toNat - ba.toNat) → _ := fun rest hr =>
      @ih (curr + B.bytes.setWidth 64) rest (by rw [hnext]; exact hsucc)
        (by rw [hnext]; exact Nat.dvd_add hdvd (Nat.dvd_refl _)) (by rw [hnext]; omega)
        (by rw [hthen]; exact hr)
    by_cases hskip : curr = aligned B ea ∧ currSize B ba ea curr = 0
    · have hzero : (currSize B ba ea curr).toNat = 0 := by rw [hskip.2]; rfl
      obtain ⟨calls,hruns,hsplits,habove⟩ := hrest head (by rw [hhead,← hstop,hzero,add_zero])
      rw [hthen,← hstop,hzero,add_zero] at hsplits
      refine ⟨calls,fun fuel hfuel => ?_,hsplits,fun r hr => ?_⟩
      · obtain ⟨fuel,rfl⟩ : ∃ k, fuel = k + 1 := ⟨fuel - 1,by omega⟩
        rw [accessBlocks,if_pos (le_def.mpr hin),if_pos hskip]
        exact hruns fuel (by omega)
      · have := habove r hr
        omega
    · obtain ⟨calls,hruns,hsplits,habove⟩ := hrest _ (hv.head_advance hhead)
      refine ⟨currRequest B ba ea db curr head :: calls,fun fuel hfuel => ?_,
        .cons hv (hv.size_ne_zero hskip) hthen hhead hsplits ?_,?_⟩
      · obtain ⟨fuel,rfl⟩ : ∃ k, fuel = k + 1 := ⟨fuel - 1,by omega⟩
        rw [accessBlocks,if_pos (le_def.mpr hin),if_neg hskip,hruns fuel (by omega)]
        rfl
      · intro r hr
        have := habove r hr
        omega
      · simp only [mem_cons,forall_eq_or_imp]
        refine ⟨Nat.le_refl _,fun r hr => ?_⟩
        have := habove r hr
        omega
end

theorem initiateMemoryAccess_spec (ad : IntPtr) (db : Option IntPtr) (ds : BitVec 32) (hpos : 1 ≤ ds.toNat)
    (hfit : ad.toNat + ds.toNat < 2 ^ 64 - B.bytes.toNat) :
    ∃ calls, Returns (fun fuel => initiateMemoryAccess fuel B ad db ds) calls ∧
      Splits B ad db ad.toNat (ad.toNat + ds.toNat) calls := by
  have hsize : ds ≠ 0 := by
    rintro rfl
    simp at hpos
  have hend : (ad + ds.setWidth 64).toNat = ad.toNat + ds.toNat := by
    rw [BitVec.toNat_add,BitVec.toNat_setWidth,
      Nat.mod_eq_of_lt (by omega : ds.toNat < 2 ^ 64),Nat.mod_eq_of_lt (by omega)]
  have hbegin := B.toNat_aligned ad
  have hmod := Nat.mod_lt ad.toNat B.pos
  obtain ⟨d,hd⟩ := Nat.exists_eq_add_of_le (@Nat.div_le_div_right _ _ B.bytes.toNat (le_add_right ad.toNat ds.toNat))
  obtain ⟨calls,hruns,hsplits,-⟩ := @accessBlocks_spec B ad (ad + ds.setWidth 64)
    db (by omega) (by omega) (d + 1) (aligned B ad) (db.getD 0)
    (by rw [B.aligned_toNat,B.aligned_toNat,hend,hd,Nat.mul_add,Nat.succ_mul,Nat.mul_comm d]; omega)
    (by rw [B.aligned_toNat]; exact Nat.dvd_mul_right _ _) (by omega)
    (by
      have hzero : min (max ad.toNat (aligned B ad).toNat)
          (ad + ds.setWidth 64).toNat - ad.toNat = 0 := by omega
      rw [hzero]
      exact (BitVec.add_zero _).symm)
  have hstart : min (max ad.toNat (aligned B ad).toNat) (ad + ds.setWidth 64).toNat = ad.toNat := by omega
  rw [hstart,hend] at hsplits
  refine ⟨calls,⟨d + 2,fun fuel hfuel => ?_⟩,hsplits⟩
  show initiateMemoryAccess fuel B ad db ds = some calls
  rw [initiateMemoryAccess,if_neg hsize]
  exact hruns fuel (by omega)

structure Machine where
  (host memory : IntPtr → BitVec 8)

def coreInitiateMemoryAccess (op : MemOp) (m : Machine) (r : MemoryRequest) : Machine :=
  match r.dataBuf with
  | none => m
  | some buf =>
    if op = .write then
      { m with memory := copy m.host buf (r.address + r.offset.setWidth 64) r.size.toNat m.memory }
    else
      { m with host := copy m.memory (r.address + r.offset.setWidth 64) buf r.size.toNat m.host }

def access (op : MemOp) (m : Machine) (calls : List MemoryRequest) : Machine :=
  calls.foldl (coreInitiateMemoryAccess op) m

theorem MemoryRequest.address_add_offset (r : MemoryRequest) :
    r.address + r.offset.setWidth 64 = 0#64 + BitVec.ofNat 64 r.start := by
  apply eq_of_toNat_eq
  rw [MemoryRequest.start,BitVec.ofNat_add,BitVec.zero_add,BitVec.toNat_add,BitVec.toNat_add,
    BitVec.toNat_setWidth,toNat_ofNat,toNat_ofNat,Nat.mod_eq_of_lt r.address.isLt]

section
variable {B : CacheBlockSize} {buf : IntPtr} {pos : Nat} {calls : List MemoryRequest} {op : MemOp}

theorem buffer_add (h : ad.toNat ≤ n) : buf + BitVec.ofNat 64 (n - ad.toNat) = buf - ad + BitVec.ofNat 64 n := by
  obtain ⟨d,rfl⟩ := Nat.exists_eq_add_of_le h
  rw [Nat.add_sub_cancel_left,BitVec.ofNat_add,ofNat_toNat,setWidth_eq,← BitVec.add_assoc,BitVec.sub_add_cancel]

theorem Splits.dataBuf_eq (hs : Splits B ad (some buf) pos e calls) (ha : ad.toNat ≤ pos) (hr : r ∈ calls) :
    r.dataBuf = some (buf - ad + BitVec.ofNat 64 r.start) := by
  have hle : pos ≤ r.start := (hs.tiles.within (List.mem_map_of_mem hr)).1
  rw [hs.buffer r hr,map_some,buffer_add (Nat.le_trans ha hle)]

def writeRanges (m : Machine) (shift : IntPtr) (ranges : List (Nat × Nat)) : Machine :=
  { m with
    memory := ranges.foldl (fun t r =>
      copy m.host (shift + BitVec.ofNat 64 r.1) (0#64 + BitVec.ofNat 64 r.1) r.2 t) m.memory }

def readRanges (m : Machine) (shift : IntPtr) (ranges : List (Nat × Nat)) : Machine :=
  { m with
    host := ranges.foldl (fun t r =>
      copy m.memory (0#64 + BitVec.ofNat 64 r.1) (shift + BitVec.ofNat 64 r.1) r.2 t) m.host }

theorem access_ranges {f : Machine → List (Nat × Nat) → Machine} (m : Machine)
    (hnil : ∀ m, f m [] = m) (hcons : ∀ m r rs, f m (r :: rs) = f (f m [r]) rs)
    (hstep : ∀ m, ∀ r ∈ calls, coreInitiateMemoryAccess op m r = f m [r.range]) :
    access op m calls = f m (calls.map MemoryRequest.range) := by
  induction calls generalizing m with
  | nil => exact (hnil m).symm
  | cons r calls ih =>
    rw [access,foldl_cons,hstep m r mem_cons_self,map_cons,hcons m r.range (calls.map _)]
    exact ih _ fun m r hr => hstep m r (mem_cons_of_mem _ hr)

theorem access_write {shift : IntPtr} (m : Machine)
    (hbuf : ∀ r ∈ calls, r.dataBuf = some (shift + BitVec.ofNat 64 r.start)) :
    access .write m calls = writeRanges m shift (calls.map MemoryRequest.range) := by
  refine access_ranges (f := fun m => writeRanges m shift) m (fun _ => rfl) (fun _ _ _ => rfl) fun m r hr => ?_
  simp only [coreInitiateMemoryAccess,hbuf r hr,if_true,r.address_add_offset]
  rfl

theorem access_read (hop : op ≠ .write) {shift : IntPtr} (m : Machine)
    (hbuf : ∀ r ∈ calls, r.dataBuf = some (shift + BitVec.ofNat 64 r.start)) :
    access op m calls = readRanges m shift (calls.map MemoryRequest.range) := by
  refine access_ranges (f := fun m => readRanges m shift) m (fun _ => rfl) (fun _ _ _ => rfl) fun m r hr => ?_
  simp only [coreInitiateMemoryAccess,hbuf r hr,if_neg hop,r.address_add_offset]
  rfl

theorem Splits.memory_write (hs : Splits B ad (some buf) ad.toNat e calls) (he : e ≤ 2 ^ 64) (m : Machine)
    (hi : i < e - ad.toNat) :
    (access .write m calls).memory (BitVec.ofNat 64 (ad.toNat + i)) = m.host (buf + BitVec.ofNat 64 i) := by
  rw [access_write m fun r hr => hs.dataBuf_eq (Nat.le_refl _) hr,writeRanges,
    hs.tiles.foldl_copy he,← buffer_add (Nat.le_refl _),Nat.sub_self]
  have hat := copy_at hi (by omega) m.host buf (BitVec.ofNat 64 ad.toNat) m.memory
  rw [← BitVec.ofNat_add] at hat
  rw [BitVec.zero_add]
  exact (BitVec.add_zero buf).symm ▸ hat

theorem Splits.host_read (hs : Splits B ad (some buf) ad.toNat e calls) (he : e ≤ 2 ^ 64) (hop : op ≠ .write)
    (m : Machine) (hi : i < e - ad.toNat) :
    (access op m calls).host (buf + BitVec.ofNat 64 i) = m.memory (BitVec.ofNat 64 (ad.toNat + i)) := by
  rw [access_read hop m fun r hr => hs.dataBuf_eq (Nat.le_refl _) hr,readRanges,
    hs.tiles.foldl_copy he,← buffer_add (Nat.le_refl _),Nat.sub_self]
  have hat := copy_at hi (by omega) m.memory (BitVec.ofNat 64 ad.toNat) buf m.host
  rw [← BitVec.ofNat_add] at hat
  rw [BitVec.zero_add]
  exact (BitVec.add_zero buf).symm ▸ hat
end

theorem memory_access_splitting (address : IntPtr) (dataSize : BitVec 32)
    (hpos : 1 ≤ dataSize.toNat) (hfit : address.toNat + dataSize.toNat < 2 ^ 64 - B.bytes.toNat) :
    (∀ dataBuf, ∃ calls, Returns (fun fuel => initiateMemoryAccess fuel B address dataBuf dataSize) calls ∧
      Splits B address dataBuf address.toNat (address.toNat + dataSize.toNat) calls) ∧
    ∀ (buf address' buf' : IntPtr) (dataSize' : BitVec 32) (op : MemOp), op ≠ .write →
      1 ≤ dataSize'.toNat → address'.toNat + dataSize'.toNat < 2 ^ 64 - B.bytes.toNat → ∃ calls calls',
        Returns (fun fuel => initiateMemoryAccess fuel B address (some buf) dataSize) calls ∧
        Returns (fun fuel => initiateMemoryAccess fuel B address' (some buf') dataSize') calls' ∧
        ∀ (m : Machine) (i j : Nat), i < dataSize.toNat → j < dataSize'.toNat → address.toNat + i = address'.toNat + j →
          (access op (access .write m calls) calls').host (buf' + BitVec.ofNat 64 j) =
            m.host (buf + BitVec.ofNat 64 i) := by
  refine ⟨fun dataBuf => initiateMemoryAccess_spec B address dataBuf dataSize hpos hfit,?_⟩
  intro buf address' buf' dataSize' op hop hpos' hfit'
  obtain ⟨calls,hruns,hsplits⟩ := initiateMemoryAccess_spec B address (some buf) dataSize hpos hfit
  obtain ⟨calls',hruns',hsplits'⟩ := initiateMemoryAccess_spec B address' (some buf') dataSize' hpos' hfit'
  refine ⟨calls,calls',hruns,hruns',fun m i j hi hj hij => ?_⟩
  rw [hsplits'.host_read (by omega) hop _ (by omega),← hij,hsplits.memory_write (by omega) m (by omega)]

def lineOf64 : CacheBlockSize := ⟨64,6,rfl⟩

theorem straddling_access_splits :
    (1 ≤ (8#32).toNat ∧ (0x103c#64).toNat + (8#32).toNat < 2 ^ 64 - lineOf64.bytes.toNat) ∧
    ∃ calls, Returns (fun fuel => initiateMemoryAccess fuel lineOf64 0x103c (some 0x5000) 8) calls ∧
      Splits lineOf64 0x103c (some 0x5000) (0x103c#64).toNat ((0x103c#64).toNat + (8#32).toNat) calls :=
  ⟨by decide,(memory_access_splitting lineOf64 0x103c 8 (by decide) (by decide)).1 (some 0x5000)⟩

example : initiateMemoryAccess 4 lineOf64 0x103c (some 0x5000) 8 =
    some [⟨0x1000,60,some 0x5000,4⟩,⟨0x1040,0,some 0x5004,4⟩] := by decide

end Core
