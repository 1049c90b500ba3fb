import SniperSim.Core.MemoryAccess
import SniperSim.Library.ByteStream

open List Option BitVec Nat
namespace Core
open Fuel

structure Fetch where
  address : IntPtr
  size : BitVec 32
deriving DecidableEq, Repr

structure FetchState where
  icacheLastBlock : IntPtr
  lines : List IntPtr
deriving DecidableEq, Repr

def FetchState.init : FetchState := { icacheLastBlock := -1, lines := [] }

variable (B : CacheBlockSize)

def blockmask : IntPtr := ~~~(B.bytes.setWidth 64 - 1)

def line (a : IntPtr) : IntPtr := a &&& blockmask B

def Fetch.first (f : Fetch) : IntPtr := line B f.address

def Fetch.last (f : Fetch) : IntPtr := line B (f.address + f.size.setWidth 64 - 1)

def fetchAddress (icacheLastBlock : IntPtr) (f : Fetch) : Option IntPtr :=
  if f.first B = icacheLastBlock then
    if f.first B = f.last B then none else some (f.first B + B.bytes.setWidth 64)
  else some f.address

def readInstructionMemory (fuel : Nat) (B : CacheBlockSize) (s : FetchState) (f : Fetch) : Option FetchState :=
  match fetchAddress B s.icacheLastBlock f with
  | none => some s
  | some a =>
    (initiateMemoryAccess fuel B (line B a) none B.bytes).map fun calls =>
      { icacheLastBlock := line B a
        lines := (calls.map MemoryRequest.address).reverse ++ s.lines }

variable (s : FetchState)

def Reads (f : Fetch) (s' : FetchState) : Prop := Returns (fun fuel => readInstructionMemory fuel B s f) s'

def Covered (f : Fetch) : Prop :=
  ∃ s' accessed, Reads B s f s' ∧ s'.lines = accessed ++ s.lines ∧
    ∀ i < f.size.toNat, line B (f.address + BitVec.ofNat 64 i) ∈ accessed ∨
      s.lines.head? = some (line B (f.address + BitVec.ofNat 64 i))

def Fetched (f : Fetch) : Prop :=
  ∃ s', Reads B s f s' ∧ ∀ i < f.size.toNat, line B (f.address + BitVec.ofNat 64 i) ∈ s'.lines

def InRange (x : IntPtr) : Prop := x.toNat + 2 * B.bytes.toNat < 2 ^ 64

def Coverable (f : Fetch) : Prop :=
  InRange B (f.first B) ∧ InRange B (f.last B) ∧
    (f.first B = f.last B ∨ f.first B = s.icacheLastBlock ∨ f.last B = s.icacheLastBlock)

def AlongFetches (B : CacheBlockSize) (P : FetchState → Fetch → Prop) : FetchState → List Fetch → Prop
  | _, [] => True
  | s, f :: fs => P s f ∧ ∀ s', Reads B s f s' → AlongFetches B P s' fs

section
variable {B : CacheBlockSize} {x : IntPtr}

theorem CacheBlockSize.log_lt (B : CacheBlockSize) : B.log < 32 := by
  have hlt := B.bytes.isLt
  rw [B.power] at hlt
  exact (Nat.pow_lt_pow_iff_right (by decide)).mp hlt

theorem blockmask_eq (B : CacheBlockSize) : blockmask B = ~~~(Mask.low 64 B.log) := by
  have hone : B.bytes.setWidth 64 - 1 = Mask.low 64 B.log := by
    apply eq_of_toNat_eq
    have hle : (1 : IntPtr) ≤ B.bytes.setWidth 64 := by
      exact B.pos
    have hlow := Mask.low_lt (le_of_lt (lt_trans B.log_lt (by decide : 32 < 64)))
    rw [toNat_sub_of_le hle,B.toNat_setWidth,Mask.low,toNat_ofNat,mod_eq_of_lt hlow,B.power]
    rfl
  rw [blockmask,hone]

theorem toNat_line (a : IntPtr) : (line B a).toNat = B.bytes.toNat * (a.toNat / B.bytes.toNat) := by
  rw [line,blockmask_eq,Mask.toNat_and_high (le_of_lt (lt_trans B.log_lt (by decide))),B.power]

theorem dvd_word (B : CacheBlockSize) : B.bytes.toNat ∣ 2 ^ 64 := by
  rw [B.power]
  exact pow_dvd_pow 2 (le_of_lt (lt_trans B.log_lt (by decide)))

theorem dvd_line (a : IntPtr) : B.bytes.toNat ∣ (line B a).toNat := by
  rw [toNat_line]
  exact dvd_mul_right _ _

theorem line_of_dvd (h : B.bytes.toNat ∣ x.toNat) : line B x = x := by
  apply eq_of_toNat_eq
  rw [toNat_line,Nat.mul_div_cancel' h]

theorem dvd_add_block (h : B.bytes.toNat ∣ x.toNat) : B.bytes.toNat ∣ (x + B.bytes.setWidth 64).toNat := by
  exact (Nat.dvd_mod_iff (dvd_word B)).mpr (Nat.dvd_add h (Nat.dvd_refl _))

theorem line_aligned_add (h : B.bytes.toNat ∣ x.toNat) (hk : k < B.bytes.toNat) :
    line B (x + BitVec.ofNat 64 k) = x := by
  rw [B.power] at h hk
  rw [line,blockmask_eq]
  exact Mask.Aligned.high (le_of_lt (lt_trans B.log_lt (by decide))) h hk

theorem line_add_mod (a : IntPtr) : line B a + BitVec.ofNat 64 (a.toNat % B.bytes.toNat) = a := by
  have h := @Mask.high_add 64 B.log a
  rwa [Mask.toNat_and_low (le_of_lt (lt_trans B.log_lt (by decide))),← B.power,← blockmask_eq] at h

theorem line_add (a : IntPtr) (hi : i < B.bytes.toNat) : line B (a + BitVec.ofNat 64 i) =
      if a.toNat % B.bytes.toNat + i < B.bytes.toNat then line B a else line B a + B.bytes.setWidth 64 := by
  have hmod := mod_lt a.toNat B.pos
  have hsum : a + BitVec.ofNat 64 i = line B a + BitVec.ofNat 64 (a.toNat % B.bytes.toNat + i) := by
    rw [BitVec.ofNat_add,← BitVec.add_assoc,line_add_mod]
  rw [hsum]
  split_ifs with h
  · exact line_aligned_add (dvd_line a) h
  · obtain ⟨k,hk⟩ := Nat.exists_eq_add_of_le (Nat.le_of_not_lt h)
    have hblock : BitVec.ofNat 64 B.bytes.toNat = B.bytes.setWidth 64 := by
      rw [← B.toNat_setWidth,ofNat_toNat,setWidth_eq]
    rw [hk,BitVec.ofNat_add,← BitVec.add_assoc,hblock]
    exact line_aligned_add (dvd_add_block (dvd_line a)) (by omega)
end

section
variable {B : CacheBlockSize} {f : Fetch}

def Sized (B : CacheBlockSize) (f : Fetch) : Prop := 1 ≤ f.size.toNat ∧ f.size.toNat ≤ B.bytes.toNat

variable (h : Sized B f)
include h

theorem Sized.last_eq : f.last B = line B (f.address + BitVec.ofNat 64 (f.size.toNat - 1)) := by
  have hone : f.address + f.size.setWidth 64 - 1 = f.address + BitVec.ofNat 64 (f.size.toNat - 1) := by
    obtain ⟨k,hk⟩ := Nat.exists_eq_add_of_le h.1
    have hsize : f.size.setWidth 64 = BitVec.ofNat 64 k + 1 := by
      apply eq_of_toNat_eq
      rw [toNat_setWidth,hk,add_comm,← toNat_ofNat,BitVec.ofNat_add]
      rfl
    rw [hsize,← BitVec.add_assoc,BitVec.add_sub_cancel,hk,Nat.add_sub_cancel_left]
  rw [Fetch.last,hone]

theorem Sized.last_cases : f.last B = f.first B ∨ f.last B = f.first B + B.bytes.setWidth 64 := by
  rw [h.last_eq,line_add _ (by have := h.1; have := h.2; omega),Fetch.first]
  split_ifs <;> simp [*]

theorem Sized.byte_line (hi : i < f.size.toNat) : line B (f.address + BitVec.ofNat 64 i) = f.first B ∨
      line B (f.address + BitVec.ofNat 64 i) = f.last B := by
  have hs := h.2
  rw [h.last_eq,line_add _ (by omega),line_add _ (by omega),Fetch.first]
  split_ifs
  · exact .inl rfl
  · exact .inl rfl
  · omega
  · exact .inr rfl

theorem Sized.forall_bytes {P : IntPtr → Prop} : (∀ i < f.size.toNat, P (line B (f.address + BitVec.ofNat 64 i))) ↔
      P (f.first B) ∧ P (f.last B) := by
  constructor
  · intro hall
    have hfirst := hall 0 h.1
    have hlast := hall (f.size.toNat - 1) (by have := h.1; omega)
    rw [BitVec.add_zero] at hfirst
    rw [← h.last_eq] at hlast
    exact ⟨hfirst,hlast⟩
  · rintro ⟨hfirst,hlast⟩ i hi
    rcases h.byte_line hi with heq | heq <;> simp [*]
end

section
variable {B : CacheBlockSize} {x : IntPtr}

theorem eq_of_dvd_near {b m n : Nat} (hm : b ∣ m) (hn : b ∣ n) (hlt : m < n + b) (hgt : n < m + b) : m = n := by
  obtain ⟨p,rfl⟩ := hm
  obtain ⟨q,rfl⟩ := hn
  rw [← Nat.mul_succ] at hlt hgt
  have hpq := Nat.lt_of_mul_lt_mul_left hlt
  have hqp := Nat.lt_of_mul_lt_mul_left hgt
  rw [Nat.le_antisymm (Nat.le_of_lt_succ hpq) (Nat.le_of_lt_succ hqp)]

theorem access_line (hx : B.bytes.toNat ∣ x.toNat) (hr : InRange B x) :
    ∃ calls, Returns (fun fuel => initiateMemoryAccess fuel B x none B.bytes) calls ∧
      calls.map MemoryRequest.address = [x] := by
  have hpos := B.pos
  have hfit : x.toNat + 2 * B.bytes.toNat < 2 ^ 64 := hr
  obtain ⟨calls,hruns,hs⟩ := initiateMemoryAccess_spec B x none B.bytes hpos (by omega)
  refine ⟨calls,hruns,?_⟩
  have haddr : ∀ r ∈ calls, r.address = x := by
    intro r hr
    obtain ⟨hdvd,hsize⟩ := hs.inside r hr
    obtain ⟨hle,hpos,hend⟩ := hs.tiles.within (List.mem_map_of_mem hr)
    simp only [MemoryRequest.range,MemoryRequest.start] at hle hpos hend
    exact eq_of_toNat_eq (eq_of_dvd_near hdvd hx (by omega) (by omega))
  cases calls with
  | nil =>
    have heq := hs.tiles.eq_of_nil
    omega
  | cons r calls =>
    cases calls with
    | nil => rw [map_singleton,haddr r mem_cons_self]
    | cons r' calls =>
      have hlt := rel_of_pairwise_cons hs.ascending mem_cons_self
      rw [haddr r (by simp),haddr r' (by simp)] at hlt
      exact absurd hlt (lt_irrefl _)

theorem not_inRange (hx : B.bytes.toNat ∣ x.toNat) (hr : ¬InRange B x) :
    x.toNat + B.bytes.toNat = 2 ^ 64 ∨ x.toNat + 2 * B.bytes.toNat = 2 ^ 64 := by
  have hge : 2 ^ 64 ≤ x.toNat + 2 * B.bytes.toNat := not_lt.mp hr
  rcases lt_or_ge (x.toNat + B.bytes.toNat) (2 ^ 64) with hin | hout
  · refine .inr (eq_of_dvd_near (Nat.dvd_add hx (Nat.dvd_mul_left _ _)) (dvd_word B) ?_ ?_)
    · omega
    · omega
  · refine .inl (eq_of_dvd_near (Nat.dvd_add hx (Nat.dvd_refl _)) (dvd_word B) ?_ ?_)
    · omega
    · omega

theorem bytes_ne_zero (B : CacheBlockSize) : B.bytes ≠ 0 := fun h => by
  have hpos := B.pos
  rw [h] at hpos
  exact absurd hpos (by decide)

theorem access_last_line (hx : x.toNat + B.bytes.toNat = 2 ^ 64) :
    Returns (fun fuel => initiateMemoryAccess fuel B x none B.bytes) [] := by
  have hend : x + B.bytes.setWidth 64 = 0 := by
    apply eq_of_toNat_eq
    rw [toNat_add,B.toNat_setWidth,hx]
    rfl
  refine ⟨1,fun fuel hfuel => ?_⟩
  obtain ⟨fuel,rfl⟩ := Nat.exists_eq_add_of_le' hfuel
  show initiateMemoryAccess _ _ _ _ _ = _
  rw [initiateMemoryAccess,if_neg (bytes_ne_zero B),hend,accessBlocks,if_neg]
  rw [le_def,B.aligned_toNat,B.aligned_toNat]
  simp
  omega

theorem accessBlocks_endless {beginAddr endAddr : IntPtr} {dataBuf : Option IntPtr}
    (hend : endAddr.toNat + B.bytes.toNat = 2 ^ 64) (fuel : Nat) {curr head : IntPtr}
    (hcurr : B.bytes.toNat ∣ curr.toNat) : accessBlocks B beginAddr endAddr dataBuf fuel curr head = none := by
  have hdvd : B.bytes.toNat ∣ endAddr.toNat := by
    have hword := dvd_word B
    rw [← hend] at hword
    exact (Nat.dvd_add_left (Nat.dvd_refl _)).mp hword
  induction fuel generalizing curr head with
  | zero => rfl
  | succ fuel ih =>
    have hle : curr ≤ aligned B endAddr := by
      rw [le_def,B.aligned_toNat,Nat.mul_div_cancel' hdvd]
      rcases lt_or_ge endAddr.toNat curr.toNat with hlt | hge
      · have heq := eq_of_dvd_near hcurr (dvd_word B) (by have := curr.isLt; omega) (by omega)
        exact absurd curr.isLt (by omega)
      · exact hge
    rw [accessBlocks,if_pos hle,ih (dvd_add_block hcurr),ih (dvd_add_block hcurr)]
    split_ifs
    · rfl
    · rfl

theorem access_line_before_last (hx : x.toNat + 2 * B.bytes.toNat = 2 ^ 64) (fuel : Nat) :
    initiateMemoryAccess fuel B x none B.bytes = none := by
  rw [initiateMemoryAccess,if_neg (bytes_ne_zero B)]
  apply accessBlocks_endless
  · rw [toNat_add,B.toNat_setWidth,mod_eq_of_lt (by omega)]
    omega
  · rw [B.aligned_toNat]
    exact dvd_mul_right _ _
end

section
variable {B : CacheBlockSize} {s : FetchState} {f : Fetch} {x : IntPtr} {s' : FetchState}

def Remembers (B : CacheBlockSize) (s : FetchState) : Prop :=
  (InRange B s.icacheLastBlock → s.lines.head? = some s.icacheLastBlock) ∧
    (¬InRange B s.icacheLastBlock → s.lines.head? = none)

theorem Remembers.init (B : CacheBlockSize) : Remembers B .init := by
  have hpos := B.pos
  have hout : ¬InRange B FetchState.init.icacheLastBlock := by
    intro hin
    have hlt : 18446744073709551615 + 2 * B.bytes.toNat < 2 ^ 64 := hin
    omega
  exact ⟨fun h => absurd h hout,fun _ => rfl⟩

theorem Remembers.head_iff (h : Remembers B s) : s.lines.head? = some x ↔ x = s.icacheLastBlock ∧ InRange B x := by
  by_cases hin : InRange B s.icacheLastBlock
  · rw [h.1 hin]
    constructor
    · rintro heq
      cases heq
      exact ⟨rfl,hin⟩
    · rintro ⟨rfl,-⟩
      rfl
  · rw [h.2 hin]
    constructor
    · simp
    · rintro ⟨rfl,hx⟩
      exact absurd hx hin

def lookup (B : CacheBlockSize) (icacheLastBlock : IntPtr) (f : Fetch) : Option IntPtr :=
  (fetchAddress B icacheLastBlock f).map (line B)

theorem Sized.lookup_eq (h : Sized B f) (r : IntPtr) : lookup B r f =
    if f.first B = r then if f.first B = f.last B then none else some (f.last B) else some (f.first B) := by
  rw [lookup,fetchAddress]
  split_ifs with hr hs
  · rfl
  · have hlast := h.last_cases.resolve_left (Ne.symm hs)
    have hdvd : B.bytes.toNat ∣ (f.first B).toNat := dvd_line f.address
    rw [map_some,line_of_dvd (dvd_add_block hdvd),hlast]
  · rfl

theorem reads_of_lookup_none (h : lookup B s.icacheLastBlock f = none) : Reads B s f s := by
  refine ⟨0,fun fuel _ => ?_⟩
  show readInstructionMemory fuel B s f = some s
  rw [readInstructionMemory,map_eq_none_iff.mp h]

theorem readInstructionMemory_lookup (h : lookup B s.icacheLastBlock f = some x)
    (fuel : Nat) : readInstructionMemory fuel B s f = (initiateMemoryAccess fuel B x none B.bytes).map fun calls =>
        { icacheLastBlock := x, lines := (calls.map MemoryRequest.address).reverse ++ s.lines } := by
  obtain ⟨a,ha,rfl⟩ := map_eq_some_iff.mp h
  rw [readInstructionMemory,ha]

theorem reads_of_returns (h : lookup B s.icacheLastBlock f = some x)
    (hc : Returns (fun fuel => initiateMemoryAccess fuel B x none B.bytes) calls) :
    Reads B s f { icacheLastBlock := x, lines := (calls.map MemoryRequest.address).reverse ++ s.lines } := by
  obtain ⟨n,hn⟩ := hc
  refine ⟨n,fun fuel hfuel => ?_⟩
  show readInstructionMemory fuel B s f = _
  rw [readInstructionMemory_lookup h,show initiateMemoryAccess fuel B x none B.bytes = _ from hn fuel hfuel]
  rfl

theorem lookup_dvd (h : lookup B r f = some x) : B.bytes.toNat ∣ x.toNat := by
  obtain ⟨a,-,rfl⟩ := map_eq_some_iff.mp h
  exact dvd_line a

theorem reads_line (h : lookup B s.icacheLastBlock f = some x) (hx : InRange B x) :
    Reads B s f { icacheLastBlock := x, lines := [x] ++ s.lines } := by
  obtain ⟨calls,hruns,haddr⟩ := access_line (lookup_dvd h) hx
  have hreads := reads_of_returns h hruns
  rwa [haddr] at hreads

theorem reads_outside (h : lookup B s.icacheLastBlock f = some x)
    (hx : ¬InRange B x) (hr : Reads B s f s') : s'.lines = s.lines := by
  rcases not_inRange (lookup_dvd h) hx with htop | hnext
  · rw [Returns.unique hr (reads_of_returns h (access_last_line htop))]
    rfl
  · obtain ⟨n,hn⟩ := hr
    have hnone : readInstructionMemory n B s f = some s' := hn n (le_refl n)
    rw [readInstructionMemory_lookup h,access_line_before_last hnext] at hnone
    simp at hnone

theorem Sized.covered_of_reads (h : Sized B f) {accessed : List IntPtr}
    (hr : Reads B s f s') (hl : s'.lines = accessed ++ s.lines) :
    Covered B s f ↔ (f.first B ∈ accessed ∨ s.lines.head? = some (f.first B)) ∧
      (f.last B ∈ accessed ∨ s.lines.head? = some (f.last B)) := by
  rw [← h.forall_bytes (P := fun x => x ∈ accessed ∨ s.lines.head? = some x)]
  constructor
  · rintro ⟨t,acc,ht,hacc,hall⟩
    rw [Returns.unique ht hr,hl] at hacc
    rwa [append_cancel_right hacc]
  · intro hall
    exact ⟨s',accessed,hr,hl,hall⟩

theorem Sized.not_covered_outside (h : Sized B f) (hm : Remembers B s)
    (hlook : lookup B s.icacheLastBlock f = some x) (hx : ¬InRange B x) : ¬Covered B s f := by
  rintro ⟨s',accessed,hr,hl,hall⟩
  have hnil : accessed = [] := by
    rw [reads_outside hlook hx hr] at hl
    exact append_left_eq_self.mp hl.symm
  subst hnil
  have hbytes := (h.forall_bytes (P := fun x => x ∈ [] ∨ s.lines.head? = some x)).mp hall
  simp only [not_mem_nil,false_or,hm.head_iff] at hbytes
  obtain ⟨⟨hfirst,-⟩,hlast,-⟩ := hbytes
  rw [h.lookup_eq,if_pos hfirst,if_pos (hfirst.trans hlast.symm)] at hlook
  cases hlook

theorem Sized.covered_line (h : Sized B f) (hm : Remembers B s)
    (hlook : lookup B s.icacheLastBlock f = some x) (hx : InRange B x) :
    Covered B s f ↔ (f.first B = x ∨ f.first B = s.icacheLastBlock ∧ InRange B (f.first B)) ∧
      (f.last B = x ∨ f.last B = s.icacheLastBlock ∧ InRange B (f.last B)) := by
  rw [h.covered_of_reads (reads_line hlook hx) rfl,hm.head_iff,hm.head_iff,mem_singleton,mem_singleton]

theorem covered_iff (hm : Remembers B s) (h : Sized B f) : Covered B s f ↔ Coverable B s f := by
  have hlook := h.lookup_eq s.icacheLastBlock
  by_cases hfirst : f.first B = s.icacheLastBlock
  · by_cases hone : f.first B = f.last B
    · rw [if_pos hfirst,if_pos hone] at hlook
      rw [h.covered_of_reads (reads_of_lookup_none hlook) (nil_append _).symm,hm.head_iff,hm.head_iff,Coverable,← hone]
      simp [hfirst]
    · rw [if_pos hfirst,if_neg hone] at hlook
      by_cases hx : InRange B (f.last B)
      · rw [h.covered_line hm hlook hx,Coverable]
        constructor
        · rintro ⟨hcase,-⟩
          exact ⟨(hcase.resolve_left hone).2,hx,.inr (.inl hfirst)⟩
        · rintro ⟨hin,-,-⟩
          exact ⟨.inr ⟨hfirst,hin⟩,.inl rfl⟩
      · exact ⟨fun hc => absurd hc (h.not_covered_outside hm hlook hx),fun hc => absurd hc.2.1 hx⟩
  · rw [if_neg hfirst] at hlook
    by_cases hx : InRange B (f.first B)
    · rw [h.covered_line hm hlook hx,Coverable]
      constructor
      · rintro ⟨-,heq | ⟨hr,hin⟩⟩
        · exact ⟨hx,heq ▸ hx,.inl heq.symm⟩
        · exact ⟨hx,hin,.inr (.inr hr)⟩
      · rintro ⟨-,hin,heq | hr | hr⟩
        · exact ⟨.inl rfl,.inl heq.symm⟩
        · exact absurd hr hfirst
        · exact ⟨.inl rfl,.inr ⟨hr,hin⟩⟩
    · exact ⟨fun hc => absurd hc (h.not_covered_outside hm hlook hx),fun hc => absurd hc.1 hx⟩

theorem Sized.lookup_mem (h : Sized B f) (hlook : lookup B r f = some x) : x = f.first B ∨ x = f.last B := by
  rw [h.lookup_eq] at hlook
  split_ifs at hlook
  · exact .inr (some.inj hlook).symm
  · exact .inl (some.inj hlook).symm

theorem Coverable.remembers (hc : Coverable B s f) (hm : Remembers B s) (h : Sized B f)
    (hr : Reads B s f s') : Remembers B s' := by
  cases hlook : lookup B s.icacheLastBlock f with
  | none => rwa [Returns.unique hr (reads_of_lookup_none hlook)]
  | some x =>
    have hx : InRange B x := by
      rcases h.lookup_mem hlook with rfl | rfl
      · exact hc.1
      · exact hc.2.1
    rw [Returns.unique hr (reads_line hlook hx)]
    exact ⟨fun _ => rfl,fun hout => absurd hx hout⟩

theorem Covered.fetched (h : Covered B s f) : Fetched B s f := by
  obtain ⟨s',accessed,hr,hl,hall⟩ := h
  refine ⟨s',hr,fun i hi => ?_⟩
  rw [hl,mem_append]
  exact (hall i hi).imp_right mem_of_head?

theorem alongFetches_covered_iff (hm : Remembers B s) (hs : ∀ f ∈ fs, Sized B f) :
    AlongFetches B (Covered B) s fs ↔ AlongFetches B (Coverable B) s fs := by
  induction fs generalizing s with
  | nil => exact Iff.rfl
  | cons f fs ih =>
    simp only [mem_cons,forall_eq_or_imp] at hs
    rw [AlongFetches,AlongFetches,covered_iff hm hs.1]
    refine and_congr_right fun hc => forall_congr' fun s' => imp_congr_right fun hr => ?_
    exact ih (hc.remembers hm hs.1 hr) hs.2

theorem AlongFetches.imp (hpq : ∀ s f, P s f → Q s f) (h : AlongFetches B P s fs) : AlongFetches B Q s fs := by
  induction fs generalizing s with
  | nil => trivial
  | cons f fs ih => exact ⟨hpq s f h.1,fun s' hr => ih (h.2 s' hr)⟩
end

theorem instruction_fetch_coverage (fs : List Fetch) (hs : ∀ f ∈ fs, Sized B f) :
    (AlongFetches B (Covered B) .init fs ↔ AlongFetches B (Coverable B) .init fs) ∧
    (AlongFetches B (Coverable B) .init fs → AlongFetches B (Fetched B) .init fs) := by
  have hiff := alongFetches_covered_iff (Remembers.init B) hs
  exact ⟨hiff,fun h => (hiff.mpr h).imp fun _ _ hc => hc.fetched⟩

theorem fetch_into_next_line_covered : (∀ f ∈ [(⟨0x1004,4⟩ : Fetch),⟨0x103e,4⟩], Sized lineOf64 f) ∧
    AlongFetches lineOf64 (Covered lineOf64) .init [⟨0x1004,4⟩,⟨0x103e,4⟩] := by
  have hs : ∀ f ∈ [(⟨0x1004,4⟩ : Fetch),⟨0x103e,4⟩], Sized lineOf64 f := by
    simp only [mem_cons,not_mem_nil,or_false,forall_eq_or_imp,forall_eq,Sized]
    decide
  refine ⟨hs,(instruction_fetch_coverage lineOf64 _ hs).1.mpr ?_⟩
  have hread : Reads lineOf64 .init ⟨0x1004,4⟩ ⟨0x1000,[0x1000]⟩ :=
    @reads_line lineOf64 .init ⟨0x1004,4⟩ 0x1000 (by decide) (by unfold InRange; decide)
  refine ⟨by unfold Coverable InRange; decide,fun s' hr => ?_⟩
  rw [Returns.unique hr hread]
  exact ⟨by unfold Coverable InRange; decide,fun _ _ => trivial⟩

theorem straddling_jump_skips_line : Sized lineOf64 ⟨0x103e,4⟩ ∧ ¬Covered lineOf64 .init ⟨0x103e,4⟩ ∧
    ¬Fetched lineOf64 .init ⟨0x103e,4⟩ := by
  have hread : Reads lineOf64 .init ⟨0x103e,4⟩ ⟨0x1000,[0x1000]⟩ :=
    @reads_line lineOf64 .init ⟨0x103e,4⟩ 0x1000 (by decide) (by unfold InRange; decide)
  have hmiss : ¬Fetched lineOf64 .init ⟨0x103e,4⟩ := by
    rintro ⟨s',hr,hall⟩
    rw [Returns.unique hr hread] at hall
    exact absurd (hall 2 (by decide)) (by decide)
  exact ⟨by unfold Sized; decide,fun hc => hmiss hc.fetched,hmiss⟩

end Core
