import SniperSim.Sift.Lockstep
import SniperSim.Sift.RoundTrip

open List Nat
namespace Sift
open Reader

inductive TraceCall
  | instruction (c : InstructionCall)
  | cacheOnly (icount type : Byte) (eip address : Address)
  | syscall (number : BitVec 16) (data : List Byte) (fits : 2 + data.length < 4294967296)

def TraceCall.instruction? : TraceCall → Option InstructionCall
  | .instruction c => some c
  | _ => none

namespace Writer
variable (cfg : WriterConfig) (lookup : Address → Address) (readable : Address → Bool)

def cacheOnly (w : Writer) (icount type : Byte) (eip address : Address) : Writer × List Byte :=
  let (w,mappings) := w.sendVa2pas cfg lookup [eip,address]
  (w,mappings ++ (encodeOther .cacheOnly 18 ++ (icount :: type :: (encodeAddress eip ++ encodeAddress address))))

def syscall (w : Writer) (r : Request) : Except WriteFault (Writer × List Byte) :=
  if r.reads readable then .ok (w.send cfg lookup r) else .error .unreadable

def call (w : Writer) : TraceCall → Except WriteFault (Writer × List Byte)
  | .instruction c => w.instruction cfg c
  | .cacheOnly icount type eip address => .ok (w.cacheOnly cfg lookup icount type eip address)
  | .syscall number data fits => w.syscall cfg lookup readable (.syscall number data (by omega))

def calls : Writer → List TraceCall → Except WriteFault (List Byte)
  | _, [] => .ok (encodeOther .otherEnd 0)
  | w, c :: cs => do
    let (w,bytes) ← w.call cfg lookup readable c
    let rest ← calls w cs
    return bytes ++ rest

def file (cs : List TraceCall) : Except WriteFault (List Byte) := do
  let bytes ← create.calls cfg lookup readable cs
  return encodeHeader ⟨false,cfg.arch32,cfg.requiresIcachePerInsn,cfg.sendVa2paMapping⟩ ++ bytes

end Writer

def Reader.translate (r : Reader) (inst : Instruction) : Option (List Address) :=
  (r.observe inst).map fun o => (o.addr :: o.addresses).map r.va2pa

def Reader.translated (fresh : Address → Nat → Byte) : Nat → Reader → Instruction → List (Option (List Address))
  | 0, _, _ => []
  | k + 1, r, inst =>
    match r.read fresh inst with
    | .ok (true,inst,r) => r.translate inst :: translated fresh k r inst
    | _ => []

def physical (lookup : Address → Address) (a : Address) : Address :=
  lookup (a / pageSizeSift) * pageSizeSift + a % pageSizeSift

section
variable {cfg : WriterConfig} {lookup : Address → Address} {readable : Address → Bool} (fresh : Address → Nat → Byte)
  {w w' : Writer} {r r' : Reader} {a : Address} {c : InstructionCall} {inst : Instruction}

theorem va2pa_known (hk : Known lookup w r.vcache) (hpa : r.traceHasPa) (hw : w.va2pa (a / pageSizeSift)) :
    r.va2pa a = physical lookup a := by
  simp only [va2pa,hpa,if_true,hk _ hw,physical]
  generalize lookup (a / pageSizeSift) = pp
  have hlow : (a &&& (pageSizeSift - 1)).toNat = a.toNat % 2 ^ 12 := Mask.toNat_and_low (k := 12) (by decide) a
  have hhigh : (pp * pageSizeSift).toNat = 2 ^ 12 * (pp.toNat % 2 ^ 52) := by
    change pp.toNat * 4096 % 2 ^ 64 = _
    omega
  have hmod : (a % pageSizeSift).toNat = a.toNat % 2 ^ 12 := BitVec.toNat_umod
  apply BitVec.eq_of_toNat_eq
  rw [BitVec.toNat_or,BitVec.toNat_add,hlow,hhigh,hmod,← two_pow_add_eq_or_of_lt (mod_lt _ (by decide))]
  omega

structure Tracked (lookup : Address → Address) (w : Writer) (r : Reader) : Prop where
  last : r.lastAddress = w.lastAddress
  running : r.seenEnd = false
  opened : r.opened
  hasPa : r.traceHasPa
  known : Known lookup w r.vcache
  statics : Statics (fun _ _ _ => True) r.sinsts r.scache

theorem Mapped.tracked {vcache : Address → Option Address} (hm : Mapped cfg fresh lookup w w' r bytes vas vcache)
    (h : Tracked lookup w r) : Tracked lookup w' { r with vcache := vcache } :=
  ⟨h.last.trans hm.last.symm,h.running,h.opened,h.hasPa,hm.known h.known,h.statics⟩

theorem sendIcachePages_passes (hr : r.seenEnd = false) (h : w.sendIcachePages cfg last fuel base = .ok q) :
    ∃ icache', Passes fresh q.2 r { r with icache := icache' } ∧ q.1 = { w with icache := q.1.icache } := by
  induction fuel generalizing w r base q with
  | zero => cases h
  | succ fuel ih =>
    rw [Writer.sendIcachePages] at h
    split_ifs at h
    · cases hrest : (w.sendIcache cfg base).1.sendIcachePages cfg last fuel (base + BitVec.ofNat 64 icacheSize) with
      | error e => simp [hrest] at h
      | ok q' =>
        simp only [hrest] at h
        cases h
        unfold Writer.sendIcache at hrest ⊢
        split_ifs at hrest ⊢
        · exact ih hr hrest
        · obtain ⟨icache',hp,hq⟩ := ih (r := { r with
            icache := Function.update r.icache base (some fun o => (codeBytes cfg.getCode base icacheSize).getD o 0) })
            hr hrest
          exact ⟨icache',(passes_icache fresh cfg.getCode base hr).trans hp,hq⟩
    · cases h
      exact ⟨_,.refl,rfl⟩

theorem sendCode_passes (hr : r.seenEnd = false) (h : w.sendCode cfg a len = .ok q) :
    ∃ icache', Passes fresh q.2 r { r with icache := icache' } ∧ q.1 = { w with icache := q.1.icache } := by
  unfold Writer.sendCode at h
  split_ifs at h
  · cases h
    unfold Writer.sendIcacheVariable
    split_ifs
    · exact ⟨_,.refl,rfl⟩
    · obtain ⟨icache',hp,-⟩ := passes_icacheVariable fresh hr cfg.getCode a (byte_fits len)
      exact ⟨icache',hp,rfl⟩
  · exact sendIcachePages_passes fresh hr h

theorem skip_feed {bytes : List Byte} (h : bytes.length = n) : (r.feed (bytes ++ rest)).skip n = .ok (r.feed rest) := by
  rw [skip,take_feed h]
  rfl

theorem cacheOnly_passes (h : Tracked lookup w r) (icount type : Byte) (eip address : Address) :
    ∃ r', Passes fresh (w.cacheOnly cfg lookup icount type eip address).2 r r' ∧
      Tracked lookup (w.cacheOnly cfg lookup icount type eip address).1 r' := by
  obtain ⟨vcache',hm⟩ := sendVa2pas_mapped fresh h.running cfg w lookup [eip,address]
  refine ⟨{ r with vcache := vcache' },?_,hm.tracked fresh h⟩
  refine hm.passes.trans (passes_other (by decide) h.running h.running fun rest => ?_)
  rw [handleOther,checkSize,if_pos rfl]
  exact skip_feed (by simp)

theorem sendArgumentMapping_passes (h : Tracked lookup w r) (q : Request) :
    ∃ r', Passes fresh (w.sendArgumentMapping cfg lookup q).2 r r' ∧
      Tracked lookup (w.sendArgumentMapping cfg lookup q).1 r' := by
  cases q with
  | syscall number data fits =>
    rw [Writer.sendArgumentMapping]
    cases argumentOffset number with
    | some k =>
      obtain ⟨vcache',hm⟩ := sendVa2pa_mapped fresh h.running cfg w lookup (argument data k)
      exact ⟨_,hm.passes,hm.tracked fresh h⟩
    | none => exact ⟨r,.refl,h⟩
  | _ => exact ⟨r,.refl,h⟩

theorem syscall_record (hr : r.seenEnd = false) (inst : Instruction) (number : BitVec 16) (data : List Byte)
    (fits : data.length < 4294967296) (hfits : 2 + data.length < 4294967296) :
    Passes fresh (Request.syscall number data fits).record r r ∨
    ∃ e, ∀ rest fuel, readLoop fresh (1 + fuel)
      (r.feed ((Request.syscall number data fits).record ++ rest)) inst = .error e := by
  have hlen : (Request.syscall number data fits).data.length = 2 + data.length := by
    simp [Request.data]
  cases data with
  | nil =>
    refine .inr ⟨.recordSize,fun rest fuel => ?_⟩
    rw [add_comm,readLoop,Request.record,append_assoc,readOther_feed (by rw [hlen]; exact hfits)]
    simp [feed,hr,encodeOther,hlen,Request.kind,RequestKind.recordType,handleOther,checkSize,bind,Except.bind]
  | cons b bs =>
    refine .inl (passes_other (by rw [hlen]; exact hfits) hr hr fun rest => ?_)
    rw [Request.kind,RequestKind.recordType,handleOther,checkSize,if_pos (by rw [hlen]; simp)]
    exact skip_feed rfl

theorem record_translated (h : Tracked lookup w r) (hc : c.Sized)
    (hsent : ∀ va ∈ c.addr :: c.addresses, w.va2pa (va / pageSizeSift)) (inst : Instruction) :
    (∃ e, ∀ rest fuel, readLoop fresh (1 + fuel) (r.feed ((w.sendRecord c).2 ++ rest)) inst = .error e) ∨
    ∃ inst' r', (∀ rest fuel, readLoop fresh (1 + fuel) (r.feed ((w.sendRecord c).2 ++ rest)) inst =
        .ok (true,inst',r'.feed rest)) ∧ Tracked lookup (w.sendRecord c).1 r' ∧
      r'.translate inst' = some ((c.addr :: c.addresses).map (physical lookup)) := by
  obtain ⟨inst₁,hd,hmap,hread⟩ := sendRecord_read fresh h.last h.running hc inst
  rw [sendRecord_writer]
  cases hget : getStaticInstruction { r with lastAddress := c.addr + c.size.setWidth 64 } c.addr c.size with
  | error e =>
    refine .inl ⟨e,fun rest fuel => (hread rest fuel).trans ?_⟩
    rw [hget]
    rfl
  | ok q =>
    obtain ⟨sinsts,scache,hr,hst,s,hs,ha⟩ := h.statics.get
      (r := { r with lastAddress := c.addr + c.size.setWidth 64 }) (fun _ _ => trivial) hget
    refine .inr ⟨{ inst₁ with sinst := q.1 },q.2,fun rest fuel => (hread rest fuel).trans ?_,?_,?_⟩
    · rw [hget]
      rfl
    · rw [hr]
      exact ⟨rfl,h.running,h.opened,h.hasPa,h.known,hst⟩
    · rw [hr,Reader.translate,observe]
      simp only [hs,Option.map_some,ha,hd.numAddresses,hmap]
      exact congrArg some (map_congr_left fun a hmem => va2pa_known h.known h.hasPa (hsent a hmem))

theorem instruction_sent (h : Tracked lookup w r) (hl : c.va2paLookup = lookup) (hc : c.Sized)
    (hw : w.instruction cfg c = .ok (w',bytes)) : ∃ pre w₁ r₁, Passes fresh pre r r₁ ∧ Tracked lookup w₁ r₁ ∧
      bytes = pre ++ (w₁.sendRecord c).2 ∧ w' = (w₁.sendRecord c).1 ∧
      (cfg.sendVa2paMapping → (∀ vp, lookup vp ≠ 0) →
        ∀ va ∈ c.addr :: c.addresses, w₁.va2pa (va / pageSizeSift)) := by
  rw [instruction_eq hc,hl] at hw
  obtain ⟨q,hcode,hq⟩ := Outcome.map_ok hw
  cases hq
  obtain ⟨icache',hp,hq⟩ := sendCode_passes fresh h.running hcode
  have hcoded : Tracked lookup q.1 { r with icache := icache' } := by
    rw [hq]
    exact { h with }
  obtain ⟨vcache',hm⟩ := sendVa2pas_mapped fresh hcoded.running cfg q.1 lookup (c.addr :: c.addresses)
  exact ⟨_,_,_,hp.trans hm.passes,hm.tracked fresh hcoded,(append_assoc _ _ _).symm,rfl,hm.sent⟩

def Translatable (lookup : Address → Address) (calls : List TraceCall) : Prop :=
  ∀ c, .instruction c ∈ calls → c.va2paLookup = lookup ∧ 1 ≤ c.size.toNat

theorem sized_of_written (hc : 1 ≤ c.size.toNat) (hw : w.instruction cfg c = .ok q) : c.Sized := by
  rw [Writer.instruction] at hw
  split_ifs at hw with hsize hnum
  exact ⟨hc,by omega,by omega⟩

variable {calls : List TraceCall}

def expected (lookup : Address → Address) (calls : List TraceCall) : List (Option (List Address)) :=
  (calls.filterMap TraceCall.instruction?).map fun c => some ((c.addr :: c.addresses).map (physical lookup))

theorem translated_failed (h : r.read fresh inst = .error e) (k : Nat) : translated fresh k r inst <+: l := by
  cases k with
  | zero => exact nil_prefix
  | succ k =>
    rw [translated,h]
    exact nil_prefix

theorem calls_cons {c : TraceCall} (h : w.calls cfg lookup readable (c :: calls) = .ok bytes) : ∃ w' chunk rest,
    w.call cfg lookup readable c = .ok (w',chunk) ∧ w'.calls cfg lookup readable calls = .ok rest ∧
      bytes = chunk ++ rest := by
  obtain ⟨q,hcall,h⟩ := Outcome.bind_ok h
  obtain ⟨rest,hrest,h⟩ := Outcome.bind_ok h
  cases h
  exact ⟨q.1,q.2,rest,hcall,hrest,rfl⟩

-- pre is what the reader has passed since its last instruction
theorem translated_prefix (hen : cfg.sendVa2paMapping) (hne : ∀ vp, lookup vp ≠ 0)
    (hcalls : Translatable lookup calls) (h : Tracked lookup w r) (hp : Passes fresh pre r₀ r) (ho : r₀.opened)
    (hb : w.calls cfg lookup readable calls = .ok bytes) (inst : Instruction) (k : Nat) :
    translated fresh k (r₀.feed (pre ++ bytes)) inst <+: expected lookup calls := by
  induction calls generalizing w r r₀ pre bytes inst k with
  | nil =>
    cases hb
    cases k with
    | zero => exact nil_prefix
    | succ k =>
      rw [translated,hp.read fresh ho (readLoop_end fresh h.running inst)]
      exact nil_prefix
  | cons c calls ih =>
    have hothers : Translatable lookup calls := fun c hc => hcalls c (mem_cons_of_mem _ hc)
    obtain ⟨w',chunk,rest,hcall,hrest,rfl⟩ := calls_cons hb
    cases c with
    | cacheOnly icount type eip address =>
      cases hcall
      obtain ⟨r',hpass,ht⟩ := cacheOnly_passes fresh h icount type eip address
      rw [← append_assoc]
      exact ih hothers ht (hp.trans hpass) ho hrest inst k
    | syscall number data fits =>
      rw [Writer.call,Writer.syscall] at hcall
      split_ifs at hcall
      cases hcall
      obtain ⟨r',hpass,ht⟩ := sendArgumentMapping_passes fresh h (.syscall number data (by omega))
      rw [append_assoc,← append_assoc pre]
      rcases syscall_record fresh ht.running inst number data (by omega) fits with hrec | hfail
      · rw [← append_assoc]
        exact ih hothers ht ((hp.trans hpass).trans hrec) ho hrest inst k
      · obtain ⟨e,hfail⟩ := hfail
        exact translated_failed fresh ((hp.trans hpass).read fresh ho (hfail rest)) k
    | instruction c =>
      obtain ⟨hl,hsize⟩ := hcalls c mem_cons_self
      have hsized := sized_of_written hsize hcall
      obtain ⟨code,w₁,r₁,hpass,ht,rfl,rfl,hsent⟩ := instruction_sent fresh h hl hsized hcall
      rw [append_assoc,← append_assoc pre]
      rcases record_translated fresh ht hsized (hsent hen hne) inst with ⟨e,hfail⟩ | ⟨inst',r',hread,ht',htr⟩
      · exact translated_failed fresh ((hp.trans hpass).read fresh ho (hfail rest)) k
      · cases k with
        | zero => exact nil_prefix
        | succ k =>
          rw [translated,(hp.trans hpass).read fresh ho (hread rest)]
          refine cons_prefix_cons.mpr ⟨htr,?_⟩
          exact ih hothers ht' .refl ht'.opened hrest inst' k

end

def mappedWriter : WriterConfig := ⟨fun _ => 0,false,true,true⟩

def emptyInstruction : List InstructionCall :=
  [⟨0xfffffffffe,4,[],false,false,false,true,fun _ => 7⟩,⟨0x10,1,[],false,false,false,true,fun _ => 7⟩,
    ⟨0x11,0,[],true,false,false,true,fun _ => 7⟩,⟨1,1,[],false,false,false,true,fun _ => 7⟩]

def thirdRead (bytes : List Byte) : Except ReadFault (Bool × Option (Address × Address)) := do
  let (_,inst,r) ← (Reader.create bytes).read (fun _ _ => 0) blankInstruction
  let (_,inst,r) ← r.read (fun _ _ => 0) inst
  let (more,inst,r) ← r.read (fun _ _ => 0) inst
  return (more,(r.observe inst).map fun o => (o.addr,r.va2pa o.addr))

def mixedCalls : List TraceCall :=
  [.cacheOnly 3 1 0x400 0x5000,.syscall sysFutex (encodeAddress 0x6008) (by decide),
    .instruction ⟨0xffe,5,[0x6010],false,false,false,true,fun _ => 7⟩,
    .instruction ⟨0xffe,3,[],false,false,false,true,fun _ => 7⟩]

end Sift
