import SniperSim.Sift.ReaderSpec

open Function List LittleEndian Nat
namespace Sift

structure Observed where
  addr : Address
  size : Byte
  data : List Byte
  addresses : List Address
  (isBranch taken isPredicate : Bool)
  executed : Option Bool

def InstructionCall.observed (getCode : Address → Byte) (c : InstructionCall) : Observed :=
  ⟨c.addr,c.size,codeBytes getCode c.addr c.size.toNat,c.addresses,c.isBranch,c.taken,c.isPredicate,
    if c.isPredicate then some c.executed else none⟩

def Reader.observe (r : Reader) (inst : Instruction) : Option Observed :=
  (r.sinsts[inst.sinst]?).map fun s =>
    ⟨s.addr,s.size,s.data,(range inst.numAddresses).map inst.addresses,inst.isBranch,inst.taken,
      inst.isPredicate,if inst.isPredicate then some inst.executed else none⟩

def Reader.readAll (fresh : Address → Nat → Byte) :
    Nat → Reader → Instruction → Except ReadFault (List (Option Observed))
  | 0, _, _ => .error .endless
  | calls + 1, r, inst => do
    let (more,inst,r) ← r.read fresh inst
    if more then
      let rest ← readAll fresh calls r inst
      return r.observe inst :: rest
    else return []

open Reader
variable {calls : List InstructionCall} {inst : Instruction}
section
variable {cfg : WriterConfig} {sizeOf : Address → Byte} (fresh : Address → Nat → Byte) {w w' : Writer} {r : Reader}
  {c : InstructionCall} {a last : Address} {rest : List Byte} {icache' : Address → Option (Nat → Byte)}
  {bytes : List Byte} {r' : Reader} {fuel : Nat}

def span (cfg : WriterConfig) (sizeOf : Address → Byte) (a : Address) : Nat :=
  if cfg.requiresIcachePerInsn then (sizeOf a).toNat else icacheSize

def Sound (cfg : WriterConfig) (sizeOf : Address → Byte) (a : Address) (size : Byte) (data : List Byte) : Prop :=
  size = sizeOf a ∧ data = codeBytes cfg.getCode a size.toNat

structure Synced (cfg : WriterConfig) (sizeOf : Address → Byte) (w : Writer) (r : Reader) : Prop where
  last : r.lastAddress = w.lastAddress
  running : r.seenEnd = false
  opened : r.opened
  code : ∀ a, w.icache a → ∀ i < span cfg sizeOf a,Covered cfg.getCode r.icache (a + BitVec.ofNat 64 i)
  statics : Statics (Sound cfg sizeOf) r.sinsts r.scache

theorem Synced.store (h : Synced cfg sizeOf w r) (hs : Stores cfg.getCode r.icache icache' a (span cfg sizeOf a)) :
    Synced cfg sizeOf { w with icache := update w.icache a true } { r with icache := icache' } := by
  refine { h with code := fun b hb i hi => ?_ }
  rcases eq_or_ne b a with rfl | hba
  · exact hs.stored i hi
  · have hold : w.icache b := by simpa [update_of_ne hba] using hb
    exact hs.kept _ (h.code b hold i hi)

def CodeSent (cfg : WriterConfig) (sizeOf : Address → Byte) (fresh : Address → Nat → Byte)
    (w : Writer) (r : Reader) (bytes : List Byte) (P : Address → Prop) : Prop :=
  ∃ icache', Passes fresh bytes r { r with icache := icache' } ∧
    Synced cfg sizeOf w { r with icache := icache' } ∧
    (∀ b, Covered cfg.getCode r.icache b → Covered cfg.getCode icache' b) ∧ ∀ b, P b → Covered cfg.getCode icache' b

theorem passes_icacheVariable (hr : r.seenEnd = false) (gc : Address → Byte) (a : Address) (hn : 8 + n < 256 ^ 4) :
    ∃ icache', Passes fresh (encodeOther .icacheVariable (8 + n) ++ (encodeAddress a ++ codeBytes gc a n)) r
      { r with icache := icache' } ∧ Stores gc r.icache icache' a n := by
  obtain ⟨icache',heq,hst⟩ : ∃ icache', (∀ rest, readIcacheVariable fresh n (r.feed (codeBytes gc a n ++ rest)) a n =
    .ok (feed { r with icache := icache' } rest)) ∧ Stores gc r.icache icache' a n := readIcacheVariable_feed le_rfl
  refine ⟨icache',passes_other hn hr hr fun rest => ?_,hst⟩
  rw [handleOther,if_neg (by omega),append_assoc,takeAddress_feed,Nat.add_sub_cancel_left]
  exact heq rest

theorem passes_icache (gc : Address → Byte) (base : Address) (hr : r.seenEnd = false) :
    Passes fresh (encodeOther .icache (8 + icacheSize) ++ (encodeAddress base ++ codeBytes gc base icacheSize)) r
      { r with icache := update r.icache base (some fun o => (codeBytes gc base icacheSize).getD o 0) } := by
  refine passes_other (by decide) hr hr fun rest => ?_
  simp [handleOther,checkSize,takeAddress_feed,take_feed length_codeBytes,bind,Except.bind]
  rfl

theorem byte_fits (size : Byte) : 8 + size.toNat < 256 ^ 4 := by
  have := size.isLt
  omega

theorem sendIcacheVariable_sent (hm : cfg.requiresIcachePerInsn) (h : Synced cfg sizeOf w r)
    {size : Byte} (hs : size = sizeOf a) : CodeSent cfg sizeOf fresh (w.sendIcacheVariable cfg a size.toNat).1 r
      (w.sendIcacheVariable cfg a size.toNat).2 fun b => ∃ i < size.toNat, b = a + BitVec.ofNat 64 i := by
  have hspan : span cfg sizeOf a = size.toNat := by rw [span,if_pos hm,hs]
  unfold Writer.sendIcacheVariable
  split_ifs with hw
  · refine ⟨r.icache,.refl,h,fun _ => id,?_⟩
    rintro _ ⟨i,hi,rfl⟩
    exact h.code a hw i (hspan ▸ hi)
  · obtain ⟨icache',hp,hst⟩ := passes_icacheVariable fresh h.running cfg.getCode a (byte_fits size)
    refine ⟨icache',hp,h.store (hspan ▸ hst),hst.kept,?_⟩
    rintro _ ⟨i,hi,rfl⟩
    exact hst.stored i hi

theorem stores_page (hb : PageAligned base) (icache : Address → Option (Nat → Byte)) :
    Stores cfg.getCode icache (update icache base
      (some fun o => (codeBytes cfg.getCode base icacheSize).getD o 0)) base icacheSize := by
  constructor
  case kept =>
    intro b hcov
    exact hcov.update fun o ho _ _ => .inl (codeBytes_getD ho)
  case stored =>
    intro i hi
    exact covered_of_page hb hi (update_self _ _ _) (codeBytes_getD hi)

theorem sendIcache_sent (hm : cfg.requiresIcachePerInsn = false) (h : Synced cfg sizeOf w r) (hb : PageAligned base) :
    CodeSent cfg sizeOf fresh (w.sendIcache cfg base).1 r (w.sendIcache cfg base).2
      fun b => ∃ i < icacheSize, b = base + BitVec.ofNat 64 i := by
  have hspan : span cfg sizeOf base = icacheSize := by
    rw [span,hm]
    rfl
  unfold Writer.sendIcache
  split_ifs with hw
  · refine ⟨r.icache,.refl,h,fun _ => id,?_⟩
    rintro _ ⟨i,hi,rfl⟩
    exact h.code base hw i (hspan ▸ hi)
  · have hst : Stores cfg.getCode r.icache _ base icacheSize := stores_page hb r.icache
    refine ⟨_,passes_icache fresh cfg.getCode base h.running,h.store (by rw [hspan]; exact hst),hst.kept,?_⟩
    rintro _ ⟨i,hi,rfl⟩
    exact hst.stored i hi

theorem le_of_aligned (hb : PageAligned base) (hl : PageAligned last) (h : ¬base ≤ last) :
    last.toNat + icacheSize ≤ base.toNat := by
  obtain ⟨p,hp⟩ : 4096 ∣ base.toNat := hb
  obtain ⟨q,hq⟩ : 4096 ∣ last.toNat := hl
  have hlt : last.toNat < base.toNat := BitVec.lt_def.mp (by simpa using h)
  change last.toNat + 4096 ≤ base.toNat
  omega

theorem add_offset_of_lt (hlo : base.toNat ≤ a.toNat) : a = base + BitVec.ofNat 64 (a.toNat - base.toNat) := by
  apply BitVec.eq_of_toNat_eq
  have := a.isLt
  rw [BitVec.toNat_add,BitVec.toNat_ofNat]
  omega

theorem sendIcachePages_rule {P : Writer → Address → Writer × List Byte → Prop} (hl : PageAligned last)
    (hlast : last.toNat + icacheSize < 2 ^ 64)
    (stop : ∀ w base, last.toNat + icacheSize ≤ base.toNat → P w base (w,[]))
    (send : ∀ w base q, PageAligned base → base.toNat ≤ last.toNat →
      (base + BitVec.ofNat 64 icacheSize).toNat = base.toNat + icacheSize →
      P (w.sendIcache cfg base).1 (base + BitVec.ofNat 64 icacheSize) q →
      P w base (q.1,(w.sendIcache cfg base).2 ++ q.2))
    (w : Writer) (hb : PageAligned base) (hfuel : last.toNat + icacheSize < base.toNat + icacheSize * (fuel + 1)) :
    ∃ q, w.sendIcachePages cfg last (fuel + 1) base = .ok q ∧ P w base q := by
  induction fuel generalizing w base with
  | zero =>
    have hle : ¬base ≤ last := fun h => by
      have : base.toNat ≤ last.toNat := h
      omega
    exact ⟨_,if_neg hle,stop w base (le_of_aligned hb hl hle)⟩
  | succ fuel ih =>
    rw [Writer.sendIcachePages]
    split_ifs with hle
    · have hle' : base.toNat ≤ last.toNat := hle
      have hnext : (base + BitVec.ofNat 64 icacheSize).toNat = base.toNat + icacheSize :=
        mod_eq_of_lt (by change base.toNat + icacheSize < 2 ^ 64; omega)
      rw [mul_succ] at hfuel
      obtain ⟨q,heq,hq⟩ := ih (w.sendIcache cfg base).1 hb.next (by omega)
      refine ⟨_,?_,send w base q hb hle' hnext hq⟩
      change (Writer.sendIcachePages cfg last (fuel + 1) (w.sendIcache cfg base).1 _ >>= _) = _
      rw [heq]
      rfl
    · exact ⟨_,rfl,stop w base (le_of_aligned hb hl hle)⟩

theorem sendIcachePages_sent (hm : cfg.requiresIcachePerInsn = false)
    (h : Synced cfg sizeOf w r) (hb : PageAligned base) (hl : PageAligned last)
    (hlast : last.toNat + icacheSize < 2 ^ 64)
    (hfuel : last.toNat + icacheSize < base.toNat + icacheSize * (fuel + 1)) :
    ∃ q, w.sendIcachePages cfg last (fuel + 1) base = .ok q ∧ CodeSent cfg sizeOf fresh q.1 r q.2
        fun b => base.toNat ≤ b.toNat ∧ b.toNat < last.toNat + icacheSize := by
  refine (sendIcachePages_rule (P := fun w base q => ∀ r, Synced cfg sizeOf w r →
    CodeSent cfg sizeOf fresh q.1 r q.2 fun b => base.toNat ≤ b.toNat ∧ b.toNat < last.toNat + icacheSize)
    hl hlast ?_ ?_ w hb hfuel).imp fun q hq => ⟨hq.1,hq.2 r h⟩
  · exact fun w base hge r h => ⟨r.icache,.refl,h,fun _ => id,fun b hb => by omega⟩
  · intro w base q hb hle hnext hq r h
    obtain ⟨icache',hp,hs,hk,hc⟩ := sendIcache_sent fresh hm h hb
    obtain ⟨icache'',hp',hs',hk',hc'⟩ := hq _ hs
    refine ⟨icache'',hp.trans hp',hs',fun b hb => hk' b (hk b hb),?_⟩
    rintro b ⟨hlo,hhi⟩
    rcases lt_or_ge b.toNat (base.toNat + icacheSize) with hin | hin
    · exact hk' b (hc b ⟨b.toNat - base.toNat,by omega,add_offset_of_lt hlo⟩)
    · exact hc' b ⟨by omega,hhi⟩

def InstructionCall.Admitted (c : InstructionCall) : Prop :=
  1 ≤ c.size.toNat ∧ c.size.toNat ≤ 15 ∧ c.addresses.length ≤ maxDynamicAddresses ∧ c.addr.toNat < 2 ^ 64 - 8192

theorem toNat_lastByte {size : Byte} (a : Address) (hlo : 1 ≤ size.toNat) :
    (a + size.setWidth 64 - 1).toNat = (a.toNat + size.toNat - 1) % 2 ^ 64 := by
  have hone : (1 : Address).toNat = 1 := rfl
  rw [BitVec.toNat_sub,BitVec.toNat_add,BitVec.toNat_setWidth,hone]
  omega

theorem toNat_page (x : Address) : (x &&& icachePageMask).toNat = 4096 * (x.toNat / 4096) :=
  Mask.toNat_and_high (by decide) x

theorem sendCode_sent (h : Synced cfg sizeOf w r) (hc : c.Admitted) (hs : c.size = sizeOf c.addr) :
    ∃ w' bytes, w.sendCode cfg c.addr c.size = .ok (w',bytes) ∧ CodeSent cfg sizeOf fresh w' r bytes
        fun b => ∃ i < c.size.toNat, b = c.addr + BitVec.ofNat 64 i := by
  obtain ⟨hlo,hhi,-,hfit⟩ := hc
  unfold Writer.sendCode
  cases hm : cfg.requiresIcachePerInsn with
  | true => exact ⟨_,_,rfl,sendIcacheVariable_sent fresh hm h hs⟩
  | false =>
    have hsum := toNat_lastByte c.addr hlo
    have hbase := toNat_page c.addr
    have hlast := toNat_page (c.addr + c.size.setWidth 64 - 1)
    have hsize : icacheSize = 4096 := rfl
    have hfuel : ((c.addr + c.size.setWidth 64 - 1) &&& icachePageMask).toNat + icacheSize <
        (c.addr &&& icachePageMask).toNat + icacheSize * (Writer.numPages + 1) := by
      rw [Writer.numPages]
      omega
    obtain ⟨q,heq,icache',hp,hs',hk,hcov⟩ := sendIcachePages_sent fresh hm h
      (pageAligned_page c.addr) (pageAligned_page (c.addr + c.size.setWidth 64 - 1)) (by omega) hfuel
    refine ⟨q.1,q.2,heq,icache',hp,hs',hk,?_⟩
    rintro _ ⟨i,hi,rfl⟩
    have hadd : (c.addr + BitVec.ofNat 64 i).toNat = c.addr.toNat + i := by
      rw [BitVec.toNat_add,BitVec.toNat_ofNat]
      omega
    exact hcov _ ⟨by omega,by omega⟩

def Known (lookup : Address → Address) (w : Writer) (vcache : Address → Option Address) : Prop :=
  ∀ vp, w.va2pa vp → vcache vp = some (lookup vp)

structure Mapped (cfg : WriterConfig) (fresh : Address → Nat → Byte) (lookup : Address → Address) (w w' : Writer)
    (r : Reader) (bytes : List Byte) (vas : List Address) (vcache : Address → Option Address) : Prop where
  passes : Passes fresh bytes r { r with vcache := vcache }
  last : w'.lastAddress = w.lastAddress
  icache : w'.icache = w.icache
  known : Known lookup w r.vcache → Known lookup w' vcache
  kept : ∀ vp, w.va2pa vp → w'.va2pa vp
  sent : cfg.sendVa2paMapping → (∀ vp, lookup vp ≠ 0) → ∀ va ∈ vas, w'.va2pa (va / pageSizeSift)

theorem Mapped.stay {lookup : Address → Address} {vas : List Address}
    (hs : cfg.sendVa2paMapping → (∀ vp, lookup vp ≠ 0) → ∀ va ∈ vas, w.va2pa (va / pageSizeSift)) :
    Mapped cfg fresh lookup w w r [] vas r.vcache :=
  ⟨.refl,rfl,rfl,id,fun _ => id,hs⟩

theorem sendVa2pa_mapped (hr : r.seenEnd = false) (cfg : WriterConfig) (w : Writer) (lookup : Address → Address)
    (va : Address) : ∃ vcache', Mapped cfg fresh lookup w (w.sendVa2pa cfg lookup va).1 r (w.sendVa2pa cfg lookup va).2 [va]
      vcache' := by
  unfold Writer.sendVa2pa
  dsimp only
  split_ifs with hen hsent hz
  · exact ⟨_,.stay fresh fun _ _ x hx => mem_singleton.mp hx ▸ hsent⟩
  · exact ⟨_,.stay fresh fun _ hne => (hne _ hz).elim⟩
  · refine ⟨update r.vcache (va / pageSizeSift) (some (lookup (va / pageSizeSift))),
      passes_other (by decide) hr hr fun rest => ?_,rfl,rfl,fun hk vp hv => ?_,fun vp hv => ?_,fun _ _ x hx => ?_⟩
    · simp [handleOther,checkSize,takeAddress_feed,bind,Except.bind]
      rfl
    · rcases eq_or_ne vp (va / pageSizeSift) with rfl | hne
      · exact update_self ..
      · rw [update_of_ne hne]
        exact hk vp (by simpa [hne] using hv)
    · rcases eq_or_ne vp (va / pageSizeSift) with rfl | hne <;> simp [*]
    · simp [mem_singleton.mp hx]
  · exact ⟨_,.stay fresh fun hen' => (hen hen').elim⟩

theorem sendVa2pas_mapped (hr : r.seenEnd = false) (cfg : WriterConfig) (w : Writer) (lookup : Address → Address)
    (vas : List Address) :
    ∃ vcache', Mapped cfg fresh lookup w (w.sendVa2pas cfg lookup vas).1 r (w.sendVa2pas cfg lookup vas).2 vas
      vcache' := by
  induction vas generalizing w r with
  | nil => exact ⟨_,.stay fresh fun _ _ _ hx => by cases hx⟩
  | cons va vas ih =>
    obtain ⟨vcache',hm⟩ := sendVa2pa_mapped fresh hr cfg w lookup va
    obtain ⟨vcache'',hm'⟩ := ih (r := { r with vcache := vcache' }) hr (w.sendVa2pa cfg lookup va).1
    refine ⟨vcache'',hm.passes.trans hm'.passes,hm'.last.trans hm.last,hm'.icache.trans hm.icache,
      fun hk => hm'.known (hm.known hk),fun vp hv => hm'.kept vp (hm.kept vp hv),fun hen hne x hx => ?_⟩
    rcases mem_cons.mp hx with rfl | hx
    · exact hm'.kept _ (hm.sent hen hne _ mem_cons_self)
    · exact hm'.sent hen hne x hx

theorem Mapped.synced {lookup : Address → Address} {vcache : Address → Option Address}
    (hm : Mapped cfg fresh lookup w w' r bytes vas vcache) (h : Synced cfg sizeOf w r) :
    Synced cfg sizeOf w' { r with vcache := vcache } :=
  ⟨h.last.trans hm.last.symm,h.running,h.opened,fun a ha => h.code a (hm.icache ▸ ha),h.statics⟩

def InstructionCall.Sized (c : InstructionCall) : Prop :=
  1 ≤ c.size.toNat ∧ c.size.toNat ≤ 15 ∧ c.addresses.length ≤ maxDynamicAddresses

theorem size_ne_zero (hc : c.Sized) : c.size.setWidth 4 ≠ 0 := by
  intro hz
  have hnat := congrArg BitVec.toNat hz
  have hmod : c.size.toNat % 2 ^ 4 = 0 := hnat
  obtain ⟨hlo,hhi,-⟩ := hc
  omega

theorem size_narrow (hc : c.Sized) : (c.size.setWidth 4).setWidth 8 = c.size := by
  apply BitVec.eq_of_toNat_eq
  rw [BitVec.toNat_setWidth,BitVec.toNat_setWidth]
  obtain ⟨hlo,hhi,-⟩ := hc
  omega

theorem numAddresses_narrow (hc : c.Sized) : (BitVec.ofNat 2 c.addresses.length).toNat = c.addresses.length := by
  have hle : c.addresses.length ≤ 2 := hc.2.2
  rw [BitVec.toNat_ofNat]
  omega

theorem readLoop_instruction {byte : Byte} {input : List Byte} (hr : r.seenEnd = false) (hne : byte ≠ 0) :
    readLoop fresh (1 + fuel) (r.feed (byte :: input)) inst =
      (if byte &&& 0xf ≠ 0 then (r.feed (byte :: input)).readInstruction inst
        else (r.feed (byte :: input)).readInstructionExt inst).map fun q => (true,q) := by
  have hrunning : (r.feed (byte :: input)).seenEnd = false := hr
  have hhead : (r.feed (byte :: input)).input.head? = some byte := rfl
  rw [add_comm,readLoop,hrunning,hhead]
  simp only [Bool.false_eq_true,if_false,if_neg hne]
  by_cases hlow : byte &&& 0xf ≠ 0
  · simp only [if_pos hlow]
    cases (r.feed (byte :: input)).readInstruction inst <;> rfl
  · simp only [if_neg hlow]
    cases (r.feed (byte :: input)).readInstructionExt inst <;> rfl

structure Decoded (c : InstructionCall) (inst : Instruction) : Prop where
  numAddresses : inst.numAddresses = c.addresses.length
  isBranch : inst.isBranch = c.isBranch
  taken : inst.taken = c.taken
  isPredicate : inst.isPredicate = c.isPredicate
  executed : c.isPredicate → inst.executed = c.executed

theorem Decoded.withAddresses (h : Decoded c inst) (f : Nat → Address) : Decoded c { inst with addresses := f } :=
  { h with }

theorem readInstruction_feed {fields : InstructionRec} : (r.feed (fields.pack :: rest)).readInstruction inst =
      (r.feed rest).finishInstruction { inst with
        numAddresses := fields.numAddresses.toNat, isBranch := fields.isBranch,
        taken := fields.taken, isPredicate := false, executed := true, isa := r.isa } r.lastAddress
        (fields.size.setWidth 8) := by
  have htake : (r.feed ([fields.pack] ++ rest)).take 1 = .ok ([fields.pack],r.feed rest) := take_feed rfl
  rw [← singleton_append,readInstruction,htake]
  simp [bind,Except.bind,InstructionRec.unpack_pack]
  rfl

theorem readInstructionExt_feed {size : BitVec 4} {flags : InstructionFlags} :
    (r.feed (encodeInstructionExt size flags a ++ rest)).readInstructionExt inst =
      (r.feed rest).finishInstruction { inst with
        numAddresses := flags.numAddresses.toNat, isBranch := flags.isBranch, taken := flags.taken,
        isPredicate := flags.isPredicate, executed := flags.executed, isa := r.isa } a (size.setWidth 8) := by
  have htake : (r.feed (encodeInstructionExt size flags a ++ rest)).take 2 =
      .ok ([extByte size,flags.pack],r.feed (encodeAddress a ++ rest)) := rfl
  rw [readInstructionExt,htake]
  simp [bind,Except.bind,takeAddress_feed,InstructionFlags.unpack_pack,extSize_extByte]
  rfl

theorem sendRecord_read (hlast : r.lastAddress = w.lastAddress) (hr : r.seenEnd = false) (hc : c.Sized)
    (inst : Instruction) : ∃ inst', Decoded c inst' ∧ (range c.addresses.length).map inst'.addresses = c.addresses ∧
      ∀ rest fuel, readLoop fresh (1 + fuel) (r.feed ((w.sendRecord c).2 ++ rest)) inst =
        (getStaticInstruction { r with lastAddress := c.addr + c.size.setWidth 64 } c.addr c.size).map fun q =>
          (true,{ inst' with sinst := q.1 },q.2.feed rest) := by
  have hnum := numAddresses_narrow hc
  unfold Writer.sendRecord
  dsimp only
  split_ifs with hsimple
  · obtain ⟨haddr,hpred⟩ := hsimple
    have hd : Decoded c { inst with
        numAddresses := (BitVec.ofNat 2 c.addresses.length).toNat, isBranch := c.isBranch, taken := c.taken,
        isPredicate := false, executed := true, isa := r.isa } :=
      ⟨hnum,rfl,rfl,hpred.symm,by simp [hpred]⟩
    obtain ⟨f,hmap,hfin⟩ := finishInstruction_feed _ c.addresses hd.numAddresses
    refine ⟨_,hd.withAddresses f,hmap,fun rest fuel => ?_⟩
    have hlow (f : InstructionRec) (hf : f.size = c.size.setWidth 4) : f.pack &&& 0xf ≠ 0 :=
      f.pack_low (hf ▸ size_ne_zero hc)
    rw [cons_append,readLoop_instruction fresh hr (fun hz => hlow _ rfl (by rw [hz]; rfl)),if_pos (hlow _ rfl),
      readInstruction_feed,hlast,← haddr,size_narrow hc,hfin]
    cases getStaticInstruction { r with lastAddress := c.addr + c.size.setWidth 64 } c.addr c.size <;> rfl
  · have hd : Decoded c { inst with
        numAddresses := (BitVec.ofNat 2 c.addresses.length).toNat, isBranch := c.isBranch, taken := c.taken,
        isPredicate := c.isPredicate, executed := c.executed, isa := r.isa } :=
      ⟨hnum,rfl,rfl,rfl,fun _ => rfl⟩
    obtain ⟨f,hmap,hfin⟩ := finishInstruction_feed _ c.addresses hd.numAddresses
    refine ⟨_,hd.withAddresses f,hmap,fun rest fuel => ?_⟩
    rw [append_assoc]
    refine (readLoop_instruction fresh hr (extByte_ne _ (size_ne_zero hc))).trans ?_
    rw [if_neg (not_not_intro (extByte_low _))]
    refine (congrArg _ readInstructionExt_feed).trans ?_
    rw [size_narrow hc,hfin]
    cases getStaticInstruction { r with lastAddress := c.addr + c.size.setWidth 64 } c.addr c.size <;> rfl

theorem sendRecord_writer : (w.sendRecord c).1 = { w with lastAddress := c.addr + c.size.setWidth 64 } := by
  unfold Writer.sendRecord
  dsimp only
  split_ifs with h
  · rw [h.1]
  · rfl

theorem Reader.Passes.read (hp : Passes fresh bytes r r') (ho : r.opened)
    (h : ∀ fuel, readLoop fresh (1 + fuel) (r'.feed rest) inst = x) : (r.feed (bytes ++ rest)).read fresh inst = x := by
  obtain ⟨n,hn,hpass⟩ := hp
  have hopened : (r.feed (bytes ++ rest)).opened := ho
  have hfuel : (bytes ++ rest).length + 1 = n + (1 + ((bytes ++ rest).length - n)) := by
    rw [length_append]
    omega
  rw [Reader.read,hopened]
  change readLoop fresh ((bytes ++ rest).length + 1) (r.feed (bytes ++ rest)) inst = _
  rw [hfuel,hpass,h]

theorem readLoop_end (hr : r.seenEnd = false) (inst : Instruction) (fuel : Nat) :
    readLoop fresh (1 + fuel) (r.feed (encodeOther .otherEnd 0)) inst =
      .ok (false,inst,feed { r with seenEnd := true } []) := by
  have hrunning : (r.feed (encodeOther .otherEnd 0)).seenEnd = false := hr
  rw [add_comm,readLoop,hrunning]
  rfl

theorem Decoded.observed (hd : Decoded c inst) (hmap : (range c.addresses.length).map inst.addresses = c.addresses)
    (h : Statics (Sound cfg sizeOf) r.sinsts r.scache) (hs : c.size = sizeOf c.addr)
    (hcov : ∀ i < c.size.toNat, Covered cfg.getCode r.icache (c.addr + BitVec.ofNat 64 i)) :
    ∃ p sinsts scache, r.getStaticInstruction c.addr c.size =
        .ok (p,{ r with sinsts := sinsts, scache := scache, lastSinst := some p }) ∧
      Statics (Sound cfg sizeOf) sinsts scache ∧
      observe { r with sinsts := sinsts, scache := scache, lastSinst := some p } { inst with sinst := p } =
        some (c.observed cfg.getCode) := by
  have hnew := staticInfoInstruction_spec hcov
  obtain ⟨⟨p,r'⟩,hget⟩ := h.get_ok (fun s hmem ha => by rw [(h.sound s hmem).1,ha,hs]) hnew
  obtain ⟨sinsts,scache,rfl,hst,s,hp,ha⟩ := h.get (fun data hdata => by cases hnew.symm.trans hdata; exact ⟨hs,rfl⟩) hget
  obtain ⟨hsize,hdata⟩ := hst.sound s (mem_of_getElem? hp)
  rw [ha,← hs] at hsize
  refine ⟨p,sinsts,scache,hget,hst,?_⟩
  have hexec : (if c.isPredicate then some inst.executed else none) =
      if c.isPredicate then some c.executed else none := by
    split_ifs with hpred
    · rw [hd.executed hpred]
    · rfl
  simp [observe,InstructionCall.observed,hp,ha,hsize,hdata,hd.numAddresses,hmap,hd.isBranch,hd.taken,
    hd.isPredicate,hexec]

theorem instruction_eq (hc : c.Sized) : w.instruction cfg c = (w.sendCode cfg c.addr c.size).map fun q =>
    (((q.1.sendVa2pas cfg c.va2paLookup (c.addr :: c.addresses)).1.sendRecord c).1,
      q.2 ++ ((q.1.sendVa2pas cfg c.va2paLookup (c.addr :: c.addresses)).2 ++
        ((q.1.sendVa2pas cfg c.va2paLookup (c.addr :: c.addresses)).1.sendRecord c).2)) := by
  obtain ⟨-,hsize,hnum⟩ := hc
  rw [Writer.instruction,if_neg (by omega),if_neg (by omega)]
  cases w.sendCode cfg c.addr c.size <;> rfl

theorem instruction_read (h : Synced cfg sizeOf w r) (hc : c.Admitted) (hs : c.size = sizeOf c.addr)
    (inst : Instruction) : ∃ w' bytes inst' r', w.instruction cfg c = .ok (w',bytes) ∧ Synced cfg sizeOf w' r' ∧
      r'.observe inst' = some (c.observed cfg.getCode) ∧
      ∀ rest, (r.feed (bytes ++ rest)).read fresh inst = .ok (true,inst',r'.feed rest) := by
  obtain ⟨w₁,code,hcode,icache',hp₁,hs₁,-,hcov⟩ := sendCode_sent fresh h hc hs
  obtain ⟨vcache',hm⟩ := sendVa2pas_mapped fresh hs₁.running cfg w₁ c.va2paLookup (c.addr :: c.addresses)
  have hs₂ := hm.synced fresh hs₁
  have hsized : c.Sized := ⟨hc.1,hc.2.1,hc.2.2.1⟩
  obtain ⟨inst₁,hd,hmap,hread⟩ := sendRecord_read fresh hs₂.last hs₂.running hsized inst
  obtain ⟨p,sinsts,scache,hget,hst,hobs⟩ := hd.observed (r := { r with
    icache := icache', vcache := vcache', lastAddress := c.addr + c.size.setWidth 64 }) hmap hs₂.statics hs
    fun i hi => hcov _ ⟨i,hi,rfl⟩
  refine ⟨_,_,_,_,by rw [instruction_eq hsized,hcode]; rfl,?_,hobs,fun rest => ?_⟩
  · rw [sendRecord_writer]
    exact ⟨rfl,hs₂.running,hs₂.opened,hs₂.code,hst⟩
  · rw [← append_assoc code,append_assoc (code ++ _)]
    refine (hp₁.trans hm.passes).read fresh h.opened fun fuel => (hread rest fuel).trans ?_
    rw [hget]
    rfl

theorem instructions_read (h : Synced cfg sizeOf w r) (hc : ∀ c ∈ calls, c.Admitted ∧ c.size = sizeOf c.addr)
    (inst : Instruction) : ∃ bytes, w.instructions cfg calls = .ok bytes ∧ ∀ k, calls.length < k →
      readAll fresh k (r.feed bytes) inst = .ok (calls.map fun c => some (c.observed cfg.getCode)) := by
  induction calls generalizing w r inst with
  | nil =>
    refine ⟨_,rfl,fun k hk => ?_⟩
    obtain ⟨k,rfl⟩ := exists_eq_add_one_of_ne_zero (ne_of_gt hk)
    have hend := Passes.refl.read fresh h.opened (readLoop_end fresh h.running inst)
    rw [nil_append] at hend
    rw [readAll,hend]
    rfl
  | cons c cs ih =>
    obtain ⟨hadm,hsize⟩ := hc c (mem_cons_self)
    obtain ⟨w',chunk,inst',r',heq,hs,hobs,hchunk⟩ := instruction_read fresh h hadm hsize inst
    obtain ⟨rest,hrest,hread⟩ := ih hs (fun c' hc' => hc c' (mem_cons_of_mem c hc')) inst'
    refine ⟨chunk ++ rest,by rw [Writer.instructions,heq]; simp [bind,Except.bind,hrest]; rfl,fun k hk => ?_⟩
    obtain ⟨k,rfl⟩ := exists_eq_add_one_of_ne_zero (ne_zero_of_lt hk)
    have hsee : (r'.feed rest).observe inst' = r'.observe inst' := rfl
    rw [readAll,hchunk]
    simp [hread k (lt_of_succ_lt_succ hk),hsee,hobs,bind,Except.bind]
    rfl

theorem initStream_feed (hz : op.compressionZlib = false) (bytes : List Byte) :
    (Reader.create (encodeHeader op ++ bytes)).initStream =
      .ok (feed { Reader.create [] with opened := true, traceHasPa := op.physicalAddress } bytes) := by
  have hbits : op.bits < 256 ^ 8 ∧ op.bits / 16 = 0 ∧ op.bits.testBit 0 = false ∧
      op.bits.testBit 3 = op.physicalAddress := by
    obtain ⟨zlib,ia32,perInsn,physical⟩ := op
    obtain rfl : zlib = false := hz
    revert ia32 perInsn physical
    decide
  change (do
    let q ← ((Reader.create []).feed (encode 8 op.bits ++ bytes)).takeNat 8
    if magicNumber = magicNumber ∧ q.1 / 16 = 0 ∧ q.1.testBit 0 = false then
      return { q.2 with opened := true, traceHasPa := q.1.testBit 3 }
    else .error .initStream) = _
  simp only [takeNat_feed hbits.1,hbits.2,bind,Except.bind,and_self,if_true]
  rfl

theorem synced_initial (cfg : WriterConfig) (sizeOf : Address → Byte) (pa : Bool) :
    Synced cfg sizeOf Writer.create { Reader.create [] with opened := true, traceHasPa := pa } := by
  constructor
  case last => rfl
  case running => rfl
  case opened => rfl
  case code => exact fun a ha => absurd ha (by simp [Writer.create])
  case statics => exact ⟨nofun,nofun⟩
end

def sizeAt (calls : List InstructionCall) (a : Address) : Byte :=
  ((calls.find? fun c => c.addr = a).map (·.size)).getD 0

theorem size_eq_sizeAt (hc : c ∈ calls) (hsize : ∀ c ∈ calls, ∀ c' ∈ calls, c.addr = c'.addr → c.size = c'.size) :
    c.size = sizeAt calls c.addr := by
  unfold sizeAt
  cases hf : calls.find? fun c' => c'.addr = c.addr with
  | none => simpa using find?_eq_none.mp hf c hc
  | some c' =>
    have haddr : c'.addr = c.addr := by simpa using find?_some hf
    exact hsize c hc c' (mem_of_find?_eq_some hf) haddr.symm

theorem read_opened {r r' : Reader} (ho : r.opened = false) (hi : r.initStream = .ok r') (ho' : r'.opened) :
    r.read fresh inst = r'.read fresh inst := by
  rw [Reader.read,Reader.read,ho,ho',hi]
  rfl

theorem instruction_round_trip (cfg : WriterConfig) (fresh : Address → Nat → Byte)
    (calls : List InstructionCall) (inst : Instruction) (hc : ∀ c ∈ calls, c.Admitted)
    (hsize : ∀ c ∈ calls, ∀ c' ∈ calls, c.addr = c'.addr → c.size = c'.size) :
    ∃ bytes, Writer.trace cfg calls = .ok bytes ∧ ∀ k, calls.length < k →
      readAll fresh k (Reader.create bytes) inst = .ok (calls.map fun c => some (c.observed cfg.getCode)) := by
  have hcalls : ∀ c ∈ calls, c.Admitted ∧ c.size = sizeAt calls c.addr := fun c h => ⟨hc c h,size_eq_sizeAt h hsize⟩
  have hsync := synced_initial cfg (sizeAt calls) cfg.sendVa2paMapping
  obtain ⟨bytes,hb,hread⟩ := instructions_read fresh hsync hcalls inst
  refine ⟨_,by rw [Writer.trace,hb]; rfl,fun k hk => ?_⟩
  rw [← hread k hk]
  cases k with
  | zero => rfl
  | succ k => rw [readAll,readAll,read_opened rfl (initStream_feed rfl bytes) rfl]

def straddlingCalls : List InstructionCall :=
  [⟨0xffe,5,[0x2000],false,false,false,true,id⟩,⟨0x1003,2,[],true,true,true,false,id⟩,
    ⟨0xffe,5,[0x2008,0x3000],false,false,false,true,id⟩]

def blankInstruction : Instruction := ⟨0,0,fun _ => 0,false,false,false,false,0⟩

theorem instruction_round_trip_straddling :
    (∃ bytes, Writer.trace ⟨fun a => a.setWidth 8,false,false,true⟩ straddlingCalls = .ok bytes ∧
      readAll (fun _ _ => 0) 4 (Reader.create bytes) blankInstruction =
        .ok (straddlingCalls.map fun c => some (c.observed fun a => a.setWidth 8))) ∧
    ∃ bytes, Writer.trace ⟨fun a => a.setWidth 8,false,true,true⟩ straddlingCalls = .ok bytes ∧
      readAll (fun _ _ => 0) 4 (Reader.create bytes) blankInstruction =
        .ok (straddlingCalls.map fun c => some (c.observed fun a => a.setWidth 8)) := by
  have hc : ∀ c ∈ straddlingCalls, c.Admitted := by
    simp [straddlingCalls,InstructionCall.Admitted,maxDynamicAddresses]
  have hsize : ∀ c ∈ straddlingCalls, ∀ c' ∈ straddlingCalls, c.addr = c'.addr → c.size = c'.size := by
    simp [straddlingCalls]
  obtain ⟨pages,htrace,hread⟩ := instruction_round_trip ⟨_,_,false,_⟩ (fun _ _ => 0) _ blankInstruction hc hsize
  obtain ⟨perInsn,htrace',hread'⟩ := instruction_round_trip ⟨_,_,true,_⟩ (fun _ _ => 0) _ blankInstruction hc hsize
  exact ⟨⟨pages,htrace,hread 4 (by decide)⟩,⟨perInsn,htrace',hread' 4 (by decide)⟩⟩

end Sift
