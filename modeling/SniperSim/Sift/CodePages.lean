import SniperSim.Sift.RoundTrip

open List
namespace Sift
variable {cfg : WriterConfig} {w : Writer} {addr : Address} {size : Byte}

def WriterConfig.codeRecord (cfg : WriterConfig) (size : Byte) (page : Address) : List Byte :=
  if cfg.requiresIcachePerInsn then
    encodeOther .icacheVariable (8 + size.toNat) ++ (encodeAddress page ++ codeBytes cfg.getCode page size.toNat)
  else encodeOther .icache (8 + icacheSize) ++ (encodeAddress page ++ codeBytes cfg.getCode page icacheSize)

def WriterConfig.Touches (cfg : WriterConfig) (addr : Address) (size : Byte) (page : Address) : Prop :=
  ∃ i < size.toNat, ∃ o < (if cfg.requiresIcachePerInsn then size.toNat else icacheSize),
    addr + BitVec.ofNat 64 i = page + BitVec.ofNat 64 o

theorem sendIcachePages_endless (hb : PageAligned base) :
    w.sendIcachePages cfg icachePageMask fuel base = .error .endlessPages := by
  induction fuel generalizing w base with
  | zero => rfl
  | succ fuel ih =>
    have hle : base ≤ icachePageMask := by
      obtain ⟨p,hp⟩ : 4096 ∣ base.toNat := hb
      have := base.isLt
      change base.toNat ≤ 18446744073709547520
      omega
    rw [Writer.sendIcachePages,if_pos hle]
    change (Writer.sendIcachePages cfg icachePageMask fuel (w.sendIcache cfg base).1 _ >>= _) = _
    rw [ih hb.next]
    rfl

theorem sendIcachePages_ends (size : Byte) (fuel : Nat) (hm : cfg.requiresIcachePerInsn = false)
    (hb : PageAligned base) (hl : PageAligned last) (hlast : last.toNat + icacheSize < 2 ^ 64)
    (hfuel : last.toNat + icacheSize < base.toNat + icacheSize * (fuel + 1)) :
    ∃ q, w.sendIcachePages cfg last (fuel + 1) base = .ok q ∧ ∃ pages : List Address,
      q.2 = pages.flatMap (cfg.codeRecord size) ∧ ∀ p ∈ pages, base.toNat ≤ p.toNat ∧ p.toNat ≤ last.toNat := by
  refine sendIcachePages_rule (P := fun _ base q => ∃ pages : List Address,
    q.2 = pages.flatMap (cfg.codeRecord size) ∧ ∀ p ∈ pages, base.toNat ≤ p.toNat ∧ p.toNat ≤ last.toNat)
    hl hlast ?_ ?_ w hb hfuel
  · exact fun w base _ => ⟨[],rfl,by simp⟩
  · rintro w base q - hle hnext ⟨pages,hq,hp⟩
    obtain ⟨sent,hsent,hmem⟩ : ∃ sent : List Address, (w.sendIcache cfg base).2 = sent.flatMap (cfg.codeRecord size) ∧
        ∀ p ∈ sent, p = base := by
      unfold Writer.sendIcache
      split_ifs
      · exact ⟨[],rfl,by simp⟩
      · exact ⟨[base],by simp [WriterConfig.codeRecord,hm],by simp⟩
    refine ⟨sent ++ pages,by rw [flatMap_append,hsent,hq],fun p h => ?_⟩
    rcases mem_append.mp h with h | h
    · obtain rfl := hmem p h
      exact ⟨Nat.le_refl _,hle⟩
    · have := hp p h
      omega

theorem sendCode_ends_iff (hlo : 1 ≤ size.toNat) (hhi : size.toNat ≤ 15) :
    (∃ q, w.sendCode cfg addr size = .ok q ∧ ∃ pages : List Address,
      q.2 = pages.flatMap (cfg.codeRecord size) ∧ ∀ p ∈ pages, cfg.Touches addr size p) ↔
    cfg.requiresIcachePerInsn = true ∨ (addr + size.setWidth 64 - 1) &&& icachePageMask ≠ icachePageMask := by
  unfold Writer.sendCode WriterConfig.Touches
  cases hm : cfg.requiresIcachePerInsn with
  | true =>
    simp only [if_true,true_or,iff_true]
    refine ⟨_,rfl,?_⟩
    unfold Writer.sendIcacheVariable
    split_ifs
    · exact ⟨[],rfl,by simp⟩
    · refine ⟨[addr],by simp [WriterConfig.codeRecord,hm],fun p hp => ⟨0,hlo,0,hlo,?_⟩⟩
      rw [mem_singleton.mp hp]
  | false =>
    simp only [Bool.false_eq_true,if_false,false_or]
    constructor
    · rintro ⟨q,hq,-⟩ htop
      rw [htop,sendIcachePages_endless (pageAligned_page addr)] at hq
      cases hq
    · intro hne
      have hsum := toNat_lastByte addr hlo
      have hbase := toNat_page addr
      have hlast := toNat_page (addr + size.setWidth 64 - 1)
      have hsize : icacheSize = 4096 := rfl
      have htop : ((addr + size.setWidth 64 - 1) &&& icachePageMask).toNat ≠ 18446744073709547520 :=
        fun h => hne (BitVec.eq_of_toNat_eq h)
      obtain ⟨q,heq,pages,hq,hp⟩ := sendIcachePages_ends (w := w) size Writer.numPages hm
        (pageAligned_page addr) (pageAligned_page (addr + size.setWidth 64 - 1)) (by omega)
        (by rw [Writer.numPages]; omega)
      refine ⟨q,heq,pages,hq,fun p h => ?_⟩
      obtain ⟨hge,hle⟩ := hp p h
      have := addr.isLt
      rcases Nat.le_total p.toNat addr.toNat with hpa | hpa
      · exact ⟨0,hlo,addr.toNat - p.toNat,by omega,by rw [← add_offset_of_lt hpa,BitVec.add_zero]⟩
      · exact ⟨p.toNat - addr.toNat,by omega,0,by decide,by rw [← add_offset_of_lt hpa,BitVec.add_zero]⟩

theorem low_page_sent : ∃ q, Writer.create.sendCode ⟨fun _ => 0,false,false,false⟩ 4095 2 = .ok q :=
  ((sendCode_ends_iff (by decide) (by decide)).mpr (.inr (by decide))).imp fun _ h => h.1

theorem last_page_endless :
    Writer.create.sendCode ⟨fun _ => 0,false,false,false⟩ 18446744073709551600 1 = .error .endlessPages := by
  have htop : ((18446744073709551600 : Address) + (1 : Byte).setWidth 64 - 1) &&& icachePageMask = icachePageMask := by
    decide
  rw [Writer.sendCode,if_neg (by decide),htop]
  exact sendIcachePages_endless (pageAligned_page _)

end Sift
