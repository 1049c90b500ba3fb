import SniperSim.Sift.Reader
import SniperSim.Sift.Writer

open List Function Nat LittleEndian
namespace Sift
variable {icache : Address → Option (Nat → Byte)} {a base : Address} {n : Nat}

def PageAligned (base : Address) : Prop := Mask.Aligned 12 base

def Covered (getCode : Address → Byte) (icache : Address → Option (Nat → Byte)) (a : Address) : Prop :=
  ∃ page, icache (a &&& icachePageMask) = some page ∧ page (a &&& icacheOffsetMask).toNat = getCode a

theorem pageAligned_page (a : Address) : PageAligned (a &&& icachePageMask) := Mask.aligned_high (by decide) a

theorem PageAligned.page (hb : PageAligned base) (ho : o < icacheSize) :
    (base + BitVec.ofNat 64 o) &&& icachePageMask = base :=
  Mask.Aligned.high (by decide) hb ho

theorem PageAligned.offset (hb : PageAligned base) (ho : o < icacheSize) :
    ((base + BitVec.ofNat 64 o) &&& icacheOffsetMask).toNat = o :=
  Mask.Aligned.low (by decide) hb ho

theorem page_add_offset (a : Address) : (a &&& icachePageMask) + BitVec.ofNat 64 (a &&& icacheOffsetMask).toNat = a :=
  Mask.high_add a

theorem offset_lt (a : Address) : (a &&& icacheOffsetMask).toNat < icacheSize := by
  rw [icacheOffsetMask,Mask.toNat_and_low (by decide)]
  exact mod_lt _ (by decide)

theorem PageAligned.next (hb : PageAligned base) : PageAligned (base + BitVec.ofNat 64 icacheSize) := by
  have hd : 2 ^ 12 ∣ base.toNat := hb
  change 2 ^ 12 ∣ (base + BitVec.ofNat 64 icacheSize).toNat
  rw [BitVec.toNat_add,dvd_mod_iff (by decide)]
  exact Nat.dvd_add hd (by decide)

theorem add_ofNat_add (a : Address) (m n : Nat) :
    a + BitVec.ofNat 64 (m + n) = a + BitVec.ofNat 64 m + BitVec.ofNat 64 n := by
  rw [BitVec.ofNat_add,BitVec.add_assoc]

@[simp] theorem length_codeBytes : (codeBytes gc a n).length = n := by
  simp [codeBytes]

theorem codeBytes_getD (h : o < n) : (codeBytes gc a n).getD o 0 = gc (a + BitVec.ofNat 64 o) := by
  simp [codeBytes,getD,h]

theorem covered_of_page (hb : PageAligned base) (ho : o < icacheSize)
    (hi : icache base = some bytes) (hp : bytes o = gc (base + BitVec.ofNat 64 o)) :
    Covered gc icache (base + BitVec.ofNat 64 o) := by
  refine ⟨bytes,?_,?_⟩
  · rw [hb.page ho,hi]
  · rw [hb.offset ho,hp]

theorem Covered.page (h : Covered gc icache (base + BitVec.ofNat 64 o)) (hb : PageAligned base)
    (ho : o < icacheSize) : ∃ page, icache base = some page ∧ page o = gc (base + BitVec.ofNat 64 o) := by
  obtain ⟨page,hi,hp⟩ := h
  rw [hb.page ho] at hi
  rw [hb.offset ho] at hp
  exact ⟨page,hi,hp⟩

theorem Covered.update (h : Covered gc icache a) (hp : ∀ o < icacheSize, ∀ old, icache base = some old →
      bytes o = gc (base + BitVec.ofNat 64 o) ∨ bytes o = old o) : Covered gc (update icache base (some bytes)) a := by
  obtain ⟨old,hi,ho⟩ := h
  rcases eq_or_ne (a &&& icachePageMask) base with rfl | hne
  · refine ⟨bytes,update_self _ _ _,?_⟩
    rcases hp _ (offset_lt a) old hi with hcode | hold
    · rw [hcode,page_add_offset]
    · rw [hold,ho]
  · exact ⟨old,by rw [update_of_ne hne,hi],ho⟩

namespace Reader
variable {r : Reader}

def feed (r : Reader) (input : List Byte) : Reader := { r with input := input }

theorem take_feed {bytes : List Byte} (h : bytes.length = n) :
    (r.feed (bytes ++ rest)).take n = .ok (bytes,r.feed rest) := by
  unfold take feed
  rw [ByteStream.split_append h]

theorem takeNat_feed {m : Nat} (h : m < 256 ^ n) : (r.feed (encode n m ++ rest)).takeNat n = .ok (m,r.feed rest) := by
  rw [takeNat,take_feed (length_encode n m),← decode_encode_of_lt h]
  simp [bind,Except.bind,pure,Except.pure,decode_encode]

theorem takeAddress_feed : (r.feed (encodeAddress a ++ rest)).takeAddress = .ok (a,r.feed rest) := by
  rw [takeAddress,take_feed (length_encodeAddress a)]
  simp [bind,Except.bind,pure,Except.pure]

structure Stores (getCode : Address → Byte) (icache icache' : Address → Option (Nat → Byte))
    (a : Address) (n : Nat) : Prop where
  kept : ∀ b, Covered getCode icache b → Covered getCode icache' b
  stored : ∀ i < n, Covered getCode icache' (a + BitVec.ofNat 64 i)

theorem overwrite_spec (o : Nat) : overwrite page offset (codeBytes gc (base + BitVec.ofNat 64 offset) n) o =
      if offset ≤ o ∧ o < offset + n then gc (base + BitVec.ofNat 64 o) else page o := by
  unfold overwrite
  rw [length_codeBytes]
  split_ifs with ho
  · have hlt : o - offset < n := by omega
    rw [codeBytes_getD hlt,← add_ofNat_add,Nat.add_sub_cancel' ho.1]
  · rfl

theorem stores_overwrite (hb : PageAligned base) (hn : offset + n ≤ icacheSize)
    (hpage : ∀ old, icache base = some old → page = old) : Stores gc icache (update icache base
      (some (overwrite page offset (codeBytes gc (base + BitVec.ofNat 64 offset) n))))
      (base + BitVec.ofNat 64 offset) n := by
  constructor
  case kept =>
    intro b hcov
    refine hcov.update fun o _ old hold => ?_
    rw [overwrite_spec,hpage old hold]
    split_ifs <;> simp [*]
  case stored =>
    intro i hi
    rw [← add_ofNat_add]
    refine covered_of_page hb (by omega) (update_self _ _ _) ?_
    rw [overwrite_spec,if_pos (by omega)]

theorem Stores.trans (h : Stores gc icache icache' a m) (h' : Stores gc icache' icache'' (a + BitVec.ofNat 64 m) n) :
    Stores gc icache icache'' a (m + n) := by
  constructor
  case kept => exact fun b hb => h'.kept b (h.kept b hb)
  case stored =>
    intro i hi
    rcases lt_or_ge i m with him | him
    · exact h'.kept _ (h.stored i him)
    · have hs := h'.stored (i - m) (by omega)
      rwa [← add_ofNat_add,Nat.add_sub_cancel' him] at hs

theorem stores_chunk (page : Nat → Byte) (hn : (a &&& icacheOffsetMask).toNat + n ≤ icacheSize)
    (hpage : ∀ old, icache (a &&& icachePageMask) = some old → page = old) :
    Stores gc icache (update icache (a &&& icachePageMask)
      (some (overwrite page (a &&& icacheOffsetMask).toNat (codeBytes gc a n)))) a n := by
  have h : Stores gc icache _ _ n := stores_overwrite (pageAligned_page a) hn hpage
  rwa [page_add_offset] at h

theorem next_chunk (hk : min n (icacheSize - (a &&& icacheOffsetMask).toNat) = k) :
    n - k = 0 ∨ (a &&& icachePageMask) + BitVec.ofNat 64 icacheSize = a + BitVec.ofNat 64 k := by
  have hoff := offset_lt a
  rcases le_total n (icacheSize - (a &&& icacheOffsetMask).toNat) with hn | hn
  · exact .inl (by omega)
  · right
    have hsize : icacheSize = (a &&& icacheOffsetMask).toNat + k := by omega
    rw [hsize,add_ofNat_add,page_add_offset]

theorem codeBytes_next (hle : k ≤ n) (hnext : n - k = 0 ∨ base = a + BitVec.ofNat 64 k) :
    codeBytes gc a n = codeBytes gc a k ++ codeBytes gc base (n - k) := by
  obtain ⟨m,rfl⟩ := Nat.exists_eq_add_of_le hle
  rw [Nat.add_sub_cancel_left] at hnext ⊢
  rcases hnext with rfl | rfl
  · simp [codeBytes]
  · simp only [codeBytes,range_add,map_append,map_map]
    congr 1
    apply map_congr_left
    intro i _
    rw [comp_apply,add_ofNat_add]

theorem Stores.next (h : Stores gc icache icache' a k) (hle : k ≤ n)
    (hnext : n - k = 0 ∨ base = a + BitVec.ofNat 64 k) (h' : Stores gc icache' icache'' base (n - k)) :
    Stores gc icache icache'' a n := by
  obtain ⟨m,rfl⟩ := Nat.exists_eq_add_of_le hle
  rw [Nat.add_sub_cancel_left] at hnext h'
  rcases hnext with rfl | rfl
  · exact ⟨fun b hb => h'.kept b (h.kept b hb),fun i hi => h'.kept _ (h.stored i hi)⟩
  · exact h.trans h'

theorem readIcacheVariable_feed {fuel : Nat} (hfuel : n ≤ fuel) :
    ∃ icache', (∀ rest, readIcacheVariable fresh fuel (r.feed (codeBytes gc a n ++ rest)) a n =
        .ok (feed { r with icache := icache' } rest)) ∧ Stores gc r.icache icache' a n := by
  induction fuel generalizing r a n with
  | zero =>
    obtain rfl : n = 0 := by omega
    exact ⟨r.icache,fun _ => rfl,fun _ => id,nofun⟩
  | succ fuel ih =>
    rcases Nat.eq_zero_or_pos n with rfl | hpos
    · exact ⟨r.icache,fun _ => rfl,fun _ => id,nofun⟩
    · have hoff := offset_lt a
      obtain ⟨k,hk⟩ : ∃ k, min n (icacheSize - (a &&& icacheOffsetMask).toNat) = k := ⟨_,rfl⟩
      have hle : k ≤ n := by omega
      have hnow : Stores gc r.icache _ a k :=
        stores_chunk ((r.icache (a &&& icachePageMask)).getD (fresh (a &&& icachePageMask)))
          (by omega) (fun old h => by rw [h,Option.getD_some])
      obtain ⟨icache',heq,hst⟩ := ih (r := { r with icache := _ }) (n := n - k) (by omega)
      refine ⟨icache',fun rest => ?_,hnow.next hle (next_chunk hk) hst⟩
      rw [readIcacheVariable,if_neg (by omega)]
      dsimp only
      rw [hk,codeBytes_next hle (next_chunk hk),append_assoc,take_feed length_codeBytes]
      exact heq rest

theorem copyCode_spec (hfuel : n ≤ fuel) (hb : PageAligned base) (ho : offset < icacheSize)
    (h : ∀ i < n, Covered gc icache (base + BitVec.ofNat 64 (offset + i))) :
    copyCode icache fuel base offset n = .ok (codeBytes gc (base + BitVec.ofNat 64 offset) n) := by
  induction fuel generalizing base offset n with
  | zero =>
    obtain rfl : n = 0 := by omega
    rfl
  | succ fuel ih =>
    rcases Nat.eq_zero_or_pos n with rfl | hpos
    · rfl
    · obtain ⟨k,hk⟩ : ∃ k, min n (icacheSize - offset) = k := ⟨_,rfl⟩
      have hle : k ≤ n := by omega
      obtain ⟨page,hp,-⟩ := (h 0 hpos).page hb (by omega)
      have hnow : (range k).map (fun i => page (offset + i)) = codeBytes gc (base + BitVec.ofNat 64 offset) k := by
        apply map_congr_left
        intro i hi
        have hik : i < k := mem_range.mp hi
        obtain ⟨page',hp',hcode⟩ := (h i (by omega)).page hb (by omega)
        obtain rfl := Option.some.inj (hp.symm.trans hp')
        rw [hcode,add_ofNat_add]
      have hnext : n - k = 0 ∨ base + BitVec.ofNat 64 icacheSize =
          base + BitVec.ofNat 64 offset + BitVec.ofNat 64 k := by
        rcases le_total n (icacheSize - offset) with hn | hn
        · exact .inl (by omega)
        · rw [← add_ofNat_add]
          exact .inr (by congr 2; omega)
      have hrest : ∀ i < n - k, Covered gc icache (base + BitVec.ofNat 64 icacheSize + BitVec.ofNat 64 (0 + i)) := by
        intro i hi
        have hc := h (k + i) (by omega)
        rcases hnext with hz | he
        · omega
        · rwa [zero_add,he,← add_ofNat_add,← add_ofNat_add]
      rw [copyCode,if_neg (by omega)]
      dsimp only
      rw [hk,hp]
      dsimp only
      rw [ih (by omega) hb.next (by decide) hrest,hnow,codeBytes_next hle hnext]
      simp [bind,Except.bind,pure,Except.pure]

theorem staticInfoInstruction_spec {size : Byte} (h : ∀ i < size.toNat, Covered gc r.icache (a + BitVec.ofNat 64 i)) :
    r.staticInfoInstruction a size = .ok ⟨a,size,codeBytes gc a size.toNat,none⟩ := by
  have hcopy : copyCode r.icache size.toNat (a &&& icachePageMask) (a &&& icacheOffsetMask).toNat
      size.toNat = .ok (codeBytes gc a size.toNat) := by
    have hcov : ∀ i < size.toNat, Covered gc r.icache ((a &&& icachePageMask) +
        BitVec.ofNat 64 ((a &&& icacheOffsetMask).toNat + i)) := by
      intro i hi
      rw [add_ofNat_add,page_add_offset]
      exact h i hi
    rw [copyCode_spec le_rfl (pageAligned_page a) (offset_lt a) hcov,page_add_offset]
  rw [staticInfoInstruction,hcopy]
  rfl

end Reader
end Sift
