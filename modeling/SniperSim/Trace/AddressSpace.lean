import SniperSim.Library.Shuffle
import Mathlib.Tactic.IntervalCases

open BitVec Nat
namespace TraceThread

def rngNext (state : BitVec 64) : BitVec 64 := (0x5DEECE66D * state + 0xB) &&& 0xFFFFFFFFFFFF

def rngSeed (seed : BitVec 64) : BitVec 64 := (seed <<< 16) + 0x330E

def rngState (seed : BitVec 64) : Nat → BitVec 64
  | 0 => rngSeed seed
  | n + 1 => rngNext (rngState seed n)

structure Config where
  addressRandomization : Bool
  draws : Nat → Nat → BitVec 64

def randomized : Config :=
  { addressRandomization := true
    draws := fun app i => rngState (BitVec.ofNat 64 app) i >>> 16 }

structure Thread where
  (appId coreId : Nat)
  (appidFromCoreid traceHasPa : Bool)
  tracePa : BitVec 64 → BitVec 64
  memory : Nat → BitVec 8

def draw (c : Config) (app i : Nat) : Nat := ((c.draws app i % BitVec.ofNat 64 (i + 1)).setWidth 8).toNat

def addressRandomizationTable (c : Config) (t : Thread) : BitVec 8 → BitVec 8 := fun b =>
  Shuffle.insideOut (BitVec.ofNat 8) t.memory (draw c t.appId) 255 b.toNat

def remapAddress (table : BitVec 8 → BitVec 8) (vaPage : BitVec 64) : BitVec 64 :=
  (vaPage &&& ~~~0xffffff#64) ||| (table (vaPage.extractLsb' 0 8)).setWidth 64 |||
    ((table (vaPage.extractLsb' 8 8)).setWidth 64 <<< 8) |||
    ((table (vaPage.extractLsb' 16 8)).setWidth 64 <<< 16)

def randomizedPa (table : BitVec 8 → BitVec 8) (haddr va : BitVec 64) : BitVec 64 :=
  (haddr <<< 48) ||| (remapAddress table (va >>> 12) <<< 12) ||| (va &&& 0xfff)

def haddr (t : Thread) : BitVec 64 := BitVec.ofNat 64 (if t.appidFromCoreid then t.coreId else t.appId)

def va2pa (c : Config) (t : Thread) (va : BitVec 64) : BitVec 64 :=
  if t.traceHasPa ∧ t.tracePa va ≠ 0 then t.tracePa va
  else if c.addressRandomization then randomizedPa (addressRandomizationTable c t) (haddr t) va
  else (haddr t <<< 48) ||| (va &&& 0xffffffffffff)

variable {i : Nat}
section
variable (table : BitVec 8 → BitVec 8) (h va : BitVec 64)

theorem getLsbD_mask (hi : i < 64) : (BitVec.ofNat 64 (2 ^ k - 1)).getLsbD i = decide (i < k) := by
  rw [getLsbD_ofNat,testBit_two_pow_sub_one]
  simp [hi]

theorem getLsbD_randomizedPa (hi : i < 64) : (randomizedPa table h va).getLsbD i = if i < 12 then va.getLsbD i
      else if i < 20 then (table (va.extractLsb' 12 8)).getLsbD (i - 12)
      else if i < 28 then (table (va.extractLsb' 20 8)).getLsbD (i - 20)
      else if i < 36 then (table (va.extractLsb' 28 8)).getLsbD (i - 28) else if i < 48 then va.getLsbD i
      else h.getLsbD (i - 48) || va.getLsbD i := by
  have hpage : ∀ k, (va >>> 12).extractLsb' k 8 = va.extractLsb' (12 + k) 8 := by
    intro k
    ext j hj
    simp [getElem_extractLsb',add_assoc]
  have hoff : (0xfff#64).getLsbD i = decide (i < 12) := getLsbD_mask (k := 12) hi
  have hlow : (0xffffff#64).getLsbD (i - 12) = decide (i - 12 < 24) := getLsbD_mask (k := 24) (by omega)
  simp only [randomizedPa,remapAddress,getLsbD_or,getLsbD_and,getLsbD_not,getLsbD_shiftLeft,
    getLsbD_ushiftRight,getLsbD_setWidth,ofNat_eq_ofNat,hoff,hlow,hpage,hi]
  grind

theorem kept_randomizedPa (hi : i < 12 ∨ 36 ≤ i ∧ i < 48) : (randomizedPa table h va).getLsbD i = va.getLsbD i := by
  rw [getLsbD_randomizedPa table h va (by omega)]
  grind

theorem byte_randomizedPa (hk : k = 12 ∨ k = 20 ∨ k = 28) :
    (randomizedPa table h va).extractLsb' k 8 = table (va.extractLsb' k 8) := by
  ext i hi
  rw [getElem_extractLsb',← getLsbD_eq_getElem,getLsbD_randomizedPa table h va (by omega)]
  grind

theorem top_randomizedPa (hk : k < 16) :
    (randomizedPa table h va).getLsbD (48 + k) = (h.getLsbD k || va.getLsbD (48 + k)) := by
  rw [getLsbD_randomizedPa table h va (by omega)]
  grind
end

def Canonical (va : BitVec 64) : Prop := ∀ i, 47 ≤ i → i < 64 → va.getLsbD i = va.getLsbD 47

section
variable {va vb : BitVec 64}

theorem getLsbD_of_extract {x y : BitVec 64} {k n i : Nat}
    (h : x.extractLsb' k n = y.extractLsb' k n) (hk : k ≤ i) (hi : i < k + n) : x.getLsbD i = y.getLsbD i := by
  obtain ⟨j,rfl⟩ := Nat.exists_eq_add_of_le hk
  have hbit := congrArg (·.getLsbD j) h
  simpa [getLsbD_extractLsb',show j < n by omega] using hbit

theorem Canonical.eq_of_low (ha : Canonical va) (hb : Canonical vb)
    (h : ∀ i < 48, va.getLsbD i = vb.getLsbD i) : va = vb := by
  apply eq_of_getLsbD_eq
  intro i hi
  rcases lt_or_ge i 48 with hlt | hge
  · exact h i hlt
  · rw [ha i (by omega) hi,hb i (by omega) hi,h 47 (by decide)]

theorem low_of_fields {x y : BitVec 64} (hkept : ∀ i, i < 12 ∨ 36 ≤ i ∧ i < 48 → x.getLsbD i = y.getLsbD i)
    (hbyte : ∀ k, k = 12 ∨ k = 20 ∨ k = 28 → x.extractLsb' k 8 = y.extractLsb' k 8) :
    ∀ i < 48, x.getLsbD i = y.getLsbD i := by
  intro i hi
  rcases lt_or_ge i 12 with h12 | h12
  · exact hkept i (.inl h12)
  rcases lt_or_ge i 20 with h20 | h20
  · exact getLsbD_of_extract (hbyte 12 (.inl rfl)) h12 h20
  rcases lt_or_ge i 28 with h28 | h28
  · exact getLsbD_of_extract (hbyte 20 (.inr (.inl rfl))) h20 h28
  rcases lt_or_ge i 36 with h36 | h36
  · exact getLsbD_of_extract (hbyte 28 (.inr (.inr rfl))) h28 h36
  · exact hkept i (.inr ⟨h36,hi⟩)

theorem randomizedPa_low {t : BitVec 8 → BitVec 8} (ht : Function.Injective t) {h h' : BitVec 64}
    (heq : randomizedPa t h va = randomizedPa t h' vb) : ∀ i < 48, va.getLsbD i = vb.getLsbD i := by
  apply low_of_fields
  · intro i hi
    rw [← kept_randomizedPa t h va hi,heq,kept_randomizedPa t h' vb hi]
  · intro k hk
    apply ht
    rw [← byte_randomizedPa t h va hk,heq,byte_randomizedPa t h' vb hk]

theorem randomizedPa_lower_half (ha : Canonical va) (hb : Canonical vb) (hlow : va.getLsbD 47 = false)
    (heq : randomizedPa t h va = randomizedPa t' h' vb) : ∀ k < 16, h.getLsbD k = h'.getLsbD k := by
  have hlow' : vb.getLsbD 47 = false := by
    rw [← kept_randomizedPa t' h' vb (by decide),← heq,kept_randomizedPa t h va (by decide),hlow]
  intro k hk
  have htop := congrArg (·.getLsbD (48 + k)) heq
  simp only [top_randomizedPa _ _ _ hk] at htop
  rwa [ha (48 + k) (by omega) (by omega),hb (48 + k) (by omega) (by omega),hlow,hlow',
    Bool.or_false,Bool.or_false] at htop

theorem randomizedPa_upper_half {t t' : BitVec 8 → BitVec 8} (ht' : Function.Surjective t')
    (h h' : BitVec 64) (ha : Canonical va) (hhigh : va.getLsbD 47) :
    ∃ vb, Canonical vb ∧ randomizedPa t h va = randomizedPa t' h' vb := by
  choose g hg using fun b => ht' (t b)
  have hmid : (randomizedPa g 0 va).getLsbD 47 := by
    rw [kept_randomizedPa g 0 va (by decide),hhigh]
  have htop : ∀ k < 16, (randomizedPa g 0 va).getLsbD (48 + k) := by
    intro k hk
    rw [top_randomizedPa g 0 va hk,ha (48 + k) (by omega) (by omega),hhigh,Bool.or_true]
  refine ⟨randomizedPa g 0 va,?_,?_⟩
  · intro i hi hi'
    rcases lt_or_ge i 48 with hlt | hge
    · obtain rfl : i = 47 := by omega
      rfl
    · obtain ⟨k,rfl⟩ := Nat.exists_eq_add_of_le hge
      rw [htop k (by omega),hmid]
  · apply eq_of_getLsbD_eq
    intro i hi
    rcases lt_or_ge i 48 with hlt | hge
    · refine low_of_fields ?_ ?_ i hlt
      · intro i hi
        rw [kept_randomizedPa t h va hi,kept_randomizedPa t' h' _ hi,kept_randomizedPa g 0 va hi]
      · intro k hk
        rw [byte_randomizedPa t h va hk,byte_randomizedPa t' h' _ hk,byte_randomizedPa g 0 va hk,hg]
    · obtain ⟨k,rfl⟩ := Nat.exists_eq_add_of_le hge
      have hk : k < 16 := by omega
      rw [top_randomizedPa t h va hk,top_randomizedPa t' h' _ hk,htop k hk,
        ha (48 + k) (by omega) (by omega),hhigh,Bool.or_true,Bool.or_true]

theorem getLsbD_plainPa (h : BitVec 64) (hi : i < 64) : ((h <<< 48) ||| (va &&& 0xffffffffffff)).getLsbD i =
      if i < 48 then va.getLsbD i else h.getLsbD (i - 48) := by
  have hmask : (0xffffffffffff#64).getLsbD i = decide (i < 48) := getLsbD_mask (k := 48) hi
  simp only [getLsbD_or,getLsbD_and,ofNat_eq_ofNat,hmask,getLsbD_shiftLeft,hi]
  split_ifs with h48
  · simp [h48]
  · simp [h48]
end

structure Private (t : Thread) : Prop where
  scheduler : t.appidFromCoreid = false
  unmapped : ∀ va, t.traceHasPa → t.tracePa va = 0
  small : t.appId < 2 ^ 16

section
variable {c : Config} {t u : Thread}

theorem draw_le (c : Config) (app i : Nat) : draw c app i ≤ i := by
  rw [draw,toNat_setWidth]
  rcases lt_or_ge i 256 with hlt | hge
  · refine le_trans (mod_le _ _) ?_
    rw [toNat_umod,toNat_ofNat,mod_eq_of_lt (by omega : i + 1 < 2 ^ 64)]
    exact le_of_lt_succ (mod_lt _ (succ_pos i))
  · have := mod_lt (c.draws app i % BitVec.ofNat 64 (i + 1)).toNat (show 0 < 2 ^ 8 by decide)
    omega

theorem table_permutes (c : Config) (t : Thread) : Shuffle.Permutes (BitVec.ofNat 8) 255
    (Shuffle.insideOut (BitVec.ofNat 8) t.memory (draw c t.appId) 255) := by
  refine Shuffle.permutes_insideOut (N := 255) ?_ (draw_le c t.appId) t.memory (le_refl _)
  intro a ha b hb heq
  have hnat := congrArg BitVec.toNat heq
  rwa [toNat_ofNat,toNat_ofNat,mod_eq_of_lt (by omega),mod_eq_of_lt (by omega)] at hnat

theorem table_bijective (c : Config) (t : Thread) : Function.Bijective (addressRandomizationTable c t) := by
  have hp := table_permutes c t
  constructor
  · intro a b heq
    have := a.isLt
    have := b.isLt
    exact eq_of_toNat_eq (hp.injective a.toNat (by omega) b.toNat (by omega) heq)
  · intro v
    have := v.isLt
    obtain ⟨a,ha,hval⟩ := hp.surjective v.toNat (by omega)
    refine ⟨BitVec.ofNat 8 a,?_⟩
    rw [addressRandomizationTable,toNat_ofNat,mod_eq_of_lt (by omega),hval,ofNat_toNat,setWidth_eq]

theorem table_of_app (h : t.appId = u.appId) : addressRandomizationTable c t = addressRandomizationTable c u := by
  funext b
  have := b.isLt
  rw [addressRandomizationTable,addressRandomizationTable,h]
  exact Shuffle.insideOut_memory (draw_le c u.appId) _ _ (by omega)

theorem Private.va2pa_eq (h : Private t) (va : BitVec 64) : va2pa c t va = if c.addressRandomization then
      randomizedPa (addressRandomizationTable c t) (BitVec.ofNat 64 t.appId) va
    else (BitVec.ofNat 64 t.appId <<< 48) ||| (va &&& 0xffffffffffff) := by
  have hrec : ¬(t.traceHasPa ∧ t.tracePa va ≠ 0) := fun hr => hr.2 (h.unmapped va hr.1)
  have hh : haddr t = BitVec.ofNat 64 t.appId := by simp [haddr,h.scheduler]
  rw [va2pa,if_neg hrec,hh]

theorem Private.app_eq (ht : Private t) (hu : Private u)
    (h : ∀ k < 16, (BitVec.ofNat 64 t.appId).getLsbD k = (BitVec.ofNat 64 u.appId).getLsbD k) : t.appId = u.appId := by
  apply eq_of_testBit_eq
  intro k
  rcases lt_or_ge k 16 with hk | hk
  · have hbit := h k hk
    rwa [getLsbD_ofNat,getLsbD_ofNat,decide_eq_true (by omega : k < 64),Bool.true_and,Bool.true_and] at hbit
  · have hpow : 2 ^ 16 ≤ 2 ^ k := Nat.pow_le_pow_right (by decide) hk
    rw [testBit_lt_two_pow (lt_of_lt_of_le ht.small hpow),testBit_lt_two_pow (lt_of_lt_of_le hu.small hpow)]

theorem Private.offset (h : Private t) (va : BitVec 64) : va2pa c t va &&& 0xfff = va &&& 0xfff := by
  apply eq_of_getLsbD_eq
  intro i hi
  have hmask : (0xfff#64).getLsbD i = decide (i < 12) := getLsbD_mask (k := 12) hi
  simp only [getLsbD_and,ofNat_eq_ofNat,hmask]
  by_cases h12 : i < 12
  · congr 1
    rw [h.va2pa_eq]
    split_ifs
    · exact kept_randomizedPa _ _ _ (.inl h12)
    · rw [getLsbD_plainPa _ hi,if_pos (by omega)]
  · simp [h12]

theorem Private.plain_separates (ht : Private t) (hu : Private u) (ha : Canonical va) (hb : Canonical vb)
    (hc : c.addressRandomization = false) (heq : va2pa c t va = va2pa c u vb) : t.appId = u.appId ∧ va = vb := by
  rw [ht.va2pa_eq,hu.va2pa_eq,hc] at heq
  have hbit : ∀ i < 64, _ := fun i (hi : i < 64) => congrArg (·.getLsbD i) heq
  simp only [Bool.false_eq_true,if_false] at hbit
  constructor
  · apply ht.app_eq hu
    intro k hk
    have htop := hbit (48 + k) (by omega)
    rwa [getLsbD_plainPa _ (by omega),getLsbD_plainPa _ (by omega),if_neg (by omega),
      if_neg (by omega),Nat.add_sub_cancel_left] at htop
  · apply ha.eq_of_low hb
    intro i hi
    have hlow := hbit i (by omega)
    rwa [getLsbD_plainPa _ (by omega),getLsbD_plainPa _ (by omega),if_pos hi,if_pos hi] at hlow
end

theorem address_space_separation (c : Config) (t u : Thread) (ht : Private t) (hu : Private u)
    (va : BitVec 64) (hva : Canonical va) : Function.Bijective (addressRandomizationTable c t) ∧
    (∀ x, va2pa c t x &&& 0xfff = x &&& 0xfff) ∧
    ((∀ vb, Canonical vb → va2pa c t va = va2pa c u vb → t.appId = u.appId ∧ va = vb) ↔
      (c.addressRandomization = false ∨ t.appId = u.appId ∨ va.getLsbD 47 = false)) := by
  refine ⟨table_bijective c t,ht.offset,?_⟩
  cases hc : c.addressRandomization with
  | false => simpa using fun vb hb heq => ht.plain_separates hu hva hb hc heq
  | true =>
    simp only [Bool.true_eq_false,false_or]
    constructor
    · intro hsep
      by_cases hlow : va.getLsbD 47 = false
      · exact .inr hlow
      · obtain ⟨vb,hb,heq⟩ := randomizedPa_upper_half (table_bijective c u).2
          (BitVec.ofNat 64 t.appId) (BitVec.ofNat 64 u.appId) hva
          (Bool.not_eq_false _ ▸ hlow) (t := addressRandomizationTable c t)
        refine .inl (hsep vb hb ?_).1
        rw [ht.va2pa_eq,hu.va2pa_eq,if_pos hc,if_pos hc,heq]
    · intro hcase vb hb heq
      rw [ht.va2pa_eq,hu.va2pa_eq,if_pos hc,if_pos hc] at heq
      have happ : t.appId = u.appId := by
        rcases hcase with happ | hlow
        · exact happ
        · exact ht.app_eq hu (randomizedPa_lower_half hva hb hlow heq)
      rw [table_of_app happ] at heq
      exact ⟨happ,hva.eq_of_low hb (randomizedPa_low (table_bijective c u).1 heq)⟩

def ofApp (appId : Nat) : Thread :=
  { appId
    coreId := 0
    appidFromCoreid := false
    traceHasPa := false
    tracePa := fun _ => 0
    memory := fun _ => 0 }

theorem ofApp_private (h : appId < 2 ^ 16) : Private (ofApp appId) := ⟨rfl,fun _ _ => rfl,h⟩

theorem canonical_of_extract (h : va.extractLsb' 47 17 = 0 ∨ va.extractLsb' 47 17 = allOnes 17) : Canonical va := by
  have hbit : ∀ i, 47 ≤ i → i < 64 → va.getLsbD i = (va.extractLsb' 47 17).getLsbD (i - 47) := by
    intro i hi hi'
    rw [getLsbD_extractLsb',decide_eq_true (by omega),Bool.true_and,Nat.add_sub_cancel' hi]
  intro i hi hi'
  rw [hbit i hi hi',hbit 47 (by decide) (by decide)]
  rcases h with h | h
  · rw [h]
    simp
  · rw [h,getLsbD_allOnes,getLsbD_allOnes]
    simp
    omega

theorem heap_page_separated : (Private (ofApp 0) ∧ Private (ofApp 1) ∧ Canonical 0x00007f0000001234) ∧
    ∀ vb, Canonical vb → va2pa randomized (ofApp 0) 0x00007f0000001234 =
      va2pa randomized (ofApp 1) vb → (0 : Nat) = 1 ∧ 0x00007f0000001234 = vb := by
  have h0 : Private (ofApp 0) := ofApp_private (by decide)
  have h1 : Private (ofApp 1) := ofApp_private (by decide)
  have hc : Canonical 0x00007f0000001234 := canonical_of_extract (.inl (by decide))
  exact ⟨⟨h0,h1,hc⟩,(address_space_separation randomized (ofApp 0) (ofApp 1) h0 h1 _ hc).2.2.mpr
    (.inr (.inr (by decide)))⟩

theorem vsyscall_page_shared : Private (ofApp 0) ∧ Private (ofApp 1) ∧
    Canonical 0xffffffffff600000 ∧ Canonical 0xfffffff15a0b3000 ∧
    va2pa randomized (ofApp 0) 0xffffffffff600000 = 0xfffffff8be601000 ∧
    va2pa randomized (ofApp 1) 0xfffffff15a0b3000 = 0xfffffff8be601000 :=
  ⟨ofApp_private (by decide),ofApp_private (by decide),canonical_of_extract (.inr (by decide)),
    canonical_of_extract (.inr (by decide)),by decide +kernel,by decide +kernel⟩

end TraceThread
