import SniperSim.Library.AffineMod
import Mathlib.Tactic.Linarith
import Mathlib.Tactic.Ring

open Nat AffineMod Nat.ModEq

inductive HashFunction
  | mask | mod | rng1Mod | rng2Mod | primeDis | xorMod | merMod
deriving DecidableEq, Repr

def rngA : Nat := 0x5DEECE66D

def rngC : Nat := 0xB

def rngSeed (seed : Nat) : Nat := (seed * 2 ^ 16 + 0x330E) % 2 ^ 64

def rngNext (state : Nat) : Nat := ((rngA * state + rngC) % 2 ^ 64) &&& (2 ^ 48 - 1)

def rngValue (state : Nat) : Nat := state >>> 16

def checkedMod (x n : Nat) : Option Nat := if n = 0 then none else some (x % n)

namespace HashFunction

def setIndex (hash : HashFunction) (numSets blockNum : Nat) : Option Nat :=
  match hash with
  | .mask => some (blockNum &&& (numSets - 1))
  | .mod => checkedMod blockNum numSets
  | .rng1Mod => checkedMod (rngValue (rngNext (rngSeed blockNum))) numSets
  | .rng2Mod => checkedMod (rngValue (rngNext (rngNext (rngSeed blockNum)))) numSets
  | .primeDis => do
    let si ← checkedMod blockNum numSets
    let ti := blockNum >>> Nat.log2 numSets
    checkedMod ((3 * ti + si) % 2 ^ 64) numSets
  | .xorMod => do
    let si ← checkedMod blockNum numSets
    let ti ← checkedMod (blockNum >>> Nat.log2 numSets) numSets
    return si ^^^ ti
  | .merMod => checkedMod blockNum (numSets - 1)

def Resolves (hash : HashFunction) (numSets locks : Nat) : Prop :=
  match hash with
  | .mask | .mod | .rng1Mod | .rng2Mod => locks ∣ numSets
  | .primeDis => locks = 1 ∨ numSets = 2 ^ Nat.log2 numSets + 3 ∧ locks ∣ 2 ^ Nat.log2 numSets
  | .xorMod => locks = 1
  | .merMod => locks ∣ numSets - 1

instance (hash : HashFunction) (numSets locks : Nat) : Decidable (hash.Resolves numSets locks) :=
  match hash with
  | .mask | .mod | .rng1Mod | .rng2Mod | .merMod => inferInstanceAs (Decidable (_ ∣ _))
  | .primeDis => inferInstanceAs (Decidable (_ ∨ _))
  | .xorMod => inferInstanceAs (Decidable (_ = _))

def Collide (hash : HashFunction) (numSets x y : Nat) : Prop :=
  ∃ i, hash.setIndex numSets x = some i ∧ hash.setIndex numSets y = some i

end HashFunction

theorem rngNext_eq (state : Nat) : rngNext state = (rngA * state + rngC) % 2 ^ 48 := by
  rw [rngNext,and_two_pow_sub_one_eq_mod]
  exact mod_mod_of_dvd _ (pow_dvd_pow 2 (by decide))

theorem rngNext_mod (state : Nat) (hm : 48 ≤ m) : rngNext (state % 2 ^ m) = rngNext state := by
  have hd : 2 ^ 48 ∣ 2 ^ m := pow_dvd_pow 2 hm
  rw [rngNext_eq,rngNext_eq]
  exact (((mod_modEq state _).of_dvd hd).mul_left _).add_right _

theorem rngValue_affine (p q : Nat) : rngValue ((p * 2 ^ 16 + q) % 2 ^ 48) = (p + q / 2 ^ 16) % 2 ^ 32 := by
  rw [rngValue,shiftRight_eq_div_pow,show 2 ^ 48 = 2 ^ 16 * 2 ^ 32 by decide,
    mod_mul_right_div_self,add_comm (p * 2 ^ 16),add_mul_div_right _ _ (by decide),add_comm]

def rng1 (x : Nat) : Nat := AffineMod.value 32 rngA ((rngA * 0x330E + rngC) / 2 ^ 16) x

def rng2 (x : Nat) : Nat := AffineMod.value 32 (rngA * rngA) ((rngA * (rngA * 0x330E + rngC) + rngC) / 2 ^ 16) x

theorem rng1_eq (x : Nat) : rngValue (rngNext (rngSeed x)) = rng1 x := by
  have hs : rngA * (x * 2 ^ 16 + 0x330E) + rngC = rngA * x * 2 ^ 16 + (rngA * 0x330E + rngC) := by ring
  rw [rngSeed,rngNext_mod _ (by decide),rngNext_eq,hs,rngValue_affine,rng1,value]

theorem rng2_eq (x : Nat) : rngValue (rngNext (rngNext (rngSeed x))) = rng2 x := by
  have hs : rngA * (rngA * (x * 2 ^ 16 + 0x330E) + rngC) + rngC =
      rngA * rngA * x * 2 ^ 16 + (rngA * (rngA * 0x330E + rngC) + rngC) := by ring
  rw [rngSeed,rngNext_mod _ (by decide),rngNext_eq (x * 2 ^ 16 + 0x330E),rngNext_mod _ (by decide),
    rngNext_eq,hs,rngValue_affine,rng2,value]

theorem coprime_rngA : Nat.Coprime rngA 2 := by decide

namespace HashFunction
variable {n x y i : Nat} {hash : HashFunction}

theorem checkedMod_pos (h : 0 < n) (x : Nat) : checkedMod x n = some (x % n) := by
  simp [checkedMod,h.ne']

theorem collide_of_eq (f : Nat → Nat) (hf : ∀ x, hash.setIndex n x = some (f x)) : hash.Collide n x y ↔ f x = f y := by
  constructor
  · rintro ⟨i,hx,hy⟩
    rw [hf,Option.some.injEq] at hx hy
    exact hx.trans hy.symm
  · intro h
    exact ⟨f x,hf x,by rw [hf,h]⟩

theorem collide_mask (hn : n = 2 ^ Nat.log2 n) : Collide .mask n x y ↔ x % n = y % n := by
  refine collide_of_eq (· % n) fun x => ?_
  rw [setIndex]
  generalize Nat.log2 n = m at hn
  rw [hn,and_two_pow_sub_one_eq_mod]

theorem collide_mod (hn : 0 < n) : Collide .mod n x y ↔ x % n = y % n :=
  collide_of_eq (· % n) fun x => checkedMod_pos hn x

theorem collide_merMod (hn : 0 < n - 1) : Collide .merMod n x y ↔ x % (n - 1) = y % (n - 1) :=
  collide_of_eq (· % (n - 1)) fun x => checkedMod_pos hn x

theorem collide_rng1Mod (hn : 0 < n) : Collide .rng1Mod n x y ↔ rng1 x % n = rng1 y % n :=
  collide_of_eq (rng1 · % n) fun x => by rw [setIndex,rng1_eq,checkedMod_pos hn]

theorem collide_rng2Mod (hn : 0 < n) : Collide .rng2Mod n x y ↔ rng2 x % n = rng2 y % n :=
  collide_of_eq (rng2 · % n) fun x => by rw [setIndex,rng2_eq,checkedMod_pos hn]

theorem setIndex_xorMod (hn : 0 < n) (x : Nat) :
    setIndex .xorMod n x = some ((x % n) ^^^ (x / 2 ^ Nat.log2 n % n)) := by
  simp only [setIndex,checkedMod_pos hn,shiftRight_eq_div_pow]
  rfl

theorem setIndex_primeDis (hn : 0 < n) (x : Nat) :
    setIndex .primeDis n x = some ((3 * (x / 2 ^ Nat.log2 n) + x % n) % 2 ^ 64 % n) := by
  simp only [setIndex,checkedMod_pos hn,shiftRight_eq_div_pow]
  rfl

theorem collide_primeDis (hn : 0 < n) : Collide .primeDis n x y ↔
    (3 * (x / 2 ^ Nat.log2 n) + x % n) % 2 ^ 64 % n = (3 * (y / 2 ^ Nat.log2 n) + y % n) % 2 ^ 64 % n :=
  collide_of_eq _ (setIndex_primeDis hn)

theorem even_two_pow (hm : 1 ≤ m) : 2 ^ m % 2 = 0 := mod_eq_zero_of_dvd (dvd_pow_self 2 (by omega))

theorem parity_eq (hk : k ≠ 0) (h : x ≡ y [MOD 2 ^ k]) : x % 2 = y % 2 := h.of_dvd (dvd_pow_self 2 hk)

theorem primeDis_index (hn : 0 < n) (hn' : n < 2 ^ 32) (hm : 2 ≤ m) (hx : x < 2 ^ 64) :
    (3 * (x / 2 ^ m) + x % n) % 2 ^ 64 % n = (3 * (x / 2 ^ m) + x) % n := by
  have hq : x / 2 ^ m ≤ x / 4 :=
    Nat.div_le_div_left (show 2 ^ 2 ≤ 2 ^ m from Nat.pow_le_pow_right (by decide) hm) (by decide)
  have hr := mod_lt x hn
  rw [mod_eq_of_lt (show 3 * (x / 2 ^ m) + x % n < 2 ^ 64 by omega),add_mod_mod]

theorem primeDis_low (hn : n = 2 ^ m + 3) (x : Nat) : (3 * (x / 2 ^ m) + x) % n = x % 2 ^ m := by
  have hs : 3 * (x / 2 ^ m) + x = n * (x / 2 ^ m) + x % 2 ^ m := by
    have hdiv := div_add_mod x (2 ^ m)
    rw [hn,add_mul]
    omega
  rw [hs,mul_add_mod,mod_eq_of_lt (by omega)]

theorem collide_primeDis_of (hn : 0 < n) (hn' : n < 2 ^ 32) (hm : 2 ≤ Nat.log2 n)
    (q r q' r' j : Nat) (hr : r < 2 ^ Nat.log2 n) (hr' : r' < 2 ^ Nat.log2 n) (hx : 2 ^ Nat.log2 n * q + r < 2 ^ 64)
    (hy : 2 ^ Nat.log2 n * q' + r' < 2 ^ 64)
    (h : 3 * q' + (2 ^ Nat.log2 n * q' + r') = 3 * q + (2 ^ Nat.log2 n * q + r) + n * j) :
    Collide .primeDis n (2 ^ Nat.log2 n * q + r) (2 ^ Nat.log2 n * q' + r') := by
  have hdiv {q r : Nat} (hr : r < 2 ^ Nat.log2 n) : (2 ^ Nat.log2 n * q + r) / 2 ^ Nat.log2 n = q := by
    rw [Nat.mul_add_div (Nat.two_pow_pos _),Nat.div_eq_of_lt hr,Nat.add_zero]
  rw [collide_primeDis hn,primeDis_index hn hn' hm hx,primeDis_index hn hn' hm hy,hdiv hr,hdiv hr',
    h,add_mul_mod_self_left]

theorem modEq_of_collide (hn : 0 < n) (hn' : n < 2 ^ 32)
    (hmask : hash = .mask → n = 2 ^ Nat.log2 n) (hk : k ≤ 32) (hr : hash.Resolves n (2 ^ k))
    (hx : x < 2 ^ 64) (hy : y < 2 ^ 64) (h : hash.Collide n x y) : x ≡ y [MOD 2 ^ k] := by
  cases hash with
  | mask => exact of_dvd hr ((collide_mask (hmask rfl)).mp h)
  | mod => exact of_dvd hr ((collide_mod hn).mp h)
  | rng1Mod => exact modEq_of_value hk hr (coprime_rngA.pow_right k).symm ((collide_rng1Mod hn).mp h)
  | rng2Mod =>
    exact modEq_of_value hk hr ((coprime_rngA.mul_left coprime_rngA).pow_right k).symm ((collide_rng2Mod hn).mp h)
  | primeDis =>
    rcases hr with hone | ⟨hlow,hd⟩
    · rw [hone]
      exact modEq_one
    · have hlt : n < 2 ^ (Nat.log2 n + 1) := lt_log2_self
      have hm : 2 ≤ Nat.log2 n := by
        refine Nat.lt_of_not_le fun hle => ?_
        have := Nat.pow_le_pow_right (n := 2) (by decide) hle
        omega
      have hc := (collide_primeDis hn).mp h
      rw [primeDis_index hn hn' hm hx,primeDis_index hn hn' hm hy,primeDis_low hlow,primeDis_low hlow] at hc
      exact of_dvd hd hc
  | xorMod =>
    rw [show 2 ^ k = 1 from hr]
    exact modEq_one
  | merMod =>
    rcases Nat.eq_zero_or_pos (n - 1) with hz | hpos
    · obtain ⟨i,hi,-⟩ := h
      simp [setIndex,checkedMod,hz] at hi
    · exact of_dvd hr ((collide_merMod hpos).mp h)

def Small (n x : Nat) : Prop := x < 2 ^ 32 ∨ x ≤ n * n

theorem small_of_le (h : x ≤ 3 * n) : Small n x := by
  rcases lt_or_ge n 3 with hn | hn
  · exact .inl (by omega)
  · exact .inr (h.trans (mul_le_mul_right n hn))

theorem primeDis_parity (hn : 0 < n) (hn' : n < 2 ^ 32) (hne : n ≠ 2 ^ Nat.log2 n + 3) :
    ∃ x y, x ≤ 3 * n ∧ y ≤ 3 * n ∧ Collide .primeDis n x y ∧ x % 2 ≠ y % 2 := by
  rcases lt_or_ge n 4 with hlt | hge
  · have hc : Collide .primeDis n 0 (2 * (n / 2) + 1) := by
      obtain rfl | rfl | rfl : n = 1 ∨ n = 2 ∨ n = 3 := by omega
      all_goals exact ⟨0,by decide +kernel,by decide +kernel⟩
    exact ⟨0,_,by omega,by omega,hc,by omega⟩
  · have hm : 2 ≤ Nat.log2 n := (le_log2 (by omega)).mpr hge
    have hev := even_two_pow (m := Nat.log2 n) (by omega)
    have hlow : 2 ^ Nat.log2 n ≤ n := log2_self_le hn.ne'
    have hhigh : n < 2 ^ (Nat.log2 n + 1) := lt_log2_self
    have hfour : 4 ≤ 2 ^ Nat.log2 n := Nat.pow_le_pow_right (n := 2) (by decide) hm
    have hof := collide_primeDis_of hn hn' hm
    rw [pow_succ] at hhigh
    generalize 2 ^ Nat.log2 n = p at hne hev hlow hhigh hfour hof
    obtain he | he | he | he | he | he :
        n = p ∨ n = p + 1 ∨ n = p + 2 ∨ (p + 4 ≤ n ∧ n % 2 = 0) ∨ n = p + 5 ∨ (p + 7 ≤ n ∧ n % 2 = 1) := by omega
    · exact ⟨_,_,by omega,by omega,hof 0 3 1 0 1 (by omega) (by omega) (by omega) (by omega) (by omega),by omega⟩
    · exact ⟨_,_,by omega,by omega,hof 0 0 1 (p - 1) 2 (by omega) (by omega) (by omega) (by omega) (by omega),by omega⟩
    · exact ⟨_,_,by omega,by omega,hof 0 1 1 0 1 (by omega) (by omega) (by omega) (by omega) (by omega),by omega⟩
    · exact ⟨_,_,by omega,by omega,hof 0 0 1 (n - p - 3) 1 (by omega) (by omega) (by omega)
        (by omega) (by omega),by omega⟩
    · exact ⟨_,_,by omega,by omega,hof 0 (p - 1) 3 0 2 (by omega) (by omega) (by omega) (by omega) (by omega),by omega⟩
    · exact ⟨_,_,by omega,by omega,hof 0 (2 * p + 6 - n) 2 0 1 (by omega) (by omega) (by omega)
        (by omega) (by omega),by omega⟩

theorem primeDis_wrap (hn : 0 < n) (hn' : n < 2 ^ 32) (he : n = 2 ^ Nat.log2 n + 3) :
    Collide .primeDis n 0 (2 ^ Nat.log2 n) := by
  have hhigh : n < 2 ^ (Nat.log2 n + 1) := lt_log2_self
  have hm : 2 ≤ Nat.log2 n := by
    refine Nat.lt_of_not_le fun hle => ?_
    have := Nat.pow_le_pow_right (n := 2) (by decide) hle
    omega
  have h := collide_primeDis_of hn hn' hm 0 0 1 0 1 (by omega) (by omega) (by omega) (by omega) (by omega)
  simpa using h

theorem collide_xorMod_of (hn : 0 < n) (hm : y % n = t % n) (hd : y / 2 ^ Nat.log2 n = t) : Collide .xorMod n 0 y := by
  rw [collide_of_eq _ (setIndex_xorMod hn),hm,hd,Nat.xor_self,Nat.zero_mod,Nat.zero_div,Nat.zero_mod,Nat.xor_self]

theorem xorMod_parity (hn : 0 < n) : ∃ y, Small n y ∧ Collide .xorMod n 0 y ∧ y % 2 = 1 := by
  have hlow : 2 ^ Nat.log2 n ≤ n := log2_self_le hn.ne'
  have hhigh : n < 2 ^ (Nat.log2 n + 1) := lt_log2_self
  have hof := fun y t => collide_xorMod_of (y := y) (t := t) hn
  have hpos := Nat.two_pow_pos (Nat.log2 n)
  rw [pow_succ] at hhigh
  rcases lt_or_ge n 2 with hone | htwo
  · obtain rfl : n = 1 := by omega
    exact ⟨1,.inl (by decide),⟨0,by decide +kernel,by decide +kernel⟩,rfl⟩
  have hev := even_two_pow (m := Nat.log2 n) ((le_log2 (by omega)).mpr htwo)
  generalize 2 ^ Nat.log2 n = p at *
  rcases mod_two_eq_zero_or_one n with hz | ho
  · refine ⟨n + 1,small_of_le (by omega),hof _ 1 (add_mod_left n 1) ?_,by omega⟩
    exact (Nat.div_eq_iff hpos).mpr (by omega)
  · obtain ⟨d,hd⟩ : ∃ d, n = p + d := ⟨n - p,by omega⟩
    obtain ⟨u,hu⟩ : ∃ u, u = (n - 1) / (d + 1) := ⟨_,rfl⟩
    have hlo : u * (d + 1) ≤ n - 1 := hu ▸ div_mul_le_self _ _
    have hhi : n - 1 < u * (d + 1) + (d + 1) := hu ▸ lt_div_mul_add (by omega)
    have hun : u ≤ n - 2 := by
      have := Nat.div_le_div_left (a := n - 1) (show 2 ≤ d + 1 by omega) (by decide)
      omega
    have hy : n * u + (u + 1) = p * (u + 1) + (u * (d + 1) + (d + 1) - n) := by
      have hs : u * (d + 1) + (d + 1) - n + n = u * (d + 1) + (d + 1) := Nat.sub_add_cancel (by omega)
      rw [hd] at hs ⊢
      linarith
    refine ⟨n * u + (u + 1),.inr ?_,hof _ (u + 1) (mul_add_mod _ _ _) ?_,?_⟩
    · have := mul_le_mul_left n hun
      have : n * (n - 2) + n * 2 = n * n := by rw [← Nat.mul_add,Nat.sub_add_cancel htwo]
      omega
    · rw [hy,Nat.mul_add_div hpos,Nat.div_eq_of_lt (by omega),Nat.add_zero]
    · obtain ⟨w,hw⟩ : ∃ w, n = 2 * w + 1 := ⟨n / 2,by omega⟩
      have hs : n * u + (u + 1) = 2 * (w * u + u) + 1 := by
        rw [hw]
        ring
      omega

theorem resolves_of_modEq (hn : 0 < n) (hn' : n < 2 ^ 32) (hmask : hash = .mask → n = 2 ^ Nat.log2 n) (hk : k ≤ 32)
    (h : ∀ x y, Small n x → Small n y → hash.Collide n x y → x ≡ y [MOD 2 ^ k]) : hash.Resolves n (2 ^ k) := by
  have hzero : Small n 0 := .inl (by decide)
  have hdvd (hc : hash.Collide n 0 n) : 2 ^ k ∣ n := modEq_zero_iff_dvd.mp (h 0 n hzero (.inl hn') hc).symm
  cases hash with
  | mask => exact hdvd ((collide_mask (hmask rfl)).mpr (by rw [Nat.zero_mod,mod_self]))
  | mod => exact hdvd ((collide_mod hn).mpr (by rw [Nat.zero_mod,mod_self]))
  | rng1Mod =>
    obtain ⟨x,hx,y,hy,hx0,hy0,hd⟩ := collision (w := 32) (by decide)
      (coprime_rngA.pow_right 32) ((rngA * 0x330E + rngC) / 2 ^ 16) hn'
    exact hd k hk (h x y (.inl hx) (.inl hy) ((collide_rng1Mod hn).mpr (hx0.trans hy0.symm)))
  | rng2Mod =>
    obtain ⟨x,hx,y,hy,hx0,hy0,hd⟩ := collision (w := 32) (by decide)
      ((coprime_rngA.mul_left coprime_rngA).pow_right 32)
      ((rngA * (rngA * 0x330E + rngC) + rngC) / 2 ^ 16) hn'
    exact hd k hk (h x y (.inl hx) (.inl hy) ((collide_rng2Mod hn).mpr (hx0.trans hy0.symm)))
  | primeDis =>
    rcases eq_or_ne k 0 with rfl | hk0
    · exact .inl rfl
    · rcases eq_or_ne n (2 ^ Nat.log2 n + 3) with he | hne
      · refine .inr ⟨he,modEq_zero_iff_dvd.mp ?_⟩
        exact (h 0 _ hzero (.inl (by omega)) (primeDis_wrap hn hn' he)).symm
      · obtain ⟨x,y,hx,hy,hc,hp⟩ := primeDis_parity hn hn' hne
        exact absurd (parity_eq hk0 (h x y (small_of_le hx) (small_of_le hy) hc)) hp
  | xorMod =>
    rcases eq_or_ne k 0 with rfl | hk0
    · rfl
    · obtain ⟨y,hy,hc,hp⟩ := xorMod_parity hn
      have := parity_eq hk0 (h 0 y hzero hy hc)
      omega
  | merMod =>
    rcases Nat.eq_zero_or_pos (n - 1) with hz | hpos
    · change 2 ^ k ∣ n - 1
      rw [hz]
      exact dvd_zero _
    · refine modEq_zero_iff_dvd.mp (h 0 (n - 1) hzero (.inl (by omega)) ?_).symm
      exact (collide_merMod hpos).mpr (by rw [Nat.zero_mod,mod_self])

end HashFunction
