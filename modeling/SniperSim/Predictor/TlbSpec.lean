import SniperSim.Predictor.Tlb

open BitVec
namespace Tlb

def clearColumn (phist : IntPtr → IntPtr → Nat) (vpnHash : IntPtr) : IntPtr → IntPtr → Nat :=
  fun v pc => if v = vpnHash ∧ pc.toNat < 2 ^ pcBits then 0 else phist v pc

def train (phist : IntPtr → IntPtr → Nat) (vpn pc : IntPtr) (hits : Nat) : IntPtr → IntPtr → Nat :=
  fun v q =>
    if v = findHash vpn vpnBits ∧ q = findHash pc pcBits then
      if hits = 0 then phist v q + 1 else 0
    else phist v q

variable (t : Tlb)

def phistSeen (address : IntPtr) : IntPtr → IntPtr → Nat :=
  if vpnOf address ∈ t.shadowTable then clearColumn t.phist (findHash (vpnOf address) vpnBits)
  else t.phist

theorem findHash_lt (index : IntPtr) {bits : Nat} (h : bits < 64) : (findHash index bits).toNat < 2 ^ bits :=
  XorFold.toNat_fold_lt h _ _ _ (Nat.two_pow_pos bits)

variable (vpnHash ad a : IntPtr)

theorem setPhist_eq (pcHash : IntPtr) (n : Nat) : t.setPhist vpnHash pcHash n =
      { t with phist := fun v pc => if v = vpnHash ∧ pc = pcHash then n else t.phist v pc } := by
  simp only [setPhist,Tlb.mk.injEq,true_and,and_true]
  funext v pc
  by_cases hv : v = vpnHash
  · subst hv
    by_cases hp : pc = pcHash <;> simp [hp]
  · simp [hv]

theorem flush_prefix_eq (k : Nat) (hk : k ≤ 2 ^ 64) :
    (List.range k).foldl (fun t pcHash => t.setPhist vpnHash (BitVec.ofNat 64 pcHash) 0) t =
      { t with phist := fun v pc => if v = vpnHash ∧ pc.toNat < k then 0 else t.phist v pc } := by
  induction k with
  | zero => simp
  | succ k ih =>
    have hp : ∀ pc : IntPtr, pc = BitVec.ofNat 64 k ↔ pc.toNat = k := by
      intro pc
      rw [toNat_eq,toNat_ofNat,Nat.mod_eq_of_lt (by omega)]
    rw [List.range_succ,List.foldl_append,ih (by omega),List.foldl_cons,List.foldl_nil,setPhist_eq]
    simp only [Tlb.mk.injEq,true_and,and_true,hp]
    funext v pc
    by_cases hv : v = vpnHash
    · by_cases hk : pc.toNat = k
      · simp [hv,hk]
      · have hlt : pc.toNat < k ↔ pc.toNat < k + 1 := by omega
        simp [hv,hk,hlt]
    · simp [hv]

theorem flushingVpnColumn_eq : t.flushingVpnColumn vpnHash = { t with phist := clearColumn t.phist vpnHash } :=
  flush_prefix_eq t vpnHash (2 ^ pcBits) (by decide)

theorem shadowTableSearch_iff (vpn : IntPtr) : t.shadowTableSearch vpn ↔ vpn ∈ t.shadowTable := by
  simp [shadowTableSearch]

theorem updatingPhist_eq (evictAddr : IntPtr) : t.updatingPhist evictAddr =
      { t with phist := train t.phist (vpnOf evictAddr) (t.pcHist (vpnOf evictAddr))
                          (t.lltHits (vpnOf evictAddr)) } := by
  by_cases h : t.lltHits (vpnOf evictAddr) = 0
  · simp only [updatingPhist,h,if_true,setPhist_eq,Tlb.mk.injEq,true_and,and_true]
    funext v q
    by_cases hv : v = findHash (vpnOf evictAddr) vpnBits ∧ q = findHash (t.pcHist (vpnOf evictAddr)) pcBits
    · rw [if_pos hv,train,if_pos hv,if_pos rfl,hv.1,hv.2]
    · rw [if_neg hv,train,if_neg hv]
  · simp only [updatingPhist,h,if_false,setPhist_eq,Tlb.mk.injEq,true_and,and_true]
    funext v q
    simp [train,h]

variable (settings : TlbSettings)

def saturated (t : Tlb) (address : IntPtr) : Prop :=
  t.phistSeen address (findHash (vpnOf address) vpnBits) (findHash t.lastPc pcBits) > settings.phistThd

def observed (address : IntPtr) : Tlb :=
  { t with
    pcHist := Function.update t.pcHist (vpnOf address) t.lastPc
    phist := t.phistSeen address }

def admitted (address : IntPtr) : Tlb :=
  { t.observed address with lltHits := Function.update t.lltHits (vpnOf address) 0 }

theorem consult_eq : t.consult ad = t.observed ad := by
  simp only [consult,shadowTableSearch_iff,observed,phistSeen]
  split
  · rw [flushingVpnColumn_eq]
  · rfl

theorem satThd_consult_iff (t : Tlb) (ad : IntPtr) : satThd settings (t.consult ad) ad ↔ t.saturated settings ad := by
  rw [consult_eq]
  simp [satThd,saturated,observed]

theorem allocate_cases (t : Tlb) (pfq : List IntPtr) (ad : IntPtr) :
    (settings.dppred ∧ t.inLlt ∧ t.saturated settings ad ∧
      t.allocate settings pfq ad = (t.observed ad).bypassPage settings pfq ad) ∨
    (settings.dppred ∧ t.inLlt ∧ ¬ t.saturated settings ad ∧
      t.allocate settings pfq ad = (t.admitted ad).insertPage settings pfq ad) ∨
    ((settings.dppred && t.inLlt) = false ∧ t.allocate settings pfq ad = t.insertPage settings pfq ad) := by
  cases hl : settings.dppred && t.inLlt with
  | false => exact .inr (.inr ⟨rfl,by simp [allocate,hl]⟩)
  | true =>
    obtain ⟨hd,hi⟩ := Bool.and_eq_true_iff.mp hl
    by_cases hs : t.saturated settings ad
    · have hs' := (satThd_consult_iff settings t ad).mpr hs
      refine .inl ⟨hd,hi,hs,?_⟩
      simp only [allocate,hl,if_true,hs']
      rw [consult_eq]
    · have hs' : satThd settings (t.consult ad) ad = false :=
        Bool.eq_false_iff.mpr (fun hc => hs ((satThd_consult_iff settings t ad).mp hc))
      refine .inr (.inl ⟨hd,hi,hs,?_⟩)
      simp only [allocate,hl,if_true,hs',Bool.false_eq_true,if_false]
      rw [consult_eq]
      rfl

theorem insertPage_eq (t : Tlb) (pfq : List IntPtr) (ad : IntPtr) : t.insertPage settings pfq ad = ⟨{ t with
          alloc := t.alloc + 1
          cache := (t.cache.insertSingleLine ad).1
          phist :=
            match (t.cache.insertSingleLine ad).2 with
            | some e =>
              if settings.dppred && t.inLlt then
                train t.phist (vpnOf e) (t.pcHist (vpnOf e)) (t.lltHits (vpnOf e))
              else t.phist
            | none => t.phist },
        pfq,.inserted (t.cache.insertSingleLine ad).2⟩ := by
  cases h : (t.cache.insertSingleLine ad).2 with
  | none => simp only [insertPage,h]
  | some e =>
    simp only [insertPage,h,inLlt,updatingPhist_eq]
    by_cases hc : (settings.dppred && t.size == lltSize)
    · simp [hc]
    · simp [hc]

theorem insertPage_outcome (t : Tlb) (pfq : List IntPtr) (ad : IntPtr) :
    (t.insertPage settings pfq ad).outcome = .inserted (t.cache.insertSingleLine ad).2 := by
  rw [insertPage_eq]

theorem enter_hit (isIfetch : Bool) (h : t.cache.contains ad) : t.enter ad isIfetch = ({ t with
          cache := (t.cache.accessSingleLine ad).1
          access := t.access + 1
          lastPc := if isIfetch then ad else t.lastPc
          lltHits :=
            if t.inLlt then
              Function.update t.lltHits (vpnOf ad) (t.lltHits (vpnOf ad) + 1)
            else t.lltHits },true) := by
  have hh := (Cache.accessSingleLine_hit_iff t.cache ad).mpr h
  simp only [enter,hh,if_true,inLlt]
  by_cases hc : (t.size == lltSize)
  · simp [hc]
  · simp [hc]

theorem enter_miss (isIfetch : Bool) (h : ¬ t.cache.contains ad) : t.enter ad isIfetch = ({ t with
          cache := (t.cache.accessSingleLine ad).1
          access := t.access + 1
          lastPc := if isIfetch then ad else t.lastPc
          miss := t.miss + 1 },false) := by
  have hh : (t.cache.accessSingleLine ad).2 = false := by
    rw [Bool.eq_false_iff]
    exact fun hc => h ((Cache.accessSingleLine_hit_iff t.cache ad).mp hc)
  simp [enter,hh]

theorem vpnOf_eq : vpnOf a = (a >>> 12) <<< 12 := by
  rw [vpnOf,show hwPageBitmask = allOnes 64 <<< 12 by decide]
  ext i hi
  simp only [getElem_and,getElem_shiftLeft,getElem_allOnes]
  by_cases h : i < 12
  · simp [h]
  · have hi' : 12 + (i - 12) = i := by omega
    simp [h,hi',getLsbD_eq_getElem hi]

theorem vpnOf_shiftRight : vpnOf a >>> 12 = a >>> 12 := by
  rw [vpnOf_eq]
  ext i hi
  by_cases h : 12 + i < 64
  · simp [h]
  · simp [h,getLsbD_of_ge a (12 + i) (by omega)]

theorem vpnOf_eq_iff (b : IntPtr) : vpnOf a = vpnOf b ↔ a >>> 12 = b >>> 12 := by
  constructor
  · intro h
    rw [← vpnOf_shiftRight a,h,vpnOf_shiftRight]
  · intro h
    rw [vpnOf_eq,h,← vpnOf_eq]

theorem vpnOf_tag : vpnOf ((a >>> 12) <<< 12) = vpnOf a := by
  rw [← vpnOf_eq,vpnOf_eq_iff,vpnOf_shiftRight]

end Tlb
