import SniperSim.Predictor.LltRun

open BoundedQueue
variable (settings : TlbSettings) (t : Tlb)
variable (pfq : List IntPtr) (a : IntPtr) (isIfetch : Bool)
namespace Tlb

theorem shadowTableInsert_eq (vpn : IntPtr) (h : t.shadowTable.length ≤ settings.shadowTableSize) :
    (t.shadowTableInsert settings vpn).shadowTable = push settings.shadowTableSize t.shadowTable vpn := by
  simp only [shadowTableInsert,push]
  rcases h.lt_or_eq with h | h
  · rw [if_neg h.ne,if_pos h]
  · rw [if_pos h,if_neg h.not_lt]

theorem not_saturated_of_shadow (h : vpnOf a ∈ t.shadowTable) : ¬ t.saturated settings a := by
  have hpc : (findHash t.lastPc pcBits).toNat < 2 ^ pcBits := findHash_lt _ (by decide)
  simp [saturated,phistSeen,h,clearColumn,hpc]

structure ShadowOk (settings : TlbSettings) (t : Tlb) : Prop where
  bounded : t.shadowTable.length ≤ settings.shadowTableSize
  nodup : t.shadowTable.Nodup

theorem shadowOk_allocate (hs : 1 ≤ settings.shadowTableSize) (t : Tlb)
    (pfq : List IntPtr) (a : IntPtr) (h : t.ShadowOk settings) : (t.allocate settings pfq a).tlb.ShadowOk settings := by
  rcases allocate_cases settings t pfq a with ⟨-,-,hsat,he⟩ | ⟨-,-,-,he⟩ | ⟨-,he⟩
  · have hv : vpnOf a ∉ t.shadowTable := fun hm => not_saturated_of_shadow settings t a hm hsat
    have hq := shadowTableInsert_eq settings { t with bypass := t.bypass + 1 } (vpnOf a) h.bounded
    rw [he]
    exact ⟨hq ▸ length_push_le _ hs _ _ h.bounded,hq ▸ nodup_push _ _ _ h.nodup hv⟩
  · rw [he,insertPage_eq]
    exact { h with }
  · rw [he,insertPage_eq]
    exact { h with }

theorem shadow_allocate_inserts (hc : t.cache.Populated) (h : vpnOf a ∈ t.shadowTable) :
    (t.allocate settings pfq a).tlb.cache.contains a ∧ (t.allocate settings pfq a).tlb.bypass = t.bypass := by
  rcases allocate_cases settings t pfq a with ⟨-,-,hsat,-⟩ | ⟨-,-,-,he⟩ | ⟨-,he⟩
  · exact absurd hsat (not_saturated_of_shadow settings t a h)
  · rw [he,insertPage_eq]
    exact ⟨Cache.contains_insert hc a,rfl⟩
  · rw [he,insertPage_eq]
    exact ⟨Cache.contains_insert hc a,rfl⟩

theorem populated_allocate (hc : t.cache.Populated) : (t.allocate settings pfq a).tlb.cache.Populated := by
  rcases allocate_cases settings t pfq a with ⟨-,-,-,he⟩ | ⟨-,-,-,he⟩ | ⟨-,he⟩
  · rwa [he]
  · rw [he,insertPage_eq]
    exact Cache.populated_insert hc a
  · rw [he,insertPage_eq]
    exact Cache.populated_insert hc a

end Tlb

namespace Llt

theorem enter_keeps : (t.enter a isIfetch).1.shadowTable = t.shadowTable ∧ (t.enter a isIfetch).1.bypass = t.bypass ∧
    (t.enter a isIfetch).1.cache = (t.cache.accessSingleLine a).1 := by
  by_cases h : t.cache.contains a
  · rw [Tlb.enter_hit t a isIfetch h]
    exact ⟨rfl,rfl,rfl⟩
  · rw [Tlb.enter_miss t a isIfetch h]
    exact ⟨rfl,rfl,rfl⟩

structure ShadowInv (settings : TlbSettings) (s : Llt) : Prop where
  shadow : s.tlb.ShadowOk settings
  populated : s.tlb.cache.Populated

theorem shadowInv_enter (h : ShadowInv settings ⟨t,pfq⟩) : ShadowInv settings ⟨(t.enter a isIfetch).1,pfq⟩ := by
  obtain ⟨hs,-,hc⟩ := enter_keeps t a isIfetch
  refine ⟨⟨?_,?_⟩,?_⟩
  · rw [hs]
    exact h.shadow.bounded
  · rw [hs]
    exact h.shadow.nodup
  · rw [hc]
    exact Cache.populated_access h.populated a

theorem shadowInv_step (hs : 1 ≤ settings.shadowTableSize) (s : Llt)
    (c : LookupCall) (h : ShadowInv settings s) : ShadowInv settings (s.step settings c) := by
  have he := shadowInv_enter settings s.tlb s.pfq c.address c.isIfetch h
  by_cases hc : s.tlb.cache.contains c.address
  · rwa [(step_hit settings s c hc).1]
  · cases ha : c.allocateOnMiss with
    | false =>
      rwa [(step_skip settings s c hc ha).1]
    | true =>
      rw [(step_allocate settings s c hc ha).1]
      exact ⟨Tlb.shadowOk_allocate settings hs _ _ _ he.shadow,Tlb.populated_allocate settings _ _ _ he.populated⟩

theorem shadow_table_second_chance (hs : 1 ≤ settings.shadowTableSize)
    (associativity : Nat) (ha : 0 < associativity) (lastPc : IntPtr) (pfq : List IntPtr)
    (calls : List LookupCall) : let s := (create associativity lastPc pfq).run settings calls
    (s.tlb.shadowTable.length ≤ settings.shadowTableSize ∧ s.tlb.shadowTable.Nodup) ∧
    ∀ c : LookupCall, Tlb.vpnOf c.address ∈ s.tlb.shadowTable →
      ¬ s.tlb.cache.contains c.address → c.allocateOnMiss →
      (s.step settings c).tlb.cache.contains c.address ∧ (s.step settings c).tlb.bypass = s.tlb.bypass := by
  intro s
  have hinv : ShadowInv settings s :=
    Run.foldl_invariant (shadowInv_step settings hs) 
      ⟨⟨by simp [create,Tlb.create],by simp [create,Tlb.create]⟩,Cache.populated_create _ _ ha⟩ calls
  refine ⟨⟨hinv.shadow.bounded,hinv.shadow.nodup⟩,?_⟩
  intro c hv hc hal
  have he := shadowInv_enter settings s.tlb s.pfq c.address c.isIfetch hinv
  have hv' : Tlb.vpnOf c.address ∈ (missed s.tlb c).shadowTable := by
    rwa [missed,(enter_keeps _ _ _).1]
  have hi := Tlb.shadow_allocate_inserts settings (missed s.tlb c) s.pfq c.address he.populated hv'
  rw [(step_allocate settings s c hc hal).1]
  exact ⟨hi.1,hi.2.trans (enter_keeps s.tlb c.address c.isIfetch).2.1⟩

def shadowWitnessCalls : List LookupCall := [⟨0,false,true⟩,⟨0x400000,false,true⟩,⟨0,false,true⟩]

theorem shadow_table_second_chance_at_page_zero : let settings : TlbSettings := ⟨true,0,8,2⟩
    let s := (create 1 0 []).run settings shadowWitnessCalls
    s.tlb.shadowTable = [0] ∧ (s.step settings ⟨0,false,true⟩).tlb.cache.contains 0 ∧
      (s.step settings ⟨0,false,true⟩).tlb.bypass = s.tlb.bypass := by
  refine ⟨by decide,?_⟩
  exact (shadow_table_second_chance ⟨true,0,8,2⟩ (by decide) 1 (by decide) 0 []
    shadowWitnessCalls).2 ⟨0,false,true⟩ (by decide) (by decide) rfl

end Llt
