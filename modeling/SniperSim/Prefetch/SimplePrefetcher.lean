import SniperSim.Cache.CacheSetLRU
import Mathlib.Data.BitVec

open List

structure PrefetchConfig where
  coreId : Nat
  flowsPerCore : Bool
  numPrefetches : Nat
  stopAtPage : Bool
deriving DecidableEq, Repr

structure SimplePrefetcher (n : Nat) where
  nFlowNext : Fin n
  prevAddress : Nat → Fin n → IntPtr

namespace SimplePrefetcher

def pageSize : IntPtr := 4096

def pageMask : IntPtr := ~~~(pageSize - 1)

def dist (current prev : IntPtr) : IntPtr := (current - prev).abs

section
variable {n : Nat} (current : IntPtr) (prev : Fin n → IntPtr)

def closer (best : Fin n × IntPtr) (i : Fin n) : Fin n × IntPtr :=
  if dist current (prev i) < best.2 then (i,dist current (prev i)) else best

theorem closer_le (best : Fin n × IntPtr) (i : Fin n) :
    (closer current prev best i).2 ≤ best.2 ∧ (closer current prev best i).2 ≤ dist current (prev i) := by
  rw [closer]
  split_ifs with hlt
  · exact ⟨BitVec.le_of_lt hlt,BitVec.le_refl _⟩
  · exact ⟨BitVec.le_refl _,BitVec.not_lt.mp hlt⟩

theorem foldl_closer (l : List (Fin n)) (best : Fin n × IntPtr) : (l.foldl (closer current prev) best).2 ≤ best.2 ∧
      (∀ i ∈ l, (l.foldl (closer current prev) best).2 ≤ dist current (prev i)) ∧
      (l.foldl (closer current prev) best = best ∨
        (l.foldl (closer current prev) best).2 = dist current (prev (l.foldl (closer current prev) best).1)) := by
  induction l generalizing best with
  | nil => exact ⟨BitVec.le_refl _,by simp,.inl rfl⟩
  | cons i l ih =>
    obtain ⟨hle,hall,heq⟩ := ih (closer current prev best i)
    obtain ⟨hbest,hi⟩ := closer_le current prev best i
    rw [foldl_cons]
    refine ⟨BitVec.le_trans hle hbest,forall_mem_cons.mpr ⟨BitVec.le_trans hle hi,hall⟩,?_⟩
    rcases heq with heq | heq
    · rw [heq,closer]
      split_ifs <;> simp [*]
    · exact .inr heq

def nearestFlow (next : Fin n) : Fin n := ((finRange n).foldl (closer current prev) (next,pageSize)).1

variable {current prev}

theorem nearestFlow_le {next i : Fin n} (h : dist current (prev i) < pageSize) (j : Fin n) :
    dist current (prev (nearestFlow current prev next)) ≤ dist current (prev j) := by
  obtain ⟨-,hall,heq⟩ := foldl_closer current prev (finRange n) (next,pageSize)
  rcases heq with heq | heq
  · have hle := hall i (mem_finRange i)
    rw [heq] at hle
    exact absurd h (BitVec.not_lt.mpr hle)
  · exact heq ▸ hall j (mem_finRange j)
end

variable {n : Nat} [NeZero n] (cfg : PrefetchConfig) (s : SimplePrefetcher n) (current : IntPtr) (core : Nat)

def flows : Fin n → IntPtr := s.prevAddress (if cfg.flowsPerCore then core - cfg.coreId else 0)

def nFlow : Fin n := nearestFlow current (s.flows cfg core) s.nFlowNext

def stride : IntPtr := current - s.flows cfg core (s.nFlow cfg current core)

def allows (address : IntPtr) : Bool := !cfg.stopAtPage || address &&& pageMask == current &&& pageMask

def getNextAddress : SimplePrefetcher n × List IntPtr :=
  ({ nFlowNext := s.nFlowNext + 1
     prevAddress := Function.update s.prevAddress (if cfg.flowsPerCore then core - cfg.coreId else 0)
       (Function.update (s.flows cfg core) (s.nFlow cfg current core) current) },
    if s.stride cfg current core = 0 then []
    else ((range cfg.numPrefetches).map fun i => current + BitVec.ofNat 64 i * s.stride cfg current core).filter
      (allows cfg current))

structure Prefetches : Prop where
  nearest : ∀ i j, dist current (s.flows cfg core i) < pageSize →
    dist current (s.flows cfg core (s.nFlow cfg current core)) ≤ dist current (s.flows cfg core j)
  listed : (s.getNextAddress cfg current core).2 = ((range cfg.numPrefetches).map fun k =>
    current + BitVec.ofNat 64 (k + 1) * s.stride cfg current core).filter (allows cfg current)
  ahead : ∀ a ∈ (s.getNextAddress cfg current core).2, a ≠ current
  count : cfg.stopAtPage = false → (s.getNextAddress cfg current core).2.length = cfg.numPrefetches

theorem prefetches_iff : Prefetches cfg s current core ↔ cfg.numPrefetches = 0 := by
  have hself : allows cfg current current := by simp [allows]
  constructor
  · intro h
    by_contra hn
    obtain ⟨k,hk⟩ := Nat.exists_eq_succ_of_ne_zero hn
    by_cases hs : s.stride cfg current core = 0
    · have hlist := h.listed
      simp [getNextAddress,hs,hself,hk] at hlist
    · refine h.ahead current ?_ rfl
      simp only [getNextAddress,hs,if_false,mem_filter,mem_map,mem_range,hself,and_true]
      exact ⟨0,Nat.pos_of_ne_zero hn,by simp⟩
  · intro h
    have hnil : (s.getNextAddress cfg current core).2 = [] := by simp [getNextAddress,h]
    exact ⟨fun i j hi => nearestFlow_le hi j,by simp [hnil,h],by simp [hnil],by simp [hnil,h]⟩

theorem prefetches_nothing : Prefetches ⟨0,false,0,false⟩ ⟨(0 : Fin 1),fun _ _ => 64⟩ 128 0 :=
  (prefetches_iff _ _ _ _).mpr rfl

theorem prefetches_current :
    (getNextAddress ⟨0,false,1,false⟩ (⟨0,fun _ _ => 64⟩ : SimplePrefetcher 1) 128 0).2 = [128] := by decide

end SimplePrefetcher
