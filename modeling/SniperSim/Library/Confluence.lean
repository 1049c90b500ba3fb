import Mathlib.Tactic.Common

open List Option
namespace Confluence
variable {S L : Type} {next : S → L → Option S} {Good : S → Prop} {s t u : S} {l : L} {ls ks : List L}

def run (next : S → L → Option S) : S → List L → Option S
  | s, [] => some s
  | s, l :: ls => (next s l).bind fun t => run next t ls

def Leads (next : S → L → Option S) (s t : S) : Prop := ∃ ls, run next s ls = some t

def Stuck (next : S → L → Option S) (s : S) : Prop := ∀ l, next s l = none

def Commutes (next : S → L → Option S) : Prop :=
  ∀ ⦃s t u l k⦄, l ≠ k → next s l = some t → next s k = some u → ∃ v, next t k = some v ∧ next u l = some v

def Settles (next : S → L → Option S) (Good : S → Prop) (s : S) : Prop :=
  ∃ n t, Good t ∧ Stuck next t ∧ ∀ ks u, run next s ks = some u →
    ∃ ls, run next u ls = some t ∧ ks.length + ls.length = n

theorem run_append (ls ks : List L) : run next s (ls ++ ks) = (run next s ls).bind fun t => run next t ks := by
  induction ls generalizing s with
  | nil => rfl
  | cons l ls ih =>
    rw [cons_append,run,run,bind_assoc]
    exact congrArg _ (funext fun _ => ih)

theorem run_cons_eq_some (h : run next s (l :: ls) = some u) : ∃ t, next s l = some t ∧ run next t ls = some u :=
  bind_eq_some_iff.mp h

namespace Leads

theorem refl : Leads next s s := ⟨[],rfl⟩

theorem of_next (h : next s l = some t) : Leads next s t := ⟨[l],by rw [run,h]; rfl⟩

theorem trans (h : Leads next s t) (h' : Leads next t u) : Leads next s u := by
  obtain ⟨ls,hls⟩ := h
  obtain ⟨ks,hks⟩ := h'
  refine ⟨ls ++ ks,?_⟩
  rwa [run_append,hls]

theorem eq_of_stuck (h : Leads next s t) (hs : Stuck next s) : s = t := by
  obtain ⟨ls,hls⟩ := h
  cases ls with
  | nil => exact some.inj hls
  | cons l ls =>
    obtain ⟨v,hv,_⟩ := run_cons_eq_some hls
    rw [hs l] at hv
    simp at hv

end Leads

theorem Commutes.reroute (hc : Commutes next) (h : run next s ls = some t) (ht : Stuck next t)
    (hu : next s l = some u) : ∃ ks, run next u ks = some t ∧ ks.length + 1 = ls.length := by
  induction ls generalizing s u with
  | nil =>
    cases h
    rw [ht l] at hu
    simp at hu
  | cons k ls ih =>
    obtain ⟨v,hv,hr⟩ := run_cons_eq_some h
    rcases Classical.em (l = k) with rfl | hlk
    · rw [hu] at hv
      cases hv
      exact ⟨ls,hr,rfl⟩
    · obtain ⟨w,huw,hvw⟩ := hc hlk hu hv
      obtain ⟨ks,hks,hlen⟩ := ih hr hvw
      refine ⟨k :: ks,?_,by rw [length_cons,length_cons,hlen]⟩
      rwa [run,huw]

theorem Commutes.complete (hc : Commutes next) (h : run next s ls = some t) (ht : Stuck next t)
    (hk : run next s ks = some u) : ∃ ms, run next u ms = some t ∧ ks.length + ms.length = ls.length := by
  induction ks generalizing s ls with
  | nil =>
    cases hk
    exact ⟨ls,h,Nat.zero_add _⟩
  | cons k ks ih =>
    obtain ⟨v,hv,hr⟩ := run_cons_eq_some hk
    obtain ⟨ls',hls',hlen⟩ := hc.reroute h ht hv
    obtain ⟨ms,hms,hlen'⟩ := ih hls' hr
    refine ⟨ms,hms,?_⟩
    rw [length_cons]
    omega

theorem Commutes.settles (hc : Commutes next) (h : Leads next s t) (ht : Stuck next t) (hg : Good t) :
    Settles next Good s := by
  obtain ⟨ls,hls⟩ := h
  exact ⟨ls.length,t,hg,ht,fun _ _ hk => hc.complete hls ht hk⟩

theorem Settles.leads (h : Settles next Good s) (hu : Leads next s u) : ∃ t, Good t ∧ Leads next u t := by
  obtain ⟨_,t,hg,_,hall⟩ := h
  obtain ⟨ks,hks⟩ := hu
  obtain ⟨ls,hls,_⟩ := hall ks u hks
  exact ⟨t,hg,ls,hls⟩

theorem Settles.good_of_stuck (h : Settles next Good s) (hu : Leads next s u) (hs : Stuck next u) : Good u := by
  obtain ⟨t,hg,ht⟩ := h.leads hu
  rwa [ht.eq_of_stuck hs]

end Confluence
