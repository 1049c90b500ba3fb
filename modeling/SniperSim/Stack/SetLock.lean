import SniperSim.Library.Run

open Function
namespace SetLock

inductive Held
  | nothing | shared | exclusive
deriving DecidableEq, Repr

inductive Pc
  | idle | parked
  | wantShared (held : Held)
  | shared
  | acquiring (held : Held) (i : Nat)
  | exclusive
  | releasing (parks : Bool) (i : Nat)
  | downgrading (i : Nat)
deriving DecidableEq, Repr

inductive Action (T : Type)
  | acquireShared | acquireExclusive | lock | upgrade | downgrade | releaseShared
  | releaseExclusive (parks : Bool)
  | unlock
  | passTo (user : T)
deriving DecidableEq, Repr

inductive Stuck
  | outOfTurn | blocked
deriving DecidableEq, Repr

structure State (T : Type) where
  owner : Nat → Option T
  pc : T → Pc

def Held.Holds (n core : Nat) : Held → Nat → Prop
  | .nothing, _ => False
  | .shared, i => i = core
  | .exclusive, i => i < n

def Pc.Holds (n core : Nat) : Pc → Nat → Prop
  | .idle, _ | .parked, _ => False
  | .wantShared held, i => held.Holds n core i
  | .shared, i => i = core
  | .acquiring held k, i => held.Holds n core i ∨ i < k
  | .exclusive, i => i < n
  | .releasing _ k, i => k ≤ i ∧ i < n
  | .downgrading k, i => (k ≤ i ∧ i < n) ∨ i = core

def Pc.wants (core : Nat) : Pc → Option Nat
  | .wantShared _ => some core
  | .acquiring _ k => some k
  | _ => none

def Pc.InRange (n : Nat) : Pc → Prop
  | .acquiring _ k | .releasing _ k | .downgrading k => k < n
  | _ => True

def Pc.Plain : Pc → Prop
  | .wantShared held | .acquiring held _ => held = .nothing
  | _ => True

def Action.Starts {T : Type} : Action T → Prop
  | .acquireShared | .acquireExclusive => True
  | _ => False

instance decidableStarts {T : Type} : ∀ a : Action T, Decidable a.Starts
  | .acquireShared | .acquireExclusive => isTrue trivial
  | .lock | .upgrade | .downgrade | .releaseShared | .releaseExclusive _ | .unlock | .passTo _ => isFalse id

def afterLock (n : Nat) (held : Held) (k : Nat) : Pc :=
  if k < n then .acquiring held k else .exclusive

def afterRelease (n : Nat) (parks : Bool) (k : Nat) : Pc :=
  if k < n then .releasing parks k else if parks then .parked else .idle

def afterDowngrade (n k : Nat) : Pc := if k < n then .downgrading k else .shared

section
variable {T : Type} [DecidableEq T]
variable (s : State T)
namespace State

def initial : State T where
  owner _ := none
  pc _ := .idle

def go (t : T) (p : Pc) : State T := { s with pc := Function.update s.pc t p }

def acquire (t : T) (i : Nat) (p : Pc) : Except Stuck (State T) :=
  if s.owner i = none then
    .ok { owner := Function.update s.owner i (some t), pc := Function.update s.pc t p }
  else .error .blocked

def release (t : T) (i : Nat) (p : Pc) : State T :=
  { owner := Function.update s.owner i none, pc := Function.update s.pc t p }

def handOver (n : Nat) (s : State T) (t u : T) : State T where
  owner i := if i < n then some u else s.owner i
  pc := Function.update (Function.update s.pc t .idle) u .exclusive

def step {n : Nat} (core : T → Fin n) (s : State T) : T × Action T → Except Stuck (State T)
  | (t,.acquireShared) =>
    match s.pc t with
    | .idle => .ok (s.go t (.wantShared .nothing))
    | .shared => .ok (s.go t (.wantShared .shared))
    | _ => .error .outOfTurn
  | (t,.acquireExclusive) =>
    match s.pc t with
    | .idle => .ok (s.go t (afterLock n .nothing 0))
    | .shared => .ok (s.go t (afterLock n .shared 0))
    | .exclusive => .ok (s.go t (afterLock n .exclusive 0))
    | _ => .error .outOfTurn
  | (t,.lock) =>
    match s.pc t with
    | .wantShared _ => s.acquire t (core t) .shared
    | .acquiring held k => s.acquire t k (afterLock n held (k + 1))
    | _ => .error .outOfTurn
  | (t,.upgrade) =>
    match s.pc t with
    | .shared => .ok (s.release t (core t) (afterLock n .nothing 0))
    | _ => .error .outOfTurn
  | (t,.downgrade) =>
    match s.pc t with
    | .exclusive => .ok (s.go t (afterDowngrade n 0))
    | _ => .error .outOfTurn
  | (t,.releaseShared) =>
    match s.pc t with
    | .shared => .ok (s.release t (core t) .idle)
    | _ => .error .outOfTurn
  | (t,.releaseExclusive parks) =>
    match s.pc t with
    | .exclusive => .ok (s.go t (afterRelease n parks 0))
    | _ => .error .outOfTurn
  | (t,.unlock) =>
    match s.pc t with
    | .releasing parks k => .ok (s.release t k (afterRelease n parks (k + 1)))
    | .downgrading k =>
      if k = core t then .ok (s.go t (afterDowngrade n (k + 1)))
      else .ok (s.release t k (afterDowngrade n (k + 1)))
    | _ => .error .outOfTurn
  | (t,.passTo u) =>
    match s.pc t, s.pc u with
    | .exclusive, .parked => .ok (s.handOver n t u)
    | _, _ => .error .outOfTurn

end State

def Reenters (l : T × Action T) : Prop := l.2.Starts ∧ s.pc l.1 ≠ .idle

instance decidableReenters (s : State T) (l : T × Action T) : Decidable (Reenters s l) :=
  inferInstanceAs (Decidable (_ ∧ _))

def Free (_ : State T) (_ : T × Action T) : Prop := True

instance decidableFree (s : State T) (l : T × Action T) : Decidable (Free s l) := isTrue trivial
end

variable {held : Held} {parks : Bool}
section
variable {n k : Nat}

theorem Held.lt_of_holds (hc : c < n) (h : held.Holds n c j) : j < n := by
  cases held with
  | nothing => exact h.elim
  | shared => exact h ▸ hc
  | exclusive => exact h

theorem Pc.lt_of_holds {p : Pc} (hp : p.InRange n) (hc : c < n) (h : p.Holds n c j) : j < n := by
  cases p with
  | idle | parked => exact h.elim
  | wantShared held => exact Held.lt_of_holds hc h
  | shared => exact h ▸ hc
  | acquiring held k => exact h.elim (Held.lt_of_holds hc) fun hj => Nat.lt_trans hj hp
  | exclusive => exact h
  | releasing parks k => exact h.2
  | downgrading k => exact h.elim And.right fun hj => hj ▸ hc

theorem holds_afterLock (hc : c < n) (hk : k ≤ n) : (afterLock n held k).Holds n c j ↔ held.Holds n c j ∨ j < k := by
  unfold afterLock
  split_ifs with hlt
  · exact Iff.rfl
  · obtain rfl : k = n := by omega
    exact ⟨Or.inr,fun h => h.elim (Held.lt_of_holds hc) id⟩

theorem holds_afterRelease (hk : k ≤ n) : (afterRelease n parks k).Holds n c j ↔ k ≤ j ∧ j < n := by
  unfold afterRelease
  split_ifs with hlt
  · exact Iff.rfl
  all_goals
    refine ⟨False.elim,?_⟩
    rintro ⟨hj,hn⟩
    omega

theorem holds_afterDowngrade (hk : k ≤ n) : (afterDowngrade n k).Holds n c j ↔ (k ≤ j ∧ j < n) ∨ j = c := by
  unfold afterDowngrade
  split_ifs with hlt
  · exact Iff.rfl
  · constructor
    · exact Or.inr
    · rintro (⟨hj,hn⟩ | hj)
      · omega
      · exact hj

theorem inRange_afterLock : (afterLock n held k).InRange n := by
  unfold afterLock
  split_ifs with hlt
  · exact hlt
  · trivial

theorem inRange_afterRelease : (afterRelease n parks k).InRange n := by
  unfold afterRelease
  split_ifs with hlt hp
  · exact hlt
  · trivial
  · trivial

theorem inRange_afterDowngrade : (afterDowngrade n k).InRange n := by
  unfold afterDowngrade
  split_ifs with hlt
  · exact hlt
  · trivial
end

variable {i : Nat}
section
variable {T : Type} {n : Nat} {core : T → Fin n} {s s' : State T} {t : T} {p : Pc}

structure Owned (core : T → Fin n) (s : State T) : Prop where
  holds : ∀ i t, s.owner i = some t ↔ (s.pc t).Holds n (core t) i
  inRange : ∀ t, (s.pc t).InRange n

theorem owned_initial : Owned core State.initial :=
  ⟨fun _ _ => ⟨fun h => (Option.some_ne_none _ h.symm).elim,False.elim⟩,fun _ => trivial⟩

theorem Owned.not_holds (h : Owned core s) (hu : (s.pc u).Holds n (core u) i) (hne : t ≠ u) :
    ¬(s.pc t).Holds n (core t) i := by
  intro ht
  have hi := (h.holds i t).mpr ht
  rw [(h.holds i u).mpr hu] at hi
  exact hne (Option.some.inj hi).symm

variable [DecidableEq T]
variable (h : Owned core s)
include h

theorem Owned.update (hp : p.InRange n) (hself : ∀ i, owner i = some t ↔ p.Holds n (core t) i)
    (hother : ∀ i u, u ≠ t → (owner i = some u ↔ s.owner i = some u)) : Owned core ⟨owner,update s.pc t p⟩ := by
  constructor
  case holds =>
    intro i u
    by_cases hu : u = t
    · subst hu
      simpa using hself i
    · simpa only [update_of_ne hu] using (hother i u hu).trans (h.holds i u)
  case inRange =>
    intro u
    by_cases hu : u = t
    · subst hu
      simpa using hp
    · simpa only [update_of_ne hu] using h.inRange u

theorem Owned.go (hp : p.InRange n)
    (he : ∀ i, (s.pc t).Holds n (core t) i ↔ p.Holds n (core t) i) : Owned core (s.go t p) :=
  h.update hp (fun i => (h.holds i t).trans (he i)) fun _ _ _ => Iff.rfl

theorem Owned.acquire (hp : p.InRange n) (he : ∀ j, p.Holds n (core t) j ↔ j = i ∨ (s.pc t).Holds n (core t) j)
    (hs : s.acquire t i p = .ok s') : Owned core s' := by
  unfold State.acquire at hs
  split_ifs at hs with hfree
  cases hs
  refine h.update hp ?_ ?_
  · intro j
    rw [he]
    by_cases hj : j = i
    · simp [hj]
    · simp [hj,h.holds]
  · intro j u hu
    by_cases hj : j = i
    · subst hj
      simp [hfree,hu.symm]
    · simp [hj]

theorem Owned.release (hp : p.InRange n) (hi : (s.pc t).Holds n (core t) i)
    (he : ∀ j, p.Holds n (core t) j ↔ j ≠ i ∧ (s.pc t).Holds n (core t) j) : Owned core (s.release t i p) := by
  refine h.update hp ?_ ?_
  · intro j
    rw [he]
    by_cases hj : j = i
    · simp [hj]
    · simp [hj,h.holds]
  · intro j u hu
    by_cases hj : j = i
    · subst hj
      simpa [h.holds] using h.not_holds hi hu
    · simp [hj]

theorem Owned.handOver {u : T} (ht : s.pc t = .exclusive) (hu : s.pc u = .parked) : Owned core (s.handOver n t u) := by
  have hne : u ≠ t := fun hut => by simp [hut,ht] at hu
  constructor
  case holds =>
    intro i v
    have hin : ∀ w, s.owner i = some w → i < n := fun w hw =>
      Pc.lt_of_holds (h.inRange w) (core w).isLt ((h.holds i w).mp hw)
    by_cases hv : v = u
    · subst hv
      by_cases hi : i < n
      · simp [State.handOver,hi,Pc.Holds]
      · simpa [State.handOver,hi,Pc.Holds] using fun hw => hi (hin _ hw)
    · have hlost : i < n → v ≠ t → ¬(s.pc v).Holds n (core v) i := fun hi hvt => h.not_holds (by rw [ht]; exact hi) hvt
      by_cases hvt : v = t
      · subst hvt
        by_cases hi : i < n
        · simp [State.handOver,hi,Pc.Holds,hne,hv]
        · simpa [State.handOver,hi,Pc.Holds,hv] using fun hw => hi (hin _ hw)
      · by_cases hi : i < n
        · simp [State.handOver,hi,hv,hvt,hlost hi hvt,Ne.symm hv]
        · simp [State.handOver,hi,hv,hvt,h.holds]
  case inRange =>
    intro v
    unfold State.handOver
    by_cases hv : v = u
    · subst hv
      simp [Pc.InRange]
    · by_cases hvt : v = t
      · subst hvt
        simp [hv,Pc.InRange]
      · simpa [hv,hvt] using h.inRange v

theorem Owned.holds_nothing (hpc : s.pc t = .wantShared held)
    (hs : s.acquire t (core t) p = .ok s') : held = .nothing := by
  unfold State.acquire at hs
  split_ifs at hs with hfree
  have hnot := (h.holds (core t) t).not.mp (by simp [hfree])
  rw [hpc] at hnot
  cases held with
  | nothing => rfl
  | shared => exact (hnot rfl).elim
  | exclusive => exact (hnot (core t).isLt).elim

theorem Owned.goLock
    (he : ∀ i, (s.pc t).Holds n (core t) i ↔ held.Holds n (core t) i) : Owned core (s.go t (afterLock n held 0)) := by
  refine h.go inRange_afterLock fun i => ?_
  rw [he,holds_afterLock (core t).isLt (Nat.zero_le n)]
  simp

theorem Owned.lock (hs : s.step core (t,.lock) = .ok s') : Owned core s' := by
  have hrange := h.inRange t
  simp only [State.step] at hs
  split at hs
  · next held hpc =>
    refine h.acquire (p := .shared) trivial (fun j => ?_) hs
    have hheld := h.holds_nothing hpc hs
    simp [hpc,hheld,Pc.Holds,Held.Holds]
  · next held k hpc =>
    rw [hpc] at hrange
    refine h.acquire inRange_afterLock (fun j => ?_) hs
    rw [holds_afterLock (core t).isLt hrange,hpc,Pc.Holds,Nat.lt_succ_iff_lt_or_eq]
    tauto
  · cases hs

theorem Owned.unlock (hs : s.step core (t,.unlock) = .ok s') : Owned core s' := by
  have hrange := h.inRange t
  simp only [State.step] at hs
  split at hs
  · next parks k hpc =>
    rw [hpc] at hrange
    cases hs
    refine h.release inRange_afterRelease (by rw [hpc]; exact ⟨Nat.le_refl k,hrange⟩) fun j => ?_
    rw [holds_afterRelease hrange,hpc]
    simp only [Pc.Holds]
    omega
  · next k hpc =>
    rw [hpc] at hrange
    split_ifs at hs with hk
    · cases hs
      refine h.go inRange_afterDowngrade fun j => ?_
      rw [holds_afterDowngrade hrange,hpc]
      simp only [Pc.Holds]
      omega
    · cases hs
      refine h.release inRange_afterDowngrade (by rw [hpc]; exact Or.inl ⟨Nat.le_refl k,hrange⟩) fun j => ?_
      rw [holds_afterDowngrade hrange,hpc]
      simp only [Pc.Holds]
      omega
  · cases hs

theorem Owned.step (hs : s.step core l = .ok s') : Owned core s' := by
  obtain ⟨t,a⟩ := l
  have hcore := (core t).isLt
  cases a with simp only [State.step] at hs
  | acquireShared =>
    split at hs <;> cases hs
    all_goals next hpc => exact h.go trivial fun i => by rw [hpc]; exact Iff.rfl
  | acquireExclusive =>
    split at hs <;> cases hs
    all_goals next hpc => exact h.goLock fun i => by rw [hpc]; exact Iff.rfl
  | lock => exact h.lock hs
  | upgrade =>
    split at hs <;> cases hs
    next hpc =>
    refine h.release inRange_afterLock (by rw [hpc]; rfl) fun j => ?_
    rw [hpc,holds_afterLock hcore (Nat.zero_le n)]
    simp [Pc.Holds,Held.Holds]
  | downgrade =>
    split at hs <;> cases hs
    next hpc =>
    refine h.go inRange_afterDowngrade fun j => ?_
    rw [holds_afterDowngrade (Nat.zero_le n),hpc]
    simp only [Pc.Holds]
    omega
  | releaseShared =>
    split at hs <;> cases hs
    next hpc =>
    refine h.release (p := .idle) trivial (by rw [hpc]; rfl) fun j => ?_
    simp [hpc,Pc.Holds]
  | releaseExclusive parks =>
    split at hs <;> cases hs
    next hpc =>
    refine h.go inRange_afterRelease fun j => ?_
    rw [holds_afterRelease (Nat.zero_le n),hpc]
    simp [Pc.Holds]
  | unlock => exact h.unlock hs
  | passTo u =>
    split at hs <;> cases hs
    next ht hu => exact h.handOver ht hu
end

section
variable {T : Type} {n : Nat} {core : T → Fin n} {s s' : State T} {t : T}

def Exclusion (s : State T) : Prop :=
  ∀ t u, s.pc t = .exclusive → u ≠ t → s.pc u ≠ .shared ∧ s.pc u ≠ .exclusive ∧ ∀ i, s.owner i ≠ some u

theorem Owned.exclusion (h : Owned core s) : Exclusion s := by
  intro t u ht hu
  have hidle : ∀ i, ¬(s.pc u).Holds n (core u) i := fun i hi =>
    h.not_holds (u := t) (by rw [ht]; exact Pc.lt_of_holds (h.inRange u) (core u).isLt hi) hu hi
  refine ⟨?_,?_,fun i hi => hidle i ((h.holds i u).mp hi)⟩
  · intro hpc
    exact hidle (core u) (by rw [hpc]; rfl)
  · intro hpc
    exact hidle (core u) (by rw [hpc]; exact (core u).isLt)

def Plain (s : State T) : Prop := ∀ t, (s.pc t).Plain

variable [DecidableEq T] {k : Nat}

def Progress (core : T → Fin n) (s : State T) : Prop :=
  ∀ t i, (s.pc t).wants (core t) = some i → ∃ u a s', ¬Action.Starts a ∧ s.step core (u,a) = .ok s'

theorem exists_step_of_holder (h : Owned core s) (hplain : Plain s) (hu : s.owner i = some u) :
    (∃ a s', ¬Action.Starts a ∧ s.step core (u,a) = .ok s') ∨ ∃ k, i < k ∧ k < n ∧ s.pc u = .acquiring .nothing k := by
  have hholds := (h.holds i u).mp hu
  have hrange := h.inRange u
  cases hpc : s.pc u with
  | idle | parked => simp [hpc,Pc.Holds] at hholds
  | wantShared held =>
    have hheld := hplain u
    rw [hpc] at hheld
    obtain rfl := hheld
    simp [hpc,Pc.Holds,Held.Holds] at hholds
  | shared => exact .inl ⟨.releaseShared,_,id,by simp only [State.step,hpc]; rfl⟩
  | acquiring held k =>
    have hheld := hplain u
    rw [hpc] at hholds hrange hheld
    obtain rfl := hheld
    exact .inr ⟨k,hholds.resolve_left id,hrange,rfl⟩
  | exclusive => exact .inl ⟨.downgrade,_,id,by simp only [State.step,hpc]; rfl⟩
  | releasing parks k => exact .inl ⟨.unlock,_,id,by simp only [State.step,hpc]; rfl⟩
  | downgrading k =>
    by_cases hk : k = core u
    · exact .inl ⟨.unlock,_,id,by simp only [State.step,hpc,if_pos hk]; rfl⟩
    · exact .inl ⟨.unlock,_,id,by simp only [State.step,hpc,if_neg hk]; rfl⟩

theorem exists_lock_of_free (hw : (s.pc t).wants (core t) = some i)
    (hi : s.owner i = none) : ∃ s', s.step core (t,.lock) = .ok s' := by
  cases hpc : s.pc t with
  | wantShared held =>
    obtain rfl : (core t : Nat) = i := by simpa [hpc,Pc.wants] using hw
    exact ⟨_,by simp only [State.step,hpc,State.acquire,if_pos hi]; rfl⟩
  | acquiring held k =>
    obtain rfl : k = i := by simpa [hpc,Pc.wants] using hw
    exact ⟨_,by simp only [State.step,hpc,State.acquire,if_pos hi]; rfl⟩
  | _ => simp [hpc,Pc.wants] at hw

theorem Owned.progress (h : Owned core s) (hplain : Plain s) : Progress core s := by
  intro t i hw
  obtain ⟨d,hd⟩ : ∃ d, n - i = d := ⟨_,rfl⟩
  induction d using Nat.strongRecOn generalizing t i with
  | ind d ih =>
    cases ho : s.owner i with
    | none =>
      obtain ⟨s',hs⟩ := exists_lock_of_free hw ho
      exact ⟨t,.lock,s',id,hs⟩
    | some u =>
      rcases exists_step_of_holder h hplain ho with ⟨a,s',ha,hs⟩ | ⟨k,hik,hkn,hpc⟩
      · exact ⟨u,a,s',ha,hs⟩
      · exact ih (n - k) (by omega) u k (by rw [hpc]; rfl) rfl

theorem plain_afterLock : (afterLock n .nothing k).Plain := by
  unfold afterLock
  split_ifs with hk
  · rfl
  · trivial

theorem plain_afterRelease : (afterRelease n parks k).Plain := by
  unfold afterRelease
  split_ifs with hk hp
  all_goals trivial

theorem plain_afterDowngrade : (afterDowngrade n k).Plain := by
  unfold afterDowngrade
  split_ifs with hk
  all_goals trivial

theorem Plain.update (h : Plain s) (hp : p.Plain) : Plain ⟨owner,update s.pc t p⟩ := by
  intro u
  by_cases hu : u = t
  · subst hu
    simpa using hp
  · simpa only [update_of_ne hu] using h u

theorem Plain.acquire (h : Plain s) (hp : p.Plain) (hs : s.acquire t i p = .ok s') : Plain s' := by
  unfold State.acquire at hs
  split_ifs at hs with hfree
  cases hs
  exact h.update hp

theorem Plain.start (h : Plain s) (ha : a.Starts) (hr : ¬Reenters s (t,a)) (hs : s.step core (t,a) = .ok s') :
    Plain s' := by
  have hpc : s.pc t = .idle := by
    by_contra hne
    exact hr ⟨ha,hne⟩
  cases a with
  | acquireShared =>
    simp only [State.step,hpc] at hs
    cases hs
    exact h.update (p := .wantShared .nothing) rfl
  | acquireExclusive =>
    simp only [State.step,hpc] at hs
    cases hs
    exact h.update plain_afterLock
  | _ => exact ha.elim

theorem Plain.step (h : Plain s) (hr : ¬Reenters s l) (hs : s.step core l = .ok s') : Plain s' := by
  obtain ⟨t,a⟩ := l
  have hstart := fun ha => h.start ha hr hs
  cases a with simp only [State.step] at hs
  | acquireShared | acquireExclusive => exact hstart trivial
  | lock =>
    split at hs
    · exact h.acquire (p := .shared) trivial hs
    · next held k hpc =>
      have hheld := h t
      rw [hpc] at hheld
      obtain rfl := hheld
      exact h.acquire plain_afterLock hs
    · cases hs
  | upgrade =>
    split at hs <;> cases hs
    exact h.update plain_afterLock
  | downgrade =>
    split at hs <;> cases hs
    exact h.update plain_afterDowngrade
  | releaseShared =>
    split at hs <;> cases hs
    exact h.update (p := .idle) trivial
  | releaseExclusive parks =>
    split at hs <;> cases hs
    exact h.update plain_afterRelease
  | unlock =>
    split at hs
    · cases hs
      exact h.update plain_afterRelease
    · split_ifs at hs <;> cases hs
      all_goals exact h.update plain_afterDowngrade
    · cases hs
  | passTo u =>
    split at hs <;> cases hs
    exact Plain.update (s := s.go t .idle) (h.update (p := .idle) trivial) (p := .exclusive) trivial

theorem exclusive_alone_and_progress (core : T → Fin n) {s : State T}
    (h : Run.Reaches (State.step core) (fun s l => ¬Reenters s l) State.initial s) : Exclusion s ∧ Progress core s := by
  have hinv : Owned core s ∧ Plain s :=
    h.invariant (I := fun s => Owned core s ∧ Plain s)
      (fun _ _ _ hi hr hn => ⟨hi.1.step hn,hi.2.step hr hn⟩) ⟨owned_initial,fun _ => trivial⟩
  exact ⟨hinv.1.exclusion,hinv.1.progress hinv.2⟩
end

def twoCores (t : Bool) : Fin 2 := ⟨t.toNat,by cases t <;> decide⟩

def missAndHandOver : List (Bool × Action Bool) :=
  [(true,.acquireShared),(true,.lock),(true,.upgrade),(true,.lock),(true,.lock),
    (true,.releaseExclusive true),(true,.unlock),(true,.unlock),(false,.acquireExclusive),
    (false,.lock),(false,.lock),(false,.passTo true),(false,.acquireExclusive)]

theorem exclusive_alone_and_progress_handed_over :
    let s := (Run.guided (State.step twoCores) (fun s l => ¬Reenters s l) State.initial
      missAndHandOver).getD State.initial
    s.pc true = .exclusive ∧ (s.pc false).wants (twoCores false) = some 0 ∧ Exclusion s ∧ Progress twoCores s :=
  ⟨by decide,by decide,exclusive_alone_and_progress twoCores (Run.reaches_guided (by decide))⟩

def writeThroughTwice : List (Bool × Action Bool) :=
  [(true,.acquireExclusive),(true,.lock),(true,.lock),(true,.acquireExclusive)]

def reentered : State Bool := (Run.guided (State.step twoCores) Free State.initial writeThroughTwice).getD State.initial

theorem reentered_stuck (u : Bool) (a : Action Bool) (ha : ¬a.Starts) :
    (reentered.step twoCores (u,a)).isOk = false := by
  cases a with
  | acquireShared | acquireExclusive => exact (ha trivial).elim
  | passTo v => cases u <;> cases v <;> rfl
  | _ => cases u <;> rfl

theorem reentrant_acquire_blocks_forever : Run.Reaches (State.step twoCores) Free State.initial reentered ∧
      (reentered.pc true).wants (twoCores true) = some 0 ∧ ¬Progress twoCores reentered := by
  refine ⟨Run.reaches_guided (by decide),by decide,?_⟩
  intro h
  obtain ⟨u,a,s',ha,hs⟩ := h true 0 (by decide)
  have hstuck := reentered_stuck u a ha
  rw [hs] at hstuck
  cases hstuck

end SetLock
