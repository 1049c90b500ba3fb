import SniperSim.Library.Run

open Function List Except
namespace ConditionVariable

inductive Kind
  | signal | broadcast
deriving DecidableEq, Repr

inductive Phase
  | idle | waitAcquire
  | notifyAcquire (k : Kind)
  | inside | unlock | futexCall | asleep | relock
deriving DecidableEq, Repr

def Phase.waiting : Phase → Bool
  | .futexCall | .asleep => true
  | _ => false

inductive Critical
  | reset | waitRelease
  | raise (k : Kind)
  | wake (k : Kind)
  | notifyRelease
deriving DecidableEq, Repr

def entry : Phase → Option Critical
  | .waitAcquire => some .reset
  | .notifyAcquire k => some (.raise k)
  | _ => none

variable {c : Critical}

theorem entry_cases (h : entry p = some c) :
    p = .waitAcquire ∧ c = .reset ∨ ∃ k, p = .notifyAcquire k ∧ c = .raise k := by
  cases p with
  | waitAcquire => exact .inl ⟨rfl,(Option.some.inj h).symm⟩
  | notifyAcquire k => exact .inr ⟨k,rfl,(Option.some.inj h).symm⟩
  | idle | inside | unlock | futexCall | asleep | relock => simp [entry] at h

structure System (n : Nat) where
  futx : Int
  mLock : Option (Fin n × Critical)
  lock : Option (Fin n)
  phase : Fin n → Phase
  -- ghost
  audience : Fin n → Fin n → Bool
  -- ghost
  due : Fin n → Bool

inductive Label (n : Nat)
  | lock (t : Fin n)
  | unlock (t : Fin n)
  | wait (t : Fin n)
  | notify (t : Fin n) (k : Kind)
  | acquire (t : Fin n)
  | work
  | wake (u : Option (Fin n))
  | release (t : Fin n)
  | futex (t : Fin n)
  | relock (t : Fin n)
deriving DecidableEq, Repr

namespace System
variable {n : Nat}

def start (n : Nat) : System n :=
  { futx := 0
    mLock := none
    lock := none
    phase := fun _ => .idle
    audience := fun _ _ => false
    due := fun _ => false }

variable (s : System n) {v : Fin n} {u : Option (Fin n)} {k : Kind}

def move (t : Fin n) (p : Phase) : System n :=
  { s with phase := update s.phase t p }

def leave (w : Fin n → Bool) : System n :=
  { s with
    phase := fun v => if w v then .relock else s.phase v
    audience := fun t v => s.audience t v && !w v
    due := fun v => s.due v && !w v }

def sleeps (v : Fin n) : Bool := s.phase v == .asleep

def pending (t : Fin n) (w : Fin n → Bool) (v : Fin n) : Bool := s.audience t v && !w v && s.phase v == .futexCall

def reached (t : Fin n) (w : Fin n → Bool) : Bool := (finRange n).any fun v => s.audience t v && w v

def owes (t : Fin n) (w : Fin n → Bool) : Kind → Fin n → Bool
  | .signal, v => !s.reached t w && s.pending t w v
  | .broadcast, v => s.pending t w v

def futexWake (t : Fin n) (k : Kind) (w : Fin n → Bool) : System n :=
  { s.leave w with
    mLock := some (t,.notifyRelease)
    audience := update (s.leave w).audience t fun _ => false
    due := fun v => (s.leave w).due v || s.owes t w k v }

def statement (t : Fin n) : Critical → Except Unit (System n)
  | .reset => .ok { s with futx := 0, mLock := some (t,.waitRelease) }
  | .waitRelease => .ok { s.move t .unlock with mLock := none }
  | .raise k => .ok { s with futx := 1, mLock := some (t,.wake k) }
  | .notifyRelease => .ok { s.move t .idle with mLock := none }
  | .wake _ => .error ()

def next : Label n → Except Unit (System n)
  | .lock t =>
    if s.phase t = .idle ∧ s.lock = none then .ok { s with lock := some t } else .error ()
  | .unlock t =>
    if s.phase t = .idle ∧ s.lock = some t then .ok { s with lock := none } else .error ()
  | .wait t =>
    if s.phase t = .idle ∧ s.lock = some t then .ok (s.move t .waitAcquire) else .error ()
  | .notify t k =>
    if s.phase t = .idle then
      .ok { s.move t (.notifyAcquire k) with
        audience := update s.audience t fun v => (s.phase v).waiting }
    else .error ()
  | .acquire t =>
    match s.mLock, entry (s.phase t) with
    | none, some c => .ok { s.move t .inside with mLock := some (t,c) }
    | _, _ => .error ()
  | .work =>
    match s.mLock with
    | some (t,c) => s.statement t c
    | none => .error ()
  | .wake u =>
    match s.mLock, u with
    | some (t,.wake .signal), some u =>
      if s.sleeps u then .ok (s.futexWake t .signal fun v => v == u) else .error ()
    | some (t,.wake .signal), none =>
      if (finRange n).any s.sleeps then .error ()
      else .ok (s.futexWake t .signal fun _ => false)
    | some (t,.wake .broadcast), none => .ok (s.futexWake t .broadcast s.sleeps)
    | _, _ => .error ()
  | .release t =>
    if s.phase t = .unlock then .ok { s.move t .futexCall with lock := none } else .error ()
  | .futex t =>
    if s.phase t = .futexCall then
      .ok (if s.futx = 0 then s.move t .asleep else s.leave fun v => v == t)
    else .error ()
  | .relock t =>
    if s.phase t = .relock ∧ s.lock = none then .ok { s.move t .idle with lock := some t }
    else .error ()

def signalling (t : Fin n) : Bool :=
  s.phase t == .notifyAcquire .signal || s.mLock == some (t,.raise .signal) || s.mLock == some (t,.wake .signal)

def Orderly : Label n → Prop
  | .work => (s.mLock.map Prod.snd = some .reset) → s.futx = 0 ∨
      (finRange n).all (fun v => s.phase v != .futexCall)
  | .release _ => (finRange n).all (fun t => !s.signalling t)
  | _ => True

instance (s : System n) : (l : Label n) → Decidable (s.Orderly l)
  | .work => inferInstanceAs (Decidable (_ → _ ∨ _))
  | .release _ => inferInstanceAs (Decidable (_ = true))
  | .lock _ | .unlock _ | .wait _ | .notify _ _ | .acquire _ | .wake _ | .futex _ | .relock _ => isTrue trivial

structure Invariant (s : System n) : Prop where
  due : ∀ v, s.due v → s.phase v = .futexCall ∧ s.futx ≠ 0
  word : ∀ t k, s.mLock = some (t,.wake k) → s.futx ≠ 0
  inside : ∀ t c, s.mLock = some (t,c) → s.phase t = .inside
  member : ∀ t v, s.audience t v → (s.phase v).waiting
  whole : ∀ t, s.signalling t → ∀ v, (s.phase v).waiting → s.audience t v

section
variable {s : System n} {t : Fin n} {p : Phase} {w : Fin n → Bool} {s' : System n}

theorem move_phase (s : System n) (t : Fin n) (p : Phase) (v : Fin n) :
    (s.move t p).phase v = if v = t then p else s.phase v :=
  update_apply s.phase t p v

theorem waiting_move (hp : (s.phase t).waiting = p.waiting) (v : Fin n) :
    ((s.move t p).phase v).waiting = (s.phase v).waiting := by
  rw [move_phase]
  split_ifs with hv
  · rw [hv,hp]
  · rfl

theorem due_move (hs : Invariant s) (ha : (s.phase t).waiting = false)
    (hv : s.due v) : (s.move t p).phase v = .futexCall := by
  obtain ⟨hcall,-⟩ := hs.due v hv
  rw [move_phase,if_neg]
  · exact hcall
  · rintro rfl
    simp [hcall,Phase.waiting] at ha

theorem signalling_iff : s.signalling t ↔ s.phase t = .notifyAcquire .signal ∨
    s.mLock = some (t,.raise .signal) ∨ s.mLock = some (t,.wake .signal) := by
  simp [signalling,or_assoc]

theorem Invariant.inside_move (hs : Invariant s) (hin : s.phase t ≠ .inside) {u : Fin n}
    (hu : s.mLock = some (u,c)) : (s.move t p).phase u = .inside := by
  have hui := hs.inside u c hu
  rw [move_phase,if_neg]
  · exact hui
  · rintro rfl
    exact hin hui

theorem signalling_of_move (hsig : p ≠ .notifyAcquire .signal) {u : Fin n}
    (hu : (s.move t p).signalling u) : s.signalling u := by
  rw [signalling_iff] at hu ⊢
  rcases hu with hu | hu
  · rw [move_phase] at hu
    split_ifs at hu
    · exact absurd hu hsig
    · exact .inl hu
  · exact .inr hu

section
variable (hs : Invariant s)
include hs

theorem Invariant.moved (hdue : ∀ v, s.due v → (s.move t p).phase v = .futexCall)
    (hp : (s.phase t).waiting = p.waiting) (m : Option (Fin n × Critical)) (l : Option (Fin n))
    (hword : ∀ u k, m = some (u,.wake k) → s.futx ≠ 0) (hin : ∀ u c, m = some (u,c) → (s.move t p).phase u = .inside)
    (hsig : ∀ u, signalling { s.move t p with mLock := m } u → s.signalling u) :
    Invariant { s.move t p with mLock := m, lock := l } := by
  refine ⟨fun v hv => ⟨hdue v hv,(hs.due v hv).2⟩,hword,hin,fun u v hu => ?_,fun u hu v hv => ?_⟩
  · rw [waiting_move hp]
    exact hs.member u v hu
  · rw [waiting_move hp] at hv
    exact hs.whole u (hsig u hu) v hv

theorem Invariant.shift (ha : (s.phase t).waiting = false)
    (hin : s.phase t ≠ .inside) (hp : p.waiting = false) (hsig : p ≠ .notifyAcquire .signal)
    (l : Option (Fin n)) : Invariant { s.move t p with lock := l } :=
  hs.moved (fun _ hv => due_move hs ha hv) (ha.trans hp.symm) s.mLock l hs.word (fun _ _ hu => hs.inside_move hin hu)
    fun _ hu => signalling_of_move hsig hu

theorem Invariant.notify (ha : s.phase t = .idle) (k : Kind) : Invariant { s.move t (.notifyAcquire k) with
      audience := update s.audience t fun v => (s.phase v).waiting } := by
  have hidle : (s.phase t).waiting = false := by simp [ha,Phase.waiting]
  refine ⟨fun v hv => ⟨due_move hs hidle hv,(hs.due v hv).2⟩,hs.word,
    fun u c hu => hs.inside_move (by simp [ha]) hu,fun u v hu => ?_,fun u hu v hv => ?_⟩
  · rw [waiting_move hidle]
    simp only [update_apply] at hu
    split_ifs at hu
    · exact hu
    · exact hs.member u v hu
  · rw [waiting_move hidle] at hv
    simp only [update_apply]
    split_ifs with hut
    · exact hv
    · refine hs.whole u ?_ v hv
      rw [signalling_iff] at hu ⊢
      rwa [move_phase,if_neg hut] at hu

theorem Invariant.acquire
    (hc : entry (s.phase t) = some c) : Invariant { s.move t .inside with mLock := some (t,c) } := by
  have hcase := entry_cases hc
  have ha : (s.phase t).waiting = false := by
    rcases hcase with ⟨hphase,-⟩ | ⟨k,hphase,-⟩ <;> simp [hphase,Phase.waiting]
  refine hs.moved (p := .inside) (fun _ hv => due_move hs ha hv) ha (some (t,c)) s.lock (fun u k hu => ?_) (fun u d hu => ?_)
    fun u hu => ?_
  · obtain ⟨rfl,rfl⟩ := Prod.mk.inj (Option.some.inj hu)
    simp at hcase
  · obtain ⟨rfl,rfl⟩ := Prod.mk.inj (Option.some.inj hu)
    rw [move_phase,if_pos rfl]
  · rw [signalling_iff] at hu ⊢
    left
    rcases hu with hu | hu
    · rw [move_phase] at hu
      split_ifs at hu
      exact hu
    · rcases hu with ⟨rfl,rfl⟩ | ⟨rfl,rfl⟩
      · simpa using hcase
      · simp at hcase

theorem Invariant.reset (hl : s.mLock = some (t,.reset)) (hc : s.futx = 0 ∨ ∀ v, s.phase v ≠ .futexCall) :
    Invariant { s with futx := 0, mLock := some (t,.waitRelease) } := by
  refine ⟨fun v hv => ?_,by simp,fun u c hu => ?_,hs.member,fun u hu => hs.whole u ?_⟩
  · -- no thread is due: it would stand before its futex call with the word set
    obtain ⟨hcall,hword⟩ := hs.due v hv
    rcases hc with hc | hc
    · exact absurd hc hword
    · exact absurd hcall (hc v)
  · obtain ⟨rfl,rfl⟩ := Prod.mk.inj (Option.some.inj hu)
    exact hs.inside _ _ hl
  · rw [signalling_iff] at hu ⊢
    exact .inl (by simpa using hu)

theorem Invariant.raise (hl : s.mLock = some (t,.raise k)) :
    Invariant { s with futx := 1, mLock := some (t,.wake k) } := by
  refine ⟨fun v hv => ⟨(hs.due v hv).1,by simp⟩,by simp,fun u c hu => ?_,hs.member,fun u hu => hs.whole u ?_⟩
  · obtain ⟨rfl,rfl⟩ := Prod.mk.inj (Option.some.inj hu)
    exact hs.inside _ _ hl
  · rw [signalling_iff] at hu ⊢
    rcases hu with hu | hu | hu
    · exact .inl hu
    · simp at hu
    · obtain ⟨rfl,rfl⟩ := hu
      exact .inr (.inl hl)

theorem Invariant.exit (hl : s.mLock = some (t,c))
    (hp : p.waiting = false) (hsig : p ≠ .notifyAcquire .signal) : Invariant { s.move t p with mLock := none } := by
  have ha : (s.phase t).waiting = false := by simp [hs.inside t c hl,Phase.waiting]
  refine hs.moved (fun _ hv => due_move hs ha hv) (ha.trans hp.symm) none s.lock (by simp) (by simp) fun u hu => ?_
  rw [signalling_iff] at hu
  simp only [reduceCtorEq,or_false] at hu
  exact signalling_of_move hsig (signalling_iff.mpr (.inl hu))

theorem Invariant.statement (hl : s.mLock = some (t,c)) (hc : c = .reset → s.futx = 0 ∨ ∀ v, s.phase v ≠ .futexCall)
    (h : s.statement t c = .ok s') : Invariant s' := by
  cases c with
  | reset =>
    cases h
    exact hs.reset hl (hc rfl)
  | waitRelease | notifyRelease =>
    cases h
    exact hs.exit hl rfl (by simp)
  | raise k =>
    cases h
    exact hs.raise hl
  | wake k => simp [System.statement] at h

theorem Invariant.release (ha : s.phase t = .unlock)
    (hc : ∀ u, s.signalling u = false) : Invariant { s.move t .futexCall with lock := none } := by
  have hout : (s.phase t).waiting = false := by simp [ha,Phase.waiting]
  refine ⟨fun v hv => ⟨due_move hs hout hv,(hs.due v hv).2⟩,hs.word,
    fun u c hu => hs.inside_move (by simp [ha]) hu,fun u v hu => ?_,fun u hu => ?_⟩
  · rw [move_phase]
    split_ifs
    · rfl
    · exact hs.member u v hu
  · have hold : s.signalling u := signalling_of_move (p := .futexCall) (by simp) hu
    simp [hc u] at hold
end

theorem leave_phase_of_not (hv : w v = false) : (s.leave w).phase v = s.phase v := by simp [leave,hv]

theorem waiting_leave : ((s.leave w).phase v).waiting ↔ w v = false ∧ (s.phase v).waiting := by
  cases hv : w v <;> simp [leave,hv,Phase.waiting]

theorem Invariant.leave (hs : Invariant s) (hw : ∀ v, w v → (s.phase v).waiting) : Invariant (s.leave w) := by
  refine ⟨fun v hv => ?_,hs.word,fun u c hu => ?_,fun u v hu => ?_,fun u hu v hv => ?_⟩
  · simp only [System.leave,Bool.and_eq_true,Bool.not_eq_true'] at hv
    rw [leave_phase_of_not hv.2]
    exact hs.due v hv.1
  · have hui := hs.inside u c hu
    rw [leave_phase_of_not]
    · exact hui
    · by_contra hwu
      have := hw u (by simpa using hwu)
      simp [hui,Phase.waiting] at this
  · simp only [System.leave,Bool.and_eq_true,Bool.not_eq_true'] at hu
    exact waiting_leave.mpr ⟨hu.2,hs.member u v hu.1⟩
  · obtain ⟨hwv,hv⟩ := waiting_leave.mp hv
    have hold : s.signalling u := by
      rw [signalling_iff] at hu ⊢
      rcases hu with hu | hu
      · cases hwu : w u with
        | false => exact .inl (by rwa [leave_phase_of_not hwu] at hu)
        | true => simp [System.leave,hwu] at hu
      · exact .inr hu
    simp [System.leave,hwv,hs.whole u hold v hv]

theorem owes_pending (h : s.owes t w k v) : s.pending t w v := by
  cases k <;> simp only [owes,Bool.and_eq_true] at h
  · exact h.2
  · exact h

theorem Invariant.futexWake (hs : Invariant s) (hl : s.mLock = some (t,.wake k))
    (hw : ∀ v, w v → (s.phase v).waiting) : Invariant (s.futexWake t k w) := by
  have hleave := hs.leave hw
  refine ⟨fun v hv => ?_,by simp [System.futexWake],fun u c hu => ?_,fun u v hu => ?_,fun u hu v hv => ?_⟩
  · simp only [System.futexWake,Bool.or_eq_true] at hv
    rcases hv with hv | hv
    · exact hleave.due v hv
    · have hpend := owes_pending hv
      simp only [pending,Bool.and_eq_true,Bool.not_eq_true',beq_iff_eq] at hpend
      exact ⟨(leave_phase_of_not hpend.1.2).trans hpend.2,hs.word t k hl⟩
  · obtain ⟨rfl,-⟩ := Prod.mk.inj (Option.some.inj hu)
    exact hleave.inside _ _ hl
  · simp only [System.futexWake,update_apply] at hu
    split_ifs at hu
    exact hleave.member u v hu
  · rw [signalling_iff] at hu
    simp only [System.futexWake,Option.some.injEq,Prod.mk.injEq,reduceCtorEq,and_false,or_false] at hu
    have hut : u ≠ t := by
      rintro rfl
      simp [hleave.inside u _ hl] at hu
    simp only [System.futexWake,update_apply,if_neg hut]
    exact hleave.whole u (signalling_iff.mpr (.inl hu)) v hv

theorem sleeps_waiting (h : s.sleeps v) : (s.phase v).waiting := by
  simp only [sleeps,beq_iff_eq] at h
  simp [h,Phase.waiting]

theorem call_or_sleeps (h : (s.phase v).waiting) : s.phase v = .futexCall ∨ s.sleeps v := by
  cases hv : s.phase v <;> simp [hv,Phase.waiting,sleeps] at h ⊢

theorem wake_cases (h : s.next (.wake u) = .ok s') :
    (∃ t v, s.mLock = some (t,.wake .signal) ∧ s.sleeps v ∧ s' = s.futexWake t .signal fun x => x == v) ∨
    (∃ t, s.mLock = some (t,.wake .signal) ∧ (∀ v, s.sleeps v = false) ∧ s' = s.futexWake t .signal fun _ => false) ∨
    ∃ t, s.mLock = some (t,.wake .broadcast) ∧ s' = s.futexWake t .broadcast s.sleeps := by
  simp only [next] at h
  split at h
  · next t v hl =>
    split_ifs at h with hv
    exact .inl ⟨t,v,hl,hv,(ok.inj h).symm⟩
  · next t hl =>
    split_ifs at h with hnone
    refine .inr (.inl ⟨t,hl,fun v => ?_,(ok.inj h).symm⟩)
    simpa using fun hv => hnone (any_eq_true.mpr ⟨v,mem_finRange v,hv⟩)
  · next t hl => exact .inr (.inr ⟨t,hl,(ok.inj h).symm⟩)
  · cases h

theorem Invariant.wake (hs : Invariant s) (h : s.next (.wake u) = .ok s') : Invariant s' := by
  rcases wake_cases h with ⟨t,v,hl,hv,rfl⟩ | ⟨t,hl,-,rfl⟩ | ⟨t,hl,rfl⟩
  · refine hs.futexWake hl fun x hx => ?_
    obtain rfl := beq_iff_eq.mp hx
    exact sleeps_waiting hv
  · exact hs.futexWake hl (by simp)
  · exact hs.futexWake hl fun x hx => sleeps_waiting hx

theorem Invariant.futex (hs : Invariant s) (ha : s.phase t = .futexCall) :
    Invariant (if s.futx = 0 then s.move t .asleep else s.leave fun v => v == t) := by
  split_ifs with hword
  · exact hs.moved (fun v hv => absurd hword (hs.due v hv).2) (by rw [ha]; rfl) s.mLock s.lock hs.word
      (fun _ _ hu => hs.inside_move (by simp [ha]) hu) fun _ hu => signalling_of_move (by simp) hu
  · refine hs.leave fun v hv => ?_
    obtain rfl := beq_iff_eq.mp hv
    simp [ha,Phase.waiting]

theorem Invariant.step (hs : Invariant s) (hc : s.Orderly l) (h : s.next l = .ok s') : Invariant s' := by
  cases l with simp only [next] at h
  | wake u => exact hs.wake h
  | lock t | unlock t =>
    split_ifs at h
    cases h
    exact { hs with }
  | wait t =>
    split_ifs at h with hidle
    cases h
    exact hs.shift (by simp [hidle.1,Phase.waiting]) (by simp [hidle.1]) rfl (by simp) s.lock
  | relock t =>
    split_ifs at h with hback
    cases h
    exact hs.shift (by simp [hback.1,Phase.waiting]) (by simp [hback.1]) rfl (by simp) (some t)
  | notify t k =>
    split_ifs at h with hidle
    cases h
    exact hs.notify hidle k
  | acquire t =>
    split at h
    · next c _ hentry =>
      cases h
      exact hs.acquire hentry
    · cases h
  | work =>
    split at h
    · next t c hl =>
      refine hs.statement hl (fun hreset => ?_) h
      have hcond := hc (by simp [hl,hreset])
      simpa using hcond
    · cases h
  | release t =>
    split_ifs at h with hunlock
    cases h
    have hquiet : ((finRange n).all fun u => !s.signalling u) := hc
    exact hs.release hunlock (by simpa using hquiet)
  | futex t =>
    split at h
    · next hcall =>
      cases h
      exact hs.futex hcall
    · cases h
end

structure Accounted (s : System n) (l : Label n) (s' : System n) : Prop where
  started : ∀ t k, l = .notify t k → ∀ v, s'.audience t v = (s.phase v).waiting
  kept : ∀ t v, s.audience t v → s'.audience t v ∨ s'.phase v = .relock ∨
    (∃ k, l = .notify t k) ∨ ∃ u k, l = .wake u ∧ s.mLock = some (t,.wake k)
  broadcast : ∀ t u, s.mLock = some (t,.wake .broadcast) → l = .wake u → ∀ v,
    s.audience t v → s'.phase v = .relock ∨ s'.due v
  signal : ∀ t u, s.mLock = some (t,.wake .signal) → l = .wake u →
    (∃ v, s.audience t v) → ∃ v, s.audience t v ∧ (s'.phase v = .relock ∨ s'.due v)
  due : ∀ v, s.due v → s'.due v ∨ s'.phase v = .relock

section
variable {s s' : System n} {l : Label n} {w : Fin n → Bool}

theorem Accounted.of_same (ha : s'.audience = s.audience) (hd : s'.due = s.due)
    (hn : ∀ t k, l ≠ .notify t k) (hw : ∀ u, l ≠ .wake u) : Accounted s l s' := by
  refine ⟨fun t k hl => absurd hl (hn t k),fun t v hv => .inl ?_,fun _ u _ hl => absurd hl (hw u),
    fun _ u _ hl => absurd hl (hw u),fun v hv => .inl ?_⟩
  · rwa [ha]
  · rwa [hd]

theorem kept_leave (hv : s.audience t v) : (s.leave w).audience t v ∨ (s.leave w).phase v = .relock := by
  cases hwv : w v <;> simp [leave,hwv,hv]

theorem due_leave (hv : s.due v) : (s.leave w).due v ∨ (s.leave w).phase v = .relock := by
  cases hwv : w v <;> simp [leave,hwv,hv]

theorem Accounted.leave (hn : ∀ t k, l ≠ .notify t k) (hw : ∀ u, l ≠ .wake u) : Accounted s l (s.leave w) := by
  refine ⟨fun t k hl => absurd hl (hn t k),fun t v hv => ?_,fun _ u _ hl => absurd hl (hw u),
    fun _ u _ hl => absurd hl (hw u),fun v hv => due_leave hv⟩
  rcases kept_leave hv with hstay | hback
  · exact .inl hstay
  · exact .inr (.inl hback)

theorem Accounted.wake (hl : s.mLock = some (t,.wake k)) (hb : k = .broadcast → ∀ v, s.audience t v →
      (s.futexWake t k w).phase v = .relock ∨ (s.futexWake t k w).due v)
    (hsig : k = .signal → (∃ v, s.audience t v) → ∃ v, s.audience t v ∧
      ((s.futexWake t k w).phase v = .relock ∨ (s.futexWake t k w).due v)) :
    Accounted s (.wake u) (s.futexWake t k w) := by
  refine ⟨by simp,fun t' v hv => ?_,fun t' u' hl' _ => ?_,fun t' u' hl' _ => ?_,fun v hv => ?_⟩
  · by_cases ht : t' = t
    · subst ht
      exact .inr (.inr (.inr ⟨u,k,rfl,hl⟩))
    · rcases kept_leave hv with hstay | hback
      · exact .inl (by simpa only [futexWake,update_apply,if_neg ht] using hstay)
      · exact .inr (.inl hback)
  · obtain ⟨rfl,hk⟩ := Prod.mk.inj (Option.some.inj (hl.symm.trans hl'))
    exact hb (Critical.wake.inj hk)
  · obtain ⟨rfl,hk⟩ := Prod.mk.inj (Option.some.inj (hl.symm.trans hl'))
    exact hsig (Critical.wake.inj hk)
  · rcases due_leave (w := w) hv with hstay | hback
    · exact .inl (by simp [futexWake,hstay])
    · exact .inr hback

theorem Invariant.accounted_wake (hs : Invariant s) (h : s.next (.wake u) = .ok s') : Accounted s (.wake u) s' := by
  rcases wake_cases h with ⟨t,v,hl,hv,rfl⟩ | ⟨t,hl,hnone,rfl⟩ | ⟨t,hl,rfl⟩
  · refine .wake hl (by simp) fun _ _ => ⟨v,?_,.inl (by simp [System.futexWake,System.leave])⟩
    exact hs.whole t (signalling_iff.mpr (.inr (.inr hl))) v (sleeps_waiting hv)
  · refine .wake hl (by simp) fun _ hex => ?_
    obtain ⟨v,hv⟩ := hex
    have hcall := (call_or_sleeps (hs.member t v hv)).resolve_right (by simp [hnone v])
    exact ⟨v,hv,.inr (by simp [System.futexWake,owes,reached,pending,hv,hcall])⟩
  · refine .wake hl (fun _ v hv => ?_) (by simp)
    rcases call_or_sleeps (hs.member t v hv) with hcall | hsleep
    · exact .inr (by simp [System.futexWake,owes,pending,hv,hcall,sleeps])
    · exact .inl (by simp [System.futexWake,System.leave,hsleep])

theorem accounted_statement (h : s.statement t c = .ok s') : Accounted s .work s' := by
  cases c with
  | reset | waitRelease | raise | notifyRelease =>
    cases h
    exact .of_same rfl rfl (by simp) (by simp)
  | wake k => cases h

theorem Invariant.accounted (hs : Invariant s) (h : s.next l = .ok s') : Accounted s l s' := by
  cases l with simp only [next] at h
  | wake u => exact hs.accounted_wake h
  | lock t | unlock t | wait t | relock t | release t =>
    split_ifs at h
    cases h
    exact .of_same rfl rfl (by simp) (by simp)
  | notify t k =>
    split_ifs at h
    cases h
    refine ⟨fun t' k' hl v => ?_,fun t' v hv => ?_,by simp,by simp,fun v hv => .inl hv⟩
    · obtain ⟨rfl,rfl⟩ := Label.notify.inj hl
      simp
    · by_cases ht : t' = t <;> simp [*]
  | acquire t =>
    split at h
    · cases h
      exact .of_same rfl rfl (by simp) (by simp)
    · cases h
  | work =>
    split at h
    · exact accounted_statement h
    · cases h
  | futex t =>
    split at h
    · cases h
      split_ifs
      · exact .of_same rfl rfl (by simp) (by simp)
      · exact .leave (by simp) (by simp)
    · cases h
end

theorem Invariant.futex_returns {s : System n} (hs : Invariant s)
    (hv : s.due v) : ∃ s', s.next (.futex v) = .ok s' ∧ s'.phase v = .relock := by
  obtain ⟨hcall,hword⟩ := hs.due v hv
  refine ⟨s.leave fun x => x == v,?_,by simp [System.leave]⟩
  simp only [next,if_pos hcall,if_neg hword]

theorem no_lost_wakeup {s : System n} (h : Run.Reaches next Orderly (start n) s) :
    (∀ v, s.due v = true → s.phase v = .futexCall ∧ ∃ s', s.next (.futex v) = .ok s' ∧ s'.phase v = .relock) ∧
    ∀ l s', s.next l = .ok s' → Accounted s l s' := by
  have hs : Invariant s := h.invariant (fun _ _ _ hi hc hn => Invariant.step hi hc hn)
    (by refine ⟨?_,?_,?_,?_,?_⟩ <;> simp [start,signalling])
  exact ⟨fun v hv => ⟨(hs.due v hv).1,hs.futex_returns hv⟩,fun l s' hn => hs.accounted hn⟩

def enterWait {n : Nat} (t : Fin n) : List (Label n) := [.lock t,.wait t,.acquire t,.work,.work,.release t]

def broadcastIn {n : Nat} (t : Fin n) : List (Label n) := [.notify t .broadcast,.acquire t,.work,.wake none,.work]

theorem broadcast_before_futex_call : ∃ s : System 2,
    Run.Reaches next Orderly (start 2) s ∧ s.due 0 = true ∧ s.phase 0 = .futexCall ∧
    (∃ s', s.next (.futex 0) = .ok s' ∧ s'.phase 0 = .relock) ∧ ∀ l s', s.next l = .ok s' → Accounted s l s' := by
  have hsome : (Run.guided next Orderly (start 2) (enterWait 0 ++ broadcastIn 1)).isSome := by
    decide
  have hrun := Run.reaches_guided hsome
  obtain ⟨hdue,hacc⟩ := no_lost_wakeup hrun
  obtain ⟨hcall,hback⟩ := hdue 0 (by decide)
  exact ⟨_,hrun,by decide,hcall,hback,hacc⟩

def lateSleeper : List (Label 3) :=
  enterWait 0 ++ [.futex 0,.lock 1,.wait 1,.acquire 1,.work,.work,.notify 2 .signal,.release 1,
    .futex 1,.acquire 2,.work]

theorem cleared_word_and_late_sleeper :
    (∃ s : System 3, Run.Reaches next (fun _ _ => True) (start 3) s ∧ s.due 0 = true ∧ s.phase 0 = .asleep) ∧
    ∃ s s' : System 3, Run.Reaches next (fun _ _ => True) (start 3) s ∧
      s.next (.wake (some 1)) = .ok s' ∧ s.mLock = some (2,.wake .signal) ∧
      s.audience 2 0 = true ∧ ∀ v, s.audience 2 v = true → s'.phase v = .asleep := by
  constructor
  · have hsome : (Run.guided next (fun _ _ => True) (start 3) (enterWait 0 ++ broadcastIn 2 ++
        [.lock 1,.wait 1,.acquire 1,.work,.futex 0])).isSome := by decide
    exact ⟨_,Run.reaches_guided hsome,by decide,by decide⟩
  · have hsome : (Run.guided next (fun _ _ => True) (start 3) lateSleeper).isSome := by decide
    have hwake : (Run.guided next (fun _ _ => True) (start 3) (lateSleeper ++ [.wake (some 1)])).isSome := by decide
    exact ⟨_,_,Run.reaches_guided hsome,Run.next_guided hwake,by decide,by decide,by decide⟩

end System
end ConditionVariable
