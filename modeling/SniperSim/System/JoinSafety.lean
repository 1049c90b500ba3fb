import SniperSim.Library.ExceptSpec
import SniperSim.System.Join

open Option ThreadManager

inductive Life
  | unborn | live | gone
deriving DecidableEq, Repr

def CoreState.life : CoreState → Life
  | .initializing => .unborn
  | .idle => .gone
  | _ => .live

namespace JoinSystem
variable {s : JoinSystem} {m : ThreadManager JoinCall} {t u w : ThreadId} {k : JoinCall} {c : Control JoinCall}
  {js : List (ThreadId × ThreadId)} {sj sj' : Prop} {slot : ThreadId → Option ThreadId} {life : ThreadId → Life}
  {f : Thread JoinCall → Thread JoinCall}

inductive Waits (u : ThreadId) : Control JoinCall → Prop
  | stalling (core : CoreId) : Waits u (.stalling (.join u core))
  | waiting (core : CoreId) : Waits u (.waiting (.join u core))
  | start : Waits u (.waiting (.start u))

def AwaitsStart : Control JoinCall → Bool
  | .waiting (.start _) => true
  | _ => false

theorem Waits.unique (h : Waits u c) (h' : Waits v c) : u = v := by
  cases h <;> cases h' <;> rfl

inductive Phase (slot : ThreadId → Option ThreadId) (life : ThreadId → Life) (t : ThreadId)
    (sj : Prop) : Control JoinCall → Prop
  | user (hn : ¬ sj) : Phase slot life t sj .user
  | stalling {u : ThreadId} {core : CoreId} (hs : sj) (hw : slot u = some t) (hl : life u = .live) :
      Phase slot life t sj (.stalling (.join u core))
  | waiting {u : ThreadId} {core : CoreId} (hs : sj) (hw : slot u = some t) (hl : life u = .live) :
      Phase slot life t sj (.waiting (.join u core))
  | woken {u : ThreadId} {core : CoreId} (hn : ¬ sj) (hg : life u = .gone) :
      Phase slot life t sj (.signalled (.join u core))
  | rejoin {u : ThreadId} {core : CoreId} (hn : ¬ sj) (hg : life u = .gone) :
      Phase slot life t sj (.signalled (.rejoin u core))
  | resched {u : ThreadId} {c : Control JoinCall} (hc : c.pending = some (.resched u)) (hn : ¬ sj)
      (hg : life u = .gone) : Phase slot life t sj c
  | start {u : ThreadId} (hn : ¬ sj) (hw : slot u = some t) (hl : life u = .unborn) :
      Phase slot life t sj (.waiting (.start u))
  | started {u : ThreadId} (hn : ¬ sj) : Phase slot life t sj (.signalled (.start u))
  | other {c : Control JoinCall} (hc : c.pending = some .other) (hn : ¬ sj) : Phase slot life t sj c

namespace Phase
variable (h : Phase slot life t sj c)
include h

theorem mono (hs : sj' ↔ sj) (hw : ∀ u, Waits u c → slot u = some t → slot' u = some t ∧ life' u = life u)
    (hg : ∀ u, life u = .gone → life' u = .gone) : Phase slot' life' t sj' c := by
  cases h with
  | user hn => exact .user (hs.not.mpr hn)
  | stalling h hu hl =>
    obtain ⟨hu',hl'⟩ := hw _ (.stalling _) hu
    exact .stalling (hs.mpr h) hu' (hl'.trans hl)
  | waiting h hu hl =>
    obtain ⟨hu',hl'⟩ := hw _ (.waiting _) hu
    exact .waiting (hs.mpr h) hu' (hl'.trans hl)
  | woken hn h => exact .woken (hs.not.mpr hn) (hg _ h)
  | rejoin hn h => exact .rejoin (hs.not.mpr hn) (hg _ h)
  | resched hc hn h => exact .resched hc (hs.not.mpr hn) (hg _ h)
  | start hn hu hl =>
    obtain ⟨hu',hl'⟩ := hw _ .start hu
    exact .start (hs.not.mpr hn) hu' (hl'.trans hl)
  | started hn => exact .started (hs.not.mpr hn)
  | other hc hn => exact .other hc (hs.not.mpr hn)

theorem of_waits (hw : Waits u c) :
    sj ∧ life u = .live ∧ (∃ core, c = .stalling (.join u core) ∨ c = .waiting (.join u core)) ∨
      ¬ sj ∧ life u = .unborn ∧ c = .waiting (.start u) := by
  cases hw with
  | stalling core =>
    cases h with
    | stalling hs _ hl => exact .inl ⟨hs,hl,core,.inl rfl⟩
    | resched hk _ _ | other hk _ => cases hk
  | waiting core =>
    cases h with
    | waiting hs _ hl => exact .inl ⟨hs,hl,core,.inr rfl⟩
    | resched hk _ _ | other hk _ => cases hk
  | start =>
    cases h with
    | start hn _ hl => exact .inr ⟨hn,hl,rfl⟩
    | resched hk _ _ | other hk _ => cases hk

theorem stalled_of_waits (hw : Waits u c) (hc : AwaitsStart c = false) : sj := by
  rcases h.of_waits hw with ⟨hs,-⟩ | ⟨-,-,rfl⟩
  · exact hs
  · cases hc

theorem signal (hc : ∀ u, ¬ Waits u c) : Phase slot life t sj c.signal := by
  cases h with
  | user hn => exact .user hn
  | stalling _ _ _ => exact (hc _ (.stalling _)).elim
  | waiting _ _ _ => exact (hc _ (.waiting _)).elim
  | woken hn h => exact .woken hn h
  | rejoin hn h => exact .rejoin hn h
  | resched hk hn h => exact .resched (by rwa [Control.pending_signal]) hn h
  | start _ _ _ => exact (hc _ .start).elim
  | started hn => exact .started hn
  | other hk hn => exact .other (by rwa [Control.pending_signal]) hn

end Phase

def slotOf (m : ThreadManager JoinCall) (u : ThreadId) : Option ThreadId := (m.thread u).waiter

def lifeOf (m : ThreadManager JoinCall) (u : ThreadId) : Life := (m.thread u).status.life

structure Sound (m : ThreadManager JoinCall) (js : List (ThreadId × ThreadId)) : Prop where
  phase : ∀ t, Phase (slotOf m) (lifeOf m) t ((m.thread t).StalledFor .join) (m.thread t).control
  slot : ∀ u t, slotOf m u = some t → Waits u (m.thread t).control
  holder : ∀ t k, (m.thread t).control = .stalling k → m.lock = some t
  inside : ∀ t, (m.thread t).control ≠ .user → lifeOf m t = .live
  joined : ∀ p ∈ js, lifeOf m p.2 = .gone

namespace Sound

theorem modify (h : Sound m js) (hw : (f (m.thread t)).waiter = (m.thread t).waiter)
    (hl : (f (m.thread t)).status.life = (m.thread t).status.life)
    (hp : Phase (slotOf m) (lifeOf m) t ((f (m.thread t)).StalledFor .join) (f (m.thread t)).control)
    (hs : ∀ u, Waits u (m.thread t).control → Waits u (f (m.thread t)).control)
    (ht : ∀ k, (f (m.thread t)).control = .stalling k → l = some t)
    (hi : (f (m.thread t)).control ≠ .user → lifeOf m t = .live)
    (hlock : l = m.lock ∨ m.lock = none ∨ m.lock = some t) : Sound { m.modify t f with lock := l } js := by
  have hslot : slotOf { m.modify t f with lock := l } = slotOf m := by
    funext u
    rcases eq_or_ne u t with rfl | hu
    · simp [slotOf,hw]
    · simp [slotOf,hu]
  have hlife : lifeOf { m.modify t f with lock := l } = lifeOf m := by
    funext u
    rcases eq_or_ne u t with rfl | hu
    · simp [lifeOf,hl]
    · simp [lifeOf,hu]
  refine ⟨fun u => ?_,fun u v hv => ?_,fun u k hk => ?_,fun u hu => ?_,?_⟩
  · rw [hslot,hlife]
    rcases eq_or_ne u t with rfl | hu
    · simpa using hp
    · simpa [hu] using h.phase u
  · rw [hslot] at hv
    have hwait := h.slot u v hv
    rcases eq_or_ne v t with rfl | hne <;> simp [*]
  · rcases eq_or_ne u t with rfl | hu
    · exact ht k (by simpa using hk)
    · have hold := h.holder u k (by simpa [hu] using hk)
      rcases hlock with rfl | hn | hn
      · exact hold
      · rw [hn] at hold
        cases hold
      · rw [hn] at hold
        exact (hu (some.inj hold).symm).elim
  · rw [hlife]
    rcases eq_or_ne u t with rfl | hne
    · exact hi (by simpa using hu)
    · exact h.inside u (by simpa [hne] using hu)
  · rw [hlife]
    exact h.joined

def vacated (m : ThreadManager JoinCall) (u w : ThreadId) (f : Thread JoinCall → Thread JoinCall) :
    ThreadManager JoinCall := (m.modify w f).modify u fun th => { th with waiter := none }

theorem vacate_threads (hnone : slotOf m u = none → m' = m.modify u g)
    (hsome : ∀ w, slotOf m u = some w → m' = vacated (m.modify u g) u w f) (hwu : slotOf m u ≠ some u)
    (hg : ∀ th, (g th).waiter = th.waiter) : m'.lock = m.lock ∧ m'.thread u = { g (m.thread u) with waiter := none } ∧
      (∀ w, slotOf m u = some w → m'.thread w = f (m.thread w)) ∧
      ∀ v, v ≠ u → slotOf m u ≠ some v → m'.thread v = m.thread v := by
  cases ho : slotOf m u with
  | none =>
    rw [hnone ho]
    refine ⟨rfl,?_,by simp,fun v hv _ => by simp [hv]⟩
    have hn : (g (m.thread u)).waiter = none := (hg _).trans ho
    rw [modify_self,← hn]
  | some w =>
    have hne : w ≠ u := fun he => hwu (he ▸ ho)
    rw [hsome w ho,vacated]
    refine ⟨rfl,by simp [hne.symm],fun w' hw' => ?_,fun v hv hvw => ?_⟩
    · cases hw'
      simp [hne]
    · have hv' : v ≠ w := fun he => hvw (he ▸ rfl)
      simp [hv,hv']

theorem vacate (h : Sound m js) (hnone : slotOf m u = none → m' = m.modify u g)
    (hsome : ∀ w, slotOf m u = some w → m' = vacated (m.modify u g) u w f)
    (hg : ∀ th, (g th).waiter = th.waiter ∧ (g th).control = th.control) (hu : (m.thread u).control = .user)
    (hn : ¬ (m.thread u).StalledFor .join) (hn' : ¬ (g (m.thread u)).StalledFor .join) (hgone : lifeOf m u ≠ .gone)
    (hf : ∀ w, slotOf m u = some w → (f (m.thread w)).waiter = (m.thread w).waiter ∧
      (f (m.thread w)).status.life = (m.thread w).status.life ∧ ∃ k, (f (m.thread w)).control = .signalled k ∧
        ∀ slot life, life u = (g (m.thread u)).status.life →
          Phase slot life w ((f (m.thread w)).StalledFor .join) (.signalled k)) : Sound m' js := by
  have hwu : slotOf m u ≠ some u := by
    intro he
    have hw := h.slot u u he
    rw [hu] at hw
    cases hw
  obtain ⟨hlock,hself,hwoken,hrest⟩ := vacate_threads hnone hsome hwu fun th => (hg th).1
  have hcu : (m'.thread u).control = .user := by
    rw [hself]
    exact (hg _).2.trans hu
  have hslot : ∀ v, v ≠ u → slotOf m' v = slotOf m v := by
    intro v hv
    by_cases ho : slotOf m u = some v
    · rw [slotOf,hwoken v ho,(hf v ho).1,slotOf]
    · rw [slotOf,hrest v hv ho,slotOf]
  have hlife : ∀ v, v ≠ u → lifeOf m' v = lifeOf m v := by
    intro v hv
    by_cases ho : slotOf m u = some v
    · rw [lifeOf,hwoken v ho,(hf v ho).2.1,lifeOf]
    · rw [lifeOf,hrest v hv ho,lifeOf]
  have hg : ∀ v, lifeOf m v = .gone → lifeOf m' v = .gone := by
    intro v hgv
    rw [hlife v fun he => hgone (he ▸ hgv),hgv]
  refine ⟨fun v => ?_,fun x v hx => ?_,fun v k hk => ?_,fun v hc => ?_,fun p hp => hg _ (h.joined p hp)⟩
  · rcases eq_or_ne v u with rfl | hv
    · rw [hcu]
      refine .user ?_
      rwa [hself]
    · by_cases ho : slotOf m u = some v
      · obtain ⟨-,-,k,hk,hp⟩ := hf v ho
        rw [hwoken v ho,hk]
        refine hp _ _ ?_
        rw [lifeOf,hself]
      · rw [hrest v hv ho]
        refine (h.phase v).mono Iff.rfl (fun x _ hx => ?_) hg
        have hxu : x ≠ u := fun he => ho (he ▸ hx)
        rw [hslot x hxu,hlife x hxu]
        exact ⟨hx,rfl⟩
  · have hxu : x ≠ u := by
      rintro rfl
      rw [slotOf,hself] at hx
      cases hx
    rw [hslot x hxu] at hx
    have hwait := h.slot x v hx
    have hv : v ≠ u := by
      rintro rfl
      rw [hu] at hwait
      cases hwait
    rwa [hrest v hv fun he => hxu (hwait.unique (h.slot u v he))]
  · rcases eq_or_ne v u with rfl | hv
    · rw [hcu] at hk
      cases hk
    · by_cases ho : slotOf m u = some v
      · obtain ⟨-,-,k',hk',-⟩ := hf v ho
        rw [hwoken v ho,hk'] at hk
        cases hk
      · rw [hrest v hv ho] at hk
        rw [hlock]
        exact h.holder v k hk
  · have hv : v ≠ u := by
      rintro rfl
      exact hc hcu
    rw [hlife v hv]
    refine h.inside v fun hcv => ?_
    by_cases ho : slotOf m u = some v
    · have hwait := h.slot u v ho
      rw [hcv] at hwait
      cases hwait
    · rw [hrest v hv ho] at hc
      exact hc hcv

theorem occupy {l : Option ThreadId} (h : Sound m js) (hfree : m.lock = none) (hu : slotOf m u = none)
    (hc : (m.thread t).control = .user) (hlive : lifeOf m t = .live)
    (hf : ∀ o, (f { m.thread t with waiter := o }).waiter = o ∧ (f { m.thread t with waiter := o }).status.life = .live ∧
      (f { m.thread t with waiter := o }).control = c ∧ ((f { m.thread t with waiter := o }).StalledFor .join ↔ sj))
    (hp : ∀ slot, slot u = some t → Phase slot (lifeOf m) t sj c) (hwait : Waits u c)
    (ht : ∀ k, c = .stalling k → l = some t) :
    Sound { (m.modify u fun th => { th with waiter := some t }).modify t f with lock := l } js := by
  set m' : ThreadManager JoinCall :=
    { (m.modify u fun th => { th with waiter := some t }).modify t f with lock := l } with hm
  have hself : m'.thread t = f { m.thread t with waiter := if t = u then some t else (m.thread t).waiter } := by
    rcases eq_or_ne t u with rfl | hne
    · simp [hm]
    · simp [hm,hne]
  have hrest : ∀ v, v ≠ t → m'.thread v =
      { m.thread v with waiter := if v = u then some t else (m.thread v).waiter } := by
    intro v hv
    rcases eq_or_ne v u with rfl | hne <;> simp [*]
  obtain ⟨hwt,hlt,hct,hst⟩ := hf (if t = u then some t else (m.thread t).waiter)
  rw [← hself] at hwt hlt hct hst
  have hslot : ∀ v, slotOf m' v = if v = u then some t else slotOf m v := by
    intro v
    rcases eq_or_ne v t with rfl | hv
    · exact hwt
    · rw [slotOf,hrest v hv,slotOf]
  have hlife : lifeOf m' = lifeOf m := by
    funext v
    rcases eq_or_ne v t with rfl | hv
    · exact hlt.trans hlive.symm
    · rw [lifeOf,hrest v hv,lifeOf]
  refine ⟨fun v => ?_,fun x v hx => ?_,fun v k hk => ?_,fun v hv => ?_,fun p hp => ?_⟩
  · rcases eq_or_ne v t with rfl | hne
    · rw [hct,hlife]
      exact (hp _ (by rw [hslot,if_pos rfl])).mono hst (fun _ _ hx => ⟨hx,rfl⟩) fun _ hg => hg
    · rw [hrest v hne,hlife]
      refine (h.phase v).mono Iff.rfl (fun x _ hx => ⟨?_,rfl⟩) fun _ hg => hg
      rw [hslot,if_neg]
      · exact hx
      · rintro rfl
        rw [hu] at hx
        cases hx
  · rw [hslot] at hx
    split_ifs at hx with hxu
    · rwa [hxu,← some.inj hx,hct]
    · have hw := h.slot x v hx
      have hne : v ≠ t := by
        rintro rfl
        rw [hc] at hw
        cases hw
      rwa [hrest v hne]
  · rcases eq_or_ne v t with rfl | hne
    · exact ht k (hct.symm.trans hk)
    · rw [hrest v hne] at hk
      have hl := h.holder v k hk
      rw [hfree] at hl
      cases hl
  · rw [hlife]
    rcases eq_or_ne v t with rfl | hne
    · exact hlive
    · rw [hrest v hne] at hv
      exact h.inside v hv
  · rw [hlife]
    exact h.joined p hp

theorem record (h : Sound m js) (hg : lifeOf m u = .gone) (t : ThreadId) : Sound m (js ++ [(t,u)]) := by
  refine ⟨h.phase,h.slot,h.holder,h.inside,fun p hp => ?_⟩
  rcases List.mem_append.mp hp with hp | hp
  · exact h.joined p hp
  · rwa [List.mem_singleton.mp hp]

end Sound

def Allowed (s : JoinSystem) : JoinLabel → Prop
  | .join _ u => (s.threads.thread u).status ≠ .initializing
  | .stall _ r => r ≠ .join
  | .stallAsync t r => (s.threads.thread t).status = .running ∧ r ≠ .join
  | .resume t _ _ =>
    (s.threads.thread t).status = .stalled ∧ (s.threads.thread t).stalledReason ≠ .join ∧
      AwaitsStart (s.threads.thread t).control = false
  | .resumeAsync t => (s.threads.thread t).status = .stalled ∧ (s.threads.thread t).stalledReason ≠ .join
  | _ => True

instance decidableAllowed (s : JoinSystem) (l : JoinLabel) : Decidable (s.Allowed l) := by
  cases l <;> unfold Allowed <;> infer_instance

namespace Sound

theorem not_waits (h : Sound m js) (hn : ¬ (m.thread t).StalledFor .join)
    (hs : AwaitsStart (m.thread t).control = false) (u : ThreadId) : ¬ Waits u (m.thread t).control :=
  fun hw => hn ((h.phase t).stalled_of_waits hw hs)

theorem stallThread_eq_modify : m.stallThread t r k = { m.modify t (fun th =>
    { th with status := .stalled, stalledReason := r, control := .stalling k }) with lock := some t } := by
  simp [ThreadManager.stallThread,ThreadManager.stallThreadAsync,ThreadManager.modify]

theorem stall (h : Sound m js) (hfree : m.lock = none ∨ m.lock = some t) (hl : (m.thread t).status.life = .live)
    (hw : ∀ u, ¬ Waits u (m.thread t).control) (hp : Phase (slotOf m) (lifeOf m) t False (.stalling k))
    (hr : r ≠ .join) : Sound (m.stallThread t r k) js := by
  rw [stallThread_eq_modify]
  refine h.modify rfl hl.symm ?_ (fun u hu => (hw u hu).elim) (fun _ _ => rfl) (fun _ => hl) (.inr hfree)
  exact hp.mono ⟨fun hs => hr hs.2,False.elim⟩ (fun _ _ hu => ⟨hu,rfl⟩) fun _ hg => hg

theorem leave (h : Sound m js) (hw : ∀ u, ¬ Waits u (m.thread t).control)
    (hn : ¬ (m.thread t).StalledFor .join) (hl : m.lock = none ∨ m.lock = some t) : Sound (m.leave t) js :=
  h.modify rfl rfl (.user hn) (fun u hu => (hw u hu).elim) (by simp) (fun hc => (hc rfl).elim) (.inr hl)

theorem resumeThread_eq_modify : m.resumeThread t time msg =
    m.modify t fun th => { th.signal time msg with status := .running } := by
  simp [ThreadManager.resumeThread,ThreadManager.resumeThreadAsync,ThreadManager.modify]

theorem start_waiter (h : Sound m js) (hb : lifeOf m t = .unborn) (hw : slotOf m t = some w) :
    (m.thread w).control = .waiting (.start t) ∧ ¬ (m.thread w).StalledFor .join := by
  rcases (h.phase w).of_waits (h.slot t w hw) with ⟨-,hl,-⟩ | ⟨hn,-,hc⟩
  · rw [hb] at hl
    cases hl
  · exact ⟨hc,hn⟩

theorem join_waiter (h : Sound m js) (hfree : m.lock = none) (hb : lifeOf m t = .live)
    (hw : slotOf m t = some w) : ∃ core, (m.thread w).control = .waiting (.join t core) := by
  rcases (h.phase w).of_waits (h.slot t w hw) with ⟨-,-,core,hc | hc⟩ | ⟨-,hl,-⟩
  · have hl := h.holder w _ hc
    rw [hfree] at hl
    cases hl
  · exact ⟨core,hc⟩
  · rw [hb] at hl
    cases hl

def started (b : Bool) (th : Thread JoinCall) : Thread JoinCall :=
  if b then { th with status := .running } else { th with status := .stalled, stalledReason := .unscheduled }

theorem onThreadStart_eq_modify (b : Bool) : m.onThreadStart t b = m.modify t (started b) := by
  cases b <;> rfl

theorem start (h : Sound s.threads s.joined) (hb : (s.threads.thread t).status = .initializing)
    (time : SubsecondTime) : Sound (s.onThreadStart t time).threads (s.onThreadStart t time).joined := by
  have hlife : lifeOf s.threads t = .unborn := by rw [lifeOf,hb]; rfl
  have hu : (s.threads.thread t).control = .user := by
    by_contra hc
    have hl := h.inside t hc
    rw [hlife] at hl
    cases hl
  have hn' : ¬ (started (s.core t).isSome (s.threads.thread t)).StalledFor .join := by
    cases (s.core t).isSome
    · exact fun hs => by cases hs.2
    · exact fun hs => by cases hs.1
  have hkeep : ∀ b th, (started b th).waiter = th.waiter ∧ (started b th).control = th.control := by
    intro b th
    cases b <;> exact ⟨rfl,rfl⟩
  have hw : ((s.threads.modify t (started (s.core t).isSome)).thread t).waiter = slotOf s.threads t := by
    rw [modify_self,(hkeep _ _).1,slotOf]
  have hj : (s.onThreadStart t time).joined = s.joined := by
    rw [onThreadStart,signalWaiter]
    split <;> rfl
  rw [hj,onThreadStart,signalWaiter,onThreadStart_eq_modify]
  refine h.vacate (u := t) (g := started (s.core t).isSome) (f := fun th => th.signal time false) (fun ho => ?_)
    (fun w ho => ?_) (hkeep _) hu (fun hs => ?_) hn' (by simp [hlife]) fun w hw => ?_
  · dsimp only
    rw [hw,ho]
  · dsimp only
    rw [hw,ho]
    rfl
  · rw [hs.1] at hb
    cases hb
  · obtain ⟨hc,hn⟩ := h.start_waiter hlife hw
    refine ⟨rfl,rfl,.start t,?_,fun _ _ _ => .started hn⟩
    change (s.threads.thread w).control.signal = _
    rw [hc]
    rfl

theorem exit (h : Sound s.threads s.joined) (hfree : s.threads.lock = none)
    (hu : (s.threads.thread t).control = .user) (hx : s.onThreadExit t time = .ok s') : Sound s'.threads s'.joined := by
  rw [onThreadExit] at hx
  split_ifs at hx with hcore hrun
  cases hx
  have hlife : lifeOf s.threads t = .live := by rw [lifeOf,hrun]; rfl
  have hw : ((s.threads.modify t fun th => { th with status := .idle }).thread t).waiter = slotOf s.threads t := by
    rw [modify_self,slotOf]
  have hj : ∀ s' : JoinSystem, (s'.wakeUpWaiter t time).joined = s'.joined := by
    intro s'
    rw [wakeUpWaiter]
    split <;> rfl
  rw [setCore,hj]
  refine h.vacate (u := t) (g := fun th => { th with status := .idle })
    (f := fun th => { th.signal time false with status := .running }) (fun ho => ?_) (fun w ho => ?_)
    (fun _ => ⟨rfl,rfl⟩) hu (fun hs => ?_) (fun hs => ?_) (by simp [hlife]) fun w hw => ?_
  · rw [wakeUpWaiter,hw,ho]
  · rw [wakeUpWaiter,hw,ho,vacated,← resumeThread_eq_modify]
    rfl
  · rw [hs.1] at hrun
    cases hrun
  · cases hs.1
  · obtain ⟨core,hc⟩ := h.join_waiter hfree hlife hw
    have hj := (h.phase w).stalled_of_waits (h.slot t w hw) (by rw [hc]; rfl)
    refine ⟨rfl,by rw [hj.1]; rfl,.join t core,?_,fun _ _ hg => .woken (fun hs => ?_) hg⟩
    · change (s.threads.thread w).control.signal = _
      rw [hc]
      rfl
    · cases hs.1

theorem present_live (hp : s.Present t) : lifeOf s.threads t = .live := by
  rw [lifeOf]
  rcases hp.2.2 with hr | hr <;> rw [hr] <;> rfl

theorem join (h : Sound s.threads s.joined) (hfree : s.threads.lock = none) (hp : s.Present t)
    (hu : (s.threads.thread u).status ≠ .initializing) (hx : s.joinThread t u = .ok s') :
    Sound s'.threads s'.joined := by
  rw [joinThread] at hx
  split_ifs at hx with hidle hw
  · cases hx
    refine h.record ?_ t
    rw [lifeOf,hidle]
    rfl
  · split at hx
    · cases hx
    · next core hcore =>
      cases hx
      have hlive : lifeOf s.threads u = .live := by
        rw [lifeOf]
        cases hs : (s.threads.thread u).status with
        | initializing => exact (hu hs).elim
        | idle => exact (hidle hs).elim
        | _ => rfl
      rw [stallThread_eq_modify]
      exact h.occupy hfree hw hp.2.1 (present_live hp) (fun _ => ⟨rfl,rfl,rfl,iff_of_true ⟨rfl,rfl⟩ trivial⟩)
        (fun _ hs => .stalling trivial hs hlive) (.stalling core) fun _ _ => rfl
  · split at hx <;> cases hx

theorem waitForStart (h : Sound s.threads s.joined) (hfree : s.threads.lock = none)
    (hp : s.Present t) (hx : s.waitForThreadStart t u = .ok s') : Sound s'.threads s'.joined := by
  rw [waitForThreadStart] at hx
  split_ifs at hx with hinit hw
  · cases hx
    have hn : ¬ (s.threads.thread t).StalledFor .join := by
      have hph := h.phase t
      rw [hp.2.1] at hph
      cases hph <;> simp [*]
    have hunborn : lifeOf s.threads u = .unborn := by rw [lifeOf,hinit]; rfl
    exact h.occupy hfree hw hp.2.1 (present_live hp) (fun _ => ⟨rfl,present_live hp,rfl,Iff.rfl⟩)
      (fun _ hs => .start hn hs hunborn) .start fun _ hk => by cases hk
  · cases hx
    exact h

theorem reschedule (h : Sound s.threads s.joined) (hl : s.threads.lock = none ∨ s.threads.lock = some t)
    (hlive : lifeOf s.threads t = .live) (hw : ∀ u, ¬ Waits u (s.threads.thread t).control)
    (hn : ¬ (s.threads.thread t).StalledFor .join) (hg : lifeOf s.threads u = .gone) :
    Sound (s.reschedule t u).threads (s.reschedule t u).joined := by
  rw [JoinSystem.reschedule]
  split_ifs
  · exact h.stall hl hlive hw (.resched rfl (fun hf => hf) hg) (by decide)
  · exact (h.record hg t).leave hw hn hl

def target : JoinCall → Option ThreadId
  | .join u _ | .rejoin u _ | .resched u => some u
  | _ => none

theorem back (h : Sound m js)
    (hk : (m.thread t).control = .stalling k ∧ (m.thread t).status = .running ∨ (m.thread t).control = .signalled k) :
    ¬ (m.thread t).StalledFor .join ∧ ∀ u, target k = some u → lifeOf m u = .gone := by
  have hph := h.phase t
  rcases hk with ⟨hc,hr⟩ | hc
  · have hn : ¬ (m.thread t).StalledFor .join := fun hs => by
      rw [hs.1] at hr
      cases hr
    refine ⟨hn,fun u hu => ?_⟩
    rw [hc] at hph
    cases hph with
    | stalling hs _ _ => exact (hn hs).elim
    | resched hp _ hg =>
      cases hp
      cases hu
      exact hg
    | other hp _ =>
      cases hp
      cases hu
  · rw [hc] at hph
    generalize (m.thread t).StalledFor .join = sj at hph ⊢
    cases hph with
    | woken hn hg | rejoin hn hg => exact ⟨hn,fun _ hu => some.inj hu ▸ hg⟩
    | resched hp hn hg =>
      cases hp
      exact ⟨hn,fun _ hu => some.inj hu ▸ hg⟩
    | started hn => exact ⟨hn,fun _ hu => by cases hu⟩
    | other hp hn =>
      cases hp
      exact ⟨hn,fun _ hu => by cases hu⟩

theorem finish (h : Sound s.threads s.joined)
    (hk : (s.threads.thread t).control = .stalling k ∧ (s.threads.thread t).status = .running ∨
      (s.threads.thread t).control = .signalled k) (hl : s.threads.lock = none ∨ s.threads.lock = some t) :
    Sound (s.finish t k).threads (s.finish t k).joined := by
  obtain ⟨hn,hg⟩ := h.back hk
  have hctl : AwaitsStart (s.threads.thread t).control = false ∧ (s.threads.thread t).control ≠ .user := by
    rcases hk with ⟨hc,-⟩ | hc <;> rw [hc] <;> exact ⟨rfl,by simp⟩
  have hw := h.not_waits hn hctl.1
  have hlive := h.inside t hctl.2
  cases k with
  | join u core =>
    exact h.modify rfl rfl (.rejoin hn (hg u rfl)) (fun v hv => (hw v hv).elim)
      (by simp) (fun _ => hlive) (.inr hl)
  | rejoin u core | resched u => exact h.reschedule hl hlive hw hn (hg u rfl)
  | start u | other => exact h.leave hw hn hl

theorem block (h : Sound m js) (hk : (m.thread t).control = .stalling k) : Sound (m.wait t k) js := by
  have hl := h.holder t k hk
  have hlive := h.inside t (by simp [hk])
  have hph := h.phase t
  refine h.modify rfl rfl ?_ (fun u hu => ?_) (by simp) (fun _ => hlive) (.inr (.inr hl))
  · rw [hk] at hph
    cases hph with
    | stalling hs hw hl => exact .waiting hs hw hl
    | resched hc hn hg => exact .resched hc hn hg
    | other hc hn => exact .other hc hn
  · rw [hk] at hu
    cases hu with
    | stalling core => exact .waiting core

theorem restatus (h : Sound m js) (hn : ¬ (m.thread t).StalledFor .join) (hn' : ¬ (f (m.thread t)).StalledFor .join)
    (hw : (f (m.thread t)).waiter = (m.thread t).waiter) (hl : (f (m.thread t)).status.life = (m.thread t).status.life)
    (hc : (f (m.thread t)).control = (m.thread t).control ∨ (f (m.thread t)).control = (m.thread t).control.signal ∧
        AwaitsStart (m.thread t).control = false) : Sound (m.modify t f) js := by
  have hsj : (f (m.thread t)).StalledFor .join ↔ (m.thread t).StalledFor .join :=
    ⟨fun hs => (hn' hs).elim,fun hs => (hn hs).elim⟩
  have hph := (h.phase t).mono hsj (fun _ _ hu => ⟨hu,rfl⟩) fun _ hg => hg
  rcases hc with hc | ⟨hc,ha⟩
  · refine h.modify (l := m.lock) hw hl (by rwa [hc]) (fun u hu => by rwa [hc])
      (fun k hk => h.holder t k (hc ▸ hk)) (fun hu => h.inside t (hc ▸ hu)) (.inl rfl)
  · have hnw := h.not_waits hn ha
    refine h.modify (l := m.lock) hw hl (by rw [hc]; exact hph.signal hnw)
      (fun u hu => (hnw u hu).elim) (fun k hk => h.holder t k ?_) (fun hu => h.inside t fun he => ?_)
      (.inl rfl)
    · rw [hc] at hk
      cases hcc : (m.thread t).control <;> rw [hcc] at hk <;> first | exact hk | cases hk
    · rw [hc,he] at hu
      exact hu rfl

theorem ret (h : Sound s.threads s.joined) (hx : JoinSystem.step s (.ret t) = .ok s') : Sound s'.threads s'.joined := by
  rw [JoinSystem.step] at hx
  split at hx
  · next u core hc =>
    obtain ⟨hn,hg⟩ := h.back (.inr hc)
    have hgone := hg u rfl
    have hw := h.not_waits hn (by rw [hc]; rfl)
    split_ifs at hx with hcore hfree
    · cases hx
      exact (h.record hgone t).modify (f := fun th => { th with control := .user })
        (l := s.threads.lock) rfl rfl (.user hn) (fun v hv => (hw v hv).elim) (by simp)
        (fun hu => (hu rfl).elim) (.inl rfl)
    · cases hx
      have hlive := h.inside t (by simp [hc])
      exact h.reschedule (.inl hfree) hlive hw hn hgone
  · next k _ hc =>
    split_ifs at hx with hfree
    cases hx
    exact h.finish (.inr hc) (.inl hfree)
  · cases hx

theorem step (h : Sound s.threads s.joined) (ha : s.Allowed l) (hx : s.step l = .ok s') :
    Sound s'.threads s'.joined := by
  cases l with rw [JoinSystem.step] at hx
  | create core =>
    split_ifs at hx
    cases hx
    exact { h with }
  | start t time =>
    split_ifs at hx with hg
    cases hx
    exact h.start hg.2.1 time
  | exit t time =>
    split_ifs at hx with hg
    exact h.exit hg.2 hg.1.2.1 hx
  | join t u =>
    split_ifs at hx with hg hu
    exact h.join hg.2 hg.1 ha hx
  | waitForStart t u =>
    split_ifs at hx with hg hu
    exact h.waitForStart hg.2 hg.1 hx
  | stall t reason =>
    split_ifs at hx with hg
    cases hx
    refine h.stall (.inl hg.2) (present_live hg.1) (fun u hu => ?_) (.other rfl fun hf => hf) ha
    rw [hg.1.2.1] at hu
    cases hu
  | stallAsync t reason =>
    cases hx
    refine h.restatus (f := fun th => { th with status := .stalled, stalledReason := reason })
      (fun hs => ?_) (fun hs => ha.2 hs.2) rfl ?_ (.inl rfl)
    · rw [Allowed,hs.1] at ha
      cases ha.1
    · rw [ha.1]
      rfl
  | resume t time msg =>
    cases hx
    rw [resumeThread_eq_modify]
    refine h.restatus (f := fun th => { th.signal time msg with status := .running })
      (fun hs => ha.2.1 hs.2) (fun hs => ?_) rfl ?_ (.inr ⟨rfl,ha.2.2⟩)
    · cases hs.1
    · rw [ha.1]
      rfl
  | resumeAsync t =>
    cases hx
    refine h.restatus (f := fun th => { th with status := .running })
      (fun hs => ha.2 hs.2) (fun hs => ?_) rfl ?_ (.inl rfl)
    · cases hs.1
    · rw [ha.1]
      rfl
  | setCore t core =>
    cases hx
    exact h
  | settle t =>
    split at hx
    · next k hk =>
      have hl := h.holder t k hk
      split_ifs at hx with hany hr
      · cases hx
        exact h.finish (.inl ⟨hk,eq_of_beq hr⟩) (.inr hl)
      · cases hx
        exact h.block hk
    · cases hx
  | ret t => exact h.ret hx

theorem init : Sound JoinSystem.init.threads JoinSystem.init.joined :=
  ⟨fun _ => .user fun hs => (by cases hs.1),fun _ _ hv => (by cases hv),fun _ _ hk => (by cases hk),
    fun _ hc => (hc rfl).elim,fun _ hp => (by cases hp)⟩

end Sound

theorem Sound.of_reaches (h : Run.Reaches JoinSystem.step Allowed JoinSystem.init s) : Sound s.threads s.joined :=
  Run.Reaches.invariant (I := fun s => Sound s.threads s.joined) (fun _ _ _ hs ha hn => hs.step ha hn) Sound.init h

theorem gone_iff {th : Thread JoinCall} : th.status.life = .gone ↔ th.status = .idle := by
  cases th.status <;> simp [CoreState.life]

theorem join_law {s : JoinSystem} (hs : Run.Reaches step Allowed init s) :
    (∀ p ∈ s.joined, (s.threads.thread p.2).status = .idle) ∧ (∀ t, (s.threads.thread t).StalledFor .join →
        ∃ u core, (s.threads.thread t).control.pending = some (.join u core) ∧ (s.threads.thread u).status ≠ .idle) ∧
      ∀ t u core, (s.threads.thread t).control.pending = some (.join u core) →
        (s.threads.thread u).status = .idle → (s.threads.thread t).control = .signalled (.join u core) := by
  have h := Sound.of_reaches hs
  refine ⟨fun p hp => gone_iff.mp (h.joined p hp),fun t ht => ?_,fun t u core hp hi => ?_⟩
  · have hph := h.phase t
    generalize (s.threads.thread t).control = c at hph ⊢
    have hlive : ∀ u, lifeOf s.threads u = .live → (s.threads.thread u).status ≠ .idle := by
      intro u hl hi
      rw [lifeOf,hi] at hl
      cases hl
    cases hph with
    | stalling _ _ hl | waiting _ _ hl => exact ⟨_,_,rfl,hlive _ hl⟩
    | user hn | woken hn _ | rejoin hn _ | resched _ hn _ | start hn _ _ | started hn => exact (hn ht).elim
    | other _ hn => exact (hn ht).elim
  · have hph := h.phase t
    have hg : lifeOf s.threads u = .gone := gone_iff.mpr hi
    generalize (s.threads.thread t).control = c at hph hp ⊢
    cases hph with
    | stalling _ _ hl | waiting _ _ hl =>
      cases hp
      rw [hg] at hl
      cases hl
    | woken _ _ =>
      cases hp
      rfl
    | user _ | rejoin _ _ | start _ _ _ | started _ => cases hp
    | resched hc _ _ | other hc _ =>
      rw [hc] at hp
      cases hp

def runFrom (C : JoinSystem → JoinLabel → Prop) [∀ s l, Decidable (C s l)] (ls : List JoinLabel) :
    JoinSystem := (Run.guided step C init ls).getD init

def joinAfterStart : List JoinLabel :=
  [.create (some 0),.start 0 0,.create (some 1),.start 1 0,.join 0 1,.settle 0,.exit 1 5,.ret 0,.ret 0]

theorem join_after_start_returns : (runFrom Allowed joinAfterStart).joined = [(0,1)] ∧
      ((runFrom Allowed joinAfterStart).threads.thread 1).status = .idle := by
  have hr : Run.Reaches step Allowed init (runFrom Allowed joinAfterStart) := Run.reaches_guided (by decide)
  have hj : (runFrom Allowed joinAfterStart).joined = [(0,1)] := by decide
  exact ⟨hj,(join_law hr).1 (0,1) (by rw [hj]; exact List.mem_cons_self)⟩

def joinBeforeStart : List JoinLabel :=
  [.create (some 0),.start 0 0,.create (some 1),.join 0 1,.settle 0,.start 1 0,.ret 0,.ret 0]

theorem join_returns_at_start : Run.Reaches step (fun _ _ => True) init (runFrom (fun _ _ => True) joinBeforeStart) ∧
      (runFrom (fun _ _ => True) joinBeforeStart).joined = [(0,1)] ∧
      ((runFrom (fun _ _ => True) joinBeforeStart).threads.thread 1).status = .running ∧
      ((runFrom (fun _ _ => True) joinBeforeStart).threads.thread 0).StalledFor .join :=
  ⟨Run.reaches_guided (by decide),by decide,by decide,by decide⟩

end JoinSystem
