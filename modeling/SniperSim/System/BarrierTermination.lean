import SniperSim.System.BarrierDisable

open Function List Bool Nat
namespace BarrierSyncServer
variable {cfg : BarrierConfig} {s u : BarrierSyncServer} {c : CoreId} {t : ThreadId} {rounds : List Round}
  {caller : Option ThreadId} {q : BarrierSyncServer × Bool} {time : SubsecondTime}

def reenables : Bool → List HookAction → Bool
  | _, [] => false
  | disabled, .setDisable b :: l => (disabled && !b) || reenables b l
  | disabled, _ :: l => reenables disabled l

structure Kept (s u : BarrierSyncServer) : Prop where
  next : u.next = s.next
  mode : u.fastforward = s.fastforward
  clock : ∀ c, u.clock c = s.clock c ∨ u.clock c = 0
  acquire : u.disable ∨ (s.disable = false ∧ u.disable = false ∧ u.acquire = s.acquire)

namespace Kept

theorem clock_le (h : Kept s u) (c : CoreId) : u.clock c ≤ s.clock c := by
  rcases h.clock c with hc | hc
  · rw [hc]
    exact BitVec.le_refl _
  · rw [hc]
    exact zero_le _

theorem trans (h : Kept s s') (h' : Kept s' u) : Kept s u := by
  refine ⟨h'.next.trans h.next,h'.mode.trans h.mode,fun c => ?_,?_⟩
  · rcases h'.clock c with hc | hc
    · rw [hc]
      exact h.clock c
    · exact .inr hc
  rcases h'.acquire with hd | ⟨hd',hd,ha⟩
  · exact .inl hd
  · rcases h.acquire with hs | ⟨hs,-,hac⟩
    · rw [hs] at hd'
      cases hd'
    · exact .inr ⟨hs,hd,ha.trans hac⟩

end Kept

theorem kept_same (hn : u.next = s.next) (hm : u.fastforward = s.fastforward)
    (hk : ∀ c, u.clock c = s.clock c ∨ u.clock c = 0) (ha : u.acquire = s.acquire) (hd : u.disable = s.disable) :
    Kept s u := by
  refine ⟨hn,hm,hk,?_⟩
  cases hs : s.disable <;> simp [*]

theorem releaseThread_kept (cfg : BarrierConfig) (s : BarrierSyncServer) (t : ThreadId) :
    Kept s (releaseThread cfg s t) := by
  rw [releaseThread]
  obtain ⟨r,q,l,he⟩ := doRelease_frame 1 (resetClock cfg s t)
  rw [he]
  refine kept_same rfl rfl (fun c => ?_) rfl rfl
  dsimp only [resetClock]
  split_ifs <;> simp [*]

theorem hookAction_kept (h : reenables s.disable (a :: l) = false) :
    Kept s (hookAction cfg s a) ∧ reenables (hookAction cfg s a).disable l = false := by
  cases a with
  | env e => cases e <;> exact ⟨kept_same rfl rfl (fun _ => .inl rfl) rfl rfl,h⟩
  | migrate t =>
    refine ⟨releaseThread_kept cfg s t,?_⟩
    rwa [hookAction,(releaseThread_same cfg s t).2.2.1]
  | setDisable b =>
    rw [reenables,or_eq_false_iff] at h
    cases b with
    | true =>
      obtain ⟨a,q,l',he⟩ := abort_frame (range cfg.numCores) { s with disable := true }
      rw [hookAction,setDisable,if_pos rfl,abortBarrier,he]
      exact ⟨⟨rfl,rfl,fun _ => .inl rfl,.inl rfl⟩,h.2⟩
    | false =>
      have hs : s.disable = false := by simpa using h.1
      exact ⟨⟨rfl,rfl,fun _ => .inl rfl,.inr ⟨hs,rfl,rfl⟩⟩,h.2⟩

theorem callHooks_kept (h : reenables s.disable l = false) : Kept s (callHooks cfg s l) := by
  induction l generalizing s with
  | nil => exact kept_same rfl rfl (fun _ => .inl rfl) rfl rfl
  | cons a l ih =>
    obtain ⟨hk,hl⟩ : Kept s (hookAction cfg s a) ∧ _ := hookAction_kept h
    exact hk.trans (ih hl)

def ripe (s : BarrierSyncServer) (c : CoreId) : Bool := decide (s.clock c < s.next) && s.acquire c

structure Pass (cores : List CoreId) (p r : Staging) : Prop where
  next : r.1.next = p.1.next
  mode : r.1.fastforward = p.1.fastforward
  clock : r.1.clock = p.1.clock
  disable : r.1.disable = p.1.disable
  acquire : ∀ c, r.1.acquire c = (p.1.acquire c && !(cores.contains c && p.1.ripe c))
  resumed : r.2.1 = (p.2.1 || cores.any p.1.ripe)

theorem stageCore_pass (caller : Option ThreadId) (p : Staging) (c : CoreId) : Pass [c] p (stageCore caller p c) := by
  have hupd : ∀ d, p.1.ripe c → update p.1.acquire c false d = (p.1.acquire d && !([c].contains d && p.1.ripe d)) := by
    intro d hr
    rcases eq_or_ne d c with rfl | hne
    · simp [hr]
    · simp [hne]
  have hany : ∀ b, p.1.ripe c = b → [c].any p.1.ripe = b := fun b hb => by simp [hb]
  rw [stageCore]
  split_ifs with hg ht
  · have hr : p.1.ripe c := by simp [ripe,hg.1,hg.2]
    exact ⟨rfl,rfl,rfl,rfl,fun d => hupd d hr,by rw [hany _ hr,Bool.or_true]⟩
  · have hr : p.1.ripe c := by simp [ripe,hg.1,hg.2]
    exact ⟨rfl,rfl,rfl,rfl,fun d => hupd d hr,by rw [hany _ hr,Bool.or_true]⟩
  · have hr : p.1.ripe c = false := by simpa [ripe] using hg
    refine ⟨rfl,rfl,rfl,rfl,fun d => ?_,by rw [hany _ hr,Bool.or_false]⟩
    rcases eq_or_ne d c with rfl | hne
    · simp [hr]
    · simp [hne]

theorem Pass.cons {cores : List CoreId} {p q r : Staging} (h : Pass [c] p q) (h' : Pass cores q r) :
    Pass (c :: cores) p r := by
  have hripe : ∀ d, q.1.ripe d = (p.1.ripe d && !(d == c)) := by
    intro d
    rw [ripe,ripe,h.next,h.clock,h.acquire d]
    rcases eq_or_ne d c with rfl | hne
    · rw [ripe]
      generalize decide (p.1.clock d < p.1.next) = early
      cases early <;> cases p.1.acquire d <;> simp
    · simp [hne]
  refine ⟨h'.next.trans h.next,h'.mode.trans h.mode,h'.clock.trans h.clock,h'.disable.trans h.disable,fun d => ?_,?_⟩
  · rw [h'.acquire d,h.acquire d,hripe d]
    rcases eq_or_ne d c with rfl | hne
    · simp
    · simp [beq_false_of_ne hne,hne]
  · rw [h'.resumed,h.resumed,any_cons,any_cons,any_nil,Bool.or_false,Bool.or_assoc]
    cases hr : p.1.ripe c with
    | true => rfl
    | false =>
      have hfun : q.1.ripe = p.1.ripe := funext fun d => by
        rw [hripe d]
        rcases eq_or_ne d c with rfl | hne <;> simp [*]
      rw [hfun]

theorem stage_pass (cfg : BarrierConfig) (caller : Option ThreadId) (s : BarrierSyncServer) :
    Pass (range cfg.numCores) (s,false,true) (stage cfg caller s) := by
  have hp : ∀ (cores : List CoreId) (p : Staging), Pass cores p (cores.foldl (stageCore caller) p) := by
    intro cores
    induction cores with
    | nil => exact fun p => ⟨rfl,rfl,rfl,rfl,fun c => by simp,by simp⟩
    | cons c cores ih => exact fun p => (stageCore_pass caller p c).cons (ih _)
  exact hp _ _

structure Tied (cfg : BarrierConfig) (s : BarrierSyncServer) : Prop where
  detailed : s.fastforward = false
  fits : ∀ c, (s.clock c).toNat + cfg.interval.toNat < 18446744073709551616
  held : s.disable = false → ∀ c < cfg.numCores, s.next ≤ s.clock c → s.acquire c

structure Pressing (cfg : BarrierConfig) (s : BarrierSyncServer) (c : CoreId) : Prop where
  core : c < cfg.numCores
  acquired : s.acquire c
  reached : s.next ≤ s.clock c

theorem next_advance (hfit : s.next.toNat + cfg.interval.toNat < 18446744073709551616) :
    (advanceNext cfg s).next.toNat = s.next.toNat + cfg.interval.toNat := by
  change (s.next + cfg.interval).toNat = _
  exact mod_eq_of_lt hfit

theorem next_advance_le (hfit : s.next.toNat + cfg.interval.toNat < 18446744073709551616) :
    s.next ≤ (advanceNext cfg s).next := by
  change s.next.toNat ≤ (advanceNext cfg s).next.toNat
  rw [next_advance hfit]
  exact Nat.le_add_right ..

namespace Tied

theorem kept (h : Tied cfg s) (hk : Kept s u) : Tied cfg u := by
  refine ⟨hk.mode.trans h.detailed,fun c => ?_,fun hd c hc hle => ?_⟩
  · exact Nat.lt_of_le_of_lt (Nat.add_le_add_right (hk.clock_le c) _) (h.fits c)
  · rcases hk.acquire with ht | ⟨hs,-,ha⟩
    · rw [hd] at ht
      cases ht
    · rw [hk.next] at hle
      rw [ha]
      exact h.held hs c hc (BitVec.le_trans hle (hk.clock_le c))

theorem fits_next (h : Tied cfg s) (hp : Pressing cfg s c) : s.next.toNat + cfg.interval.toNat < 18446744073709551616 :=
  Nat.lt_of_le_of_lt (Nat.add_le_add_right hp.reached _) (h.fits c)

theorem advance (h : Tied cfg s) (hd : s.disable = false)
    (hfit : s.next.toNat + cfg.interval.toNat < 18446744073709551616) (caller : Option ThreadId) :
    Tied cfg (stage cfg caller (advanceNext cfg s)).1 := by
  have hp := stage_pass cfg caller (advanceNext cfg s)
  have hnext := next_advance hfit
  refine ⟨hp.mode.trans h.detailed,fun c => ?_,fun _ c hc hle => ?_⟩
  · rw [hp.clock]
    exact h.fits c
  · rw [hp.next,hp.clock] at hle
    have hs : s.next ≤ s.clock c := by
      have hle' : (advanceNext cfg s).next.toNat ≤ (s.clock c).toNat := hle
      rw [hnext] at hle'
      exact Nat.le_trans (Nat.le_add_right _ _) hle'
    have hr : (advanceNext cfg s).ripe c = false := by
      rw [ripe,decide_eq_false (BitVec.not_lt.mpr hle)]
      rfl
    have ha : (advanceNext cfg s).acquire c := h.held hd c hc hs
    rw [hp.acquire c,hr,ha]
    simp

end Tied

theorem pressing_advance (hc : c < cfg.numCores) (hac : s.acquire c)
    (hidle : (stage cfg caller (advanceNext cfg s)).2.1 = false) :
    Pressing cfg (stage cfg caller (advanceNext cfg s)).1 c := by
  have hpass := stage_pass cfg caller (advanceNext cfg s)
  have hr : (advanceNext cfg s).ripe c = false := by
    have hany := hpass.resumed.symm.trans hidle
    rw [Bool.false_or,any_eq_false] at hany
    exact eq_false_iff.mpr (hany c (mem_range.mpr hc))
  have ha : (advanceNext cfg s).acquire c := hac
  refine ⟨hc,?_,?_⟩
  · rw [hpass.acquire c,hr,ha]
    simp
  · rw [hpass.next,hpass.clock]
    rw [ripe,ha,Bool.and_true,decide_eq_false_iff_not] at hr
    exact BitVec.not_lt.mp hr

theorem hooks_kept {r : Round} (h : reenables s.disable r.actions = false) :
    Kept s (callHooks cfg { s with globalTime := s.next } r.actions) :=
  (kept_same rfl rfl (fun _ => .inl rfl) rfl rfl : Kept s { s with globalTime := s.next }).trans (callHooks_kept h)

theorem Kept.enabled (h : Kept s u) (hd : u.disable = false) : s.disable = false ∧ u.acquire = s.acquire := by
  rcases h.acquire with ht | ⟨hs,-,ha⟩
  · rw [hd] at ht
    cases ht
  · exact ⟨hs,ha⟩

theorem Kept.same_mode (h : Kept s u) (hd : u.disable = false) : u.disable = s.disable := hd.trans (h.enabled hd).1.symm

theorem releaseLoop_tied {q : BarrierSyncServer × Option Bool} (h : Tied cfg s)
    (hroom : (∃ c, Pressing cfg s c) ∨ s.next.toNat + rounds.length * cfg.interval.toNat < 18446744073709551616)
    (hhooks : ∀ r ∈ rounds, reenables s.disable r.actions = false)
    (hr : releaseLoop cfg caller cont rounds s = .ok q) : Tied cfg q.1 ∧ s.next ≤ q.1.next := by
  induction rounds generalizing s with
  | nil => cases hr
  | cons r rounds ih =>
    rw [releaseLoop] at hr
    dsimp only at hr
    have hk : Kept s (callHooks cfg { s with globalTime := s.next } r.actions) :=
      hooks_kept (hhooks r (mem_cons_self ..))
    generalize callHooks cfg { s with globalTime := s.next } r.actions = u at hk hr
    have hu := h.kept hk
    have hsame : s.next ≤ u.next := hk.next ▸ BitVec.le_refl _
    split_ifs at hr with hrun htime hdis hres
    · cases hr
      exact ⟨hu,hsame⟩
    · cases hr
      exact ⟨hu,hsame⟩
    all_goals
      have hd := eq_false_iff.mpr hdis
      have hfit : u.next.toNat + cfg.interval.toNat < 18446744073709551616 := by
        rw [hk.next]
        rcases hroom with ⟨c,hp⟩ | hroom
        · exact h.fits_next hp
        · rw [length_cons,succ_mul] at hroom
          omega
      have hw := hu.advance hd hfit caller
      have hpass := stage_pass cfg caller (advanceNext cfg u)
      have hle : s.next ≤ (stage cfg caller (advanceNext cfg u)).1.next := by
        rw [hpass.next,← hk.next]
        exact next_advance_le hfit
    · cases hr
      exact ⟨hw,hle⟩
    · have hidle := eq_false_iff.mpr hres
      refine (ih hw ?_ (fun r' hr' => ?_) hr).imp_right (BitVec.le_trans hle)
      · rcases hroom with ⟨c,hp⟩ | hroom
        · exact .inl ⟨c,pressing_advance hp.core ((hk.enabled hd).2 ▸ hp.acquired) hidle⟩
        · refine .inr ?_
          rw [hpass.next,next_advance hfit,hk.next]
          rw [length_cons,succ_mul] at hroom
          omega
      · rw [hpass.disable.trans (hk.same_mode hd)]
        exact hhooks r' (mem_cons_of_mem r hr')

theorem releaseLoop_ends (h : Tied cfg s) (hp : Pressing cfg s c)
    (hlen : (s.clock c).toNat < s.next.toNat + rounds.length * cfg.interval.toNat)
    (hhooks : ∀ r ∈ rounds, reenables s.disable r.actions = false) :
    ∃ q, releaseLoop cfg caller false rounds s = .ok q := by
  induction rounds generalizing s with
  | nil =>
    have hle : s.next.toNat ≤ (s.clock c).toNat := hp.reached
    rw [length_nil] at hlen
    omega
  | cons r rounds ih =>
    rw [releaseLoop]
    dsimp only
    have hk : Kept s (callHooks cfg { s with globalTime := s.next } r.actions) :=
      hooks_kept (hhooks r (mem_cons_self ..))
    generalize callHooks cfg { s with globalTime := s.next } r.actions = u at hk
    rw [if_neg (fun hf => by cases hf.1),if_neg (fun hf => by cases hf.1)]
    split_ifs with hdis hres
    · exact ⟨_,rfl⟩
    · exact ⟨_,rfl⟩
    · have hd := eq_false_iff.mpr hdis
      have hfit : u.next.toNat + cfg.interval.toNat < 18446744073709551616 := by
        rw [hk.next]
        exact h.fits_next hp
      have hpass := stage_pass cfg caller (advanceNext cfg u)
      have hpr := pressing_advance hp.core ((hk.enabled hd).2 ▸ hp.acquired) (eq_false_iff.mpr hres)
      refine ih ((h.kept hk).advance hd hfit caller) hpr ?_ fun r' hr' => ?_
      · have hclock : (u.clock c).toNat ≤ (s.clock c).toNat := hk.clock_le c
        rw [hpass.next,hpass.clock,next_advance hfit,hk.next]
        change (u.clock c).toNat < _
        rw [length_cons,succ_mul] at hlen
        omega
      · rw [hpass.disable.trans (hk.same_mode hd)]
        exact hhooks r' (mem_cons_of_mem r hr')

theorem reached_core (hm : s.fastforward = false) (h : isBarrierReached cfg s) :
    ∃ c < cfg.numCores, s.group c = none ∧ isCoreRunning cfg s c ∧ s.next ≤ s.clock c := by
  rw [isBarrierReached,if_neg (by simp [hm]),and_eq_true,all_eq_true,any_eq_true] at h
  obtain ⟨hall,c,hc,hrun⟩ := h
  rw [and_eq_true,Option.isNone_iff_eq_none] at hrun
  have hcl := hall c hc
  rw [hrun.1,hrun.2] at hcl
  refine ⟨c,mem_range.mp hc,hrun.1,hrun.2,?_⟩
  simpa using hcl

def NoStale (cfg : BarrierConfig) (s : BarrierSyncServer) : Prop :=
  ∀ c < cfg.numCores, s.next ≤ s.clock c → s.acquire c

instance decidableNoStale (cfg : BarrierConfig) (s : BarrierSyncServer) : Decidable (NoStale cfg s) :=
  inferInstanceAs (Decidable (∀ c < cfg.numCores, s.next ≤ s.clock c → s.acquire c))

def Orderly (cfg : BarrierConfig) (s : BarrierSyncServer) : BarrierLabel → Prop
  | .synchronize _ time rounds _ =>
    time.toNat + cfg.interval.toNat < 18446744073709551616 ∧ ∀ r ∈ rounds, reenables false r.actions = false
  | .stopped _ rounds _ => ∀ r ∈ rounds, reenables false r.actions = false
  | .advance rounds _ =>
    s.next.toNat + rounds.length * cfg.interval.toNat < 18446744073709551616 ∧
      ∀ r ∈ rounds, reenables s.disable r.actions = false
  | .setDisable b => s.disable → b = false → NoStale cfg s
  | .release => s.disable ∨ ∀ c < cfg.numCores, s.next ≤ s.clock c → s.acquire c = false
  | .setFastForward b _ => b = false
  | _ => True

instance decidableOrderly (cfg : BarrierConfig) (s : BarrierSyncServer) :
    ∀ l : BarrierLabel, Decidable (Orderly cfg s l)
  | .synchronize _ _ rounds _ => inferInstanceAs (Decidable (_ ∧ ∀ r ∈ rounds, reenables false r.actions = false))
  | .stopped _ rounds _ => inferInstanceAs (Decidable (∀ r ∈ rounds, reenables false r.actions = false))
  | .advance rounds _ => inferInstanceAs (Decidable (_ ∧ ∀ r ∈ rounds, reenables s.disable r.actions = false))
  | .setDisable b => inferInstanceAs (Decidable (s.disable → b = false → NoStale cfg s))
  | .release => inferInstanceAs (Decidable (s.disable ∨
      ∀ c < cfg.numCores, s.next ≤ s.clock c → s.acquire c = false))
  | .setFastForward b _ => inferInstanceAs (Decidable (b = false))
  | .migrate _ | .setGroup .. | .env _ => isTrue trivial

theorem skipSlots_detailed (hm : s.fastforward = false) : skipSlots cfg s = s := by
  exact if_neg (by simp [hm])

theorem Tied.restart (h : Tied cfg s) : Tied cfg (restart cfg s order) ∧ (restart cfg s order).next = s.next := by
  obtain ⟨r,q,l,he⟩ := doRelease_frame (if s.fastforward then order.length else cfg.numHostCores)
    { s with toRelease := order }
  rw [BarrierSyncServer.restart,he]
  exact ⟨{ h with },rfl⟩

theorem setDisable_next (cfg : BarrierConfig) (s : BarrierSyncServer) (b : Bool) :
    (setDisable cfg s b).next = s.next := by
  cases b with
  | true =>
    obtain ⟨a,q,l,he⟩ := abort_frame (range cfg.numCores) { s with disable := true }
    rw [setDisable,if_pos rfl,abortBarrier,he]
  | false => rfl

theorem pressing_arrive (hc : c < cfg.numCores) (hle : s.next ≤ time) : Pressing cfg (s.arrive c t time) c := by
  refine ⟨hc,update_self ..,?_⟩
  change _ ≤ update (doRelease 1 (s.report c time)).clock c time c
  rwa [arrive_next,update_self]

namespace Tied
section
variable (h : Tied cfg s)
include h

theorem barrierRelease
    (hroom : (∃ c, Pressing cfg s c) ∨ s.next.toNat + rounds.length * cfg.interval.toNat < 18446744073709551616)
    (hhooks : ∀ r ∈ rounds, reenables s.disable r.actions = false)
    (hr : barrierRelease cfg s caller cont rounds order = .ok q) : Tied cfg q.1 ∧ s.next ≤ q.1.next := by
  obtain ⟨-,p,hp,-,hq⟩ := barrierRelease_ok hr
  rw [skipSlots_detailed h.detailed] at hp
  obtain ⟨ht,hle⟩ := releaseLoop_tied h hroom hhooks hp
  rcases hq with he | ⟨-,he⟩
  · rw [he]
    exact ⟨ht,hle⟩
  · rw [he,ht.restart.2]
    exact ⟨ht.restart.1,hle⟩

theorem arrive (hfit : time.toNat + cfg.interval.toNat < 18446744073709551616) (c : CoreId) (t : ThreadId) :
    Tied cfg (s.arrive c t time) := by
  obtain ⟨r,q,l,he⟩ := doRelease_frame 1 (s.report c time)
  rw [BarrierSyncServer.arrive,he]
  refine ⟨h.detailed,(forall_update_iff s.clock fun _ x => x.toNat + _ < _).mpr ⟨hfit,fun d _ => h.fits d⟩,
    fun hd d hdn hle => ?_⟩
  change update s.acquire c true d
  change s.next ≤ update s.clock c time d at hle
  rcases eq_or_ne d c with rfl | hne
  · exact update_self ..
  · rw [update_of_ne hne] at hle ⊢
    exact h.held hd d hdn hle

theorem reached (hd : s.disable = false) (hb : isBarrierReached cfg s) : ∃ c, Pressing cfg s c := by
  obtain ⟨c,hc,-,-,hle⟩ := reached_core h.detailed hb
  exact ⟨c,hc,h.held hd c hc hle,hle⟩

theorem setDisable (b : Bool) (ho : s.disable → b = false → NoStale cfg s) : Tied cfg (setDisable cfg s b) := by
  rw [BarrierSyncServer.setDisable]
  cases b with
  | true =>
    obtain ⟨a,q,l,he⟩ := abort_frame (range cfg.numCores) { s with disable := true }
    rw [if_pos rfl,BarrierSyncServer.abortBarrier,he]
    exact ⟨h.detailed,h.fits,by simp⟩
  | false =>
    refine ⟨h.detailed,h.fits,fun _ => ?_⟩
    cases hd : s.disable with
    | true => exact ho hd rfl
    | false => exact h.held hd

theorem abortBarrier (ho : s.disable ∨ ∀ c < cfg.numCores, s.next ≤ s.clock c → s.acquire c = false) :
    Tied cfg (abortBarrier cfg s) := by
  rw [BarrierSyncServer.abortBarrier]
  obtain ⟨a,q,l,he⟩ := abort_frame (range cfg.numCores) s
  rw [he]
  refine ⟨h.detailed,h.fits,fun hd c hc hle => ?_⟩
  rcases ho with ho | ho
  · rw [hd] at ho
    cases ho
  · have ha := h.held hd c hc hle
    rw [ho c hc hle] at ha
    cases ha

theorem synchronize (hm : s.masterOf c < cfg.numCores) (ho : Orderly cfg s (.synchronize c time rounds order))
    (hr : synchronize cfg s c time rounds order = .ok s') : Tied cfg s' ∧ s.next ≤ s'.next := by
  cases synchronize_entry hr with
  | ignored _ => exact ⟨h,BitVec.le_refl _⟩
  | early t _ _ _ _ => exact ⟨{ h with },BitVec.le_refl _⟩
  | blocks t _ _ _ _ _ =>
    refine ⟨{ (h.arrive ho.1 _ t) with },?_⟩
    change s.next ≤ (s.arrive (s.masterOf c) t time).next
    rw [arrive_next]
    exact BitVec.le_refl _
  | releases t _ hd _ hge _ q hq =>
    obtain ⟨hs,hle⟩ := (h.arrive ho.1 (s.masterOf c) t).barrierRelease
      (.inl ⟨s.masterOf c,pressing_arrive hm (hge h.detailed)⟩)
      (fun r hr => by rw [arrive_disable,hd]; exact ho.2 r hr) hq
    rw [arrive_next] at hle
    obtain ⟨u,mustWait⟩ := q
    cases mustWait <;> exact ⟨{ hs with },hle⟩

theorem signal (hhooks : ∀ r ∈ rounds, reenables false r.actions = false)
    (hr : signal cfg s rounds order = .ok s') : Tied cfg s' ∧ s.next ≤ s'.next := by
  rw [BarrierSyncServer.signal] at hr
  split_ifs at hr with hd hb
  · cases hr
    exact ⟨h,BitVec.le_refl _⟩
  · obtain ⟨q,hq,rfl⟩ := Outcome.map_ok hr
    have hoff := eq_false_iff.mpr hd
    refine h.barrierRelease (.inl (h.reached hoff hb)) (fun r hr => ?_) hq
    rw [hoff]
    exact hhooks r hr
  · cases hr
    exact ⟨h,BitVec.le_refl _⟩

theorem step (ho : Orderly cfg s l) (hr : step cfg s l = .ok s') : Tied cfg s' ∧ s.next ≤ s'.next := by
  cases l with
  | synchronize c time rounds order =>
    rw [BarrierSyncServer.step] at hr
    split_ifs at hr with hg
    exact h.synchronize hg.2.1 ho hr
  | stopped t rounds order =>
    have hk := releaseThread_kept cfg s t
    have hs := (h.kept hk).signal ho hr
    rwa [hk.next] at hs
  | migrate t =>
    cases hr
    have hk := releaseThread_kept cfg s t
    exact ⟨h.kept hk,hk.next ▸ BitVec.le_refl _⟩
  | setDisable b =>
    cases hr
    exact ⟨h.setDisable b ho,(setDisable_next cfg s b).symm ▸ BitVec.le_refl _⟩
  | release =>
    cases hr
    obtain ⟨a,q,l,he⟩ := abort_frame (range cfg.numCores) s
    refine ⟨h.abortBarrier ho,?_⟩
    rw [BarrierSyncServer.abortBarrier,he]
    exact BitVec.le_refl _
  | setGroup c master =>
    rw [BarrierSyncServer.step,setGroup] at hr
    split_ifs at hr
    cases hr
    exact ⟨{ h with },BitVec.le_refl _⟩
  | setFastForward b time =>
    cases hr
    have hle : s.next ≤ (s.setFastForward b time).next := by
      rw [setFastForward]
      dsimp only
      split_ifs with ht
      · exact BitVec.le_of_lt ht.2
      · exact BitVec.le_refl _
    exact ⟨⟨ho,h.fits,fun hd c hc hc' => h.held hd c hc (BitVec.le_trans hle hc')⟩,hle⟩
  | advance rounds order =>
    rw [BarrierSyncServer.step] at hr
    split_ifs at hr
    obtain ⟨q,hq,rfl⟩ := Outcome.map_ok hr
    exact h.barrierRelease (.inr ho.1) ho.2 hq
  | env e =>
    cases hr
    cases e <;> exact ⟨{ h with },BitVec.le_refl _⟩
end

theorem init (hpos : 0 < cfg.interval) : Tied cfg (init cfg) := by
  refine ⟨rfl,fun _ => ?_,fun _ c _ hle => ?_⟩
  · change 0 + cfg.interval.toNat < _
    have := cfg.interval.isLt
    omega
  · exact (BitVec.not_le.mpr hpos hle).elim

end Tied

def Ends (cfg : BarrierConfig) (caller : Option ThreadId) (s : BarrierSyncServer) : Prop :=
  (∃ c < cfg.numCores, s.acquire c) ∧ ∃ n, ∀ rounds : List Round, n ≤ rounds.length →
      (∀ r ∈ rounds, reenables false r.actions = false) → ∃ q, releaseLoop cfg caller false rounds s = .ok q

theorem Tied.ends (h : Tied cfg s) (hpos : 0 < cfg.interval) (hd : s.disable = false)
    (hb : isBarrierReached cfg s) (caller : Option ThreadId) : Ends cfg caller s := by
  obtain ⟨c,hp⟩ := h.reached hd hb
  refine ⟨⟨c,hp.core,hp.acquired⟩,(s.clock c).toNat + 1,fun rounds hlen hhooks => ?_⟩
  refine releaseLoop_ends h hp ?_ (by rwa [hd])
  have hi : 0 < cfg.interval.toNat := hpos
  have hmul := Nat.le_mul_of_pos_right rounds.length hi
  omega

theorem barrier_release_ends (cfg : BarrierConfig) (hpos : 0 < cfg.interval) {s : BarrierSyncServer}
    (hs : Run.Reaches (step cfg) (Orderly cfg) (init cfg) s) :
    (∀ c t time, s.disable = false → time.toNat + cfg.interval.toNat < 18446744073709551616 →
      isBarrierReached cfg (s.arrive c t time) = true → Ends cfg (some t) (s.arrive c t time)) ∧
    (∀ t, s.disable = false → isBarrierReached cfg (releaseThread cfg s t) = true →
      Ends cfg none (releaseThread cfg s t)) := by
  have h : Tied cfg s := Run.Reaches.invariant (fun _ _ _ hs ho hn => (hs.step ho hn).1) (.init hpos) hs
  refine ⟨fun c t time hd hfit hb => ?_,fun t hd hb => ?_⟩
  · exact (h.arrive hfit c t).ends hpos (arrive_disable.trans hd) hb _
  · exact (h.kept (releaseThread_kept cfg s t)).ends hpos ((releaseThread_same cfg s t).2.2.1.trans hd) hb _

theorem releaseLoop_stuck (ha : ∀ c < cfg.numCores, s.acquire c = false) (hd : s.disable = false) (n : Nat) :
    releaseLoop cfg caller false (replicate n ⟨[],false⟩) s = .error .unfinished := by
  induction n generalizing s with
  | zero => rfl
  | succ n ih =>
    obtain ⟨u,hu⟩ : ∃ u, callHooks cfg { s with globalTime := s.next } [] = u := ⟨_,rfl⟩
    have hud : u.disable = false := hu ▸ hd
    have hua : ∀ c < cfg.numCores, (advanceNext cfg u).acquire c = false := hu ▸ ha
    have hp := stage_pass cfg caller (advanceNext cfg u)
    have hidle : (stage cfg caller (advanceNext cfg u)).2.1 = false := by
      rw [hp.resumed,Bool.false_or,any_eq_false]
      intro c hc
      rw [ripe,hua c (mem_range.mp hc),Bool.and_false]
      exact false_ne_true
    rw [replicate_succ,releaseLoop]
    dsimp only
    rw [hu,if_neg (fun hf => by cases hf.1),if_neg (fun hf => by cases hf.1),if_neg (by simp [hud]),
      if_neg (by simp [hidle])]
    refine ih (fun c hc => ?_) (hp.disable.trans hud)
    rw [hp.acquire c,hua c hc]
    rfl

def orderlyRun (cfg : BarrierConfig) (ls : List BarrierLabel) : BarrierSyncServer :=
  (Run.guided (step cfg) (Orderly cfg) (init cfg) ls).getD (init cfg)

def quietToggle : List BarrierLabel :=
  boot 2 ++ [.synchronize 0 100 [] [],.synchronize 1 100 [⟨[],false⟩] [0],.setDisable true,
    .setDisable false,.synchronize 0 250 [] [],.env (.setStatus 1 .stalled)]

theorem release_after_quiet_toggle_ends :
    Ends ⟨2,2,100⟩ none (releaseThread ⟨2,2,100⟩ (orderlyRun ⟨2,2,100⟩ quietToggle) 1) :=
  (barrier_release_ends ⟨2,2,100⟩ (by decide) (Run.reaches_guided (by decide) :
    Run.Reaches _ _ _ (orderlyRun ⟨2,2,100⟩ quietToggle))).2 1 (by decide) (by decide)

def staleToggle : List BarrierLabel :=
  boot 2 ++ [.synchronize 0 100 [] [],.setDisable true,.setDisable false,.env (.setStatus 1 .stalled)]

theorem stale_clock_release_never_ends : Reachable ⟨2,2,100⟩ (runFrom ⟨2,2,100⟩ staleToggle) ∧
      (runFrom ⟨2,2,100⟩ staleToggle).disable = false ∧
      isBarrierReached ⟨2,2,100⟩ (releaseThread ⟨2,2,100⟩ (runFrom ⟨2,2,100⟩ staleToggle) 1) = true ∧
      (∀ c < 2, (releaseThread ⟨2,2,100⟩ (runFrom ⟨2,2,100⟩ staleToggle) 1).acquire c = false) ∧
      ∀ n, releaseLoop ⟨2,2,100⟩ none false (replicate n ⟨[],false⟩)
        (releaseThread ⟨2,2,100⟩ (runFrom ⟨2,2,100⟩ staleToggle) 1) = .error .unfinished := by
  have ha : ∀ c < 2, (releaseThread ⟨2,2,100⟩ (runFrom ⟨2,2,100⟩ staleToggle) 1).acquire c = false := by
    decide
  exact ⟨Run.reaches_guided (by decide),by decide,by decide,ha,releaseLoop_stuck ha (by decide)⟩

end BarrierSyncServer
