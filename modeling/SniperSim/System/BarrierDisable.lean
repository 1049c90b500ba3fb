import SniperSim.System.BarrierBlocking

open Function List
namespace BarrierSyncServer
variable {cfg : BarrierConfig} {s : BarrierSyncServer} {c : CoreId}
namespace Blocking

theorem enter (h : Blocking cfg none s) (ha : s.acquire c = false) (hc : c < cfg.numCores)
    (hn : ∀ d, ∀ v ∈ s.cond d, v.thread ≠ t) (time : SubsecondTime) :
    Blocking cfg (some (c,t)) (s.enterBarrier c t time) := by
  have hupd : ∀ d, d ≠ c → update s.acquire c true d = s.acquire d := fun d hne => update_of_ne hne ..
  refine ⟨fun d hd => ?_,h.staged,fun d => ?_,fun d hd hp => ?_,fun d u hdu => ?_⟩
  · rcases eq_or_ne d c with rfl | hne
    · exact hc
    · exact h.bound d (hupd d hne ▸ hd)
  · change (s.cond d).length = s.toRelease.count d +
      if pendsAt (some (c,t)) d then 0 else (update s.acquire c true d).toNat
    rw [h.count d,waiters]
    rcases eq_or_ne d c with rfl | hne
    · simp [pendsAt,ha]
    · simp [pendsAt,hne,hne.symm]
  · have hne : d ≠ c := by
      rintro rfl
      simp [pendsAt] at hp
    obtain ⟨v,hv,hvt⟩ := h.last d (hupd d hne ▸ hd) rfl
    refine ⟨v,hv,?_⟩
    change update s.coreThread c (some t) d = _
    rwa [update_of_ne hne]
  · obtain ⟨rfl,rfl⟩ := Prod.mk.inj (Option.some.inj hdu)
    exact ⟨update_self ..,hn⟩

theorem block (h : Blocking cfg (some (c,t)) s) (ha : s.acquire c) (hv : v.core = c) (ht : v.thread = t) :
    Blocking cfg none (s.block v) := by
  subst hv ht
  have hpend : ∀ d, d ≠ v.core → pendsAt (some (v.core,v.thread)) d = false := fun d hne => by
    simpa [pendsAt] using hne.symm
  refine ⟨h.bound,h.staged,fun d => ?_,fun d hd _ => ?_,by simp⟩
  · change (update s.cond v.core (s.cond v.core ++ [v]) d).length = s.toRelease.count d + (s.acquire d).toNat
    rcases eq_or_ne d v.core with rfl | hne
    · rw [update_self,length_append,h.count,waiters,ha]
      simp [pendsAt]
    · rw [update_of_ne hne,h.count d,waiters,hpend d hne]
      rfl
  · change ∃ w, (update s.cond v.core (s.cond v.core ++ [v]) d).getLast? = some w ∧ s.coreThread d = some w.thread
    rcases eq_or_ne d v.core with rfl | hne
    · exact ⟨v,by simp,(h.entered _ _ rfl).1⟩
    · rw [update_of_ne hne]
      exact h.last d hd (hpend d hne)

theorem drop (h : Blocking cfg (some (c,t)) s) (ha : s.acquire c = false) : Blocking cfg none s := by
  have hpend : ∀ d, d ≠ c → pendsAt (some (c,t)) d = false := fun d hne => by
    simpa [pendsAt] using hne.symm
  refine ⟨h.bound,h.staged,fun d => ?_,fun d hd _ => ?_,by simp⟩
  · rw [h.count d,waiters,waiters]
    rcases eq_or_ne d c with rfl | hne
    · simp [pendsAt,ha]
    · rw [hpend d hne]
      rfl
  · refine h.last d hd (hpend d ?_)
    rintro rfl
    rw [ha] at hd
    cases hd

theorem cond_nil (h : Blocking cfg none s) (hc : ¬ c < cfg.numCores) : s.cond c = [] := by
  have hl := h.count c
  have ha : s.acquire c = false := Bool.eq_false_iff.mpr fun ha => hc (h.bound c ha)
  rw [waiters,ha,count_eq_zero.mpr fun hm => hc (h.staged c hm)] at hl
  exact eq_nil_of_length_eq_zero hl

theorem not_blocked (h : Blocking cfg none s) (hb : blocked cfg s c = false)
    (ht : (s.use c).thread = some t) (d : CoreId) (v : Visit) (hv : v ∈ s.cond d) : v.thread ≠ t := by
  rintro rfl
  rcases Nat.lt_or_ge d cfg.numCores with hd | hd
  · have hany : blocked cfg s c := any_eq_true.mpr ⟨d,mem_range.mpr hd,any_eq_true.mpr ⟨v,hv,by simp [ht]⟩⟩
    rw [hb] at hany
    cases hany
  · rw [h.cond_nil (Nat.not_lt.mpr hd)] at hv
    cases hv

end Blocking

theorem arrive_disable : (s.arrive c t time).disable = s.disable := (doRelease_same 1 (s.report c time)).2.2.1

theorem arrive_next : (s.arrive c t time).next = s.next := (doRelease_same 1 (s.report c time)).2.2.2.1

structure Quiet (cfg : BarrierConfig) (s : BarrierSyncServer) : Prop where
  blocking : Blocking cfg none s
  off : Off s

namespace Quiet

theorem doRelease (h : Quiet cfg s) (n : Nat) : Quiet cfg (doRelease n s) := by
  obtain ⟨ha,-,hd,-⟩ := doRelease_same n s
  refine ⟨h.blocking.doRelease n,fun hdis c => ?_⟩
  rw [ha]
  exact h.off (hd ▸ hdis) c

theorem releaseThread (h : Quiet cfg s) (t : ThreadId) : Quiet cfg (releaseThread cfg s t) := by
  obtain ⟨ha,-,hd,-⟩ := releaseThread_same cfg s t
  refine ⟨h.blocking.releaseThread t,fun hdis c => ?_⟩
  rw [ha]
  exact h.off (hd ▸ hdis) c

theorem setDisable (h : Quiet cfg s) (b : Bool) : Quiet cfg (setDisable cfg s b) := by
  have hb : Blocking cfg none { s with disable := b } := { h.blocking with }
  cases b with
  | true => exact ⟨hb.abortBarrier (.inl rfl),fun _ => abortBarrier_acquire hb.bound⟩
  | false => exact ⟨hb,fun hd => (by cases hd)⟩

theorem released (h : Released cfg none s mustWait) : Quiet cfg s := { h with }

section
variable (h : Quiet cfg s)
include h

theorem signal (hr : signal cfg s rounds order = .ok s') : Quiet cfg s' := by
  rw [BarrierSyncServer.signal] at hr
  split_ifs at hr
  · cases hr
    exact h
  · obtain ⟨q,hq,rfl⟩ := Outcome.map_ok hr
    have hq' : barrierRelease cfg s (Option.map (·.2) (none : Option (CoreId × ThreadId))) false rounds
      order = .ok q := hq
    exact released (barrierRelease_released h.blocking h.off (by simp) (by simp) hq')
  · cases hr
    exact h

theorem arrive (hm : c < cfg.numCores) (ha : s.acquire c = false)
    (hn : ∀ d, ∀ v ∈ s.cond d, v.thread ≠ t) (time : SubsecondTime) :
    Blocking cfg (some (c,t)) (s.arrive c t time) := by
  have hrep : Quiet cfg (s.report c time) := ⟨{ h.blocking with },h.off⟩
  have hrel := hrep.doRelease 1
  refine hrel.blocking.enter ?_ hm (fun d v hv => ?_) time
  · rwa [(doRelease_same 1 (s.report c time)).1]
  · exact hn d v (doRelease_cond_subset 1 (s.report c time) d hv)

theorem released_arrive (hm : c < cfg.numCores) (ha : s.acquire c = false) (hn : ∀ d, ∀ v ∈ s.cond d, v.thread ≠ t)
    (hd : s.disable = false) (hq : barrierRelease cfg (s.arrive c t time) (some t) false rounds order = .ok q) :
    Released cfg (some (c,t)) q.1 q.2 := by
  refine barrierRelease_released (h.arrive hm ha hn time) (fun hf => ?_) (fun d u hdu => ?_) (by simp) hq
  · rw [arrive_disable,hd] at hf
    cases hf
  · obtain ⟨rfl,rfl⟩ := Prod.mk.inj (Option.some.inj hdu)
    exact update_self ..

theorem synchronize (hm : s.masterOf c < cfg.numCores)
    (hb : blocked cfg s c = false) (hr : synchronize cfg s c time rounds order = .ok s') : Quiet cfg s' := by
  cases synchronize_entry hr with
  | ignored _ => exact h
  | early t _ _ _ _ => exact ⟨{ h.blocking with },h.off⟩
  | blocks t ht hd ha _ _ =>
    refine ⟨(h.arrive hm ha (h.blocking.not_blocked hb ht) time).block (update_self ..) rfl rfl,fun hoff => ?_⟩
    change (s.arrive (s.masterOf c) t time).disable at hoff
    rw [arrive_disable,hd] at hoff
    cases hoff
  | releases t ht hd ha _ _ r hrel =>
    have hfin := h.released_arrive hm ha (h.blocking.not_blocked hb ht) hd hrel
    obtain ⟨u,mustWait⟩ := r
    have hacq : u.acquire (s.masterOf c) = mustWait := hfin.waits _ _ rfl
    cases mustWait with
    | true => exact ⟨hfin.blocking.block hacq rfl rfl,hfin.off⟩
    | false => exact ⟨{ hfin.blocking.drop hacq with },hfin.off⟩

theorem step (hr : step cfg s l = .ok s') : Quiet cfg s' := by
  cases l with
  | synchronize c time rounds order =>
    rw [BarrierSyncServer.step] at hr
    split_ifs at hr with hg
    exact h.synchronize hg.2.1 hg.2.2 hr
  | stopped t rounds order => exact (h.releaseThread t).signal hr
  | migrate t =>
    cases hr
    exact h.releaseThread t
  | setDisable b =>
    cases hr
    exact h.setDisable b
  | release =>
    cases hr
    exact ⟨h.blocking.abortBarrier (.inl rfl),fun _ => abortBarrier_acquire h.blocking.bound⟩
  | setGroup c master =>
    rw [BarrierSyncServer.step,setGroup] at hr
    split_ifs at hr
    cases hr
    exact ⟨{ h.blocking with },h.off⟩
  | setFastForward b time =>
    cases hr
    exact ⟨{ h.blocking with },h.off⟩
  | advance rounds order =>
    rw [BarrierSyncServer.step] at hr
    split_ifs at hr
    obtain ⟨q,hq,rfl⟩ := Outcome.map_ok hr
    have hq' : barrierRelease cfg s (Option.map (·.2) (none : Option (CoreId × ThreadId))) true rounds
      order = .ok q := hq
    exact released (barrierRelease_released h.blocking h.off (by simp) (fun _ => rfl) hq')
  | env e =>
    cases hr
    cases e <;> exact ⟨{ h.blocking with },h.off⟩
end

theorem init : Quiet cfg (init cfg) :=
  ⟨⟨fun _ hc => (by cases hc),fun _ hc => (by cases hc),fun _ => rfl,fun _ hc => (by cases hc),
    by simp⟩,fun hd => (by cases hd)⟩

end Quiet

def Reachable (cfg : BarrierConfig) (s : BarrierSyncServer) : Prop :=
  Run.Reaches (step cfg) (fun _ _ => True) (init cfg) s

theorem disabled_cond (h : Quiet cfg s) (c : CoreId) :
    ((setDisable cfg s true).cond c).length = s.toRelease.count c := by
  have hq := h.setDisable true
  have hr : (setDisable cfg s true).toRelease = s.toRelease := (abort_same _ _).1
  have hb : Blocking cfg none { s with disable := true } := { h.blocking with }
  have ha : (setDisable cfg s true).acquire c = false := abortBarrier_acquire hb.bound c
  rw [hq.blocking.count c,waiters,ha,hr]
  rfl

theorem disable_releases_everyone_iff (cfg : BarrierConfig) {s : BarrierSyncServer} (hs : Reachable cfg s) :
    (∀ c, (setDisable cfg s true).cond c = []) ↔ s.toRelease = [] := by
  have hl := disabled_cond (Run.Reaches.invariant (fun _ _ _ hs _ hn => hs.step hn) Quiet.init hs)
  constructor
  · intro h
    refine eq_nil_iff_forall_not_mem.mpr fun c hc => ?_
    have hz := hl c
    rw [h c] at hz
    exact count_eq_zero.mp hz.symm hc
  · intro h c
    have hz := hl c
    rw [h] at hz
    exact eq_nil_of_length_eq_zero hz

def runFrom (cfg : BarrierConfig) (ls : List BarrierLabel) : BarrierSyncServer :=
  (Run.guided (step cfg) (fun _ _ => True) (init cfg) ls).getD (init cfg)

def boot : Nat → List BarrierLabel
  | 0 => []
  | n + 1 => boot n ++ [.env .create,.env (.setStatus n .running),.env (.setCore n (.running n))]

def threeMeet : List BarrierLabel :=
  boot 3 ++ [.synchronize 0 100 [] [],.synchronize 1 100 [] [],.synchronize 2 100 [⟨[],false⟩] [0,1]]

theorem disable_after_full_restart : Reachable ⟨3,2,100⟩ (runFrom ⟨3,2,100⟩ threeMeet) ∧
      ∀ c, (setDisable ⟨3,2,100⟩ (runFrom ⟨3,2,100⟩ threeMeet) true).cond c = [] := by
  have hr : Reachable ⟨3,2,100⟩ (runFrom ⟨3,2,100⟩ threeMeet) := Run.reaches_guided (by decide)
  exact ⟨hr,(disable_releases_everyone_iff ⟨3,2,100⟩ hr).mpr (by decide)⟩

theorem disable_leaves_staged_thread : Reachable ⟨3,1,100⟩ (runFrom ⟨3,1,100⟩ threeMeet) ∧
      ((runFrom ⟨3,1,100⟩ threeMeet).cond 0).map (·.thread) = [0] ∧
      ((setDisable ⟨3,1,100⟩ (runFrom ⟨3,1,100⟩ threeMeet) true).cond 0).map (·.thread) = [0] :=
  ⟨Run.reaches_guided (by decide),by decide,by decide⟩

end BarrierSyncServer
