import SniperSim.System.FutexQueue
import Mathlib.Data.List.Induction

open List
namespace SyscallServer
open Futex
variable {cfg : SyscallConfig} {s s' : SyscallServer} {t : ThreadId} {a c : Address} {time : SubsecondTime}
  {w : Waiter} {o : Option SubsecondTime} {order : List Address}

structure Keyed (s : SyscallServer) : Prop where
  nodup : s.keys.Nodup
  covers : ∀ a, s.futexes a ≠ [] → a ∈ s.keys

theorem Keyed.shrink (h : Keyed s) (hk : s'.keys = s.keys)
    (hf : ∀ a, s'.futexes a ≠ [] → s.futexes a ≠ [] ∨ a ∈ s.keys) : Keyed s' :=
  ⟨hk ▸ h.nodup,fun a ha => hk ▸ (hf a ha).elim (h.covers a) id⟩

theorem Keyed.release (h : Keyed s) : Keyed (s.release a p w time e) := by
  refine h.shrink rfl fun b hb => .inl ?_
  rcases eq_or_ne b a with rfl | hne
  · intro hnil
    simp [SyscallServer.release,resumeThread,setQueue,record,hnil] at hb
  · simpa [SyscallServer.release,resumeThread,setQueue,record,hne] using hb

theorem Keyed.move (hm : Move o s s') (h : Keyed s) : Keyed s' := by
  cases hm with
  | touch a =>
    unfold findFutexByUaddr
    split_ifs with ha
    · exact h
    · refine ⟨nodup_append.mpr ⟨h.nodup,nodup_singleton a,?_⟩,fun b hb => mem_append_left _ (h.covers b hb)⟩
      rintro x hx y hy rfl
      exact ha (mem_singleton.mp hy ▸ hx)
  | @park _ _ _ a ha mask timeout =>
    refine h.shrink rfl fun b hb => ?_
    rcases eq_or_ne b a with rfl | hne
    · exact .inr ha
    · exact .inl (by simpa [enqueueWaiter,stallThread,setQueue,record,hne] using hb)
  | doze _ _ _ | rouse _ _ | quit _ | block _ _ | env _ => exact { h with }
  | release _ _ | expire _ _ => exact h.release
  | @requeue _ a b t hab hb hr =>
    obtain ⟨w,q,hq,rfl⟩ := requeueWaiter_some hr
    refine h.shrink rfl fun c hc => ?_
    rcases eq_or_ne c b with rfl | hcb
    · exact .inr hb
    · rcases eq_or_ne c a with rfl | hca
      · exact .inl (by simp [hq])
      · exact .inl (by simpa [setQueue,hcb,hca] using hc)
  | @finish t k _ => cases k <;> exact { h with }

theorem Reachable.keyed (h : Reachable cfg s) : Keyed s :=
  h.invariant ⟨nodup_nil,fun _ hn => (hn rfl).elim⟩ fun _ _ _ hm => Keyed.move hm

theorem record_prefix (s : SyscallServer) (t : ThreadId) (e : ServerEvent) (u : ThreadId) :
    s.history u <+: (s.record t e).history u := by
  rcases eq_or_ne u t with rfl | hu
  · rw [record_self]
    exact prefix_append _ _
  · have he : (s.record t e).history u = s.history u := record_of_ne hu
    exact he ▸ prefix_rfl

theorem Move.history_prefix (hm : Move o s s') (u : ThreadId) : s.history u <+: s'.history u := by
  cases hm with
  | touch a =>
    unfold findFutexByUaddr
    split_ifs <;> exact prefix_rfl
  | park _ _ _ _ _ | doze _ _ _ | release _ _ | expire _ _ | rouse _ _ => exact record_prefix s _ _ u
  | requeue _ _ hr =>
    obtain ⟨w,q,-,rfl⟩ := requeueWaiter_some hr
    exact prefix_rfl
  | quit _ | block _ _ | env _ => exact prefix_rfl
  | @finish t k _ =>
    cases k with
    | futex | sleep => exact record_prefix s _ _ u
    | other => exact prefix_rfl

theorem Moves.history_prefix (h : Moves o s s') (u : ThreadId) : s.history u <+: s'.history u := by
  induction h with
  | refl => exact prefix_rfl
  | tail _ hm ih => exact ih.trans (hm.history_prefix u)

inductive Fate (o : Option SubsecondTime) (s : SyscallServer) (w : Waiter) (s' : SyscallServer) : Prop
  | queued {c : Address} {v : Waiter} (hw : v ∈ s'.futexes c) (ht : v.threadId = w.threadId)
      (hd : v.timeout = w.timeout) (hh : s'.history w.threadId = s.history w.threadId)
  | resumed {e : Ended} {l : List ServerEvent}
      (hh : s'.history w.threadId = s.history w.threadId ++ .resumed e :: l)
      (he : e = .timeOut → ∃ τ, o = some τ ∧ w.timeout ≤ τ)

theorem Conserved.stalled (h : Conserved s) (hw : w ∈ s.futexes c) : (s.threads.thread w.threadId).StalledFor .futex :=
  h.futexes.of_mem (i := c) (mem_map_of_mem hw)

theorem Conserved.eq_of_id (h : Conserved s) (hw : w ∈ s.futexes a) (hw' : w' ∈ s.futexes b)
    (he : w'.threadId = w.threadId) : a = b ∧ w' = w := by
  have hab : a = b := h.futexes.apart a b w.threadId (mem_map_of_mem hw) (he ▸ mem_map_of_mem hw')
  subst hab
  exact ⟨rfl,inj_on_of_nodup_map (h.futexes.nodup a) hw' hw he⟩

theorem fate_release (h : Conserved s) (hw : w ∈ s.futexes c) (h₀ : (s.futexes a).find? p = some w₀)
    (he : w₀ = w → e = .timeOut → ∃ τ, o = some τ ∧ w.timeout ≤ τ) : Fate o s w (s.release a p w₀ time e) := by
  rcases eq_or_ne w₀.threadId w.threadId with hid | hid
  · obtain ⟨-,rfl⟩ := h.eq_of_id hw (mem_of_find?_eq_some h₀) hid
    exact .resumed (l := []) (record_self ..) (he rfl)
  · refine .queued (c := c) (v := w) ?_ rfl rfl (record_of_ne hid.symm)
    rcases eq_or_ne c a with rfl | hc
    · obtain ⟨l,l',hq,herase,-⟩ := WaitQueue.find_split h₀
      rw [hq,mem_append,mem_cons] at hw
      have hne : w ≠ w₀ := fun h => hid (h ▸ rfl)
      simp only [SyscallServer.release,resumeThread,setQueue,record,Function.update_self,herase,mem_append]
      exact hw.imp_right fun hw => hw.resolve_left hne
    · simpa [SyscallServer.release,resumeThread,setQueue,record,hc] using hw

theorem fate_same (hw : w ∈ s.futexes c) (hf : s'.futexes = s.futexes)
    (hh : s'.history w.threadId = s.history w.threadId) : Fate o s w s' :=
  .queued (hf ▸ hw) rfl rfl hh

theorem Move.fate (hm : Move o s s') (h : Conserved s) (hw : w ∈ s.futexes c) : Fate o s w s' := by
  have hs := h.stalled hw
  cases hm with
  | touch a =>
    unfold findFutexByUaddr
    split_ifs <;> exact fate_same hw rfl rfl
  | @park t hc _ a ha mask timeout =>
    have hne : w.threadId ≠ t := fun he => hc.not_stalledFor _ (he ▸ hs)
    refine .queued (c := c) (v := w) ?_ rfl rfl (record_of_ne hne)
    rcases eq_or_ne c a with rfl | hca
    · simp [enqueueWaiter,stallThread,setQueue,record,hw]
    · simpa [enqueueWaiter,stallThread,setQueue,record,hca] using hw
  | @doze t hc _ _ =>
    have hne : w.threadId ≠ t := fun he => hc.not_stalledFor _ (he ▸ hs)
    exact fate_same hw rfl (record_of_ne hne)
  | release h₀ time => exact fate_release h hw h₀ fun _ he => by cases he
  | @expire a w₀ time ho h₀ =>
    refine fate_release h hw h₀ fun he _ => ⟨time,ho,?_⟩
    have := find?_some h₀
    subst he
    simpa [timedOut] using this
  | @rouse w₀ time ho h₀ =>
    refine fate_same hw rfl (record_of_ne fun he => ?_)
    have hsleep : (s.threads.thread w₀.threadId).StalledFor .sleep :=
      h.sleeping.of_mem (i := ()) (mem_map_of_mem (mem_of_find?_eq_some h₀))
    rw [he] at hs
    cases hs.unique hsleep
  | @requeue _ a b t hab hb hr =>
    obtain ⟨w₀,q,hq,rfl⟩ := requeueWaiter_some hr
    rcases eq_or_ne c b with rfl | hcb
    · exact .queued (c := c) (v := w) (by simp [setQueue,hab.symm,hw]) rfl rfl rfl
    · rcases eq_or_ne c a with rfl | hca
      · rw [hq] at hw
        rcases mem_cons.mp hw with rfl | hw
        · exact .queued (c := b) (v := { w with arrival := s.arrivals }) (by simp [setQueue]) rfl rfl rfl
        · exact .queued (c := c) (v := w) (by simp [setQueue,hcb,hw]) rfl rfl rfl
      · exact .queued (c := c) (v := w) (by simp [setQueue,hcb,hca,hw]) rfl rfl rfl
  | quit _ | block _ _ | env _ => exact fate_same hw rfl rfl
  | @finish t k hk =>
    have hne : w.threadId ≠ t := by
      rintro rfl
      obtain ⟨-,-,-,hc⟩ := h.phase_of fun ph => fits_of_stalledFor rfl hs
      rcases hk with ⟨-,hrun⟩ | hk
      · simp [hs.1] at hrun
      · simp [hk] at hc
    cases k with
    | futex | sleep => exact fate_same hw rfl (record_of_ne hne)
    | other => exact fate_same hw rfl rfl

theorem Moves.fate (hm : Moves o s s') (h : Conserved s) (hw : w ∈ s.futexes c) : Fate o s w s' := by
  induction hm with
  | refl => exact fate_same hw rfl rfl
  | @tail s₁ s₂ hm hlast ih =>
    have h₁ : Conserved s₁ := Moves.invariant (fun _ _ _ hm => Conserved.move hm) hm h
    cases ih with
    | queued hw' ht hd hh =>
      cases hlast.fate h₁ hw' with
      | queued hw'' ht' hd' hh' =>
        rw [ht] at hh'
        exact .queued hw'' (ht'.trans ht) (hd'.trans hd) (hh'.trans hh)
      | resumed hh' he =>
        rw [ht,hh] at hh'
        exact .resumed hh' (hd ▸ he)
    | @resumed e rest hh he =>
      obtain ⟨more,hmore⟩ := hlast.history_prefix w.threadId
      refine .resumed (l := rest ++ more) ?_ he
      rw [← hmore,hh,append_assoc,cons_append]

theorem wakeTimedOut_futexes (s : SyscallServer) (a : Address) (time : SubsecondTime) :
    (s.wakeTimedOut a time).futexes = Function.update s.futexes a ((s.futexes a).eraseP (timedOut time)) := by
  unfold wakeTimedOut
  split
  · next hnone =>
    rw [eraseP_of_forall_not (find?_eq_none.mp hnone),Function.update_eq_self]
  · rfl

theorem wakeSleeper_futexes (s : SyscallServer) (time : SubsecondTime) : (s.wakeSleeper time).futexes = s.futexes := by
  unfold wakeSleeper
  split <;> rfl

theorem futexPeriodic_futexes (s : SyscallServer) (time : SubsecondTime) (ho : order.Nodup)
    (b : Address) : (s.futexPeriodic time order).futexes b =
      if b ∈ order then (s.futexes b).eraseP (timedOut time) else s.futexes b := by
  rw [futexPeriodic,← wakeSleeper_futexes s time]
  generalize s.wakeSleeper time = s'
  induction order generalizing s' with
  | nil => simp
  | cons a order ih =>
    obtain ⟨ha,ho⟩ := nodup_cons.mp ho
    rw [foldl_cons,ih ho,wakeTimedOut_futexes]
    rcases eq_or_ne b a with rfl | hb
    · simp [ha]
    · simp [hb]

def ahead (s : SyscallServer) (c : Address) (t : ThreadId) : Nat := (ids (s.futexes c)).idxOf t

def NotPushedBack (t : ThreadId) (s s' : SyscallServer) : Prop :=
  ∀ c c', t ∈ ids (s.futexes c) → t ∈ ids (s'.futexes c') → ahead s' c' t ≤ ahead s c t

theorem barrier_ahead (h : Conserved s) (hk : Keyed s) (ho : order.Perm s.keys) (hw : w ∈ s.futexes c)
    (hd : w.timeout ≤ time) (ht : w.threadId ∈ ids ((s.futexPeriodic time order).futexes c')) :
    ahead (s.futexPeriodic time order) c' w.threadId + 1 ≤ ahead s c w.threadId := by
  have hon : order.Nodup := ho.nodup_iff.mpr hk.nodup
  have hq := futexPeriodic_futexes s time hon c'
  have hsub : ((s.futexPeriodic time order).futexes c').Sublist (s.futexes c') := by
    rw [hq]
    split_ifs
    · exact eraseP_sublist
    · exact List.Sublist.refl _
  obtain rfl : c = c' := h.futexes.apart c c' w.threadId (mem_map_of_mem hw) ((hsub.map _).subset ht)
  have hc : c ∈ order := ho.mem_iff.mpr (hk.covers c (ne_nil_of_mem hw))
  rw [if_pos hc] at hq
  obtain ⟨w₀,h₀⟩ : ∃ w₀, (s.futexes c).find? (timedOut time) = some w₀ :=
    Option.isSome_iff_exists.mp (find?_isSome.mpr ⟨w,hw,by simpa [timedOut] using hd⟩)
  obtain ⟨l,l',hsplit,herase,hl⟩ := WaitQueue.find_split h₀
  have hnot : w.threadId ∉ ids l := by
    intro hmem
    obtain ⟨w₁,hw₁,he⟩ := mem_map.mp hmem
    have hw₁' : w₁ ∈ s.futexes c := hsplit ▸ mem_append_left _ hw₁
    obtain ⟨-,rfl⟩ := h.eq_of_id hw hw₁' he
    have := hl w₁ hw₁
    simp [timedOut,hd] at this
  have hne : w₀.threadId ≠ w.threadId := by
    intro he
    obtain ⟨-,rfl⟩ := h.eq_of_id hw (mem_of_find?_eq_some h₀) he
    have hn := h.futexes.nodup c
    rw [hsplit,ids,map_append,map_cons,nodup_middle,nodup_cons] at hn
    rw [hq,herase,ids,map_append] at ht
    exact hn.1 ht
  rw [ids] at hnot
  rw [ahead,ahead,hq,herase,hsplit,ids,ids,map_append,map_append,map_cons,
    idxOf_append_of_notMem hnot,idxOf_append_of_notMem hnot,idxOf_cons_ne _ hne]
  omega

def ServerLabel.reaches (d : Nat) (l : ServerLabel) : Bool :=
  match l.barrier with
  | some τ => d ≤ τ.toNat
  | none => false

inductive Waits (cfg : SyscallConfig) (t : ThreadId) (d : Nat) (s₁ : SyscallServer) :
    Nat → SyscallServer → Prop
  | refl : Waits cfg t d s₁ 0 s₁
  | tail {n : Nat} {s s' : SyscallServer} {l : ServerLabel} (h : Waits cfg t d s₁ n s)
      (hn : step cfg s l = .ok s') (hp : NotPushedBack t s s') :
      Waits cfg t d s₁ (n + if ServerLabel.reaches d l then 1 else 0) s'

inductive Progress (t : ThreadId) (D : SubsecondTime) (j : Nat) (s₁ : SyscallServer) (n : Nat)
    (s : SyscallServer) : Prop
  | waiting {c : Address} {w : Waiter} (hw : w ∈ s.futexes c) (ht : w.threadId = t)
      (hd : w.timeout = D) (hh : s.history t = s₁.history t) (hn : ahead s c t + n ≤ j)
  | expired {rest : List ServerEvent} (hh : s.history t = s₁.history t ++ .resumed .timeOut :: rest) (hn : 0 < n)
  | woken {rest : List ServerEvent} (hh : s.history t = s₁.history t ++ .resumed .wake :: rest)

variable {s₀ s₁ s₂ : SyscallServer} {D : SubsecondTime} {j n : Nat} {l : ServerLabel} {buf : Timespec}

theorem barrier_of_reaches (h : ServerLabel.reaches d l) : ∃ τ order, l = .periodic τ order ∧ d ≤ τ.toNat := by
  cases l with
  | periodic τ order => exact ⟨τ,order,rfl,by simpa [ServerLabel.reaches,ServerLabel.barrier] using h⟩
  | _ => simp [ServerLabel.reaches,ServerLabel.barrier] at h

theorem Progress.step (hs : Conserved s) (hk : Keyed s) (hn : step cfg s l = .ok s')
    (hp : NotPushedBack t s s') (h : Progress t D j s₁ n s) :
    Progress t D j s₁ (n + if ServerLabel.reaches D.toNat l then 1 else 0) s' := by
  have hm := step_moves hn
  have hgrow {e : ServerEvent} {rest : List ServerEvent}
      (hh : s.history t = s₁.history t ++ e :: rest) : ∃ more, s'.history t = s₁.history t ++ e :: (rest ++ more) := by
    obtain ⟨more,hmore⟩ := hm.history_prefix t
    exact ⟨more,by rw [← hmore,hh,append_assoc,cons_append]⟩
  cases h with
  | waiting hw ht hd hh hj =>
    subst ht
    cases hm.fate hs hw with
    | @queued c' w' hw' ht' hd' hh' =>
      refine .waiting hw' ht' (hd'.trans hd) (hh'.trans hh) ?_
      have hmem : w'.threadId ∈ ids (s'.futexes c') := mem_map_of_mem hw'
      rw [ht'] at hmem
      split_ifs with hr
      · obtain ⟨τ,order,rfl,hτ⟩ := barrier_of_reaches hr
        rw [SyscallServer.step] at hn
        split_ifs at hn with ho
        cases hn
        have := barrier_ahead hs hk (isPerm_iff.mp ho) hw (hd ▸ hτ) hmem
        omega
      · have := hp _ _ (mem_map_of_mem hw) hmem
        omega
    | @resumed e rest hh' he =>
      rw [hh] at hh'
      cases e with
      | wake => exact .woken hh'
      | timeOut =>
        obtain ⟨τ,hτ,hle⟩ := he rfl
        have hr : ServerLabel.reaches D.toNat l := by
          rw [ServerLabel.reaches,hτ]
          exact decide_eq_true (hd ▸ hle)
        exact .expired hh' (by simp [hr])
  | expired hh h0 =>
    obtain ⟨more,hmore⟩ := hgrow hh
    exact .expired hmore (Nat.lt_of_lt_of_le h0 (Nat.le_add_right n _))
  | woken hh =>
    obtain ⟨more,hmore⟩ := hgrow hh
    exact .woken hmore

theorem Waits.reachable (hs : Reachable cfg s₁) (h : Waits cfg t d s₁ n s) : Reachable cfg s := by
  induction h with
  | refl => exact hs
  | tail _ hn _ ih => exact ih.tail trivial hn

theorem Waits.progress (hs : Reachable cfg s₁) (h₁ : Progress t D j s₁ 0 s₁)
    (h : Waits cfg t D.toNat s₁ n s) : Progress t D j s₁ n s := by
  induction h with
  | refl => exact h₁
  | tail hw hn hp ih => exact ih.step (hw.reachable hs).conserved (hw.reachable hs).keyed hn hp

def deadline (time : SubsecondTime) (buf : Timespec) : Nat :=
  time.toNat + (buf.tvSec.toNat * 1000000000000000 + buf.tvNsec.toNat * 1000000)

theorem timeoutTime_toNat (h0 : cfg.osEmuTimeStart = 0) (hfit : deadline time buf < 18446744073709551616) :
    (timeoutTime cfg .wait (some buf) time).toNat = deadline time buf := by
  unfold timeoutTime deadline at *
  dsimp only
  have hsub : buf.tvSec - 0 = buf.tvSec := BitVec.sub_zero buf.tvSec
  rw [if_neg (by decide),h0,hsub,SubsecondTime.sec,SubsecondTime.ns,BitVec.toNat_add,
    BitVec.toNat_add,BitVec.toNat_mul,BitVec.toNat_mul]
  have h1 : (1000000000000000 : BitVec 64).toNat = 1000000000000000 := rfl
  have h2 : (1000000 : BitVec 64).toNat = 1000000 := rfl
  rw [h1,h2]
  omega

theorem wait_enqueues (hcmd : cmdOf call.args.op = some .wait) (hbuf : call.args.timeout = some buf)
    (hval : call.args.val = call.actVal) (hstep : step cfg s₀ (.futex t call time) = .ok s₁) :
    (s₀.threads.thread t).Callable ∧ s₁ = (s₀.findFutexByUaddr (call.va2pa call.args.uaddr)).enqueueWaiter
        (call.va2pa call.args.uaddr) t bitsetMatchAny (timeoutTime cfg .wait (some buf) time) := by
  rw [step] at hstep
  split_ifs at hstep with hc
  obtain ⟨r,hr,rfl⟩ := Outcome.map_ok hstep
  refine ⟨hc.1,?_⟩
  unfold handleFutexCall at hr
  dsimp only at hr
  rw [hcmd] at hr
  dsimp only at hr
  rw [if_pos (.inl rfl),if_neg (by decide),futexWait,if_neg (not_not.mpr hval),hbuf] at hr
  exact (congrArg Prod.fst (Except.ok.inj hr)).symm

theorem progress_init (hs : Conserved s₀) (hc : (s₀.threads.thread t).Callable)
    (he : s₁ = (s₀.findFutexByUaddr a).enqueueWaiter a t bitsetMatchAny D) :
    Progress t D (s₀.futexes a).length s₁ 0 s₁ := by
  have hnot : t ∉ ids (s₀.futexes a) := hs.futexes.notMem (hc.not_stalledFor _) a
  have hq : s₁.futexes a = s₀.futexes a ++ [Waiter.mk t bitsetMatchAny D (s₀.findFutexByUaddr a).arrivals] := by
    rw [he]
    have hf : (s₀.findFutexByUaddr a).futexes = s₀.futexes := by
      unfold findFutexByUaddr
      split_ifs <;> rfl
    simp [enqueueWaiter,stallThread,setQueue,record,hf]
  refine .waiting (c := a) (hq ▸ mem_append_right _ mem_cons_self) rfl rfl rfl ?_
  rw [ids] at hnot
  rw [ahead,hq,ids,map_append,idxOf_append_of_notMem hnot]
  simp

theorem shape_of_since (h : ServerPhase.after es = some (.stalled .futex))
    (h' : ServerPhase.after (es ++ since) = some ph) (hw : ServerEvent.resumed .wake ∉ since) :
    since.take 2 <+: [.resumed .timeOut,.returned eTimedOut] := by
  rw [ServerPhase.after,foldlM_append] at h'
  change (ServerPhase.after es).bind _ = _ at h'
  rw [h,Option.bind_some] at h'
  cases since with
  | nil => exact nil_prefix
  | cons e₁ rest =>
    cases e₁ with
    | stalled r | returned v => cases h'
    | resumed e =>
      cases e with
      | wake => exact (hw mem_cons_self).elim
      | timeOut =>
        change rest.foldlM ServerPhase.next (.resumed .futex .timeOut) = some ph at h'
        cases rest with
        | nil => exact ⟨[.returned eTimedOut],rfl⟩
        | cons e₂ more =>
          cases e₂ with
          | stalled r | resumed e => cases h'
          | returned v =>
            rcases eq_or_ne v eTimedOut with rfl | hv
            · exact prefix_rfl
            · simp [ServerPhase.next,Ended.result,hv] at h'

def since (s₁ s : SyscallServer) (t : ThreadId) : List ServerEvent := (s.history t).drop (s₁.history t).length

theorem Progress.outcome (hs : Reachable cfg s₁) (hs₂ : Reachable cfg s₂)
    (h₁ : (s₁.threads.thread t).StalledFor .futex) (h : Progress t D j s₁ n s₂)
    (hw : ServerEvent.resumed .wake ∉ since s₁ s₂ t) : (n = 0 → since s₁ s₂ t = []) ∧ (j < n → since s₁ s₂ t ≠ []) ∧
      (since s₁ s₂ t = [] → (s₂.threads.thread t).StalledFor .futex) ∧
      (since s₁ s₂ t).take 2 <+: [.resumed .timeOut,.returned eTimedOut] := by
  obtain ⟨hph,-⟩ := hs.conserved.phase_of fun ph => fits_of_stalledFor rfl h₁
  obtain ⟨ph,hph₂,-⟩ := hs₂.conserved.phase t
  have hshape : ∀ l, s₂.history t = s₁.history t ++ l → since s₁ s₂ t = l := fun l hl => by
    rw [since,hl,drop_left]
  cases h with
  | waiting hq ht _ hh hn =>
    have hnil := hshape [] (by rw [hh,append_nil])
    rw [hnil]
    subst ht
    exact ⟨fun _ => rfl,fun hlt => by omega,fun _ => hs₂.conserved.stalled hq, nil_prefix⟩
  | expired hh hn =>
    have hsince := hshape _ hh
    rw [hsince] at hw ⊢
    rw [hh] at hph₂
    exact ⟨fun h0 => by omega,fun _ => cons_ne_nil _ _,by simp, shape_of_since hph hph₂ hw⟩
  | woken hh =>
    rw [hshape _ hh] at hw
    exact (hw mem_cons_self).elim

theorem futex_wait_times_out (cfg : SyscallConfig) {s₀ s₁ s₂ : SyscallServer} {t : ThreadId}
    {call : Call} {time : SubsecondTime} {n : Nat} (hs : Reachable cfg s₀)
    (hcmd : cmdOf call.args.op = some .wait) (hbuf : call.args.timeout = some buf)
    (hval : call.args.val = call.actVal) (hstep : step cfg s₀ (.futex t call time) = .ok s₁)
    (hstart : cfg.osEmuTimeStart = 0) (hfit : deadline time buf < 18446744073709551616)
    (hrun : Waits cfg t (deadline time buf) s₁ n s₂) (hwake : ServerEvent.resumed .wake ∉ since s₁ s₂ t) :
    (n = 0 → since s₁ s₂ t = []) ∧ ((s₀.futexes (call.va2pa call.args.uaddr)).length < n → since s₁ s₂ t ≠ []) ∧
      (since s₁ s₂ t = [] → (s₂.threads.thread t).StalledFor .futex) ∧
      (since s₁ s₂ t).take 2 <+: [.resumed .timeOut,.returned eTimedOut] := by
  obtain ⟨hc,he⟩ := wait_enqueues hcmd hbuf hval hstep
  have hs₁ : Reachable cfg s₁ := hs.tail trivial hstep
  have hD := timeoutTime_toNat hstart hfit
  rw [← hD] at hrun
  have hp := hrun.progress hs₁ (progress_init hs.conserved hc he)
  refine hp.outcome hs₁ (hrun.reachable hs₁) ?_ hwake
  rw [he]
  simp [enqueueWaiter,stallThread,Thread.StalledFor]

def timedCall (tvSec tvNsec : BitVec 64) : Call := ⟨⟨0,0,1,some ⟨tvSec,tvNsec⟩,0,0,0⟩,1,0,id,0⟩

def waitOneSecond : List ServerLabel :=
  startThreads 2 ++ [.futex 1 (timedCall 1 0) 0,.settle 1,.periodic 1000000000000000 [0]]

theorem relative_timeout_is_shifted : Reachable ⟨0,1337000000⟩ (runFrom ⟨0,1337000000⟩ waitOneSecond) ∧
      deadline 0 ⟨1,0⟩ = 1000000000000000 ∧ ((runFrom ⟨0,1337000000⟩ waitOneSecond).futexes 0).map (·.threadId) = [1] ∧
      ((runFrom ⟨0,1337000000⟩ waitOneSecond).threads.thread 1).StalledFor .futex ∧
      (runFrom ⟨0,1337000000⟩ waitOneSecond).history 1 = [.stalled .futex] :=
  ⟨Run.reaches_guided (by decide),by decide,by decide,by decide,by decide⟩

theorem notPushedBack_of_same (hs : Conserved s) (hf : s'.futexes = s.futexes) : NotPushedBack t s s' := by
  intro c c' hc hc'
  rw [hf] at hc'
  obtain rfl := hs.futexes.apart c c' t hc hc'
  exact Nat.le_of_eq (by rw [ahead,ahead,hf])

def waiterStarts : List ServerLabel := startThreads 2 ++ [.futex 1 (timedCall 1 0) 0]

def waiterBlocks : List ServerLabel := waiterStarts ++ [.settle 1]

def barrierPasses : List ServerLabel := waiterBlocks ++ [.periodic 1000000000000000 [0]]

theorem times_out_after_one_second :
    since (runFrom plainConfig waiterStarts) (runFrom plainConfig barrierPasses) 1 ≠ [] ∧
      (since (runFrom plainConfig waiterStarts) (runFrom plainConfig barrierPasses) 1).take 2 <+:
        [.resumed .timeOut,.returned eTimedOut] := by
  have hs : Reachable plainConfig (runFrom plainConfig (startThreads 2)) := Run.reaches_guided (by decide)
  have hs₁ : Reachable plainConfig (runFrom plainConfig waiterStarts) := Run.reaches_guided (by decide)
  have hs₃ : Reachable plainConfig (runFrom plainConfig barrierPasses) := Run.reaches_guided (by decide)
  have hrun : Waits plainConfig 1 (deadline 0 ⟨1,0⟩) (runFrom plainConfig waiterStarts) 1
      (runFrom plainConfig barrierPasses) :=
    (Waits.refl.tail (l := .settle 1) (Run.next_guided (by decide))
      (notPushedBack_of_same hs₁.conserved rfl)).tail (l := .periodic 1000000000000000 [0])
      (Run.next_guided (by decide)) fun _ c' _ hc' => (hs₃.conserved.futexes.notMem (by decide) c' hc').elim
  have hstep : step plainConfig (runFrom plainConfig (startThreads 2)) (.futex 1 (timedCall 1 0) 0) =
      .ok (runFrom plainConfig waiterStarts) := Run.next_guided (by decide)
  obtain ⟨-,hdone,-,hshape⟩ := futex_wait_times_out plainConfig hs rfl rfl rfl hstep rfl (by decide) hrun (by decide)
  exact ⟨hdone (by decide),hshape⟩

open SubsecondTime

def queueTimeout (q : List Waiter) : SubsecondTime :=
  q.foldl (fun next w => if w.timeout < maxTime then w.timeout else next) maxTime

def getNextTimeout (s : SyscallServer) (order : List Address) : SubsecondTime :=
  order.foldl (fun next a => if queueTimeout (s.futexes a) < next then queueTimeout (s.futexes a) else next)
    (queueTimeout s.sleeping)

def queues (s : SyscallServer) : List (List Waiter) := s.sleeping :: s.keys.map s.futexes

def finite (w : Waiter) : Bool := w.timeout < maxTime

structure IsNextTimeout (s : SyscallServer) (next : SubsecondTime) : Prop where
  least : ∀ w ∈ s.queues.flatten, next ≤ w.timeout
  attained : next < maxTime → ∃ w ∈ s.queues.flatten, w.timeout = next
  never : next = maxTime ↔ ∀ w ∈ s.queues.flatten, ¬ w.timeout < maxTime

def LastIsSoonest (s : SyscallServer) : Prop :=
  ∀ w ∈ s.queues.flatten, w.timeout < maxTime → ∃ q ∈ s.queues, ∃ v ∈ (q.filter finite).getLast?, v.timeout ≤ w.timeout

theorem queueTimeout_eq (q : List Waiter) :
    queueTimeout q = ((q.filter finite).getLast?.map (·.timeout)).getD maxTime := by
  induction q using reverseRecOn with
  | nil => rfl
  | append_singleton q w ih =>
    rw [queueTimeout,foldl_append,foldl_cons,foldl_nil,filter_append]
    by_cases hw : w.timeout < maxTime
    · simp [finite,hw]
    · simpa [finite,hw,queueTimeout] using ih

theorem queueTimeout_finite (h : queueTimeout q < maxTime) :
    ∃ v ∈ (q.filter finite).getLast?, v.timeout = queueTimeout q := by
  cases hv : (q.filter finite).getLast? with
  | none => simp [queueTimeout_eq,hv] at h
  | some v => exact ⟨v,rfl,by simp [queueTimeout_eq,hv]⟩

theorem getNextTimeout_le (hp : order ~ s.keys) : s.getNextTimeout order ≤ y ↔ ∃ q ∈ s.queues, queueTimeout q ≤ y := by
  have fold (l : List Address) (next : SubsecondTime) :
      l.foldl (fun next a => if queueTimeout (s.futexes a) < next then queueTimeout (s.futexes a) else next) next ≤ y ↔
        next ≤ y ∨ ∃ a ∈ l, queueTimeout (s.futexes a) ≤ y := by
    induction l generalizing next with
    | nil => simp
    | cons a l ih =>
      simp only [foldl_cons,ih,mem_cons,exists_eq_or_imp,← or_assoc]
      refine or_congr_left ?_
      split_ifs <;> bv_omega
  rw [getNextTimeout,fold]
  simp [queues,hp.mem_iff]

theorem le_maxTime (x : SubsecondTime) : x ≤ maxTime := by
  rw [maxTime,BitVec.le_def,BitVec.toNat_allOnes]
  omega

theorem getNextTimeout_least_iff (s : SyscallServer) {order : List Address} (hp : order ~ s.keys) :
    s.IsNextTimeout (s.getNextTimeout order) ↔ s.LastIsSoonest := by
  constructor
  · intro h w hw hfin
    obtain ⟨q,hq,hle⟩ := (getNextTimeout_le hp).mp (h.least w hw)
    obtain ⟨v,hv,he⟩ := queueTimeout_finite (q := q) (by bv_omega)
    exact ⟨q,hq,v,hv,he ▸ hle⟩
  · intro h
    have least : ∀ w ∈ s.queues.flatten, s.getNextTimeout order ≤ w.timeout := by
      intro w hw
      by_cases hfin : w.timeout < maxTime
      · obtain ⟨q,hq,v,hv,hle⟩ := h w hw hfin
        refine (getNextTimeout_le hp).mpr ⟨q,hq,?_⟩
        rwa [queueTimeout_eq,Option.mem_def.mp hv]
      · exact BitVec.le_trans (le_maxTime _) (BitVec.not_lt.mp hfin)
    have attained : s.getNextTimeout order < maxTime → ∃ w ∈ s.queues.flatten, w.timeout = s.getNextTimeout order := by
      intro hlt
      obtain ⟨q,hq,hle⟩ := (getNextTimeout_le hp).mp (BitVec.le_refl _)
      obtain ⟨v,hv,he⟩ := queueTimeout_finite (q := q) (by bv_omega)
      refine ⟨v,mem_flatten.mpr ⟨q,hq,mem_of_mem_filter (mem_of_getLast? hv)⟩,?_⟩
      exact he.trans (BitVec.le_antisymm hle ((getNextTimeout_le hp).mpr ⟨q,hq,(BitVec.le_refl _)⟩))
    refine ⟨least,attained,?_,?_⟩
    · intro hmax w hw
      exact BitVec.not_lt.mpr (hmax ▸ least w hw)
    · intro hall
      refine BitVec.le_antisymm (le_maxTime _) (BitVec.not_lt.mp fun hlt => ?_)
      obtain ⟨w,hw,he⟩ := attained hlt
      exact hall w hw (he ▸ hlt)

def sleepTwice : List ServerLabel := startThreads 3 ++ [.sleep 1 5,.settle 1,.sleep 2 9,.settle 2]

theorem sleeper_hides_sooner_one : Reachable plainConfig (runFrom plainConfig sleepTwice) ∧
      ¬ (runFrom plainConfig sleepTwice).IsNextTimeout ((runFrom plainConfig sleepTwice).getNextTimeout []) := by
  refine ⟨Run.reaches_guided (by decide),fun h => ?_⟩
  have hle := h.least ⟨1,0,5,0⟩ (by decide)
  revert hle
  decide

theorem next_timeout_of_one_waiter :
    (runFrom plainConfig waiterBlocks).IsNextTimeout ((runFrom plainConfig waiterBlocks).getNextTimeout [0]) := by
  have hp : [0] ~ (runFrom plainConfig waiterBlocks).keys := by decide
  refine (getNextTimeout_least_iff (runFrom plainConfig waiterBlocks) hp).mpr ?_
  rw [LastIsSoonest]
  decide

end SyscallServer
