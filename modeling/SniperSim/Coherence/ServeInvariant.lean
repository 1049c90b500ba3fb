import SniperSim.Coherence.Invariant

open Function List Option
namespace Coherence
open ShmemReq
open DirectoryState
variable {n : Nat} {D : Type}
namespace PortOf
variable {v : View} {b : LlcLine D} {inbox : List (DirMsg D)} {outbox : List (LlcMsg D)} (h : PortOf v b inbox outbox)
include h

theorem demandWb (hw : ¬ v.awaitWb)
    (hv : PortOf v' b inbox outbox) (ha : v'.awaitWb) : PortOf v' b (inbox ++ [.wbReq]) outbox := by
  obtain ⟨hr,hq,-⟩ := Port.noWb h hw
  rw [PortOf,Inbox.ofList_concat]
  exact Port.demandWb hv hr hq ha

theorem demands (ms : List (DirMsg D))
    (hm : ∀ m ∈ ms, m = .invReq ∨ m = .flushReq ∧ v.awaitFlush) : PortOf v b (inbox ++ ms) outbox := by
  induction ms generalizing inbox with
  | nil => rwa [append_nil]
  | cons m ms ih =>
    rw [append_cons]
    refine ih ?_ fun m' hm' => hm m' (by simp [hm'])
    rcases hm m (by simp) with rfl | ⟨rfl,ha⟩
    · rwa [PortOf,Inbox.ofList_concat]
    · rw [PortOf,Inbox.ofList_concat]
      exact Port.demandFlush h ha

theorem grant (hv : v.sharer = v.granted) (hgp : v.granted → v.pending ≠ []) (hw : ¬ v.awaitWb) (m : DirMsg D)
    (hs : v'.sharer) (hg : v'.granted = false) (hk : v.pending ≠ []) (hp : v'.pending = v.pending.tail)
    (hm : (∃ d, m = .shRep d) ∧ v'.dstate = .shared ∨ (∃ d, m = .exRep d) ∧ v'.dstate.isEM ∧
        (v'.dstate = .modified → .ex ∈ v.pending ∨ .upgrade ∈ v.pending)) : PortOf v' b (inbox ++ [m]) outbox := by
  obtain ⟨hi,hc⟩ := Port.vacant h hv hgp hw
  rw [PortOf,Inbox.ofList_concat,hi]
  rw [hi] at hc
  exact hc.grant _ m hs hg hk hp hm

theorem revisit (hv : v.sharer = v.granted)
    (hgp : v.granted → v.pending ≠ []) (hw : ¬ v.awaitWb) (hp : v'.pending = v.pending)
    (hv' : v'.sharer = v'.granted)
    (hk : v'.sharer → (v'.dstate = .shared ∨ v'.dstate.isEM) ∧ v'.pending ≠ []) : PortOf v' b inbox outbox := by
  obtain ⟨hi,hc⟩ := Port.vacant h hv hgp hw
  rw [PortOf,hi]
  rw [hi,← hp] at hc
  exact hc.port hv' hk

end PortOf

variable {reply : D → DirMsg D}
namespace Line
variable {cfg : Config} {env : Env n D} {e e' : DirectoryEntry n} {reqs reqs' rest : List (ShmemReq n)}
  {req : ShmemReq n} {ln : Line n D} {b : LlcLine D} {inbox : List (DirMsg D)} {outbox : List (LlcMsg D)}

theorem sendAll_eq (ln : Line n D) (targets : List (Fin n × DirMsg D)) : ln.sendAll targets = { ln with
      toLlc := fun c => ln.toLlc c ++ (targets.filter (·.1 == c)).map (·.2) } := by
  induction targets generalizing ln with
  | nil => simp [sendAll]
  | cons t ts ih =>
    change (ln.send t.1 t.2).sendAll ts = _
    rw [ih]
    simp only [send]
    congr 1
    funext c
    cases hc : t.1 == c with
    | true =>
      obtain rfl := eq_of_beq hc
      simp
    | false => simp [hc,update_of_ne (ne_of_beq_false hc).symm]

theorem pending_of_ne (hc : req.requester ≠ c) :
    (view e (req :: rest) asked c).pending = (view e' rest asked' c).pending := by
  simp [view,asks,hc]

theorem granted_of_ne (hc : req.requester ≠ c) : (view e (req :: rest) asked c).granted = false := by
  simp [view,granted,asks,hc]

theorem pending_requester (hk : req.kind ≠ .nullify) : (view e (req :: rest) asked req.requester).pending =
      req.kind :: (view e' rest asked' req.requester).pending := by
  simp [view,asks,hk]

theorem port_asked (h : PortOf (view e reqs false c) b inbox outbox) : PortOf (view e reqs true c) b inbox outbox := by
  refine Port.mono h rfl rfl rfl rfl ?_ ?_ ?_
  · rintro ⟨ha,-⟩
    simp at ha
  · rintro ⟨ha,-⟩
    simp at ha
  · rintro (hd | ⟨ha,-⟩)
    · exact .inl hd
    · simp at ha

theorem port_other (h : PortOf (view e reqs false c) b inbox outbox)
    (hs : e'.sharers c = e.sharers c) (hd : e'.dstate = e.dstate ∨ e.sharers c = false)
    (hg : (view e reqs false c).granted = false) (hg' : (view e' reqs' asked' c).granted = false)
    (hp : (view e' reqs' asked' c).pending = (view e reqs false c).pending) :
    PortOf (view e' reqs' asked' c) b inbox outbox := by
  rcases hd with hd | hd
  · refine Port.mono h hs (hg'.trans hg.symm) hd hp ?_ ?_ ?_
    · rintro ⟨ha,-⟩
      simp at ha
    · rintro ⟨ha,-⟩
      simp at ha
    · rintro (hm | ⟨ha,-⟩)
      · exact .inl (hd ▸ hm)
      · simp at ha
  · have hs' : e'.sharers c = false := hs.trans hd
    refine h.revisit (hd.trans hg.symm) view_granted_pending (view_not_awaitWb (.inr rfl)) hp (hs'.trans hg'.symm) ?_
    intro hv
    simp [view,hs'] at hv

theorem inv_demands (h : Inv ln e (req :: rest) false) (targets : List (Fin n × DirMsg D))
    (ht : ∀ t ∈ targets, t.2 = .invReq ∨ t.2 = .flushReq ∧ req.AwaitsFlush e t.1) :
    Inv ((ln.setEntry e).sendAll targets) e (req :: rest) true := by
  rw [sendAll_eq]
  refine { h with port := fun c => ?_ }
  refine (port_asked (h.port c)).demands _ ?_
  intro m hm
  obtain ⟨t,hf,rfl⟩ := List.mem_map.mp hm
  obtain ⟨htm,hc⟩ := mem_filter.mp hf
  obtain rfl := eq_of_beq hc
  rcases ht t htm with hi | ⟨hi,ha⟩
  · exact .inl hi
  · exact .inr ⟨hi,rfl,req,rfl,ha⟩

theorem inv_wbDemand (h : Inv ln e (req :: rest) false) (ha : req.AwaitsWb e o) :
    Inv ((ln.setEntry e).send o .wbReq) e (req :: rest) true := by
  refine { h with port := fun c => ?_ }
  simp only [send,setEntry]
  rcases eq_or_ne c o with rfl | hc
  · rw [update_self]
    exact (h.port c).demandWb (view_not_awaitWb (.inr rfl)) (port_asked (h.port c)) ⟨rfl,req,rfl,ha⟩
  · rw [update_of_ne hc]
    exact port_asked (h.port c)

theorem fresh_tail (h : Inv ln e (req :: rest) asked) : ∀ r ∈ rest, r.Fresh := h.queued

theorem fresh_frontOk (h : ∀ r ∈ rest, r.Fresh) (s : DirectoryState) :
    ∀ r ∈ rest.head?, r.FrontOk s := fun r hr => (h r (mem_of_mem_head? hr)).frontOk s

theorem fresh_wait (h : ∀ r ∈ rest, r.Fresh) : rest.head?.any (·.waitForData) = false := by
  cases rest with
  | nil => rfl
  | cons r rest => exact (h r (by simp)).2.1

theorem inv_next (h : Inv ln e (req :: rest) asked) (hw : req.waitForData = false) (he : EntryOk e')
    (hd : ln'.toDram = ln.toDram) (hf : ln'.fromDram = ln.fromDram)
    (hp : ∀ c, PortOf (view e' rest false c) (ln'.llc c) (ln'.toLlc c) (ln'.toDir c)) : Inv ln' e' rest false := by
  have hfresh := fresh_tail h
  refine ⟨he,fun r hr => hfresh r (mem_of_mem_tail hr),fresh_frontOk hfresh _,?_,hp⟩
  rw [hd,hf,fresh_wait hfresh,h.reads]
  simp [hw]

theorem inv_upgrade (h : Inv ln e (req :: rest) false) (hw : req.waitForData = false)
    (hk : req.kind = .upgrade) (hs : e.sharers req.requester)
    (hd : e.dstate.isEM ∧ e.owner = some req.requester ∨ e.dstate = .shared ∧ ∀ c, e.sharers c → c = req.requester) :
    Inv ((ln.setEntry { e with owner := some req.requester, dstate := .modified }).send
      req.requester .upgradeRep) { e with owner := some req.requester, dstate := .modified }
      rest false := by
  have hfresh := fresh_tail h
  have hn : req.kind ≠ .nullify := by simp [hk]
  have hp : (view e (req :: rest) false req.requester).pending =
      req.kind :: (view { e with owner := some req.requester, dstate := .modified } rest false
        req.requester).pending := pending_requester hn
  have hmem : .upgrade ∈ (view e (req :: rest) false req.requester).pending := by simp [hp,hk]
  have hf : req.forwardingFrom = none := by
    cases hf : req.forwardingFrom with
    | none => rfl
    | some f =>
      have hc := ((h.front req rfl).forwarding (by simp [hf])).1
      simp [hk] at hc
  have hg : (view e (req :: rest) false req.requester).granted = false := by
    simp [view,granted,hw,hf]
  have hshared : e.dstate = .shared := ((h.port req.requester).upgradePending hmem hs).resolve_right (by simp [hg])
  have hem : e.dstate.isEM = false := by simp [hshared,isEM]
  have honly : ∀ c, e.sharers c → c = req.requester := by
    rcases hd with ⟨hd,-⟩ | ⟨-,hd⟩
    · simp [hem] at hd
    · exact hd
  refine inv_next h hw ⟨?_,?_,by simp⟩ rfl rfl fun c => ?_
  · simp only [reduceCtorEq,false_iff,not_forall]
    exact ⟨req.requester,by simp [hs]⟩
  · intro _
    refine ⟨req.requester,rfl,fun c => ⟨honly c,?_⟩⟩
    rintro rfl
    exact hs
  · simp only [send,setEntry]
    rcases eq_or_ne c req.requester with rfl | hc
    · rw [update_self,PortOf,Inbox.ofList_concat]
      refine Port.upgradeReply (h.port req.requester) hmem hs hg (view_not_awaitWb (.inr rfl)) ?_ ?_ hs
        (granted_of_fresh hfresh) rfl (by rw [hp,tail_cons]) _
      · rintro ⟨ha,-⟩
        simp at ha
      · rintro (hm | ⟨ha,-⟩)
        · simp [hem] at hm
        · simp at ha
    · rw [update_of_ne hc]
      have hcs : e.sharers c = false := by
        cases hv : e.sharers c with
        | false => rfl
        | true => exact absurd (honly c hv) hc
      exact port_other (h.port c) rfl (.inr hcs) (granted_of_ne hc.symm) (granted_of_fresh hfresh)
        (pending_of_ne hc.symm).symm

theorem entryOk_create (f : Option (Fin n)) : EntryOk (.create f) :=
  ⟨by simp [DirectoryEntry.create],by simp [DirectoryEntry.create,isEM],by simp [DirectoryEntry.create]⟩

theorem inv_nullify (h : Inv ln e (req :: rest) false) (hk : req.kind = .nullify)
    (hd : e.dstate = .uncached) : Inv { ln with entry := none } (.create none) rest false := by
  have hfresh := fresh_tail h
  refine inv_next h ((h.front req rfl).nullify hk).1 (entryOk_create none) rfl rfl fun c => ?_
  have hs := h.entry.uncached.mp hd c
  refine port_other (h.port c) hs.symm (.inr hs) ?_ (granted_of_fresh hfresh) ?_
  · simp [view,granted,asks,hk]
  · simp [view,asks,hk]

namespace Grant
variable {reply : D → DirMsg D} (hg : Grant cfg req e e' reply)
include hg

theorem kind_ne : req.kind ≠ .nullify := by
  obtain ⟨-,-,⟨-,-,⟨hk | hk,-⟩ | ⟨hk,-⟩ | ⟨hk,-⟩⟩ | ⟨-,-,hk,-⟩⟩ := hg <;> simp [hk]

theorem sharer_requester : e'.sharers req.requester := by
  rw [hg.sharers,update_self]

theorem sharer_other (hc : c ≠ req.requester) : e'.sharers c = e.sharers c := by
  rw [hg.sharers,update_of_ne hc]

theorem dstate_other (he : EntryOk e) (c : Fin n) : e'.dstate = e.dstate ∨ e.sharers c = false := by
  rcases hg.cases with ⟨hd,-⟩ | ⟨hd,hd',-⟩
  · exact .inr (he.uncached.mp hd c)
  · exact .inl (hd'.trans hd.symm)

theorem dstate_new : e'.dstate = .shared ∨ e'.dstate.isEM := by
  rcases hg.cases with ⟨-,-,⟨-,hd,-⟩ | ⟨-,hd,-⟩ | ⟨-,-,hd,-⟩⟩ | ⟨-,hd,-⟩ <;> simp [*,isEM]

theorem entryOk (he : EntryOk e) : EntryOk e' := by
  have hs := hg.sharer_requester
  refine ⟨?_,?_,?_⟩
  · constructor
    · intro hd
      rcases hg.dstate_new with hn | hn <;> simp [hd,isEM] at hn
    · intro hn
      simp [hn req.requester] at hs
  · intro hd
    rcases hg.cases with ⟨hu,ho,-⟩ | ⟨-,hn,-⟩
    · refine ⟨req.requester,ho,fun c => ⟨fun hc => ?_,?_⟩⟩
      · by_contra hne
        rw [hg.sharer_other hne,he.uncached.mp hu c] at hc
        simp at hc
      · rintro rfl
        exact hs
    · simp [hn,isEM] at hd
  · intro hd
    rcases hg.dstate_new with hn | hn <;> simp [hd,isEM] at hn

theorem vacant (h : Inv ln e (req :: rest) false) :
    (view e (req :: rest) false req.requester).sharer = (view e (req :: rest) false req.requester).granted := by
  have hp : (view e (req :: rest) false req.requester).pending =
      req.kind :: (view e rest false req.requester).pending := pending_requester hg.kind_ne
  rcases hg.cases with ⟨hu,-⟩ | ⟨-,-,hk,-⟩
  · have hs : (view e (req :: rest) false req.requester).sharer = false := h.entry.uncached.mp hu _
    rw [hs,Port.ungranted (h.port _) hs]
  · exact Port.requester (h.port _) (.inl (by simp [hp,hk]))

theorem message (d : D) : (∃ d', reply d = .shRep d') ∧ e'.dstate = .shared ∨
      (∃ d', reply d = .exRep d') ∧ e'.dstate.isEM ∧
        (e'.dstate = .modified → req.kind = .ex ∨ req.kind = .upgrade) := by
  rcases hg.cases with ⟨-,-,⟨hk,hd,rfl⟩ | ⟨-,hd,rfl⟩ | ⟨-,-,hd,rfl⟩⟩ | ⟨-,hd,-,rfl,-⟩ <;> simp [*,isEM]

end Grant

section
variable (h : Inv ln e (req :: rest) false)
include h

theorem inv_reply (hw : req.waitForData = false) (hg : Grant cfg req e e' reply) (f : Option (Fin n)) (d : D) :
    Inv ((ln.setEntry { e' with forwarder := f }).send req.requester (reply d))
      { e' with forwarder := f } rest false := by
  have hfresh := fresh_tail h
  have he := hg.entryOk h.entry
  have hp : (view e (req :: rest) false req.requester).pending =
      req.kind :: (view { e' with forwarder := f } rest false req.requester).pending :=
    pending_requester hg.kind_ne
  refine inv_next h hw { he with } rfl rfl fun c => ?_
  simp only [send,setEntry]
  rcases eq_or_ne c req.requester with rfl | hc
  · rw [update_self]
    refine (h.port _).grant (hg.vacant h) view_granted_pending (view_not_awaitWb (.inr rfl)) _
      hg.sharer_requester (granted_of_fresh hfresh) (by simp [hp]) (by rw [hp,tail_cons]) ?_
    rcases hg.message d with hm | ⟨hm,hd,hx⟩
    · exact .inl hm
    · refine .inr ⟨hm,hd,fun hd => ?_⟩
      rw [hp]
      exact (hx hd).imp (fun hk => by simp [hk]) fun hk => by simp [hk]
  · rw [update_of_ne hc]
    exact port_other (h.port c) (hg.sharer_other hc) (hg.dstate_other h.entry c)
      (granted_of_ne hc.symm) (granted_of_fresh hfresh) (pending_of_ne hc.symm).symm

theorem inv_pending (hg : Grant cfg req e e' reply) (req' : ShmemReq n) (hk : req'.kind = req.kind)
    (hr : req'.requester = req.requester)
    (hgr : req'.waitForData ∨ req'.forwardingFrom.isSome) (c : Fin n) :
    PortOf (view e' (req' :: rest) true c) (ln.llc c) (ln.toLlc c) (ln.toDir c) := by
  have hp : (view e' (req' :: rest) true c).pending = (view e (req :: rest) false c).pending := by
    simp only [view,asks,filter_cons,hk,hr]
    split_ifs <;> simp [hk]
  rcases eq_or_ne c req.requester with rfl | hc
  · refine (h.port _).revisit (hg.vacant h) view_granted_pending (view_not_awaitWb (.inr rfl)) hp
      ?_ fun _ => ⟨hg.dstate_new,?_⟩
    · have ha : req'.granted req.requester := by
        simp [granted,asks,hk,hr,hg.kind_ne,hgr]
      simp [view,hg.sharer_requester,ha]
    · rw [hp]
      simp [view,asks,hg.kind_ne]
  · exact port_other (h.port c) (hg.sharer_other hc) (hg.dstate_other h.entry c)
      (granted_of_ne hc.symm) (granted_of_ne (hr ▸ hc.symm)) hp

theorem inv_fetch (hw : req.waitForData = false) (hg : Grant cfg req e e' reply) :
    Inv { (ln.setEntry e').setFront { req with waitForData := true } with
      toDram := ln.toDram ++ [.readReq] } e' ({ req with waitForData := true } :: rest) true := by
  have hreads := h.reads
  have hport (c : Fin n) : PortOf (view e' ({ req with waitForData := true } :: rest) true c)
      (ln.llc c) (ln.toLlc c) (ln.toDir c)  :=
    inv_pending h hg { req with waitForData := true } rfl rfl (.inl rfl) c
  refine ⟨hg.entryOk h.entry,h.queued,?_,?_,hport⟩
  · rintro r hr
    obtain rfl : _ = r := by simpa using hr
    have hf := h.front req rfl
    refine ⟨fun hk => absurd hk hg.kind_ne,fun _ => ?_,fun hs => ?_⟩
    · rcases hg.cases with ⟨-,-,⟨hk,hd,-⟩ | ⟨hk,hd,-⟩ | ⟨hk,-,hd,-⟩⟩ | ⟨-,hd,hk,-⟩ <;> simp [*]
    · obtain ⟨hk,hd⟩ := hf.forwarding hs
      rcases hg.cases with ⟨hu,-⟩ | ⟨-,hd',-⟩
      · simp [hd] at hu
      · exact ⟨hk,hd'⟩
  · simp only [head?_cons,any_some,hw,Bool.toNat_false] at hreads
    simp only [setFront,setEntry,countP_append,countP_singleton,DramMsg.isRead,if_true,
      head?_cons,any_some,Bool.toNat_true]
    omega

theorem inv_forward (hw : req.waitForData = false) (hg : Grant cfg req e e' reply) (hr : req.forwardingFrom = none)
    (hd : e'.dstate = .shared) (hf : e.sharers f) :
    Inv (((ln.setEntry e').setFront { req with forwardingFrom := some f }).send f .wbReq) e'
      ({ req with forwardingFrom := some f } :: rest) true := by
  have hk : req.kind = .sh := by
    rcases hg.cases with ⟨-,-,⟨-,hd',-⟩ | ⟨-,hd',-⟩ | ⟨hk,-⟩⟩ | ⟨-,-,hk,-⟩
    · simp [hd] at hd'
    · simp [hd] at hd'
    · exact hk
    · exact hk
  have hne : f ≠ req.requester := by
    rintro rfl
    have hv := hg.vacant h
    simp [view,hf,granted,hw,hr] at hv
  have hport (c : Fin n) : PortOf (view e' ({ req with forwardingFrom := some f } :: rest) true c)
      (ln.llc c) (ln.toLlc c) (ln.toDir c)  :=
    inv_pending h hg { req with forwardingFrom := some f } rfl rfl (.inr rfl) c
  refine ⟨hg.entryOk h.entry,h.queued,?_,h.reads,fun c => ?_⟩
  · rintro r hr
    obtain rfl : _ = r := by simpa using hr
    exact ⟨fun hn => absurd hn hg.kind_ne,by simp [hw],fun _ => ⟨hk,hd⟩⟩
  · simp only [send,setFront,setEntry]
    rcases eq_or_ne c f with rfl | hc
    · rw [update_self]
      refine (h.port c).demandWb (view_not_awaitWb (.inr rfl)) (hport c) ?_
      exact ⟨rfl,_,rfl,hk,hw,(hg.sharer_other hne).trans hf,.inr ⟨hd,rfl⟩⟩
    · rw [update_of_ne hc]
      exact hport c
end

theorem forwarded_of_ne (h : e.dstate ≠ .shared) : Forwarded cfg e := fun _ hd => absurd hd h

theorem dstate_ne_shared (h : e.dstate.isEM) : e.dstate ≠ .shared := by
  intro hd
  simp [hd,isEM] at h

theorem Grant.forwarded (hg : Grant cfg req e e' reply) (hf : Forwarded cfg e) : Forwarded cfg e' := by
  intro hm hd hc f hff
  rcases hg.cases with ⟨-,-,⟨-,hd',-⟩ | ⟨-,hd',-⟩ | ⟨-,hp,-⟩⟩ | ⟨hd',-⟩
  · simp [hd] at hd'
  · simp [hd] at hd'
  · simp [hm] at hp
  · have hs := hf hm hd' hc f (hg.forwarder ▸ hff)
    rcases eq_or_ne f req.requester with rfl | hne
    · exact hg.sharer_requester
    · exact (hg.sharer_other hne).trans hs

def Answerable (cfg : Config) (cachedData : Option D) (req : ShmemReq n) (e : DirectoryEntry n) : Prop :=
  Forwarded cfg e ∨ req.kind = .sh ∧ cachedData.isSome ∧ e.getNumSharers ≤ 1

theorem Answerable.forwarded (h : Answerable cfg cd req e) (hc : cd = none) : Forwarded cfg e := by
  rcases h with h | ⟨-,hs,-⟩
  · exact h
  · simp [hc] at hs

theorem forwarded_full (h : Answerable cfg cd req e) (hk : req.kind = .sh → ¬ e.room cfg) : Forwarded cfg e := by
  rcases h with h | ⟨hs,-,hn⟩
  · exact h
  · intro _ _ hc
    have hr := hk hs
    simp only [DirectoryEntry.room,not_or,Nat.not_lt] at hr
    rcases hc with hc | hc
    · exact absurd hc hr.1
    · omega

theorem forwarder_sharer (h : Inv ln e (req :: rest) false) (hw : req.waitForData = false)
    (hg : Grant cfg req e e' reply) (hf : Forwarded cfg e) (hm : cfg.protocol = .mesif)
    (hr : req.forwardingFrom = none) (hd : e'.dstate = .shared) (hff : e.forwarder = some f) : e.sharers f := by
  rcases hg.cases with ⟨-,-,⟨-,hd',-⟩ | ⟨-,hd',-⟩ | ⟨-,hp,-⟩⟩ | ⟨hd',-,-,-,hs⟩
  · simp [hd] at hd'
  · simp [hd] at hd'
  · simp [hm] at hp
  · have hroom : e.room cfg := by
      refine hs.resolve_left fun hs => ?_
      have hv := hg.vacant h
      simp [view,hs,granted,hw,hr] at hv
    refine hf hm hd' (hroom.imp id fun hlt => ?_) f hff
    have hne : e.getNumSharers ≠ 0 := by
      rw [Ne,DirectoryEntry.getNumSharers_eq_zero,← h.entry.uncached]
      simp [hd']
    omega

theorem served_settles (h : Inv ln e (req :: rest) false) (hw : req.waitForData = false) (hq : ln.reqs = req :: rest)
    (ha : Answerable cfg cd req e) (hs : Served cfg env req cd ln e r) : Settles (Idle cfg) (Busy cfg) rest r := by
  have hfresh := fresh_tail h
  cases hs with
  | flush o hd hk ho =>
    refine ⟨by simp,fun _ => ⟨?_,forwarded_of_ne (dstate_ne_shared hd)⟩⟩
    obtain ⟨o',ho',hs⟩ := h.entry.owner hd
    obtain rfl : o = o' := some.inj (ho.symm.trans ho')
    change Inv ((ln.setEntry e).sendAll [(o,.flushReq)]) e ln.reqs true
    rw [hq]
    refine inv_demands h _ fun t ht => ?_
    obtain rfl := mem_singleton.mp ht
    exact .inr ⟨rfl,hk,hw,(hs o).mpr rfl,.inl hd⟩
  | writeback o hd hk ho =>
    refine ⟨by simp,fun _ => ⟨?_,forwarded_of_ne (dstate_ne_shared hd)⟩⟩
    obtain ⟨o',ho',hs⟩ := h.entry.owner hd
    obtain rfl : o = o' := some.inj (ho.symm.trans ho')
    change Inv _ e ln.reqs true
    rw [hq]
    exact inv_wbDemand h ⟨hk,hw,(hs o).mpr rfl,.inl hd⟩
  | invalidate targets hd ht hk =>
    have hi := inv_demands h targets fun t htm => (ht t htm).imp id fun hf =>
      ⟨hf.1,by simp [hf.2.1],hw,hf.2.2.1,.inr ⟨hd,hf.2.1,hw,hf.2.2.2⟩⟩
    rw [sendAll_eq] at hi ⊢
    refine ⟨by simp,fun _ => ⟨?_,forwarded_full ha fun hs => (hk hs).2⟩⟩
    change Inv _ e ln.reqs true
    rwa [hq]
  | upgrade hk hs hd =>
    exact ⟨fun _ => ⟨inv_upgrade h hw hk hs hd,hfresh,forwarded_of_ne (by simp [send,setEntry,dir])⟩,by simp⟩
  | nullify hk hd =>
    exact ⟨fun _ => ⟨inv_nullify h hk hd,hfresh,forwarded_of_ne (by simp [dir,DirectoryEntry.create])⟩,by simp⟩
  | reply e' e'' reply d hg hsrc =>
    refine ⟨fun _ => ?_,by simp⟩
    rcases hsrc with ⟨-,rfl⟩ | ⟨hc,-,rfl⟩
    · refine ⟨inv_reply h hw hg _ d,hfresh,?_⟩
      intro _ _ _ f hf
      obtain rfl : req.requester = f := some.inj hf
      exact hg.sharer_requester
    · exact ⟨inv_reply h hw hg e''.forwarder d,hfresh,hg.forwarded (ha.forwarded hc)⟩
  | forward e' reply f hg hc hm hr hd hf =>
    refine ⟨by simp,fun _ => ⟨?_,hg.forwarded (ha.forwarded hc)⟩⟩
    change Inv _ e' (_ :: ln.reqs.tail) true
    rw [hq,tail_cons]
    exact inv_forward h hw hg hr hd (forwarder_sharer h hw hg (ha.forwarded hc) hm hr hd hf)
  | fetch e' reply hg hc =>
    refine ⟨by simp,fun _ => ⟨?_,hg.forwarded (ha.forwarded hc)⟩⟩
    change Inv _ e' (_ :: ln.reqs.tail) true
    rw [hq,tail_cons]
    exact inv_fetch h hw hg

theorem inv_allocate (env : Env n D) (h : Inv ln ln.dir reqs asked) : Inv ln (ln.allocateEntry env) reqs asked := by
  cases he : ln.entry with
  | some e => simpa only [allocateEntry,dir,he,getD_some] using h
  | none =>
    simp only [allocateEntry,dir,he,getD_none] at h ⊢
    exact { h with entry := entryOk_create _ }

theorem answerable_allocate (env : Env n D) (h : Answerable cfg cd req ln.dir) :
    Answerable cfg cd req (ln.allocateEntry env) := by
  cases he : ln.entry with
  | some e => simpa only [allocateEntry,dir,he,getD_some] using h
  | none => exact .inl (forwarded_of_ne (by simp [allocateEntry,he,DirectoryEntry.create]))

structure Rule (cfg : Config) (env : Env n D)
    (J : Option D → List (ShmemReq n) → Line n D → Prop) (K : Line n D → Prop) : Prop where
  served : ∀ {req : ShmemReq n} {rest cachedData} {ln : Line n D} {r},
    Inv ln (ln.allocateEntry env) (req :: rest) false → req.waitForData = false →
    ln.reqs = req :: rest → J cachedData (req :: rest) ln → Served cfg env req cachedData ln (ln.allocateEntry env) r →
    (r.2 → J none rest r.1) ∧ (r.2 = false → K r.1)
  nil : ∀ {ln}, J none [] ln → K { ln with reqs := [] }
  frame : ∀ {reqs ln} (reqs' : List (ShmemReq n)), J none reqs ln → J none reqs { ln with reqs := reqs' }

theorem trivialRule (cfg : Config) (env : Env n D) : Rule cfg env (fun _ _ _ => True) fun _ => True :=
  ⟨fun _ _ _ _ _ => ⟨fun _ => trivial,fun _ => trivial⟩,fun _ => trivial,fun _ _ => trivial⟩

theorem busy_nil (h : Idle cfg [] ln) : Busy cfg { ln with reqs := [] } :=
  ⟨{ h.1 with port := fun c => port_asked (h.1.port c) },h.2.2⟩

namespace Rule
variable {J : Option D → List (ShmemReq n) → Line n D → Prop} {K : Line n D → Prop}
variable (hr : Rule cfg env J K)
include hr

theorem processReq_settles (h : Inv ln ln.dir (req :: rest) false)
    (hw : req.waitForData = false) (hq : ln.reqs = req :: rest)
    (ha : Answerable cfg cd req ln.dir) (hj : J cd (req :: rest) ln) :
    Outcome Benign (fun r => (r.2 → r.1.reqs = ln.reqs) ∧
        Settles (fun reqs ln => Idle cfg reqs ln ∧ J none reqs ln) (fun ln => Busy cfg ln ∧ K ln)
          rest r) (ln.processReq cfg env req cd) := by
  have hi := inv_allocate env h
  refine (processReq_served fun hd => hi.entry.uncached.mp hd _).mono fun r hs => ?_
  have hb := served_settles hi hw hq (answerable_allocate env ha) hs
  have hx := hr.served hi hw hq hj hs
  exact ⟨hs.reqs,fun hd => ⟨hb.1 hd,hx.1 hd⟩,fun hd => ⟨hb.2 hd,hx.2 hd⟩⟩

theorem serves : Serves cfg env (fun reqs ln => Idle cfg reqs ln ∧ J none reqs ln) fun ln => Busy cfg ln ∧ K ln := by
  rintro req rest ln ⟨⟨h,hfresh,hf⟩,hj⟩
  have hi : Inv { ln with reqs := req :: rest } ln.dir (req :: rest) false :=
    { h with }
  exact (hr.processReq_settles hi (hfresh req (by simp)).2.1 rfl (.inl hf) (hr.frame _ hj)).mono fun r hr => hr.2

theorem processNextReq (h : Idle cfg reqs ln) (hj : J none reqs ln) :
    Outcome Benign (fun ln => Busy cfg ln ∧ K ln) (processNextReq cfg env reqs ln) :=
  processNextReq_outcome (fun _ h => ⟨busy_nil h.1,hr.nil h.2⟩) hr.serves ⟨h,hj⟩

theorem runFront (h : Inv ln ln.dir (req :: rest) false) (hw : req.waitForData = false) (hq : ln.reqs = req :: rest)
    (ha : Answerable cfg cd req ln.dir) (hj : J cd (req :: rest) ln) :
    Outcome Benign (fun ln => Busy cfg ln ∧ K ln) (ln.runFront cfg env cd) :=
  runFront_outcome (fun _ h => ⟨busy_nil h.1,hr.nil h.2⟩) hr.serves hq (hr.processReq_settles h hw hq ha hj)

end Rule
end Line
end Coherence
