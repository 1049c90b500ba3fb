import Mathlib.Logic.Relation
import SniperSim.Network.EMeshHopByHop

open List Option
open Fuel Function
namespace EMesh

structure RoutedHop where
  direction : OutputDirection
  finalDest : Option Int
  nextDest : Int
deriving DecidableEq, Repr

structure Message where
  dest : Int
  receiver : Option Int
deriving DecidableEq, Repr

variable (m : EMesh) (tree : Bool) (sender : Int)

def cores : List Int := (range m.applicationCores.toNat).map Int.ofNat

def treeHops (coreId : Int) : List RoutedHop :=
  let sx := m.positionX sender
  let sy := m.positionY sender
  let cx := m.positionX coreId
  let cy := m.positionY coreId
  (if sy ≤ cy then [⟨.up,none,m.computeCoreId cx (cy + 1)⟩] else []) ++
    (if cy ≤ sy then [⟨.down,none,m.computeCoreId cx (cy - 1)⟩] else []) ++
    if cy = sy then
      (if sx ≤ cx then [⟨.right,none,m.computeCoreId (cx + 1) cy⟩] else []) ++
        (if cx ≤ sx then [⟨.left,none,m.computeCoreId (cx - 1) cy⟩] else []) ++
        if cx = sx then [⟨.self,some coreId,coreId⟩] else []
    else []

def routeBroadcast (coreId : Int) : Option (List RoutedHop) :=
  if m.fakeNode coreId then some (m.cores.map fun i => ⟨.destination,some i,i⟩)
  else if tree then some (m.treeHops sender coreId)
  else if sender ≠ coreId then none
  else some (m.cores.map fun i => ⟨(m.getNextDest coreId i).direction,some i,(m.getNextDest coreId i).nextDest⟩)

def route (coreId : Int) : Option Int → Option (List RoutedHop)
  | none => m.routeBroadcast tree sender coreId
  | some receiver =>
    some [⟨(m.routePacket coreId receiver).direction,some receiver,(m.routePacket coreId receiver).nextDest⟩]

def transmit (fuel : Nat) (hop : RoutedHop) : Option Message :=
  match hop.finalDest with
  | none => some ⟨hop.nextDest,none⟩
  | some receiver => (m.hopLoop receiver fuel ⟨hop.direction,hop.nextDest⟩).map fun _ => ⟨receiver,some receiver⟩

def netSendPacket (coreId : Int) (receiver : Option Int) (fuel : Nat) : Option (List Message) :=
  (m.route tree sender coreId receiver).bind fun hops => hops.mapM (m.transmit fuel)

structure Transport where
  queues : Int → List (Option Int)
  received : Int → Nat
  sent : Nat

namespace Transport

def empty : Transport := { queues := fun _ => [], received := fun _ => 0, sent := 0 }

variable (s : Transport)

def post (msg : Message) : Transport :=
  { s with
    queues := update s.queues msg.dest (s.queues msg.dest ++ [msg.receiver])
    sent := s.sent + 1 }

def pop (coreId : Int) : Transport :=
  { s with queues := update s.queues coreId (s.queues coreId).tail }

def receive (coreId : Int) : Transport :=
  { s with received := update s.received coreId (s.received coreId + 1) }

end Transport

def pull (s : Transport) (coreId : Int) (fuel : Nat) : Option Transport :=
  match s.queues coreId with
  | [] => none
  | receiver :: _ =>
    if receiver = some coreId then some ((s.pop coreId).receive coreId)
    else (m.netSendPacket tree sender coreId receiver fuel).map fun msgs =>
      let s := msgs.foldl Transport.post (s.pop coreId)
      if receiver = none then s.receive coreId else s

def start (fuel : Nat) : Option Transport :=
  (m.netSendPacket tree sender sender none fuel).map fun msgs => msgs.foldl Transport.post .empty

def Step (s s' : Transport) : Prop := ∃ coreId, Returns (m.pull tree sender s coreId) s'

def Reachable (s : Transport) : Prop :=
  ∃ s₀, Returns (m.start tree sender) s₀ ∧ Relation.ReflTransGen (m.Step tree sender) s₀ s

structure BroadcastOnce : Prop where
  starts : ∃ s, Returns (m.start tree sender) s
  finite : ∃ bound, ∀ s, m.Reachable tree sender s → s.sent ≤ bound
  delivers : ∀ s, m.Reachable tree sender s → ∀ coreId, s.queues coreId ≠ [] →
    ∃ s', Returns (m.pull tree sender s coreId) s'
  once : ∀ s, m.Reachable tree sender s → (∀ coreId, s.queues coreId = []) →
    ∀ coreId, m.Receives coreId → s.received coreId = 1

section
variable {m tree sender} {s : Transport} {coreId : Int} {msgs : List Message}

theorem foldl_post_queues (msgs : List Message) (s : Transport) (coreId : Int) :
    (msgs.foldl Transport.post s).queues coreId =
      s.queues coreId ++ (msgs.filter fun msg => msg.dest == coreId).map (·.receiver) := by
  induction msgs generalizing s with
  | nil => simp
  | cons msg msgs ih =>
    rw [foldl_cons,ih]
    by_cases hdest : msg.dest = coreId
    · simp [Transport.post,hdest]
    · simp [Transport.post,hdest,update_of_ne (Ne.symm hdest)]

theorem foldl_post_received (msgs : List Message) (s : Transport) :
    (msgs.foldl Transport.post s).received = s.received := by
  induction msgs generalizing s with
  | nil => rfl
  | cons msg msgs ih => rw [foldl_cons,ih,Transport.post]

theorem foldl_post_sent (msgs : List Message) (s : Transport) :
    (msgs.foldl Transport.post s).sent = s.sent + msgs.length := by
  induction msgs generalizing s with
  | nil => rfl
  | cons msg msgs ih =>
    rw [foldl_cons,ih,length_cons]
    simp only [Transport.post]
    omega

theorem returns_netSendPacket {α : Type} {xs : List α} {re : Option Int} {f : α → Message}
    (hop : α → RoutedHop) (hroute : m.route tree sender coreId re = some (xs.map hop))
    (hf : ∀ x ∈ xs, Returns (fun fuel => m.transmit fuel (hop x)) (f x)) :
    Returns (m.netSendPacket tree sender coreId re) (xs.map f) := by
  have hsend : m.netSendPacket tree sender coreId re = fun fuel => xs.mapM fun x => m.transmit fuel (hop x) := by
    funext fuel
    rw [netSendPacket,hroute,bind_some,mapM_map]
    rfl
  rw [hsend]
  exact .mapM hf

theorem returns_transmit_arrived (direction : OutputDirection) (re : Int) :
    Returns (fun fuel => m.transmit fuel ⟨direction,some re,re⟩) ⟨re,some re⟩ := by
  refine Returns.of_succ ?_
  simp only [transmit,hopLoop,if_true,map_some]
  exact .const _
end

section
variable {m sender} {s : Transport} {coreId : Int}

def RoutedHop.message (hop : RoutedHop) : Message := ⟨hop.nextDest,hop.finalDest⟩

theorem computeCoreId_real (x y : Int) : m.fakeNode (m.computeCoreId x y) = false := by
  have hin : ∀ a n : Int, 1 ≤ n → 0 ≤ a % n ∧ a % n < n := fun a n hn =>
    ⟨Int.emod_nonneg _ (by omega),Int.emod_lt_of_pos _ (by omega)⟩
  exact OnMesh.not_fake ⟨hin _ _ m.width_pos,hin _ _ m.height_pos⟩

theorem treeHops_cases (h : hop ∈ m.treeHops sender coreId) :
    hop.finalDest = none ∧ m.fakeNode hop.nextDest = false ∨ hop = ⟨.self,some coreId,coreId⟩ := by
  simp only [treeHops,mem_append,mem_ite_nil_right,mem_singleton] at h
  rcases h with (⟨-,rfl⟩ | ⟨-,rfl⟩) | ⟨-,(⟨-,rfl⟩ | ⟨-,rfl⟩) | ⟨-,rfl⟩⟩
  · exact .inl ⟨rfl,computeCoreId_real _ _⟩
  · exact .inl ⟨rfl,computeCoreId_real _ _⟩
  · exact .inl ⟨rfl,computeCoreId_real _ _⟩
  · exact .inl ⟨rfl,computeCoreId_real _ _⟩
  · exact .inr rfl

theorem exists_broadcast_hop (m : EMesh) (sender coreId : Int) :
    ∃ hop ∈ m.treeHops sender coreId, hop.finalDest = none := by
  rcases Int.le_total (m.positionY sender) (m.positionY coreId) with hup | hdown
  · exact ⟨⟨.up,none,m.computeCoreId (m.positionX coreId) (m.positionY coreId + 1)⟩,by simp [treeHops,hup],rfl⟩
  · exact ⟨⟨.down,none,m.computeCoreId (m.positionX coreId) (m.positionY coreId - 1)⟩,by simp [treeHops,hdown],rfl⟩

theorem returns_treeSend (sender : Int) (hreal : m.fakeNode coreId = false) :
    Returns (m.netSendPacket true sender coreId none) ((m.treeHops sender coreId).map RoutedHop.message) := by
  refine returns_netSendPacket id (by simp [route,routeBroadcast,hreal]) fun hop hhop => ?_
  rcases treeHops_cases hhop with ⟨hnone,-⟩ | rfl
  · simp only [transmit,id_eq,hnone,RoutedHop.message]
    exact .const _
  · exact returns_transmit_arrived _ _

structure Flooded (m : EMesh) (s : Transport) : Prop where
  real : ∀ coreId, none ∈ s.queues coreId → m.fakeNode coreId = false
  home : ∀ coreId receiver, some receiver ∈ s.queues coreId → receiver = coreId
  pending : ∃ coreId, none ∈ s.queues coreId

theorem Flooded.post (sender : Int) (hreal : m.fakeNode coreId = false)
    (hr : ∀ c, none ∈ s.queues c → m.fakeNode c = false)
    (hh : ∀ c re, some re ∈ s.queues c → re = c) :
    Flooded m (((m.treeHops sender coreId).map RoutedHop.message).foldl Transport.post s) := by
  have hmem : ∀ c r, r ∈ ((((m.treeHops sender coreId).map RoutedHop.message).foldl
      Transport.post s).queues c) ↔
      r ∈ s.queues c ∨ ∃ hop ∈ m.treeHops sender coreId, hop.nextDest = c ∧ hop.finalDest = r := by
    intro c r
    simp [foldl_post_queues,RoutedHop.message,and_assoc]
  refine ⟨fun c hc => ?_,fun c r hc => ?_,?_⟩
  · rcases (hmem c none).mp hc with hold | ⟨hop,hhop,rfl,hnone⟩
    · exact hr c hold
    · rcases treeHops_cases hhop with hb | rfl
      exacts [hb.2,hreal]
  · rcases (hmem c (some r)).mp hc with hold | ⟨hop,hhop,rfl,hsome⟩
    · exact hh c r hold
    · rcases treeHops_cases hhop with hb | rfl
      · exact absurd (hb.1.symm.trans hsome) (some_ne_none r).symm
      · exact (some.inj hsome).symm
  · obtain ⟨hop,hhop,hnone⟩ := exists_broadcast_hop m sender coreId
    exact ⟨hop.nextDest,(hmem _ none).mpr (.inr ⟨hop,hhop,rfl,hnone⟩)⟩

theorem Transport.mem_pop (h : r ∈ (s.pop coreId).queues c) : r ∈ s.queues c := by
  by_cases hc : c = coreId
  · subst hc
    exact mem_of_mem_tail (by simpa [pop] using h)
  · simpa [pop,update_of_ne hc] using h

theorem Flooded.pull_broadcast (sender : Int) (h : Flooded m s) (hq : s.queues coreId = none :: rest) :
    ∃ s', Returns (m.pull true sender s coreId) s' ∧ Flooded m s' ∧ s.sent < s'.sent := by
  have hreal := h.real coreId (hq ▸ mem_cons_self)
  have hflood := Flooded.post sender (s := s.pop coreId) hreal
    (fun c hc => h.real c (Transport.mem_pop hc)) fun c r hc => h.home c r (Transport.mem_pop hc)
  obtain ⟨hop,hhop,-⟩ := exists_broadcast_hop m sender coreId
  have hpos := length_pos_of_mem hhop
  have hpull : Returns (m.pull true sender s coreId) (Transport.receive
      (((m.treeHops sender coreId).map RoutedHop.message).foldl Transport.post (s.pop coreId)) coreId) := by
    obtain ⟨n,hn⟩ := returns_treeSend sender hreal
    exact ⟨n,fun fuel hfuel => by simp [pull,hq,hn fuel hfuel]⟩
  refine ⟨_,hpull,{ hflood with },?_⟩
  simp only [Transport.receive,foldl_post_sent,length_map,Transport.pop]
  omega

theorem Flooded.pull_home (h : Flooded m s) (hq : s.queues coreId = some re :: rest) (hrest : none ∈ rest) :
    Returns (m.pull true sender s coreId) ((s.pop coreId).receive coreId) ∧
      Flooded m ((s.pop coreId).receive coreId) := by
  have hhome := h.home coreId re (hq ▸ mem_cons_self)
  refine ⟨⟨0,fun k _ => by simp [pull,hq,hhome]⟩,fun c hc => h.real c (Transport.mem_pop hc),
    fun c r hc => h.home c r (Transport.mem_pop hc),coreId,?_⟩
  simpa [Transport.receive,Transport.pop,hq] using hrest

theorem Flooded.grows (h : Flooded m s) :
    ∃ s', Relation.ReflTransGen (m.Step true sender) s s' ∧ Flooded m s' ∧ s.sent < s'.sent := by
  obtain ⟨coreId,hmem⟩ := h.pending
  generalize hq : s.queues coreId = queue at hmem
  induction queue generalizing s with
  | nil => exact absurd hmem not_mem_nil
  | cons r rest ih =>
    cases r with
    | none =>
      obtain ⟨s',hpull,hflood,hsent⟩ := h.pull_broadcast sender hq
      exact ⟨s',.single ⟨coreId,hpull⟩,hflood,hsent⟩
    | some re =>
      have hrest : none ∈ rest := (mem_cons.mp hmem).resolve_left (some_ne_none re).symm
      obtain ⟨hpull,hflood⟩ := h.pull_home hq hrest
      obtain ⟨s',hsteps,hflood',hsent⟩ := ih hflood (by simp [Transport.receive,Transport.pop,hq]) hrest
      exact ⟨s',.head ⟨coreId,hpull⟩ hsteps,hflood',hsent⟩

theorem flood_unbounded (hreal : m.fakeNode sender = false) (bound : Nat) :
    ∃ s, m.Reachable true sender s ∧ Flooded m s ∧ bound ≤ s.sent := by
  have hstart : Returns (m.start true sender) _ := (returns_treeSend sender hreal).map _
  have hflood := Flooded.post sender (s := .empty) hreal (fun _ hc => absurd hc not_mem_nil)
    (fun _ _ hc => absurd hc not_mem_nil)
  induction bound with
  | zero => exact ⟨_,⟨_,hstart,.refl⟩,hflood,Nat.zero_le _⟩
  | succ bound ih =>
    obtain ⟨s,⟨s₀,hs₀,hsteps⟩,hs,hsent⟩ := ih
    obtain ⟨s',hmore,hs',hless⟩ := hs.grows
    exact ⟨s',⟨s₀,hs₀,hsteps.trans hmore⟩,hs',by omega⟩

theorem not_broadcastOnce (hreal : m.fakeNode sender = false) : ¬m.BroadcastOnce true sender := by
  intro honce
  obtain ⟨bound,hbound⟩ := honce.finite
  obtain ⟨s,hreach,-,hsent⟩ := flood_unbounded hreal (bound + 1)
  have hle := hbound s hreach
  omega
end

section
variable {m tree sender} {s s' : Transport} {coreId : Int}

structure Underway (m : EMesh) (s : Transport) : Prop where
  sent : s.sent = m.cores.length
  copies : ∀ coreId, s.queues coreId = [some coreId] ∧ s.received coreId = 0 ∨
    s.queues coreId = [] ∧ (m.Receives coreId → s.received coreId = 1)

theorem mem_cores : coreId ∈ m.cores ↔ m.Receives coreId := by
  simp only [cores,List.mem_map,mem_range,Receives]
  constructor
  · rintro ⟨i,hi,rfl⟩
    exact ⟨Int.natCast_nonneg i,Int.lt_toNat.mp hi⟩
  · rintro ⟨h0,hlt⟩
    exact ⟨coreId.toNat,by omega,Int.toNat_of_nonneg h0⟩

theorem nodup_cores : m.cores.Nodup := List.Pairwise.map _ (fun _ _ hne heq => hne (Int.ofNat.inj heq)) nodup_range

theorem returns_unicasts (hs : m.Receives sender) (h : tree = false ∨ m.fakeNode sender) :
    Returns (m.netSendPacket tree sender sender none) (m.cores.map fun i => ⟨i,some i⟩) := by
  cases hfake : m.fakeNode sender with
  | true =>
    exact returns_netSendPacket (fun i => ⟨.destination,some i,i⟩) (by simp [route,routeBroadcast,hfake])
      fun i _ => returns_transmit_arrived _ i
  | false =>
    have htree : tree = false := h.resolve_right (by simp [hfake])
    refine returns_netSendPacket
      (fun i => ⟨(m.getNextDest sender i).direction,some i,(m.getNextDest sender i).nextDest⟩)
      (by simp [route,routeBroadcast,hfake,htree]) fun i hi => ?_
    obtain ⟨hops,hsend,-⟩ := netSend_spec ⟨hs.1,hfake⟩ (mem_cores.mp hi)
    have hroute : m.routePacket sender i = m.getNextDest sender i := by simp [routePacket,hfake]
    unfold netSend at hsend
    rw [hroute] at hsend
    exact hsend.map _

theorem underway_start (hs : m.Receives sender) (h : tree = false ∨ m.fakeNode sender) :
    ∃ s, Returns (m.start tree sender) s ∧ Underway m s := by
  refine ⟨_,(returns_unicasts hs h).map _,?_,fun coreId => ?_⟩
  · simp [foldl_post_sent,Transport.empty]
  · have hfilter : ((m.cores.map fun i => (⟨i,some i⟩ : Message)).filter fun msg => msg.dest == coreId).map
        (·.receiver) = replicate (m.cores.count coreId) (some coreId) := by
      simp [List.filter_map,Function.comp_def,filter_beq]
    rw [foldl_post_queues,foldl_post_received,hfilter]
    by_cases hmem : coreId ∈ m.cores
    · rw [nodup_cores.count,if_pos hmem]
      exact .inl ⟨rfl,rfl⟩
    · rw [count_eq_zero.mpr hmem]
      exact .inr ⟨rfl,fun hr => absurd (mem_cores.mpr hr) hmem⟩

theorem Underway.pull (h : Underway m s) (hq : s.queues coreId ≠ []) :
    Returns (m.pull tree sender s coreId) ((s.pop coreId).receive coreId) ∧
      Underway m ((s.pop coreId).receive coreId) := by
  obtain ⟨hone,hzero⟩ := (h.copies coreId).resolve_right fun hnil => hq hnil.1
  refine ⟨⟨0,fun fuel _ => by simp [EMesh.pull,hone]⟩,h.sent,fun c => ?_⟩
  by_cases hc : c = coreId
  · subst hc
    exact .inr (by simp [Transport.receive,Transport.pop,hone,hzero])
  · simpa [Transport.receive,Transport.pop,update_of_ne hc] using h.copies c

theorem Underway.step (h : Underway m s) (hstep : m.Step tree sender s s') : Underway m s' := by
  obtain ⟨coreId,hpull⟩ := hstep
  have hq : s.queues coreId ≠ [] := by
    intro hnil
    obtain ⟨n,hn⟩ := hpull
    simpa [EMesh.pull,hnil] using hn n (Nat.le_refl n)
  obtain ⟨hreturns,hnext⟩ := h.pull hq
  rwa [hpull.unique hreturns]
end

theorem broadcast_once_iff (hs : m.Receives sender) :
    m.BroadcastOnce tree sender ↔ tree = false ∨ m.fakeNode sender = true := by
  constructor
  · intro honce
    cases tree with
    | false => exact .inl rfl
    | true =>
      refine .inr ?_
      by_contra hreal
      exact not_broadcastOnce (Bool.not_eq_true _ ▸ hreal) honce
  · intro h
    obtain ⟨s₀,hstart,hs₀⟩ := underway_start hs h
    have hreach : ∀ s, m.Reachable tree sender s → Underway m s := by
      rintro s ⟨s₁,hs₁,hsteps⟩
      rw [hs₁.unique hstart] at hsteps
      induction hsteps with
      | refl => exact hs₀
      | tail _ hstep ih => exact ih.step hstep
    refine ⟨⟨s₀,hstart⟩,⟨m.cores.length,fun s hs => Nat.le_of_eq (hreach s hs).sent⟩,
      fun s hs coreId hq => ⟨_,((hreach s hs).pull hq).1⟩,fun s hs hdone coreId hr => ?_⟩
    rcases (hreach s hs).copies coreId with ⟨hone,-⟩ | ⟨-,hcount⟩
    · exact absurd (hone.symm.trans (hdone coreId)) (cons_ne_nil _ _)
    · exact hcount hr

theorem unicasts_reach_four_cores : (torus 2 2 (by decide) (by decide)).Receives 0 ∧
      (torus 2 2 (by decide) (by decide)).BroadcastOnce false 0 := by
  have hs : (torus 2 2 (by decide) (by decide)).Receives 0 := by unfold Receives; decide
  exact ⟨hs,(broadcast_once_iff _ false 0 hs).mpr (.inl rfl)⟩

theorem tree_floods_four_cores : ¬(torus 2 2 (by decide) (by decide)).BroadcastOnce true 0 ∧
      ¬BroadcastOnce { torus 2 2 (by decide) (by decide) with wrapAround := false } true 0 :=
  ⟨not_broadcastOnce (by decide),not_broadcastOnce (by decide)⟩

end EMesh
