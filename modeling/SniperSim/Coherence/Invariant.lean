import SniperSim.Coherence.System
import SniperSim.Coherence.DirectorySpec
import SniperSim.Coherence.LlcPort
import SniperSim.Coherence.PortDirectory

namespace Coherence
variable {n : Nat} {D : Type}
namespace ShmemReq

def Fresh (r : ShmemReq n) : Prop := r.kind ≠ .nullify ∧ r.waitForData = false ∧ r.forwardingFrom = none

structure FrontOk (r : ShmemReq n) (s : DirectoryState) : Prop where
  nullify : r.kind = .nullify → r.waitForData = false ∧ r.forwardingFrom = none
  wait : r.waitForData → r.kind = .sh ∧ (s = .shared ∨ s = .exclusive) ∨
    (r.kind = .ex ∨ r.kind = .upgrade) ∧ s = .modified
  forwarding : r.forwardingFrom.isSome → r.kind = .sh ∧ s = .shared

theorem Fresh.frontOk {r : ShmemReq n} (h : r.Fresh) (s : DirectoryState) : r.FrontOk s where
  nullify := fun hk => absurd hk h.1
  wait := by simp [h.2.1]
  forwarding := by simp [h.2.2]

def asks (r : ShmemReq n) (c : Fin n) : Bool := r.kind != .nullify && r.requester == c

def granted (r : ShmemReq n) (c : Fin n) : Bool := r.asks c && (r.waitForData || r.forwardingFrom.isSome)

def AwaitsWb (r : ShmemReq n) (e : DirectoryEntry n) (c : Fin n) : Prop :=
  r.kind = .sh ∧ r.waitForData = false ∧ e.sharers c ∧
    (e.dstate.isEM ∨ e.dstate = .shared ∧ r.forwardingFrom = some c)

def Replaces (r : ShmemReq n) (e : DirectoryEntry n) : Prop :=
  e.dstate = .shared ∧ r.kind = .upgrade ∧ r.waitForData = false ∧ e.sharers r.requester = false

def AwaitsFlush (r : ShmemReq n) (e : DirectoryEntry n) (c : Fin n) : Prop :=
  r.kind ≠ .sh ∧ r.waitForData = false ∧ e.sharers c ∧ (e.dstate.isEM ∨ r.Replaces e)

end ShmemReq

def DramMsg.isRead : DramMsg D → Bool
  | .readReq => true
  | .writeReq _ => false

namespace Line

def dir (ln : Line n D) : DirectoryEntry n := ln.entry.getD (.create none)

def view (e : DirectoryEntry n) (reqs : List (ShmemReq n)) (asked : Bool) (c : Fin n) : View where
  sharer := e.sharers c
  granted := reqs.head?.any (·.granted c)
  dstate := e.dstate
  awaitWb := asked ∧ ∃ r ∈ reqs.head?, r.AwaitsWb e c
  awaitFlush := asked ∧ ∃ r ∈ reqs.head?, r.AwaitsFlush e c
  flushOk := e.dstate.isEM ∨ asked ∧ ∃ r ∈ reqs.head?, r.Replaces e
  pending := (reqs.filter (·.asks c)).map (·.kind)

structure EntryOk (e : DirectoryEntry n) : Prop where
  uncached : e.dstate = .uncached ↔ ∀ c, e.sharers c = false
  owner : e.dstate.isEM → ∃ o, e.owner = some o ∧ ∀ c, e.sharers c ↔ c = o
  supported : e.dstate ≠ .owned

structure Inv (ln : Line n D) (e : DirectoryEntry n) (reqs : List (ShmemReq n)) (asked : Bool) : Prop where
  entry : EntryOk e
  queued : ∀ r ∈ reqs.tail, r.Fresh
  front : ∀ r ∈ reqs.head?, r.FrontOk e.dstate
  reads : ln.toDram.countP DramMsg.isRead + ln.fromDram.length = (reqs.head?.any (·.waitForData)).toNat
  port : ∀ c, PortOf (view e reqs asked c) (ln.llc c) (ln.toLlc c) (ln.toDir c)

def Forwarded (cfg : Config) (e : DirectoryEntry n) : Prop :=
  cfg.protocol = .mesif → e.dstate = .shared →
    (cfg.directoryType = .limitless ∨ 2 ≤ DirectoryEntry.useMaxHwSharers cfg n) →
    ∀ f, e.forwarder = some f → e.sharers f

def Idle (cfg : Config) (reqs : List (ShmemReq n)) (ln : Line n D) : Prop :=
  Inv ln ln.dir reqs false ∧ (∀ r ∈ reqs, r.Fresh) ∧ Forwarded cfg ln.dir

def Busy (cfg : Config) (ln : Line n D) : Prop := Inv ln ln.dir ln.reqs true ∧ Forwarded cfg ln.dir

variable {e : DirectoryEntry n} {reqs : List (ShmemReq n)} {asked : Bool} {c : Fin n} {ln : Line n D}

theorem view_flushOk_of_awaitFlush (h : (view e reqs asked c).awaitFlush) : (view e reqs asked c).flushOk := by
  obtain ⟨ha,r,hr,-,-,-,hd | hd⟩ := h
  · exact .inl hd
  · exact .inr ⟨ha,r,hr,hd⟩

theorem view_awaitWb_not_awaitFlush (h : (view e reqs asked c).awaitWb) : ¬ (view e reqs asked c).awaitFlush := by
  rintro ⟨-,r,hr,hk,-⟩
  obtain ⟨-,r',hr',hk',-⟩ := h
  obtain rfl := Option.mem_unique hr hr'
  exact hk hk'

theorem view_not_awaitWb (h : e.sharers c = false ∨ asked = false) : ¬ (view e reqs asked c).awaitWb := by
  rintro ⟨ha,r,-,-,-,hs,-⟩
  rcases h with h | h
  · simp [h] at hs
  · simp [h] at ha

theorem view_granted_pending (h : (view e reqs asked c).granted) : (view e reqs asked c).pending ≠ [] := by
  cases reqs with
  | nil => simp [view] at h
  | cons r rest =>
    have hr : r.asks c := by
      simp only [view,List.head?_cons,Option.any_some,ShmemReq.granted,Bool.and_eq_true] at h
      exact h.1
    simp [view,hr]

theorem granted_of_fresh (h : ∀ r ∈ reqs, r.Fresh) : (view e reqs asked c).granted = false := by
  cases reqs with
  | nil => rfl
  | cons r rest =>
    obtain ⟨-,hw,hf⟩ := h r (by simp)
    simp [view,ShmemReq.granted,hw,hf]

theorem dstate_of_sharer (h : EntryOk e) (hs : e.sharers c) : e.dstate = .shared ∨ e.dstate.isEM := by
  cases hd : e.dstate with
  | uncached => simp [h.uncached.mp hd c] at hs
  | shared => exact .inl rfl
  | exclusive | modified => exact .inr rfl
  | owned => exact absurd hd h.supported

theorem EntryOk.sole (h : EntryOk e) (hd : e.dstate.isEM) (hc : e.sharers c) (hc' : e.sharers c') : c' = c := by
  obtain ⟨o,-,ho⟩ := h.owner hd
  rw [(ho c').mp hc',(ho c).mp hc]

theorem EntryOk.not_sharer (h : EntryOk e) (hd : e.dstate.isEM) (hc : e.sharers c)
    (hne : c' ≠ c) : e.sharers c' = false := by
  cases hc' : e.sharers c' with
  | false => rfl
  | true => exact absurd (h.sole hd hc hc') hne

end Line
end Coherence
