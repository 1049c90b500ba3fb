import SniperSim.Coherence.System
import SniperSim.Coherence.DirectorySpec

open Function
namespace Coherence
variable {n : Nat} {D : Type}
namespace DirectoryEntry

def withoutInv (e : DirectoryEntry n) (c : Fin n) : DirectoryEntry n :=
  (dropForwarder { e with sharers := update e.sharers c false } c).uncacheIfEmpty

def withoutFlush (e : DirectoryEntry n) (c : Fin n) : DirectoryEntry n :=
  uncacheIfEmpty { e with sharers := update e.sharers c false, forwarder := none, owner := none }

end DirectoryEntry

namespace Line
open DirectoryEntry
variable {cfg : Config} {env : Env n D} {sender : Fin n} {ln : Line n D} {P : Line n D → Prop} {d : D}
  {e : DirectoryEntry n}

structure Resumable (req : ShmemReq n) (sender : Fin n) (e : DirectoryEntry n) : Prop where
  cases : e.dstate = .uncached ∨
    req.kind = .upgrade ∧ (e.getNumSharers = 0 ∨ e.sharers req.requester) ∨
    req.kind = .sh ∧ req.waitForData = false ∧ (req.forwardingFrom = none ∨ req.forwardingFrom = some sender)

theorem removeSharer_outcome (h : e.sharers c) :
    Outcome Benign (fun r => r = { e with sharers := update e.sharers c false }) (e.removeSharer c) := by
  rw [removeSharer,if_pos h]
  rfl

theorem resumeAfterInvRep_outcome (hsta : P ln) (hrun : ∀ req rest, ln.reqs = req :: rest → Resumable req sender e →
      Outcome Benign P (ln.runFront cfg env none)) : Outcome Benign P (ln.resumeAfterInvRep cfg env sender e) := by
  rw [resumeAfterInvRep]
  cases hq : ln.reqs with
  | nil => exact hsta
  | cons req rest =>
    have hrun := hrun req rest hq
    cases hk : req.kind with
    | ex | nullify =>
      simp only [hk]
      split_ifs with hu
      · exact hrun ⟨.inl hu⟩
      · exact hsta
    | upgrade =>
      simp only [hk]
      split_ifs with h1 hs h0
      · exact hrun ⟨.inr (.inl ⟨hk,.inr hs⟩)⟩
      · exact hsta
      · exact hrun ⟨.inr (.inl ⟨hk,.inl h0⟩)⟩
      · exact hsta
    | sh =>
      simp only [hk]
      split_ifs with hw hf
      · exact hsta
      · exact hsta
      · refine hrun ⟨.inr (.inr ⟨hk,by simpa using hw,?_⟩)⟩
        cases hff : req.forwardingFrom with
        | none => exact .inl rfl
        | some f => simpa [hff] using hf

theorem processInvRep_outcome (hs : ∀ e, ln.entry = some e → e.sharers sender)
    (hre : ∀ e, ln.entry = some e → e.dstate ≠ .modified → Outcome Benign P
      ((ln.setEntry (e.withoutInv sender)).resumeAfterInvRep cfg env sender (e.withoutInv sender))) :
    Outcome Benign P (ln.processInvRep cfg env sender) := by
  refine getEntry_outcome.bind fun e he => ?_
  split_ifs with hd
  · exact LlcLine.benign_of rfl
  · have hm : e.dstate ≠ .modified := by
      rintro hm
      simp [hm] at hd
    refine (removeSharer_outcome (hs e he)).bind ?_
    rintro _ rfl
    exact hre e he hm

theorem resumeAfterFlushRep_outcome (hidle : ln.reqs = [] → P (ln.sendDataToDram cfg d))
    (hsta : ∀ req rest, ln.reqs = req :: rest → req.kind = .upgrade → e.getNumSharers ≠ 0 →
      P (ln.setFront { req with dataBuf := true }))
    (hown : ∀ req rest, ln.reqs = req :: rest → req.kind = .ex ∨ req.kind = .upgrade ∧ e.getNumSharers = 0 →
      Outcome Benign P (ln.runFront cfg env (some d)))
    (hsh : ∀ req rest, ln.reqs = req :: rest → req.kind = .sh →
      Outcome Benign P ((ln.sendDataToDram cfg d).runFront cfg env (some d)))
    (hnu : ∀ req rest, ln.reqs = req :: rest → req.kind = .nullify →
      Outcome Benign P ((ln.sendDataToDram cfg d).runFront cfg env none)) :
    Outcome Benign P (ln.resumeAfterFlushRep cfg env d e) := by
  rw [resumeAfterFlushRep]
  split
  · next hq => exact hidle hq
  · next req rest hq =>
    split
    · next hk => exact hown req rest hq (.inl hk)
    · next hk => exact hsh req rest hq hk
    · next hk =>
      split_ifs with hz
      · exact hown req rest hq (.inr ⟨hk,hz⟩)
      · exact hsta req rest hq hk hz
    · next hk => exact hnu req rest hq hk

theorem processFlushRep_outcome (hs : ∀ e, ln.entry = some e → e.sharers sender)
    (hd : ∀ e, ln.entry = some e → e.dstate = .shared ∨ ∀ c, c ≠ sender → e.sharers c = false)
    (hre : ∀ e, ln.entry = some e → Outcome Benign P
      ((ln.setEntry (e.withoutFlush sender)).resumeAfterFlushRep cfg env d
        (e.withoutFlush sender))) : Outcome Benign P (ln.processFlushRep cfg env sender d) := by
  refine getEntry_outcome.bind fun e he => ?_
  simp only [DirectoryEntry.hasSharer,hs e he,Bool.not_true,Bool.false_eq_true,if_false]
  refine (removeSharer_outcome (hs e he)).bind ?_
  rintro _ rfl
  split_ifs with hc
  · exfalso
    rcases hd e he with hsh | hall
    · exact hc.2 hsh
    · refine hc.1 (getNumSharers_eq_zero.mpr fun c => ?_)
      rcases eq_or_ne c sender with rfl | hne <;> simp [*]
  · exact hre e he

theorem processWbRep_outcome (hs : ∀ e, ln.entry = some e → e.sharers sender)
    (hrun : ∀ e req rest, ln.entry = some e → ln.reqs = req :: rest → req.kind = .sh →
      Outcome Benign P ((ln.setEntry { e with owner := none, dstate := .shared }).runFront
        cfg env (some d))) : Outcome Benign P (ln.processWbRep cfg env sender d) := by
  refine getEntry_outcome.bind fun e he => ?_
  simp only [DirectoryEntry.hasSharer,hs e he,Bool.not_true,Bool.false_eq_true,if_false]
  cases hq : ln.reqs with
  | nil =>
    simp only [setEntry,hq]
    exact LlcLine.benign_of rfl
  | cons req rest =>
    simp only [setEntry,hq]
    split_ifs with hk
    · exact LlcLine.benign_of rfl
    · have hr := hrun e req rest he hq (by simpa using hk)
      simpa only [setEntry,hq] using hr

def DramAnswers (req : ShmemReq n) (e : DirectoryEntry n) (d : D) (reply : DirMsg D) : Prop :=
  req.kind = .sh ∧ e.dstate = .exclusive ∧ reply = .exRep d ∨
    req.kind = .sh ∧ e.dstate = .shared ∧ reply = .shRep d ∨
    req.kind = .ex ∧ e.dstate = .modified ∧ reply = .exRep d ∨
    req.kind = .upgrade ∧ reply = .exRep d

theorem processDRAMReply_outcome (hnext : ∀ e req rest reply, ln.entry = some e → ln.reqs = req :: rest →
      DramAnswers req e d reply → Outcome Benign P
        (processNextReq cfg env rest ((ln.send req.requester reply).sendDataToNUCA cfg d))) :
    Outcome Benign P (ln.processDRAMReply cfg env d) := by
  cases hq : ln.reqs with
  | nil =>
    simp only [processDRAMReply,front,hq]
    exact LlcLine.benign_of rfl
  | cons req rest =>
    simp only [processDRAMReply,front,hq]
    refine getEntry_outcome.bind fun e he => ?_
    split
    · next hk =>
      split_ifs with hx hs
      · exact hnext e req rest _ he hq (.inl ⟨hk,hx,rfl⟩)
      · exact hnext e req rest _ he hq (.inr (.inl ⟨hk,hs,rfl⟩))
      · exact LlcLine.benign_of rfl
    · next hk =>
      split_ifs with hm
      · exact hnext e req rest _ he hq (.inr (.inr (.inl ⟨hk,hm,rfl⟩)))
      · exact LlcLine.benign_of rfl
    · next hk => exact hnext e req rest _ he hq (.inr (.inr (.inr ⟨hk,rfl⟩)))
    · exact LlcLine.benign_of rfl

theorem enqueue_outcome (hsta : ln.reqs ≠ [] → P { ln with reqs := ln.reqs ++ [req] })
    (hrun : ln.reqs = [] → Outcome Benign P ({ ln with reqs := [req] }.runFront cfg env none)) :
    Outcome Benign P (ln.enqueue cfg env req) := by
  cases hq : ln.reqs with
  | nil =>
    simp only [enqueue,hq,List.isEmpty_nil,if_true,List.nil_append]
    exact hrun hq
  | cons r rest =>
    have hs := hsta (by simp [hq])
    simp only [enqueue,hq,List.isEmpty_cons,Bool.false_eq_true,if_false]
    rwa [hq] at hs

end Line
end Coherence
