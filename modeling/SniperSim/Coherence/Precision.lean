import SniperSim.Coherence.Reachable

namespace Coherence
variable {n : Nat} {D : Type}

def DirMsg.isReply : DirMsg D → Bool
  | .exRep _ | .shRep _ | .upgradeRep => true
  | _ => false

namespace Line
variable {cfg : Config} {e : DirectoryEntry n} {reqs : List (ShmemReq n)} {asked : Bool} {c c' : Fin n} {ln : Line n D}

theorem sharer_of_held (h : Inv ln e reqs asked) (hc : (ln.llc c).cstate ≠ .invalid) :
    e.sharers c := (Port.holder (h.port c) hc).1

theorem sharer_of_reply (h : Inv ln e reqs asked) (hm : m ∈ ln.toLlc c) (hr : m.isReply) : e.sharers c := by
  have hp := h.port c
  obtain ⟨he,hs,hu⟩ := Inbox.ofList_pos (held (ln.llc c).cstate) hm
  have ht := hp.token
  have hgra (h0 : 0 < (Inbox.ofList (held (ln.llc c).cstate) (ln.toLlc c)).exRep +
      (Inbox.ofList (held (ln.llc c).cstate) (ln.toLlc c)).shRep) : e.sharers c := by
    cases hsc : e.sharers c with
    | true => rfl
    | false => simp only [view,hsc,Bool.toNat_false] at ht; omega
  cases m with
  | exRep d => exact hgra (by have := he ⟨d,rfl⟩; omega)
  | shRep d => exact hgra (by have := hs ⟨d,rfl⟩; omega)
  | upgradeRep => exact (hp.upgraded (hu rfl)).1
  | _ => simp [DirMsg.isReply] at hr

section
variable (h : Inv ln e reqs asked) (hc : (ln.llc c).cstate = .exclusive ∨ (ln.llc c).cstate = .modified)
include hc

theorem writer_held : (ln.llc c).cstate ≠ .invalid := by
  rcases hc with hc | hc <;> simp [hc]

include h

theorem isEM_of_writer : e.dstate.isEM := by
  have hp := h.port c
  refine (hp.known (sharer_of_held h (writer_held hc))).resolve_left fun hd => ?_
  obtain ⟨he,hm,-⟩ := hp.sharedOnly hd
  exact hc.elim he hm

theorem writer_sole (hs : e.sharers c') : c' = c :=
  h.entry.sole (isEM_of_writer h hc) (sharer_of_held h (writer_held hc)) hs

theorem others_invalid (hne : c' ≠ c) : (ln.llc c').cstate = .invalid := by
  by_contra hc'
  exact hne (writer_sole h hc (sharer_of_held h hc'))
end

theorem getSharersList_owner (h : EntryOk e) (hd : e.dstate.isEM) : ∃ o, e.owner = some o ∧ e.getSharersList = [o] := by
  obtain ⟨o,ho,hs⟩ := h.owner hd
  refine ⟨o,ho,?_⟩
  have hl := getNumSharers_le_one hs
  have hm : o ∈ e.getSharersList := DirectoryEntry.mem_getSharersList.mpr ((hs o).mpr rfl)
  obtain ⟨x,hx⟩ := List.length_eq_one_iff.mp (Nat.le_antisymm hl (List.length_pos_of_mem hm))
  rw [hx] at hm ⊢
  rw [List.mem_singleton.mp hm]

theorem entry_of_sharer (hs : ln.dir.sharers c) : ∃ e, ln.entry = some e ∧ e.hasSharer c := by
  cases he : ln.entry with
  | none => simp [dir,he,DirectoryEntry.create] at hs
  | some e => exact ⟨e,rfl,by rwa [dir_eq he] at hs⟩

end Line

namespace System
variable {Addr : Type} [DecidableEq Addr] {cfg : Config} {s : System Addr n D} {contents : Addr → D}

theorem single_writer (h : Reachable cfg contents s) (a : Addr) (c c' : Fin n) (hne : c' ≠ c)
    (hc : ((s a).llc c).cstate = .exclusive ∨ ((s a).llc c).cstate = .modified) : ((s a).llc c').cstate = .invalid :=
  Line.others_invalid (reachable_busy h a).1 hc hne

def mesiFullMap : Config := ⟨.mesi,.fullMap,64,false⟩

def coldWrite (c : Fin n) (d : D) : List (Unit × Label n D) :=
  [.core c (.write d),.deliverDir c ⟨0,d,none⟩,.dramServe,.dramReply ⟨0,d,none⟩,.deliverLlc c d].map ((),·)

def afterColdWrite : System Unit 2 Nat :=
  (Run.guided (step mesiFullMap) (fun _ _ => True) (initial 2 fun _ => 0) (coldWrite 0 7)).getD (initial 2 fun _ => 0)

theorem reachable_afterColdWrite : Reachable mesiFullMap (fun _ => 0) afterColdWrite :=
  Run.reaches_guided (by decide +kernel)

theorem single_writer_after_cold_write :
    ((afterColdWrite ()).llc 0).cstate = .modified ∧ ((afterColdWrite ()).llc 1).cstate = .invalid := by
  have hm : ((afterColdWrite ()).llc 0).cstate = .modified := by decide +kernel
  exact ⟨hm,single_writer reachable_afterColdWrite () 0 1 (by decide) (.inr hm)⟩

theorem directory_precision (h : Reachable cfg contents s) (a : Addr) :
    (∀ c, ((s a).llc c).cstate ≠ .invalid ∨ (∃ m ∈ (s a).toLlc c, m.isReply = true) →
      ∃ e, (s a).entry = some e ∧ e.hasSharer c = true) ∧ (∀ e, (s a).entry = some e →
      (e.dstate = .exclusive ∨ e.dstate = .modified → ∃ o, e.owner = some o ∧ e.getSharersList = [o]) ∧
      (e.dstate = .uncached ↔ e.getNumSharers = 0)) ∧
    ∀ l f, s.step cfg (a,l) = .error f → f.isSharerAssertion = false := by
  have hb := reachable_busy h a
  refine ⟨fun c hc => Line.entry_of_sharer ?_,fun e he => ?_,fun l f hf => ?_⟩
  · rcases hc with hc | ⟨m,hm,hr⟩
    · exact Line.sharer_of_held hb.1 hc
    · exact Line.sharer_of_reply hb.1 hm hr
  · have hi := hb.1.entry
    rw [Line.dir_eq he] at hi
    refine ⟨fun hd => Line.getSharersList_owner hi ?_,?_⟩
    · rcases hd with hd | hd <;> simp [hd,DirectoryState.isEM]
    · rw [hi.uncached,DirectoryEntry.getNumSharers_eq_zero]
  · exact (step_outcome (reachable_busy h) (a,l) (Line.step_busy hb l)).of_error hf

theorem directory_precision_after_cold_write : ((afterColdWrite ()).llc 0).cstate ≠ .invalid ∧
      ∃ e, (afterColdWrite ()).entry = some e ∧ e.hasSharer 0 = true := by
  have hm : ((afterColdWrite ()).llc 0).cstate ≠ .invalid := by decide +kernel
  exact ⟨hm,(directory_precision reachable_afterColdWrite ()).1 0 (.inl hm)⟩

end System
end Coherence
