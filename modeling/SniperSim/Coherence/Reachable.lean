import SniperSim.Library.Run
import SniperSim.Coherence.ReplyInvariant

open Function
namespace Coherence
variable {n : Nat} {D : Type}

def Label.llc : Label n D → Option (Fin n)
  | .core c _ | .evict c | .deliverLlc c _ => some c
  | _ => none

namespace Line
variable {cfg : Config} {e : DirectoryEntry n} {reqs : List (ShmemReq n)} {asked : Bool}
  {c : Fin n} {ln : Line n D} {b : LlcLine D} {junk : D} {msg : Option (DirMsg D)} {wr : Option D}
  {inbox : List (DirMsg D)} {out : List (LlcMsg D)}

theorem inv_moves (h : Inv ln e reqs asked) (hm : (ln.llc c).Moves junk msg wr b out)
    (hi : ln.toLlc c = msg.toList ++ inbox) (x : D) :
    Inv { ln.setLlc c b out with toLlc := update ln.toLlc c inbox, lastWrite := x } e reqs asked := by
  refine { h with port := fun c' => ?_ }
  rcases eq_or_ne c' c with rfl | hc
  · have hp := h.port c'
    rw [hi] at hp
    simp only [setLlc,update_self]
    exact hm.port hp .inl view_flushOk_of_awaitFlush view_awaitWb_not_awaitFlush
  · simp only [setLlc,update_of_ne hc]
    exact h.port c'

def afterMove (ln : Line n D) (c : Fin n) (b : LlcLine D) (wr : Option D)
    (inbox : List (DirMsg D)) (out : List (LlcMsg D)) : Line n D :=
  { ln.setLlc c b out with
    toLlc := update ln.toLlc c inbox, lastWrite := wr.getD ln.lastWrite }

theorem afterMove_core (ln : Line n D) (c : Fin n) (b : LlcLine D) (wr : Option D)
    (out : List (LlcMsg D)) : ln.afterMove c b wr (ln.toLlc c) out =
      { ln.setLlc c b out with lastWrite := wr.getD ln.lastWrite } := by
  rw [afterMove,update_eq_self]
  rfl

structure LlcStep (ln : Line n D) (l : Label n D) (c : Fin n) (junk : D) (msg : Option (DirMsg D))
    (wr : Option D) (b : LlcLine D) (inbox : List (DirMsg D)) (out : List (LlcMsg D)) : Prop where
  moves : (ln.llc c).Moves junk msg wr b out
  inbox : ln.toLlc c = msg.toList ++ inbox
  delivered : msg.isSome → ∃ junk, l = .deliverLlc c junk

theorem step_llc (hl : l.llc = some c) : Outcome Benign (fun ln' => ∃ junk msg wr b inbox out,
      LlcStep ln l c junk msg wr b inbox out ∧ ln' = ln.afterMove c b wr inbox out) (ln.step cfg l) := by
  cases l with
  | core c op =>
    cases hl
    refine (LlcLine.processMemOp_moves (ln.llc c).data op).bind fun r hr => ?_
    exact ⟨_,none,_,_,ln.toLlc c,_,⟨hr,rfl,by simp⟩,(ln.afterMove_core c _ _ _).symm⟩
  | evict c =>
    cases hl
    refine (LlcLine.evict_moves (ln.llc c).data).bind fun r hr => ?_
    exact ⟨_,none,none,_,ln.toLlc c,_,⟨hr,rfl,by simp⟩,(ln.afterMove_core c _ none _).symm⟩
  | deliverLlc c junk =>
    cases hl
    rw [step]
    cases hi : ln.toLlc c with
    | nil => exact LlcLine.benign_of rfl
    | cons m ms =>
      refine (LlcLine.handleMsgFromDramDirectory_moves m).bind fun r hr => ?_
      exact ⟨junk,some m,none,_,ms,_,⟨hr,hi,fun _ => ⟨junk,rfl⟩⟩,rfl⟩
  | _ => simp [Label.llc] at hl

section
variable {env : Env n D}

theorem outcome_deliverDir (h : ∀ m ms, ln.toDir c = m :: ms →
    Outcome Benign P ((ln.pop c ms).handleMsgFromL2Cache cfg env c m)) :
    Outcome Benign P (ln.step cfg (.deliverDir c env)) := by
  rw [step]
  cases hm : ln.toDir c with
  | nil => exact LlcLine.benign_of rfl
  | cons m ms => exact h m ms hm

theorem outcome_dramServe
    (hread : ∀ ms, ln.toDram = .readReq :: ms → P { ln with toDram := ms, fromDram := ln.fromDram ++ [ln.dram] })
    (hwr : ∀ d ms, ln.toDram = .writeReq d :: ms → P { ln with toDram := ms, dram := d }) :
    Outcome Benign P (ln.step cfg .dramServe) := by
  rw [step]
  cases hm : ln.toDram with
  | nil => exact LlcLine.benign_of rfl
  | cons m ms =>
    cases m with
    | readReq => exact hread ms hm
    | writeReq d => exact hwr d ms hm

theorem outcome_dramReply (h : ∀ d ds, ln.fromDram = d :: ds →
    Outcome Benign P (processDRAMReply cfg env d { ln with fromDram := ds })) :
    Outcome Benign P (ln.step cfg (.dramReply env)) := by
  rw [step]
  cases hm : ln.fromDram with
  | nil => exact LlcLine.benign_of rfl
  | cons d ds => exact h d ds hm

theorem outcome_replaceEntry (h : ln.reqs = [] → Outcome Benign P (ln.enqueue cfg env (.new .nullify c))) :
    Outcome Benign P (ln.step cfg (.replaceEntry c env)) := by
  rw [step]
  split_ifs with hq
  · exact h hq.2
  · exact LlcLine.benign_of rfl

theorem outcome_nucaEvict (h : ∀ d, ln.nuca = some d →
    P { ln with nuca := none, toDram := ln.toDram ++ if writeback then [.writeReq d] else [] }) :
    Outcome Benign P (ln.step cfg (.nucaEvict writeback)) := by
  rw [step]
  cases hm : ln.nuca with
  | none => exact LlcLine.benign_of rfl
  | some d => exact h d hm

theorem outcome_nucaStray (h : P { ln with toDram := ln.toDram ++ [.writeReq d] }) :
    Outcome Benign P (ln.step cfg (.nucaStray d)) := by
  rw [step]
  split_ifs
  · exact h
  · exact LlcLine.benign_of rfl
end

theorem step_busy (h : Busy cfg ln) (l : Label n D) : Outcome Benign (Busy cfg) (ln.step cfg l) := by
  cases l with
  | core c op | evict c | deliverLlc c junk =>
    refine (step_llc rfl).mono ?_
    rintro _ ⟨junk,msg,wr,b,inbox,out,hs,rfl⟩
    exact ⟨inv_moves h.1 hs.moves hs.inbox _,h.2⟩
  | deliverDir c env => exact outcome_deliverDir fun _ _ => handleMsgFromL2Cache_busy env h
  | dramServe =>
    refine outcome_dramServe (fun ms hm => ⟨{ h.1 with reads := .trans ?_ h.1.reads },h.2⟩)
      fun d ms hm => ⟨{ h.1 with reads := .trans ?_ h.1.reads },h.2⟩
    · simp only [hm,List.countP_cons,DramMsg.isRead,if_true,List.length_append,List.length_singleton]
      omega
    · simp [hm,DramMsg.isRead]
  | dramReply env =>
    exact outcome_dramReply fun d ds hm =>
      ((trivialRule cfg env).processDRAMReply h hm fun _ _ _ _ _ => trivial).mono fun _ => And.left
  | replaceEntry c env =>
    exact outcome_replaceEntry fun hq => ((trivialRule cfg env).replaceEntry h hq c trivial).mono fun _ => And.left
  | nucaEvict writeback =>
    refine outcome_nucaEvict fun d _ => ⟨{ h.1 with reads := .trans ?_ h.1.reads },h.2⟩
    cases writeback <;> simp [DramMsg.isRead]
  | nucaStray d =>
    refine outcome_nucaStray ⟨{ h.1 with reads := .trans ?_ h.1.reads },h.2⟩
    simp [DramMsg.isRead]

theorem busy_initial (cfg : Config) (d : D) : Busy cfg (Line.initial n d) := by
  have hv : Vacant none [] .empty .empty := ⟨rfl,rfl,rfl,by simp [Outbox.empty]⟩
  refine ⟨⟨entryOk_create none,by simp [initial],by simp [initial],rfl,fun c => ?_⟩,
    forwarded_of_ne (by simp [dir,initial,DirectoryEntry.create])⟩
  refine Vacant.port hv rfl fun hs => ?_
  simp [view,initial,dir,DirectoryEntry.create] at hs

end Line

namespace System
variable {Addr : Type} [DecidableEq Addr] {cfg : Config} {s : System Addr n D}

def Reachable (cfg : Config) (contents : Addr → D) (s : System Addr n D) : Prop :=
  Run.Reaches (step cfg) (fun _ _ => True) (initial n contents) s

theorem step_outcome (h : ∀ a, I (s a)) (l : Addr × Label n D) (hl : Outcome Benign I ((s l.1).step cfg l.2)) :
    Outcome Benign (fun t => ∀ a, I (t a)) (s.step cfg l) := by
  exact hl.bind fun ln hln => (forall_update_iff s fun _ => I).mpr ⟨hln,fun a _ => h a⟩

theorem reaches_lines (hinit : ∀ a, I (Line.initial n (contents a)))
    (hstep : ∀ s : System Addr n D, ∀ l, I (s l.1) → C s l → Outcome Benign I ((s l.1).step cfg l.2))
    (h : Run.Reaches (step cfg) C (initial n contents) s) (a : Addr) : I (s a) := by
  refine Run.Reaches.invariant (I := fun s => ∀ a, I (s a)) ?_ hinit h a
  exact fun s l t hs hc ht => (step_outcome hs l (hstep s l (hs l.1) hc)).of_ok ht

theorem reachable_busy (h : Reachable cfg contents s) (a : Addr) : Line.Busy cfg (s a) :=
  reaches_lines (fun _ => Line.busy_initial cfg _) (fun _ l hs _ => Line.step_busy hs l.2) h a

end System
end Coherence
