import SniperSim.Sift.LockstepRun

open List Option
namespace Sift
open Confluence Duplex

structure Exchange.Completed {M : Type} {k : RequestKind} (d : Transcript M k.Reply) (s : Exchange M k) : Prop where
  returned : s.left.phase = .returned d.value
  memory : s.left.memory = d.memory
  served : s.left.served = d.served
  peek : s.right.phase = .peek
  results : s.right.results = d.results
  toRight : s.toRight = []
  toLeft : s.toLeft = []

section
variable {M : Type} {cb : MemoryCallback M} {handlers : Handlers} {r : Request} {m : M} {sv : List Served}
  {a : Access} {s : Exchange M r.kind} {next : Bool → List Byte → Handler r.kind.Reply} {n : Nat}

def Exchange.Answered (cb : MemoryCallback M) (handlers : Handlers) (r : Request) (m : M)
    (s : Exchange M r.kind) : Prop :=
  ∃ h, handlers.answer r = some h ∧ s.Completed (h.direct cb m)

def InLockstep (readable : Address → Bool) (cb : MemoryCallback M) (handlers : Handlers) (r : Request) (m : M) : Prop :=
  r.reads readable ∧ r.Fits ∧ ∃ h, handlers.answer r = some h ∧
    ∀ x ∈ (h.direct cb m).results, r.loop.serves ∧ x.access.Answerable

theorem not_settles_of_waiting (hl : Goes cb handlers r start
      (.mk left ⟨.response r.kind a next,rs⟩ [] ys)) (hneed : ∀ n, left.need = some n → ys.length < n) :
    ¬ Settles (Exchange.next (some cb) handlers r) (Exchange.Answered cb handlers r m) start := by
  intro hset
  obtain ⟨_,_,hc⟩ := hset.good_of_stuck hl (stuck_of hneed fun n hn => by cases hn; decide)
  have hp := hc.peek
  simp at hp

theorem leads_given_up (hs : r.loop.serves = false) (hv : r.loop.other = .returned v) :
    Goes cb handlers r (Exchange.atHandler r (.access a next) m sv rs)
      (.mk ⟨.returned v,m,sv⟩ ⟨.response r.kind a next,rs⟩ [] (a.fields ++ a.payload)) := by
  refine leads_left_silent rfl (length_encodeRecord _ _) ?_
  simp only [writerParty,WriterSide.feed,decodeRecord_encodeRecord]
  rw [r.loop_read_memoryRequest,hs,if_neg Bool.false_ne_true,hv]

end

def echoMemory : MemoryCallback Unit := ⟨fun m _ _ _ data => (m,data),fun _ _ _ _ _ => rfl⟩

def plainWriter : WriterConfig := ⟨fun _ => 0,false,false,false⟩

def wordRead : Access := ⟨.noLock,.read,0x1000,[0,0,0,0],by decide⟩

def wordWrite : Access := ⟨.noLock,.write,0x2000,[1,2,3,4],by decide⟩

def accessThen {ρ : Type} (a : Access) (value : ρ) : Handler ρ := .access a fun _ _ => .reply value

def joinReads : Handlers := ⟨none,none,none,some fun _ => accessThen wordRead 7,none,none,none⟩

end Sift
