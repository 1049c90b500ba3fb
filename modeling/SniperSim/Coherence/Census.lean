import SniperSim.Coherence.Types

namespace Coherence
variable {D : Type}

structure Outbox where
  (shReq exReq upgradeReq invRep flushRep wbRep requestThenDrop upgradeThenWb dropThenWb : Nat)
  wbLess : wbRep = 0 → upgradeThenWb = 0

namespace Outbox

def empty : Outbox := ⟨0,0,0,0,0,0,0,0,0,fun _ => rfl⟩

def cons (m : LlcMsg D) (o : Outbox) : Outbox :=
  match m with
  | .shReq => { o with
      shReq := o.shReq + 1
      requestThenDrop := o.requestThenDrop + (o.invRep + o.flushRep) }
  | .exReq => { o with
      exReq := o.exReq + 1
      requestThenDrop := o.requestThenDrop + (o.invRep + o.flushRep) }
  | .upgradeReq => { o with
      upgradeReq := o.upgradeReq + 1
      upgradeThenWb := o.upgradeThenWb + o.wbRep
      wbLess := by have := o.wbLess; omega }
  | .invRep => { o with
      invRep := o.invRep + 1
      dropThenWb := o.dropThenWb + o.wbRep }
  | .flushRep _ => { o with
      flushRep := o.flushRep + 1
      dropThenWb := o.dropThenWb + o.wbRep }
  | .wbRep _ => { o with
      wbRep := o.wbRep + 1
      wbLess := by omega }

def snoc (o : Outbox) (m : LlcMsg D) : Outbox :=
  match m with
  | .shReq => { o with shReq := o.shReq + 1 }
  | .exReq => { o with exReq := o.exReq + 1 }
  | .upgradeReq => { o with upgradeReq := o.upgradeReq + 1 }
  | .invRep => { o with
      invRep := o.invRep + 1
      requestThenDrop := o.requestThenDrop + (o.shReq + o.exReq) }
  | .flushRep _ => { o with
      flushRep := o.flushRep + 1
      requestThenDrop := o.requestThenDrop + (o.shReq + o.exReq) }
  | .wbRep _ => { o with
      wbRep := o.wbRep + 1
      upgradeThenWb := o.upgradeThenWb + o.upgradeReq
      dropThenWb := o.dropThenWb + (o.invRep + o.flushRep)
      wbLess := by omega }

def ofList : List (LlcMsg D) → Outbox
  | [] => empty
  | m :: ms => (ofList ms).cons m

theorem ofList_concat (ms : List (LlcMsg D)) (m : LlcMsg D) : ofList (ms ++ [m]) = (ofList ms).snoc m := by
  induction ms with
  | nil => cases m <;> rfl
  | cons m' ms ih =>
    rw [List.cons_append,ofList,ih,ofList]
    cases m <;> cases m' <;> simp [cons,snoc] <;> omega

theorem ofList_pos {ms : List (LlcMsg D)} {m : LlcMsg D} (h : m ∈ ms) :
    ((∃ d, m = .flushRep d) → 0 < (ofList ms).flushRep) ∧ ((∃ d, m = .wbRep d) → 0 < (ofList ms).wbRep) := by
  induction ms with
  | nil => simp at h
  | cons m' ms ih =>
    rcases List.mem_cons.mp h with rfl | h
    · cases m <;> simp [ofList,cons]
    · obtain ⟨hf,hw⟩ := ih h
      cases m' <;> simp only [ofList,cons] <;>
        exact ⟨fun hm => by have := hf hm; omega,fun hm => by have := hw hm; omega⟩

end Outbox

structure Inbox where
  (exRep shRep upgradeRep wbReq flushReq demandThenUpgrade : Nat)

namespace Inbox

def empty : Inbox := ⟨0,0,0,0,0,0⟩

def cons (m : DirMsg D) (i : Inbox) : Inbox :=
  match m with
  | .exRep _ => { i with exRep := i.exRep + 1 }
  | .shRep _ => { i with shRep := i.shRep + 1 }
  | .upgradeRep => { i with upgradeRep := i.upgradeRep + 1 }
  | .invReq => i
  | .flushReq => { i with
      flushReq := i.flushReq + 1
      demandThenUpgrade := i.demandThenUpgrade + i.upgradeRep }
  | .wbReq => { i with
      wbReq := i.wbReq + 1
      demandThenUpgrade := i.demandThenUpgrade + i.upgradeRep }

def snoc (live : Nat) (i : Inbox) (m : DirMsg D) : Inbox :=
  match m with
  | .exRep _ => { i with exRep := i.exRep + 1 }
  | .shRep _ => { i with shRep := i.shRep + 1 }
  | .upgradeRep => { i with
      upgradeRep := i.upgradeRep + 1
      demandThenUpgrade := i.demandThenUpgrade + (i.wbReq + i.flushReq) }
  | .invReq => i
  | .flushReq => { i with flushReq := i.flushReq + live }
  | .wbReq => { i with wbReq := i.wbReq + live }

def ofList : Bool → List (DirMsg D) → Inbox
  | _, [] => empty
  | true, m :: ms => (ofList true ms).cons m
  | false, .exRep d :: ms => (ofList true ms).cons (.exRep d)
  | false, .shRep d :: ms => (ofList true ms).cons (.shRep d)
  | false, .upgradeRep :: ms => (ofList false ms).cons (.upgradeRep : DirMsg D)
  | false, _ :: ms => ofList false ms

def live (valid : Bool) (i : Inbox) : Nat := min 1 (valid.toNat + i.exRep + i.shRep)

theorem ofList_concat (valid : Bool) (ms : List (DirMsg D)) (m : DirMsg D) :
    ofList valid (ms ++ [m]) = (ofList valid ms).snoc ((ofList valid ms).live valid) m := by
  induction ms generalizing valid with
  | nil => cases valid <;> cases m <;> rfl
  | cons m' ms ih => cases valid <;> cases m' <;> cases m <;> simp [ofList,ih,cons,snoc,live] <;> omega

theorem ofList_stale (ms : List (DirMsg D)) (h : (ofList false ms).exRep + (ofList false ms).shRep = 0) :
    (ofList false ms).wbReq = 0 ∧ (ofList false ms).flushReq = 0 ∧ (ofList false ms).demandThenUpgrade = 0 := by
  induction ms with
  | nil => exact ⟨rfl,rfl,rfl⟩
  | cons m ms ih => cases m <;> simp_all [ofList,cons]

theorem ofList_grants (valid : Bool) (ms : List (DirMsg D)) : (ofList valid ms).exRep = (ofList true ms).exRep ∧
      (ofList valid ms).shRep = (ofList true ms).shRep ∧
      (ofList valid ms).upgradeRep = (ofList true ms).upgradeRep := by
  induction ms generalizing valid with
  | nil => exact ⟨rfl,rfl,rfl⟩
  | cons m ms ih => cases valid <;> cases m <;> simp_all [ofList,cons]

theorem ofList_pos (valid : Bool) {ms : List (DirMsg D)} {m : DirMsg D} (h : m ∈ ms) :
    ((∃ d, m = .exRep d) → 0 < (ofList valid ms).exRep) ∧ ((∃ d, m = .shRep d) → 0 < (ofList valid ms).shRep) ∧
      (m = .upgradeRep → 0 < (ofList valid ms).upgradeRep) := by
  obtain ⟨he,hs,hu⟩ := ofList_grants valid ms
  rw [he,hs,hu]
  induction ms with
  | nil => simp at h
  | cons m' ms ih =>
    rcases List.mem_cons.mp h with rfl | h
    · cases m <;> simp [ofList,cons]
    · obtain ⟨he,hs,hu⟩ := ofList_grants valid ms
      obtain ⟨he',hs',hu'⟩ := ih h he hs hu
      cases m' <;> simp only [ofList,cons] <;>
        exact ⟨fun hm => by have := he' hm; omega,fun hm => by have := hs' hm; omega,
          fun hm => by have := hu' hm; omega⟩

end Inbox
end Coherence
