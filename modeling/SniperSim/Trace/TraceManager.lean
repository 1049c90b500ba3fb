import SniperSim.Library.Roster
import SniperSim.Library.Run

open List Option Roster
namespace TraceManager

structure Config where
  (stopWithFirstApp appRestart : Bool)
deriving DecidableEq, Repr

structure AppInfo where
  threadCount : Nat
  numThreads : Int
  numRuns : Nat
  -- ghost
  drops : Nat
deriving DecidableEq, Repr

def appInfo : AppInfo := { threadCount := 1, numThreads := 1, numRuns := 0, drops := 0 }

inductive Phase
  | running
  | ending (i : Nat) (asked : Bool)
  | reporting (aborted : Bool)
  | exited
deriving DecidableEq, Repr

structure TraceThread where
  appId : Nat
  (stop stopped : Bool)
  phase : Phase
deriving DecidableEq, Repr

structure Manager where
  threads : List TraceThread
  apps : List AppInfo
  (numThreadsRunning numAppsNonfinish : Int)
  done : Nat
deriving DecidableEq, Repr

namespace AppInfo

def restart (info : AppInfo) : AppInfo := { info with numThreads := 1, threadCount := 1 }

def enlist (info : AppInfo) : AppInfo :=
  { info with numThreads := info.numThreads + 1, threadCount := info.threadCount + 1 }

def dismiss (info : AppInfo) : AppInfo :=
  { info with
    numThreads := info.numThreads - 1
    drops := if info.numThreads - 1 = 0 then info.drops + 1 else info.drops }

def finish (info : AppInfo) : AppInfo := { info with numRuns := info.numRuns + 1 }

end AppInfo

namespace Manager
variable (m : Manager)

def newThread (a : Nat) (first : Bool) : Manager :=
  { m with
    apps := m.apps.modify a (if first then AppInfo.restart else AppInfo.enlist)
    numThreadsRunning := m.numThreadsRunning + 1
    threads := m.threads ++ [{ appId := a, stop := false, stopped := false, phase := .running }] }

def createApplication : Manager :=
  newThread { m with
    apps := m.apps ++ [appInfo]
    numAppsNonfinish := m.numAppsNonfinish + 1 } m.apps.length true

def stop (m : Manager) : Manager :=
  { m with
    threads := m.threads.map fun th => { th with stop := true }
    done := m.done + 1 }

def finishApp (a : Nat) (info : AppInfo) : Manager :=
  { m with
    apps := m.apps.modify a AppInfo.finish
    numAppsNonfinish :=
      if info.finish.numRuns = 1 then m.numAppsNonfinish - 1 else m.numAppsNonfinish }

variable (cfg : Config)

def endRun (m : Manager) (a : Nat) (info : AppInfo) : Manager :=
  let m := m.finishApp a info
  if cfg.stopWithFirstApp then m.stop
  else if m.numAppsNonfinish = 0 then m.stop
  else if cfg.appRestart then m.newThread a true
  else m

def depart (i : Nat) (th : TraceThread) : Manager :=
  { m with
    threads := m.threads.set i { th with stopped := true }
    apps := m.apps.modify th.appId AppInfo.dismiss }

def signalDone (m : Manager) (i : Nat) (aborted : Bool) : Manager :=
  match m.threads[i]? with
  | none => m
  | some th =>
    if th.stopped then m
    else
      let m := m.depart i th
      let m := match m.apps[th.appId]? with
        | some info =>
          if aborted = false ∧ info.numThreads = 0 then m.endRun cfg th.appId info else m
        | none => m
      { m with numThreadsRunning := m.numThreadsRunning - 1 }

def setPhase (t : Nat) (p : Phase) : Manager :=
  { m with threads := m.threads.modify t fun th => { th with phase := p } }

def askStop (i : Nat) : Manager :=
  { m with threads := m.threads.modify i fun th => { th with stop := true } }

inductive Label
  | createThread (t : Nat)
  | createApplication (t : Nat)
  | exitGroup (t : Nat)
  | advance (t : Nat)
  | finish (t : Nat)
  | report (t : Nat)
deriving DecidableEq, Repr

def endApplication (m : Manager) (t : Nat) (th : TraceThread) (i : Nat) (asked : Bool) : Manager :=
  match m.threads[i]? with
  | none => m.setPhase t .running
  | some other =>
    if other.appId = th.appId ∧ i ≠ t then
      if asked then (m.signalDone cfg i true).setPhase t (.ending (i + 1) false)
      else (m.askStop i).setPhase t (.ending i true)
    else m.setPhase t (.ending (i + 1) false)

def next (m : Manager) : Label → Except Unit Manager
  | .createThread t =>
    match m.threads[t]? with
    | some th => if th.phase = .running then .ok (m.newThread th.appId false) else .error ()
    | none => .error ()
  | .createApplication t =>
    match m.threads[t]? with
    | some th => if th.phase = .running then .ok m.createApplication else .error ()
    | none => .error ()
  | .exitGroup t =>
    match m.threads[t]? with
    | some th => if th.phase = .running then .ok (m.setPhase t (.ending 0 false)) else .error ()
    | none => .error ()
  | .advance t =>
    match m.threads[t]? with
    | some th =>
      match th.phase with
      | .ending i asked => .ok (m.endApplication cfg t th i asked)
      | _ => .error ()
    | none => .error ()
  | .finish t =>
    match m.threads[t]? with
    | some th =>
      if th.phase = .running then .ok (m.setPhase t (.reporting th.stop)) else .error ()
    | none => .error ()
  | .report t =>
    match m.threads[t]? with
    | some th =>
      match th.phase with
      | .reporting aborted => .ok ((m.signalDone cfg t aborted).setPhase t .exited)
      | _ => .error ()
    | none => .error ()

def empty (n : Nat) : Manager :=
  { threads := []
    apps := replicate n appInfo
    numThreadsRunning := 0
    numAppsNonfinish := n
    done := 0 }

def start (n : Nat) : Manager := (range n).foldl (fun m a => m.newThread a true) (empty n)

def key (th : TraceThread) : Nat × Bool := (th.appId,th.stopped)

def unstopped (a : Nat) : Nat := m.threads.countP fun th => th.appId == a && !th.stopped

structure Counted (m : Manager) : Prop where
  valid : ∀ th ∈ m.threads, th.appId < m.apps.length
  counts : ∀ (a : Nat) (info : AppInfo), m.apps[a]? = some info → info.numThreads = (m.unstopped a : Int)

structure Settled (m : Manager) : Prop where
  nonfinish : m.numAppsNonfinish = (m.apps.countP fun info => info.numRuns == 0 : Nat)
  signalled : m.numAppsNonfinish = 0 → m.apps = [] ∨ 0 < m.done

def Recorded : Prop := ∀ info ∈ m.apps, info.numRuns = info.drops

section
variable {m m' : Manager}

theorem unstopped_of_keys (h : m'.threads.map key = m.threads.map key) (a : Nat) : m'.unstopped a = m.unstopped a := by
  have hcount : ∀ l : List TraceThread, (l.countP fun th => th.appId == a && !th.stopped) =
      (l.map key).countP fun k => k.1 == a && !k.2 := by
    intro l
    rw [countP_map]
    rfl
  rw [unstopped,unstopped,hcount,hcount,h]

theorem Counted.of_keys (hm : Counted m) (h : m'.threads.map key = m.threads.map key)
    (ha : m'.apps = m.apps) : Counted m' := by
  refine ⟨fun th hth => ?_,fun a info hinfo => ?_⟩
  · have hkey : key th ∈ m.threads.map key := h ▸ List.mem_map_of_mem hth
    obtain ⟨th',hmem,heq⟩ := List.mem_map.mp hkey
    have happ : th'.appId = th.appId := congrArg Prod.fst heq
    rw [ha,← happ]
    exact hm.valid th' hmem
  · rw [unstopped_of_keys h]
    exact hm.counts a info (by rwa [ha] at hinfo)

theorem Counted.setPhase (hm : Counted m) (t : Nat) (p : Phase) : Counted (m.setPhase t p) :=
  hm.of_keys (map_modify _ _ fun _ => rfl) rfl

theorem Counted.askStop (hm : Counted m) (i : Nat) : Counted (m.askStop i) :=
  hm.of_keys (map_modify _ _ fun _ => rfl) rfl

theorem Counted.stop (hm : Counted m) : Counted m.stop := by
  refine hm.of_keys ?_ rfl
  rw [Manager.stop,List.map_map]
  rfl
end

section
variable {m : Manager} {a : Nat}

theorem getElem?_modify_some {l : List AppInfo} {b : Nat} {f : AppInfo → AppInfo} {new : AppInfo}
    (h : (l.modify a f)[b]? = some new) : ∃ old, l[b]? = some old ∧ (if a = b then f old else old) = new := by
  rw [getElem?_modify] at h
  exact map_eq_some_iff.mp h

theorem unstopped_newThread (m : Manager) (a : Nat) (first : Bool) (b : Nat) :
    (m.newThread a first).unstopped b = m.unstopped b + if a = b then 1 else 0 := by
  simp [unstopped,newThread,countP_append,countP_singleton]

theorem length_newThread (m : Manager) (a : Nat) (first : Bool) :
    (m.newThread a first).apps.length = m.apps.length := by simp [newThread]

theorem valid_newThread (h : ∀ th ∈ m.threads, th.appId < m.apps.length) (ha : a < m.apps.length)
    (first : Bool) : ∀ th ∈ (m.newThread a first).threads, th.appId < (m.newThread a first).apps.length := by
  intro th hth
  rw [length_newThread]
  simp only [newThread,mem_append,mem_singleton] at hth
  rcases hth with hth | rfl
  · exact h th hth
  · exact ha

theorem newThread_first {b : Nat} {info : AppInfo} (hzero : m.unstopped a = 0)
    (hcount : ∀ info : AppInfo, b ≠ a → m.apps[b]? = some info →
      info.numThreads = (m.unstopped b : Int)) (h : (m.newThread a true).apps[b]? = some info) :
    info.numThreads = ((m.newThread a true).unstopped b : Int) := by
  rw [unstopped_newThread]
  simp only [newThread,if_true] at h
  obtain ⟨old,hold,rfl⟩ := getElem?_modify_some h
  split_ifs with hab
  · subst hab
    simp [AppInfo.restart,hzero]
  · have := hcount old (fun h => hab h.symm) hold
    simpa using this

theorem Counted.newThread_first (hm : Counted m) (ha : a < m.apps.length)
    (hzero : m.unstopped a = 0) : Counted (m.newThread a true) :=
  ⟨valid_newThread hm.valid ha true,fun b _ h =>
    Manager.newThread_first hzero (fun info _ hinfo => hm.counts b info hinfo) h⟩

theorem Counted.newThread_next (hm : Counted m) (ha : a < m.apps.length) : Counted (m.newThread a false) := by
  refine ⟨valid_newThread hm.valid ha false,fun b info h => ?_⟩
  rw [unstopped_newThread]
  simp only [newThread,Bool.false_eq_true,if_false] at h
  obtain ⟨old,hold,rfl⟩ := getElem?_modify_some h
  have hcount := hm.counts b old hold
  split_ifs with hab
  · simp [AppInfo.enlist,hcount]
  · simpa using hcount

theorem Counted.createApplication (hm : Counted m) : Counted m.createApplication := by
  have hvalid : ∀ th ∈ m.threads, th.appId < (m.apps ++ [appInfo]).length := fun th hth => by
    have := hm.valid th hth
    simp only [length_append,length_singleton]
    omega
  have hzero : m.unstopped m.apps.length = 0 := by
    refine countP_eq_zero.mpr fun th hth => ?_
    have := hm.valid th hth
    simp only [Bool.and_eq_true,beq_iff_eq,not_and]
    intro heq
    omega
  refine ⟨valid_newThread hvalid (by simp) true,fun b info h => ?_⟩
  refine Manager.newThread_first hzero (fun old hb hold => ?_) h
  rw [getElem?_append] at hold
  split_ifs at hold with hlt
  · exact hm.counts b old hold
  · have := (List.getElem?_eq_some_iff.mp hold).1
    simp only [length_singleton] at this
    omega
end

section
variable {cfg : Config} {m : Manager} {i a : Nat} {th : TraceThread} {info : AppInfo}

theorem unstopped_depart (h : m.threads[i]? = some th) (hs : th.stopped = false) (b : Nat) :
    (m.depart i th).unstopped b + (if th.appId = b then 1 else 0) = m.unstopped b := by
  have hset := countP_set h { th with stopped := true } fun th => th.appId == b && !th.stopped
  simpa [hs,unstopped,depart] using hset

theorem Counted.depart (hm : Counted m) (h : m.threads[i]? = some th) (hs : th.stopped = false) :
    Counted (m.depart i th) := by
  refine ⟨fun th' hth => ?_,fun b new hnew => ?_⟩
  · simp only [Manager.depart,length_modify] at hth ⊢
    rcases mem_or_eq_of_mem_set hth with hth | rfl
    · exact hm.valid th' hth
    · exact hm.valid th (mem_of_getElem? h)
  · have hcount := unstopped_depart h hs b
    obtain ⟨old,hold,rfl⟩ := getElem?_modify_some hnew
    have := hm.counts b old hold
    split_ifs with hb
    · rw [if_pos hb] at hcount
      simp only [AppInfo.dismiss]
      omega
    · rw [if_neg hb] at hcount
      omega

theorem endRun_keeps {P : Manager → Prop} (hstop : P (m.finishApp a info).stop)
    (hleft : (m.finishApp a info).numAppsNonfinish ≠ 0 →
      P (m.finishApp a info) ∧ P ((m.finishApp a info).newThread a true)) : P (m.endRun cfg a info) := by
  simp only [endRun]
  split_ifs with hfirst hzero
  exacts [hstop,hstop,(hleft hzero).2,(hleft hzero).1]

theorem Counted.finishApp (hm : Counted m) (a : Nat) (info : AppInfo) : Counted (m.finishApp a info) := by
  refine ⟨by simpa [Manager.finishApp] using hm.valid,fun b new hnew => ?_⟩
  obtain ⟨old,hold,rfl⟩ := getElem?_modify_some hnew
  have hcount := hm.counts b old hold
  split_ifs
  · exact hcount
  · exact hcount

theorem Counted.endRun (hm : Counted m) (hinfo : m.apps[a]? = some info)
    (hzero : info.numThreads = 0) : Counted (m.endRun cfg a info) := by
  have hfinish := hm.finishApp a info
  have ha : a < (m.finishApp a info).apps.length := by
    simpa [Manager.finishApp] using (List.getElem?_eq_some_iff.mp hinfo).1
  have hnone : (m.finishApp a info).unstopped a = 0 := by
    have := hm.counts a info hinfo
    show m.unstopped a = 0
    omega
  exact endRun_keeps hfinish.stop fun _ => ⟨hfinish,hfinish.newThread_first ha hnone⟩

theorem signalDone_keeps {P : Manager → Prop} {ab : Bool} (hrunning : ∀ m r, P m → P { m with numThreadsRunning := r })
    (hm : P m) (hend : ∀ th info, m.threads[i]? = some th → th.stopped = false →
      (m.depart i th).apps[th.appId]? = some info → info.numThreads = 0 → P ((m.depart i th).endRun cfg th.appId info))
    (hmore : ∀ th, m.threads[i]? = some th → th.stopped = false →
      (∀ info, (m.depart i th).apps[th.appId]? = some info → ab ∨ info.numThreads ≠ 0) → P (m.depart i th)) :
    P (m.signalDone cfg i ab) := by
  rw [signalDone]
  split
  · exact hm
  · next th hth =>
    split_ifs with hstopped
    · exact hm
    · rw [Bool.not_eq_true] at hstopped
      refine hrunning _ _ ?_
      split
      · next info hinfo =>
        split_ifs with hlast
        · exact hend th info hth hstopped hinfo hlast.2
        · refine hmore th hth hstopped fun info' hinfo' => ?_
          obtain rfl := some.inj (hinfo.symm.trans hinfo')
          cases ab with
          | true => exact .inl rfl
          | false => exact .inr fun h => hlast ⟨rfl,h⟩
      · next hnone => exact hmore th hth hstopped fun info' hinfo' => by simp [hnone] at hinfo'

theorem Counted.signalDone (hm : Counted m) (i : Nat) (ab : Bool) : Counted (m.signalDone cfg i ab) :=
  signalDone_keeps (fun _ _ h => { h with }) hm (fun _ _ hth hs => (hm.depart hth hs).endRun)
    fun _ hth hs _ => hm.depart hth hs

theorem Settled.of_runs (hm : Settled m) (hr : m'.apps.map AppInfo.numRuns = m.apps.map AppInfo.numRuns)
    (hn : m'.numAppsNonfinish = m.numAppsNonfinish) (hd : m.done ≤ m'.done) : Settled m' := by
  have hcount : ∀ l : List AppInfo, (l.countP fun info => info.numRuns == 0) =
      (l.map AppInfo.numRuns).countP fun r => r == 0 := by
    intro l
    rw [countP_map]
    rfl
  refine ⟨?_,fun hzero => ?_⟩
  · rw [hn,hm.nonfinish,hcount,hcount,hr]
  · rcases hm.signalled (hn ▸ hzero) with hnil | hdone
    · rw [hnil] at hr
      exact .inl (map_eq_nil_iff.mp hr)
    · exact .inr (Nat.lt_of_lt_of_le hdone hd)

variable (hm : Settled m)
include hm

theorem Settled.newThread (a : Nat) (first : Bool) : Settled (m.newThread a first) :=
  hm.of_runs (map_modify _ _ fun info => by cases first <;> rfl) rfl (Nat.le_refl _)

theorem Settled.depart (i : Nat) (th : TraceThread) : Settled (m.depart i th) :=
  hm.of_runs (map_modify _ _ fun _ => rfl) rfl (Nat.le_refl _)

theorem Settled.createApplication : Settled m.createApplication := by
  refine Settled.newThread ⟨?_,fun hzero => ?_⟩ _ _
  · have := hm.nonfinish
    simp only [countP_append,countP_singleton,appInfo,beq_self_eq_true,if_true]
    omega
  · have := hm.nonfinish
    simp only at hzero
    omega

theorem nonfinish_finishApp (hinfo : m.apps[a]? = some info) :
    (m.finishApp a info).numAppsNonfinish = ((m.finishApp a info).apps.countP fun info => info.numRuns == 0 : Nat) := by
  have hset := countP_set hinfo info.finish fun info => info.numRuns == 0
  rw [← modify_eq_set hinfo AppInfo.finish] at hset
  have hn := hm.nonfinish
  simp only [finishApp,AppInfo.finish] at hset ⊢
  by_cases hzero : info.numRuns = 0
  · simp only [hzero,Nat.zero_add,if_true,beq_self_eq_true,Nat.reduceBEq,Bool.false_eq_true,if_false] at hset ⊢
    omega
  · have hone : ¬ info.numRuns + 1 = 1 := by omega
    simp only [hone,if_false,Nat.add_eq_zero_iff,beq_iff_eq,hzero,false_and] at hset ⊢
    omega

theorem Settled.endRun (hinfo : m.apps[a]? = some info) : Settled (m.endRun cfg a info) := by
  have hcount := nonfinish_finishApp hm hinfo
  refine endRun_keeps ⟨hcount,fun _ => .inr (Nat.succ_pos _)⟩ fun hleft => ?_
  have hfinish : Settled (m.finishApp a info) := ⟨hcount,fun hzero => absurd hzero hleft⟩
  exact ⟨hfinish,hfinish.newThread a true⟩

theorem Settled.signalDone (i : Nat) (ab : Bool) : Settled (m.signalDone cfg i ab) :=
  signalDone_keeps (fun _ _ h => { h with }) hm (fun th _ _ _ hinfo _ => (hm.depart i th).endRun hinfo)
    fun th _ _ _ => hm.depart i th
end

section
variable {cfg : Config} {m : Manager} {i a : Nat} {th : TraceThread} {info : AppInfo}

def book (info : AppInfo) : Nat × Nat := (info.numRuns,info.drops)

theorem Recorded.of_books (hm : Recorded m) (hb : m'.apps.map book = m.apps.map book) : Recorded m' := by
  intro info hinfo
  have hmem : book info ∈ m.apps.map book := hb ▸ List.mem_map_of_mem hinfo
  obtain ⟨old,hold,heq⟩ := List.mem_map.mp hmem
  obtain ⟨hruns,hdrops⟩ := Prod.mk.inj heq
  rw [← hruns,← hdrops]
  exact hm old hold

theorem Recorded.newThread (hm : Recorded m) (a : Nat) (first : Bool) : Recorded (m.newThread a first) := by
  refine hm.of_books (map_modify _ _ fun info => ?_)
  cases first <;> rfl

theorem Recorded.createApplication (hm : Recorded m) : Recorded m.createApplication := by
  refine Recorded.newThread (fun info hinfo => ?_) _ _
  rcases mem_append.mp hinfo with hinfo | hinfo
  · exact hm info hinfo
  · obtain rfl := mem_singleton.mp hinfo
    rfl

theorem recorded_iff : Recorded m ↔ ∀ (b : Nat) (info : AppInfo), m.apps[b]? = some info → info.numRuns = info.drops :=
  ⟨fun h _ info hinfo => h info (mem_of_getElem? hinfo),
    fun h info hinfo => (getElem?_of_mem hinfo).elim fun b hb => h b info hb⟩

theorem Recorded.depart (hm : Recorded m)
    (hmore : ∀ info, (m.depart i th).apps[th.appId]? = some info → info.numThreads ≠ 0) : Recorded (m.depart i th) := by
  refine recorded_iff.mpr fun b new hnew => ?_
  obtain ⟨old,hold,rfl⟩ := getElem?_modify_some hnew
  have hbook := recorded_iff.mp hm b old hold
  split_ifs with hb
  · subst hb
    rw [if_pos rfl] at hnew
    have hne := hmore _ hnew
    simp only [AppInfo.dismiss] at hne ⊢
    rw [if_neg hne,hbook]
  · exact hbook

theorem Recorded.finishApp (hm : Recorded m)
    (hinfo : (m.depart i th).apps[th.appId]? = some info) (hzero : info.numThreads = 0) :
    Recorded ((m.depart i th).finishApp th.appId info) := by
  refine recorded_iff.mpr fun b new hnew => ?_
  obtain ⟨last,hlast,heq⟩ := getElem?_modify_some hinfo
  obtain ⟨mid,hmid,rfl⟩ := getElem?_modify_some hnew
  obtain ⟨old,hold,rfl⟩ := getElem?_modify_some hmid
  have hbook := recorded_iff.mp hm b old hold
  split_ifs with hb
  · subst hb
    obtain rfl := some.inj (hold.symm.trans hlast)
    rw [if_pos rfl] at heq
    subst heq
    simp only [AppInfo.dismiss,AppInfo.finish] at hzero ⊢
    rw [if_pos hzero,hbook]
  · exact hbook

theorem Recorded.signalDone (hm : Recorded m) {ab : Bool}
    (hc : ab → ∀ th info, m.threads[i]? = some th → th.stopped = false →
      m.apps[th.appId]? = some info → info.numThreads ≠ 1) : Recorded (m.signalDone cfg i ab) := by
  refine signalDone_keeps (fun _ _ h => h) hm (fun th info _ _ hinfo hzero => ?_) fun th hth hs hmore => ?_
  · have hfinish := hm.finishApp hinfo hzero
    exact endRun_keeps hfinish fun _ => ⟨hfinish,hfinish.newThread _ _⟩
  · refine Recorded.depart hm fun info hinfo => ?_
    rcases hmore info hinfo with haborted | hne
    · obtain ⟨old,hold,rfl⟩ := getElem?_modify_some hinfo
      have := hc haborted th old hth hs hold
      simp only [if_true,AppInfo.dismiss]
      omega
    · exact hne
end

def aborts : Label → Option Nat
  | .advance t =>
    match (m.threads[t]?).map TraceThread.phase with
    | some (.ending i true) => some i
    | _ => none
  | .report t =>
    match (m.threads[t]?).map TraceThread.phase with
    | some (.reporting true) => some t
    | _ => none
  | _ => none

def isLast (i : Nat) : Bool :=
  match m.threads[i]? with
  | some th => !th.stopped && (m.apps[th.appId]?).any fun info => info.numThreads == 1
  | none => false

def Regular (l : Label) : Prop := (m.aborts l).any m.isLast = false

instance (m : Manager) (l : Label) : Decidable (m.Regular l) := inferInstanceAs (Decidable (_ = false))

section
variable {cfg : Config} {m m' : Manager} {l : Label} {n : Nat}

theorem step_keeps {P : Manager → Prop} (hphase : ∀ m t p, P m → P (m.setPhase t p))
    (hask : ∀ m i, P m → P (m.askStop i))
    (hnew : ∀ th ∈ m.threads, P (m.newThread th.appId false)) (hcreate : P m.createApplication)
    (hdone : ∀ i ab, (ab = true → m.aborts l = some i) → P (m.signalDone cfg i ab))
    (hm : P m) (h : m.next cfg l = .ok m') : P m' := by
  cases l with simp only [next] at h
  | createThread t =>
    split at h
    · next th hth =>
      split_ifs at h
      cases h
      exact hnew th (mem_of_getElem? hth)
    · cases h
  | createApplication t =>
    split at h
    · split_ifs at h
      cases h
      exact hcreate
    · cases h
  | exitGroup t | finish t =>
    split at h
    · split_ifs at h
      cases h
      exact hphase _ _ _ hm
    · cases h
  | advance t =>
    split at h
    · next th hth =>
      split at h
      · next i asked hp =>
        cases h
        rw [endApplication]
        split
        · exact hphase _ _ _ hm
        · split_ifs with _ hasked
          · refine hphase _ _ _ (hdone i true fun _ => ?_)
            simp [aborts,hth,hp,hasked]
          · exact hphase _ _ _ (hask _ _ hm)
          · exact hphase _ _ _ hm
      · cases h
    · cases h
  | report t =>
    split at h
    · next th hth =>
      split at h
      · next ab hp =>
        cases h
        refine hphase _ _ _ (hdone t ab fun haborted => ?_)
        simp [aborts,hth,hp,haborted]
      · cases h
    · cases h

theorem Counted.step (hm : Counted m) (h : m.next cfg l = .ok m') : Counted m' :=
  step_keeps (fun _ t p hk => hk.setPhase t p) (fun _ i hk => hk.askStop i)
    (fun th hth => hm.newThread_next (hm.valid th hth)) hm.createApplication
    (fun i ab _ => hm.signalDone i ab) hm h

theorem Settled.step (hm : Settled m) (h : m.next cfg l = .ok m') : Settled m' :=
  step_keeps (fun _ _ _ hk => { hk with })
    (fun _ _ hk => { hk with }) (fun th _ => hm.newThread th.appId false)
    hm.createApplication (fun i ab _ => hm.signalDone i ab) hm h

theorem Recorded.step (hm : Recorded m) (hc : m.Regular l) (h : m.next cfg l = .ok m') : Recorded m' := by
  refine step_keeps (fun _ _ _ hk => hk) (fun _ _ hk => hk) (fun th _ => hm.newThread th.appId false)
    hm.createApplication (fun i ab habort => hm.signalDone fun haborted th info hth hs hinfo => ?_)
    hm h
  have hlast : m.isLast i = false := by simpa [Regular,habort haborted] using hc
  simpa [isLast,hth,hs,hinfo] using hlast

theorem length_step (hm : n ≤ m.apps.length) (h : m.next cfg l = .ok m') : n ≤ m'.apps.length := by
  refine step_keeps (P := fun m => n ≤ m.apps.length) (fun _ _ _ hk => hk) (fun _ _ hk => hk)
    (fun th _ => ?_) ?_ (fun i ab _ => ?_) hm h
  · rwa [length_newThread]
  · rw [createApplication,length_newThread]
    simp only [length_append]
    omega
  · refine signalDone_keeps (P := fun m => n ≤ m.apps.length) (fun _ _ h => h) hm (fun th info _ _ _ _ => ?_)
      fun th _ _ _ => by simpa [depart] using hm
    have hfinish : n ≤ ((m.depart i th).finishApp th.appId info).apps.length := by simpa [finishApp,depart] using hm
    exact endRun_keeps (P := fun m => n ≤ m.apps.length) hfinish fun _ => ⟨hfinish,by rwa [length_newThread]⟩

def launched (n k : Nat) : Manager := (range k).foldl (fun m a => m.newThread a true) (empty n)

theorem launched_succ (n k : Nat) : launched n (k + 1) = (launched n k).newThread k true := by
  rw [launched,range_succ,foldl_append]
  rfl

theorem length_launched (n k : Nat) : (launched n k).apps.length = n := by
  induction k with
  | zero => simp [launched,empty]
  | succ k ih => rw [launched_succ,length_newThread,ih]

theorem unstopped_launched (n k b : Nat) : (launched n k).unstopped b = if b < k then 1 else 0 := by
  induction k with
  | zero => rfl
  | succ k ih =>
    rw [launched_succ,unstopped_newThread,ih]
    split_ifs <;> omega

theorem counts_launched (n k b : Nat) (info : AppInfo) (h : (launched n k).apps[b]? = some info) :
    info.numThreads = 1 := by
  induction k generalizing info with
  | zero =>
    have hmem := mem_of_getElem? h
    obtain rfl := eq_of_mem_replicate hmem
    rfl
  | succ k ih =>
    rw [launched_succ] at h
    simp only [newThread,if_true] at h
    obtain ⟨old,hold,rfl⟩ := getElem?_modify_some h
    split_ifs
    · rfl
    · exact ih old hold

theorem counted_start (n : Nat) : Counted (start n) := by
  have hvalid : ∀ k ≤ n, ∀ th ∈ (launched n k).threads, th.appId < (launched n k).apps.length := by
    intro k hk
    induction k with
    | zero => simp [launched,empty]
    | succ k ih =>
      rw [launched_succ]
      exact valid_newThread (ih (by omega)) (by rw [length_launched]; omega) true
  refine ⟨hvalid n (Nat.le_refl n),fun b info hinfo => ?_⟩
  have hlt : b < n := by
    have := (List.getElem?_eq_some_iff.mp hinfo).1
    rwa [← length_launched n n]
  rw [counts_launched n n b info hinfo]
  show (1 : Int) = ((launched n n).unstopped b : Nat)
  rw [unstopped_launched,if_pos hlt]
  rfl

theorem settled_start (n : Nat) : Settled (start n) := by
  have hempty : Settled (empty n) := by
    refine ⟨by simp [empty,appInfo,countP_replicate],fun hzero => .inl ?_⟩
    rw [Int.natCast_eq_zero.mp hzero]
    rfl
  exact Run.foldl_invariant (fun m a hm => hm.newThread a true) hempty (range n)

theorem recorded_start (n : Nat) : Recorded (start n) := by
  have hempty : Recorded (empty n) := by
    intro info hinfo
    obtain rfl := eq_of_mem_replicate hinfo
    rfl
  exact Run.foldl_invariant (fun m a hm => hm.newThread a true) hempty (range n)

theorem done_of_drops (hs : Settled m) (hr : Recorded m) (hlen : m.apps ≠ [])
    (h : ∀ info ∈ m.apps, 0 < info.drops) : 0 < m.done := by
  have hzero : (m.apps.countP fun info => info.numRuns == 0) = 0 := by
    refine countP_eq_zero.mpr fun info hinfo => ?_
    have hpos := h info hinfo
    rw [← hr info hinfo] at hpos
    simp only [beq_iff_eq]
    omega
  have hnone : m.numAppsNonfinish = 0 := by
    rw [hs.nonfinish,hzero]
    rfl
  exact (hs.signalled hnone).resolve_left hlen

theorem application_completion (hn : 0 < n) (h : Run.Reaches (next cfg) Regular (start n) m) :
    (∀ (a : Nat) (info : AppInfo), m.apps[a]? = some info →
      info.numThreads = (m.unstopped a : Int) ∧ info.numRuns = info.drops) ∧
    ((∀ info ∈ m.apps, 0 < info.drops) → 0 < m.done) := by
  have hcounted : Counted m := h.invariant (fun _ _ _ hi _ hs => Counted.step hi hs) (counted_start n)
  have hsettled : Settled m := h.invariant (fun _ _ _ hi _ hs => Settled.step hi hs) (settled_start n)
  have hrecorded : Recorded m := h.invariant (fun _ _ _ hi hc hs => Recorded.step hi hc hs) (recorded_start n)
  have hlength : n ≤ m.apps.length :=
    h.invariant (I := fun m => n ≤ m.apps.length) (fun _ _ _ hi _ hs => length_step hi hs)
      (Nat.le_of_eq (length_launched n n).symm)
  refine ⟨fun a info hinfo => ⟨hcounted.counts a info hinfo,recorded_iff.mp hrecorded a info hinfo⟩,
    done_of_drops hsettled hrecorded fun hnil => ?_⟩
  rw [hnil] at hlength
  exact absurd hlength (Nat.not_le.mpr hn)
end

def orderlyEnd : List Label :=
  [.createThread 0,.exitGroup 0,.advance 0,.advance 0,.advance 0,.advance 0,.advance 0,.finish 0,
    .report 0,.finish 1,.report 1]

theorem exit_group_and_restart_completes : ∃ m : Manager, Run.Reaches (next ⟨false,true⟩) Regular (start 2) m ∧
    (∀ (a : Nat) (info : AppInfo), m.apps[a]? = some info →
      info.numThreads = (m.unstopped a : Int) ∧ info.numRuns = info.drops) ∧
    m.unstopped 0 = 1 ∧ (∀ info ∈ m.apps, 0 < info.drops) ∧ 0 < m.done := by
  have hsome : (Run.guided (next ⟨false,true⟩) Regular (start 2) orderlyEnd).isSome := by
    decide
  have hrun := Run.reaches_guided hsome
  obtain ⟨hbooks,hdone⟩ := application_completion (by decide) hrun
  have hdrops : ∀ info ∈ ((Run.guided (next ⟨false,true⟩) Regular (start 2) orderlyEnd).getD
      (start 2)).apps, 0 < info.drops := by decide
  exact ⟨_,hrun,hbooks,by decide,hdrops,hdone hdrops⟩

def mutualAbort : List Label :=
  [.createThread 0,.exitGroup 0,.exitGroup 1,.advance 0,.advance 0,.advance 0,.advance 1,.advance 1,
    .advance 0,.advance 1,.advance 1,.finish 0,.finish 1,.report 0,.report 1]

theorem mutual_abort_never_completes : ∃ m : Manager, Run.Reaches (next ⟨false,false⟩) (fun _ _ => True) (start 1) m ∧
    m.apps.map (fun info => (info.numThreads,info.numRuns,info.drops)) = [(0,0,1)] ∧
    m.done = 0 ∧ ∀ th ∈ m.threads, th.phase = .exited := by
  have hsome : (Run.guided (next ⟨false,false⟩) (fun _ _ => True) (start 1) mutualAbort).isSome := by decide
  exact ⟨_,Run.reaches_guided hsome,by decide,by decide,by decide⟩

end Manager
end TraceManager
