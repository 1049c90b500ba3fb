import Mathlib.Logic.Function.Basic
import Mathlib.Tactic.SplitIfs

open Function List Option Bool

structure Key (V : Type) where
  (parentPath name : String)
  value : V
deriving DecidableEq, Repr

structure ConfigSection (V : Type) where
  fullPath : String
  caseSensitive : Bool
  keys : String → Option (Option (Key V))
  arrayKeys : String → Option (List (Option (Key V)))

namespace ConfigSection
variable {V : Type}

def new (fullPath : String) (caseSensitive : Bool) : ConfigSection V :=
  { fullPath, caseSensitive, keys := fun _ => none, arrayKeys := fun _ => none }

def iname (caseSensitive : Bool) (name : String) : String := if caseSensitive then name else name.toLower

def place (arr : Option (List (Option (Key V)))) (i : Nat) (key : Key V) : List (Option (Key V)) :=
  match arr with
  | none => (replicate (i + 1) none).set i (some key)
  | some arr =>
    if arr.length < i + 1 then (arr ++ replicate (i + 1 - arr.length) none).set i (some key)
    else (arr.set i none).set i (some key)

def slot (arr : Option (List (Option (Key V)))) (i : Nat) : Option (Key V) := (arr.bind fun arr => arr[i]?).join

variable (s : ConfigSection V)

def addKey (name : String) (value : V) (index : Option Nat) : ConfigSection V :=
  let n := iname s.caseSensitive name
  let key : Key V := ⟨s.fullPath,name,value⟩
  match index with
  | none =>
    { s with keys := update s.keys n (some (some key))
             arrayKeys := update s.arrayKeys n none }
  | some i => { s with arrayKeys := update s.arrayKeys n (some (place (s.arrayKeys n) i key)) }

def subscript (n : String) : Option (Key V) × ConfigSection V :=
  ((s.keys n).join,{ s with keys := update s.keys n (some (s.keys n).join) })

def getKey (name : String) (index : Option Nat) : Option (Key V) × ConfigSection V :=
  let n := iname s.caseSensitive name
  match index with
  | none => s.subscript n
  | some i =>
    match slot (s.arrayKeys n) i with
    | some key => (some key,s)
    | none => s.subscript n

def hasKey (name : String) (index : Option Nat) : Bool :=
  let n := iname s.caseSensitive name
  match index with
  | none => (s.keys n).isSome || (s.arrayKeys n).isSome
  | some i => (slot (s.arrayKeys n) i).isSome || (s.keys n).isSome

def configGetKey (path name : String) (index : Option Nat) : Except String (Option (Key V) × ConfigSection V) :=
  if s.hasKey name index then .ok (s.getKey name index)
  else .error (match index with
    | none => "Configuration value " ++ path ++ " not found."
    | some i => "Configuration value " ++ path ++ "[" ++ toString i ++ "] not found.")

inductive Call (V : Type)
  | addKey (name : String) (value : V) (index : Option Nat)
  | hasKey (name : String) (index : Option Nat)
  | getKey (name : String) (index : Option Nat)
deriving DecidableEq, Repr

open Call

def step : Call V → ConfigSection V
  | .addKey name value index => s.addKey name value index
  | .hasKey _ _ => s
  | .getKey name index => (s.getKey name index).2

def run (fullPath : String) (caseSensitive : Bool) (calls : List (Call V)) : ConfigSection V :=
  calls.foldl step (new fullPath caseSensitive)

namespace Call
variable (fullPath : String) (caseSensitive : Bool) (n : String)

def plain : Call V → Option (Key V)
  | .addKey name value none => if iname caseSensitive name = n then some ⟨fullPath,name,value⟩ else none
  | _ => none

def indexed (i : Nat) : Call V → Option (Key V)
  | .addKey name value (some j) =>
    if iname caseSensitive name = n ∧ j = i then some ⟨fullPath,name,value⟩ else none
  | _ => none

def isAdd : Call V → Bool
  | .addKey _ _ _ => true
  | _ => false

def leans : Call V → Bool
  | .addKey name _ (some _) | .getKey name _ => iname caseSensitive name == n
  | _ => false

end Call

def latest (fullPath : String) (caseSensitive : Bool) (n : String) (newest : List (Call V)) :
    Option Nat → Option (Key V)
  | none => newest.findSome? (plain fullPath caseSensitive n)
  | some i =>
    ((newest.takeWhile fun c => (c.plain fullPath caseSensitive n).isNone).findSome?
      (indexed fullPath caseSensitive n i)).or (newest.findSome? (plain fullPath caseSensitive n))

structure Faithful (fullPath : String) (caseSensitive : Bool) (calls : List (Call V)) : Prop where
  exists_iff : ∀ name index, (run fullPath caseSensitive calls).hasKey name index ↔
    ((run fullPath caseSensitive calls).getKey name index).1.isSome
  value : ∀ name index, (run fullPath caseSensitive calls).hasKey name index →
    ((run fullPath caseSensitive calls).getKey name index).1 =
      latest fullPath caseSensitive (iname caseSensitive name) calls.reverse index
  lookups : ∀ name index, (run fullPath caseSensitive calls).hasKey name index =
        (run fullPath caseSensitive (calls.filter isAdd)).hasKey name index ∧
      ((run fullPath caseSensitive calls).getKey name index).1 =
        ((run fullPath caseSensitive (calls.filter isAdd)).getKey name index).1

def Based (fullPath : String) (caseSensitive : Bool) (calls : List (Call V)) : Prop :=
  ∀ n, calls.any (leans caseSensitive n) → calls.any (fun c => (c.plain fullPath caseSensitive n).isSome)

section
variable {arr : Option (List (Option (Key V)))} {i j : Nat} {key : Key V}

theorem join_getElem?_replicate (m j : Nat) : ((replicate m (none : Option (Key V)))[j]?).join = none := by
  rw [getElem?_replicate]
  split_ifs <;> rfl

theorem join_getElem?_grow (l : List (Option (Key V))) (m j : Nat) :
    ((l ++ replicate m none)[j]?).join = (l[j]?).join := by
  rcases Nat.lt_or_ge j l.length with h | h
  · rw [getElem?_append_left h]
  · rw [getElem?_append_right h,join_getElem?_replicate,getElem?_eq_none h]
    rfl

theorem join_getElem?_set {l : List (Option (Key V))} (h : i < l.length) (j : Nat) :
    ((l.set i (some key))[j]?).join = if j = i then some key else (l[j]?).join := by
  by_cases hji : j = i
  · subst hji
    rw [getElem?_set_self h,if_pos rfl]
    rfl
  · rw [getElem?_set_ne (Ne.symm hji),if_neg hji]

theorem slot_place : slot (some (place arr i key)) j = if j = i then some key else slot arr j := by
  change ((place arr i key)[j]?).join = _
  cases arr with
  | none =>
    rw [place,join_getElem?_set (by simp),join_getElem?_replicate]
    rfl
  | some l =>
    rw [place]
    split
    · rw [join_getElem?_set (by simp; omega),join_getElem?_grow]
      rfl
    · rw [join_getElem?_set (by simp; omega)]
      by_cases hji : j = i
      · rw [if_pos hji,if_pos hji]
      · rw [if_neg hji,if_neg hji,getElem?_set_ne (Ne.symm hji)]
        rfl
end

def pointer (n : String) : Option Nat → Option (Key V)
  | none => (s.keys n).join
  | some i => (slot (s.arrayKeys n) i).or (s.keys n).join

section
variable {s} {n name : String} {value : V}

theorem getKey_fst (name : String) (index : Option Nat) :
    (s.getKey name index).1 = s.pointer (iname s.caseSensitive name) index := by
  cases index with
  | none => rfl
  | some i =>
    rw [getKey,pointer]
    cases slot (s.arrayKeys (iname s.caseSensitive name)) i <;> rfl

structure Writes (s : ConfigSection V) (c : Call V) (n : String) (s' : ConfigSection V) : Prop where
  fullPath : s'.fullPath = s.fullPath
  caseSensitive : s'.caseSensitive = s.caseSensitive
  plain : ∀ key, c.plain s.fullPath s.caseSensitive n = some key → s'.keys n = some (some key) ∧ s'.arrayKeys n = none
  keys : c.plain s.fullPath s.caseSensitive n = none → (s'.keys n).join = (s.keys n).join
  slots : c.plain s.fullPath s.caseSensitive n = none → ∀ i, slot (s'.arrayKeys n) i =
    (c.indexed s.fullPath s.caseSensitive n i).or (slot (s.arrayKeys n) i)
  found : c.plain s.fullPath s.caseSensitive n = none → ((s'.keys n).isSome || (s'.arrayKeys n).isSome) =
    (c.leans s.caseSensitive n || ((s.keys n).isSome || (s.arrayKeys n).isSome))

theorem writes_addKey_plain (n : String) : Writes s (.addKey name value none) n (s.addKey name value none) := by
  by_cases h : iname s.caseSensitive name = n
  · subst h
    refine ⟨rfl,rfl,fun key hkey => ?_,fun hnone => ?_,fun hnone => ?_,fun hnone => ?_⟩
    · simp only [plain,if_true,some.injEq] at hkey
      subst hkey
      simp [addKey]
    all_goals simp [plain] at hnone
  · have hkeys : (s.addKey name value none).keys n = s.keys n := update_of_ne (Ne.symm h) _ _
    have harray : (s.addKey name value none).arrayKeys n = s.arrayKeys n := update_of_ne (Ne.symm h) _ _
    refine ⟨rfl,rfl,fun key hkey => ?_,fun _ => by rw [hkeys],fun _ i => by rw [harray]; rfl,
      fun _ => by rw [hkeys,harray]; rfl⟩
    simp [plain,h] at hkey

theorem writes_addKey_indexed (j : Nat) (n : String) :
    Writes s (.addKey name value (some j)) n (s.addKey name value (some j)) := by
  by_cases h : iname s.caseSensitive name = n
  · subst h
    have harray : (s.addKey name value (some j)).arrayKeys (iname s.caseSensitive name) =
        some (place (s.arrayKeys (iname s.caseSensitive name)) j ⟨s.fullPath,name,value⟩) :=
      update_self ..
    refine ⟨rfl,rfl,fun key hkey => absurd hkey.symm (some_ne_none key),fun _ => rfl,fun _ i => ?_,fun _ => ?_⟩
    · rw [harray,slot_place]
      by_cases hij : i = j
      · simp [indexed,hij]
      · simp [indexed,hij,Ne.symm hij]
    · rw [harray]
      simp [leans]
  · have harray : (s.addKey name value (some j)).arrayKeys n = s.arrayKeys n := update_of_ne (Ne.symm h) _ _
    refine ⟨rfl,rfl,fun key hkey => absurd hkey.symm (some_ne_none key),fun _ => rfl,fun _ i => ?_,fun _ => ?_⟩
    · rw [harray]
      simp [indexed,h]
    · rw [harray]
      simp [leans,h,addKey]

theorem keys_subscript (m n : String) : (s.subscript m).2.keys n =
    if n = m then some (s.keys n).join else s.keys n := by
  by_cases h : n = m
  · subst h
    rw [if_pos rfl]
    exact update_self ..
  · rw [if_neg h]
    exact update_of_ne h _ _

theorem writes_subscript (index : Option Nat) (n : String) :
    Writes s (.getKey name index) n (s.subscript (iname s.caseSensitive name)).2 := by
  refine ⟨rfl,rfl,fun key hkey => absurd hkey.symm (some_ne_none key),fun _ => ?_,fun _ i => rfl,fun _ => ?_⟩
  · rw [keys_subscript]
    split_ifs <;> simp
  · rw [keys_subscript]
    by_cases h : n = iname s.caseSensitive name
    · simp [leans,h]
    · simp [leans,h,Ne.symm h,subscript]

theorem writes_getKey (index : Option Nat) (n : String) : Writes s (.getKey name index) n (s.getKey name index).2 := by
  cases index with
  | none => exact writes_subscript none n
  | some i =>
    rw [getKey]
    cases hslot : slot (s.arrayKeys (iname s.caseSensitive name)) i with
    | none => exact writes_subscript (some i) n
    | some key =>
      have harray : (s.arrayKeys (iname s.caseSensitive name)).isSome := by
        cases ha : s.arrayKeys (iname s.caseSensitive name) with
        | none => simp [slot,ha] at hslot
        | some arr => rfl
      refine ⟨rfl,rfl,fun key hkey => absurd hkey.symm (some_ne_none key),fun _ => rfl,fun _ i => rfl,fun _ => ?_⟩
      by_cases h : iname s.caseSensitive name = n
      · subst h
        simp [harray]
      · simp [leans,h]

theorem writes_step (c : Call V) (n : String) : Writes s c n (s.step c) := by
  cases c with
  | addKey name value index =>
    cases index with
    | none => exact writes_addKey_plain n
    | some j => exact writes_addKey_indexed j n
  | hasKey name index =>
    exact ⟨rfl,rfl,fun key hkey => absurd hkey.symm (some_ne_none key),fun _ => rfl,fun _ i => rfl,fun _ => rfl⟩
  | getKey name index => exact writes_getKey index n
end

variable {c : Call V} {newest : List (Call V)}
section
variable {n : String} {s}

theorem latest_cons_of_plain (h : c.plain p cs n = some key) (newest : List (Call V)) (index : Option Nat) :
    latest p cs n (c :: newest) index = some key := by
  cases index <;> simp [latest,h]

theorem latest_cons (h : c.plain p cs n = none) (newest : List (Call V))
    (index : Option Nat) : latest p cs n (c :: newest) index =
      (index.bind fun i => c.indexed p cs n i).or (latest p cs n newest index) := by
  cases index with
  | none => simp [latest,h]
  | some i =>
    simp only [latest,findSome?_cons,h,takeWhile_cons,isNone_none,if_true,bind_some]
    cases c.indexed p cs n i <;> simp

structure Reflects (fullPath : String) (caseSensitive : Bool) (newest : List (Call V))
    (s : ConfigSection V) : Prop where
  path : s.fullPath = fullPath
  sensitive : s.caseSensitive = caseSensitive
  pointer : ∀ n index, s.pointer n index = latest fullPath caseSensitive n newest index
  found : ∀ n, latest fullPath caseSensitive n newest none = none →
    ((s.keys n).isSome || (s.arrayKeys n).isSome) = newest.any (leans caseSensitive n)

theorem Reflects.step (h : Reflects p cs newest s) (c : Call V) : Reflects p cs (c :: newest) (s.step c) := by
  obtain ⟨rfl,rfl,hpointer,hfound⟩ := h
  have hw := fun n => writes_step (s := s) c n
  refine ⟨(hw "").fullPath,(hw "").caseSensitive,fun n index => ?_,fun n hlatest => ?_⟩
  · cases hc : c.plain s.fullPath s.caseSensitive n with
    | some key =>
      obtain ⟨hkeys,harray⟩ := (hw n).plain key hc
      rw [latest_cons_of_plain hc]
      cases index <;> simp [ConfigSection.pointer,hkeys,harray,slot]
    | none =>
      rw [latest_cons hc,← hpointer]
      cases index with
      | none => exact (hw n).keys hc
      | some i =>
        rw [ConfigSection.pointer,ConfigSection.pointer,(hw n).slots hc i,(hw n).keys hc,Option.or_assoc]
        rfl
  · cases hc : c.plain s.fullPath s.caseSensitive n with
    | some key =>
      rw [latest_cons_of_plain hc] at hlatest
      exact absurd hlatest (some_ne_none key)
    | none =>
      rw [latest_cons hc,bind_none,none_or] at hlatest
      rw [(hw n).found hc,hfound n hlatest,any_cons]

theorem reflects_run (p : String) (cs : Bool) (calls : List (Call V)) :
    Reflects p cs calls.reverse (run p cs calls) := by
  rw [run,← foldr_reverse]
  induction calls.reverse with
  | nil => exact ⟨rfl,rfl,fun n index => by cases index <;> rfl,fun n _ => rfl⟩
  | cons c newest ih => exact ih.step c

theorem latest_filter_isAdd (newest : List (Call V)) (index : Option Nat) :
    latest p cs n (newest.filter isAdd) index = latest p cs n newest index := by
  induction newest with
  | nil => rfl
  | cons c newest ih =>
    cases hadd : c.isAdd with
    | true =>
      rw [filter_cons_of_pos hadd]
      cases hc : c.plain p cs n with
      | some key => rw [latest_cons_of_plain hc,latest_cons_of_plain hc]
      | none => rw [latest_cons hc,latest_cons hc,ih]
    | false =>
      have hnone : c.plain p cs n = none ∧ ∀ i, c.indexed p cs n i = none := by
        cases c with
        | addKey name value index => exact Bool.noConfusion hadd
        | hasKey name index | getKey name index => exact ⟨rfl,fun _ => rfl⟩
      rw [filter_cons_of_neg (by simp [hadd]),ih,latest_cons hnone.1]
      cases index <;> simp [*]

theorem latest_none_eq_none (newest : List (Call V)) : latest p cs n newest none = none ↔
      newest.any (fun c => (c.plain p cs n).isSome) = false := by
  simp [latest,findSome?_eq_none_iff]
end

section
variable {s} {calls : List (Call V)}

theorem hasKey_of_plain (h : Reflects p cs newest s) (hplain : latest p cs (iname cs name) newest none ≠ none)
    (index : Option Nat) : s.hasKey name index ∧ (s.getKey name index).1.isSome := by
  have hkeys := h.pointer (iname cs name) none
  obtain ⟨key,hkey⟩ := ne_none_iff_exists'.mp hplain
  rw [hkey] at hkeys
  change (s.keys (iname cs name)).join = some key at hkeys
  have hsome : (s.keys (iname cs name)).isSome := by
    cases hk : s.keys (iname cs name) with
    | none => simp [hk] at hkeys
    | some _ => rfl
  rw [getKey_fst,h.sensitive]
  cases index with
  | none | some i => simp [hasKey,h.sensitive,pointer,hkeys,hsome]

theorem hasKey_of_unused (h : Reflects p cs newest s) (hplain : latest p cs (iname cs name) newest none = none)
    (hunused : newest.any (leans cs (iname cs name)) = false) (index : Option Nat) :
    s.hasKey name index = false ∧ (s.getKey name index).1.isSome = false := by
  have hfound := h.found _ hplain
  rw [hunused,or_eq_false_iff] at hfound
  have hkeys := isSome_eq_false_iff.mp hfound.1
  have harray := isSome_eq_false_iff.mp hfound.2
  rw [isNone_iff_eq_none] at hkeys harray
  rw [getKey_fst,h.sensitive]
  cases index <;> simp [*,hasKey,h.sensitive,pointer,slot]

theorem exists_name (h : c.leans cs n) : ∃ name, iname cs name = n := by
  cases c with
  | addKey name value index =>
    cases index with
    | none => exact Bool.noConfusion h
    | some i => exact ⟨name,by simpa [leans] using h⟩
  | hasKey name index => exact Bool.noConfusion h
  | getKey name index => exact ⟨name,by simpa [leans] using h⟩

theorem based_of_exists_iff (h : ∀ name index, (run p cs calls).hasKey name index ↔
    ((run p cs calls).getKey name index).1.isSome) : Based p cs calls := by
  intro n hleans
  have hr := reflects_run p cs calls
  obtain ⟨c,-,hc⟩ := List.any_eq_true.mp hleans
  obtain ⟨name,rfl⟩ := exists_name hc
  by_contra hplain
  rw [not_eq_true,← any_reverse,← latest_none_eq_none] at hplain
  have hhas : (run p cs calls).hasKey name none := by
    rw [hasKey,hr.sensitive]
    exact (hr.found _ hplain).trans (by rw [any_reverse,hleans])
  have hget := (h name none).mp hhas
  rw [getKey_fst,hr.sensitive,hr.pointer,hplain] at hget
  exact Bool.noConfusion hget

theorem getKey_run (p : String) (cs : Bool) (calls : List (Call V)) (name : String)
    (index : Option Nat) : ((run p cs calls).getKey name index).1 =
      latest p cs (iname cs name) calls.reverse index := by
  have hr := reflects_run p cs calls
  rw [getKey_fst,hr.sensitive,hr.pointer]

theorem Based.hasKey (h : Based p cs calls) (name : String) (index : Option Nat) : (run p cs calls).hasKey name index =
        ((run p cs calls).getKey name index).1.isSome ∧
      (run p cs calls).hasKey name index = (run p cs (calls.filter isAdd)).hasKey name index := by
  have hr := reflects_run p cs calls
  have hr' := reflects_run p cs (calls.filter isAdd)
  rw [← filter_reverse] at hr'
  by_cases hplain : latest p cs (iname cs name) calls.reverse none = none
  · have hunused : calls.reverse.any (leans cs (iname cs name)) = false := by
      rw [any_reverse,← not_eq_true]
      intro hleans
      have hbased := h _ hleans
      rw [latest_none_eq_none,any_reverse,hbased] at hplain
      exact Bool.noConfusion hplain
    have hunused' : (calls.reverse.filter isAdd).any (leans cs (iname cs name)) = false := by
      rw [List.any_eq_false] at hunused ⊢
      exact fun c hc => hunused c ((mem_filter.mp hc).1)
    obtain ⟨hhas,hget⟩ := hasKey_of_unused hr hplain hunused index
    obtain ⟨hhas',-⟩ := hasKey_of_unused hr' ((latest_filter_isAdd _ _).trans hplain) hunused' index
    exact ⟨hhas.trans hget.symm,hhas.trans hhas'.symm⟩
  · obtain ⟨hhas,hget⟩ := hasKey_of_plain hr hplain index
    obtain ⟨hhas',-⟩ := hasKey_of_plain hr' (fun hnone => hplain ((latest_filter_isAdd _ _).symm.trans hnone)) index
    exact ⟨hhas.trans hget.symm,hhas.trans hhas'.symm⟩

theorem faithful_iff_based (fullPath : String) (caseSensitive : Bool) (calls : List (Call V)) :
    Faithful fullPath caseSensitive calls ↔ Based fullPath caseSensitive calls := by
  refine ⟨fun h => based_of_exists_iff h.exists_iff,fun h => ⟨fun name index => ?_,fun name index _ => ?_,
    fun name index => ⟨(h.hasKey name index).2,?_⟩⟩⟩
  · rw [(h.hasKey name index).1]
  · exact getKey_run fullPath caseSensitive calls name index
  · rw [getKey_run,getKey_run,← filter_reverse,latest_filter_isAdd]

theorem Based.configGetKey (h : Based p cs calls) (path name : String) (index : Option Nat) :
    (∃ key s', (run p cs calls).configGetKey path name index = .ok (some key,s') ∧
      latest p cs (iname cs name) calls.reverse index = some key) ∨
    ∃ message, (run p cs calls).configGetKey path name index = .error message := by
  unfold ConfigSection.configGetKey
  cases hhas : (run p cs calls).hasKey name index with
  | false => exact .inr ⟨_,rfl⟩
  | true =>
    have hsome := (h.hasKey name index).1.symm.trans hhas
    rw [getKey_run] at hsome
    obtain ⟨key,hkey⟩ := isSome_iff_exists.mp hsome
    refine .inl ⟨key,((run p cs calls).getKey name index).2,?_,hkey⟩
    rw [if_pos rfl,← hkey,← getKey_run]

def indexedOnly : List (Call Nat) := [.addKey "size" 512 (some 0)]

theorem indexed_only_is_null : (run "cache" false indexedOnly).hasKey "size" none = true ∧
      ((run "cache" false indexedOnly).getKey "size" none).1 = none ∧
      (run "cache" false indexedOnly).hasKey "size" (some 1) = false ∧
      (run "cache" false (indexedOnly ++ [.getKey "size" none])).hasKey "size" (some 1) = true ∧
      ¬Faithful "cache" false indexedOnly := by
  have hhas : (run "cache" false indexedOnly).hasKey "size" none := by
    simp [run,indexedOnly,step,addKey,new,hasKey]
  have hget : ((run "cache" false indexedOnly).getKey "size" none).1 = none := by
    simp [run,indexedOnly,step,addKey,new,getKey,subscript]
  refine ⟨hhas,hget,?_,?_,fun h => ?_⟩
  · simp [run,indexedOnly,step,addKey,new,hasKey,slot,place]
  · simp [run,indexedOnly,step,addKey,new,hasKey,getKey,subscript]
  · have hsome := (h.exists_iff "size" none).mp hhas
    exact Bool.noConfusion hsome
end
end ConfigSection
