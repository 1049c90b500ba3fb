import SniperSim.Library.Forest
import SniperSim.Coherence.Waiters

open Function
namespace CacheStack
open Coherence

inductive StackAssertion
  | writeMiss | writebackNotModified | invalidateModified | invalidateAbsent | badTransition | alreadyPresent
  | dataGone | notValidInL1
deriving DecidableEq, Repr

inductive HitWhere
  | below | lastLevel | miss
deriving DecidableEq, Repr

variable {Addr ι D : Type}

def operationPermissibleinCache (op : MemOp D) (s : CacheState) : Bool :=
  if op.exclusive then LlcLine.writable s else LlcLine.readable s

def getCacheState (llc : CacheState) (f : ι → CacheState) : Option ι → CacheState
  | none => llc
  | some x => f x

def snoop (op : MemOp D) (s : CacheState) : Option CacheState :=
  if op.exclusive then some .invalid
  else if s = .modified then some .shared
  else if s = .exclusive then some .shared
  else none

def upgradeSnoop (s : CacheState) : Option CacheState :=
  if s = .shared then some .invalid else none

section
variable [DecidableEq ι] (H : Forest ι)

def writeCacheBlock (evicting : Option (Option ι)) (llc : CacheState) (f : ι → CacheState)
    (y : Option ι) : Except StackAssertion Unit :=
  if evicting = some y then .ok ()
  else if getCacheState llc f y = .invalid then .error .writeMiss
  else if getCacheState llc f y = .modified then .ok ()
  else .error .writebackNotModified

def invalidateCacheBlock (x : ι) (f : ι → CacheState) : Except StackAssertion (ι → CacheState) :=
  if f x = .modified then .error .invalidateModified
  else if f x = .invalid then .error .invalidateAbsent
  else .ok (update f x .invalid)

def dropCacheBlock (x : ι) (f : ι → CacheState) : Except StackAssertion (ι → CacheState) :=
  if f x = .invalid then .ok f else invalidateCacheBlock x f

def changeState (new : CacheState) (x : ι) (f : ι → CacheState) : Except StackAssertion (ι → CacheState) :=
  match new with
  | .invalid => invalidateCacheBlock x f
  | .shared => .ok (update f x .shared)
  | .modified => .ok (update f x .modified)
  | _ => .error .badTransition

def updateOwnBlock (evicting : Option (Option ι)) (llc new : CacheState) (x : ι)
    (f : ι → CacheState) : Except StackAssertion (ι → CacheState) :=
  if f x = .invalid then .ok f
  else if f x = .modified then do
    writeCacheBlock evicting llc f (H.next x)
    changeState new x (update f x .shared)
  else changeState new x f

def updateCacheBlock (evicting : Option (Option ι)) (llc new : CacheState) :
    Nat → ι → (ι → CacheState) → Except StackAssertion (ι → CacheState)
  | 0, x, f => updateOwnBlock H evicting llc new x f
  | k + 1, x, f => do
    let f ← (H.prev (some x)).foldlM (fun f y => updateCacheBlock evicting llc new k y f) f
    updateOwnBlock H evicting llc new x f

def updatePrevCaches (evicting : Option (Option ι)) (llc new : CacheState) (xs : List ι)
    (f : ι → CacheState) : Except StackAssertion (ι → CacheState) :=
  xs.foldlM (fun f x => updateCacheBlock H evicting llc new (H.height x) x f) f

def siblings (requester : ι) (y : Option ι) : List ι := (H.prev y).filter (· ≠ requester)

def snoopSiblings (llc : CacheState) (requester : ι) (y : Option ι) (new : Option CacheState)
    (f : ι → CacheState) : Except StackAssertion (ι → CacheState) :=
  match new with
  | none => .ok f
  | some s => updatePrevCaches H none llc s (siblings H requester y) f

def evictCacheBlock (llc : CacheState) (x : ι) (f : ι → CacheState) : Except StackAssertion (ι → CacheState) := do
  let g ← updatePrevCaches H (some (some x)) llc .invalid (H.prev (some x)) (update f x .invalid)
  if f x = .modified then do
    writeCacheBlock none llc g (H.next x)
    return g
  else return g
end

section
variable [DecidableEq Addr] [DecidableEq ι] (H : Forest ι)

def onLine (a : Addr) (g : (ι → CacheState) → Except StackAssertion (ι → CacheState))
    (m : Addr → ι → CacheState) : Except StackAssertion (Addr → ι → CacheState) := do
  let f ← g (m a)
  return update m a f

def insertCacheBlock (llc : Addr → CacheState) (a : Addr) (x : ι) (s : CacheState)
    (victim : Option Addr) (m : Addr → ι → CacheState) : Except StackAssertion (Addr → ι → CacheState) :=
  if m a x = .invalid then
    let m := update m a (update (m a) x s)
    match victim with
    | none => .ok m
    | some v =>
      if v = a ∨ m v x = .invalid then .ok m else onLine v (evictCacheBlock H (llc v) x) m
  else .error .alreadyPresent

def copyDataFromNextLevel (llc : Addr → CacheState) (op : MemOp D) (a : Addr) (x : ι)
    (victim : Option Addr) (m : Addr → ι → CacheState) : Except StackAssertion (Addr → ι → CacheState) :=
  let s := getCacheState (llc a) (m a) (H.next x)
  if operationPermissibleinCache op s then
    if m a x = .invalid then insertCacheBlock H llc a x s victim m
    else onLine a (updateCacheBlock H none (llc a) s (H.height x) x) m
  else .error .dataGone

def lastLevelAfter (op : MemOp D) (a : Addr) (w : HitWhere) (llc : Addr → CacheState) : Addr → CacheState :=
  if w = .lastLevel ∧ op.exclusive then update llc a .modified else llc

def processShmemReqFromPrevCache (llc : Addr → CacheState) (op : MemOp D) (a : Addr) (victims : ι → Option Addr) :
    ι → List ι → (Addr → ι → CacheState) → Except StackAssertion ((Addr → ι → CacheState) × HitWhere)
  | requester, [], m =>
    if operationPermissibleinCache op (llc a) then do
      let m ← onLine a (snoopSiblings H (llc a) requester none (snoop op (llc a))) m
      return (m,.lastLevel)
    else if llc a = .exclusive then do
      let m ← onLine a (snoopSiblings H (llc a) requester none (some .invalid)) m
      return (m,.lastLevel)
    else do
      let m ← onLine a (snoopSiblings H (llc a) requester none (upgradeSnoop (llc a))) m
      return (m,.miss)
  | requester, d :: ds, m =>
    if operationPermissibleinCache op (m a d) then do
      let m ← onLine a (snoopSiblings H (llc a) requester (some d) (snoop op (m a d))) m
      return (m,.below)
    else do
      let m ← onLine a (snoopSiblings H (llc a) requester (some d) (upgradeSnoop (m a d))) m
      let m ← onLine a (dropCacheBlock d) m
      let q ← processShmemReqFromPrevCache llc op a victims d ds m
      if q.2 = .miss then return q
      else do
        let m ← copyDataFromNextLevel H (lastLevelAfter op a q.2 llc) op a d (victims d) q.1
        return (m,q.2)

def fill (llc : Addr → CacheState) (op : MemOp D) (a : Addr) (victims : ι → Option Addr) (x : ι)
    (q : (Addr → ι → CacheState) × HitWhere) : Except StackAssertion ((Addr → ι → CacheState) × HitWhere) := do
  let m ← copyDataFromNextLevel H (lastLevelAfter op a q.2 llc) op a x (victims x) q.1
  if operationPermissibleinCache op (m a x) then return (m,q.2) else .error .notValidInL1

def processMemOpFromCore (llc : Addr → CacheState) (op : MemOp D) (a : Addr)
    (victims : ι → Option Addr) (x : ι) (m : Addr → ι → CacheState) :
    Except StackAssertion ((Addr → ι → CacheState) × HitWhere) :=
  if operationPermissibleinCache op (m a x) then .ok (m,.below)
  else do
    let m ← onLine a (dropCacheBlock x) m
    let q ← processShmemReqFromPrevCache H llc op a victims x (H.above x) m
    if q.2 = .miss then return q else fill H llc op a victims x q

def processMemOpAfterReply (llc : Addr → CacheState) (op : MemOp D) (a : Addr)
    (victims : ι → Option Addr) (x : ι) (m : Addr → ι → CacheState) :
    Except StackAssertion ((Addr → ι → CacheState) × HitWhere) := do
  let q ← processShmemReqFromPrevCache H llc op a victims x (H.above x) m
  if q.2 = .miss then .error .dataGone else fill H llc op a victims x q
end
end CacheStack
