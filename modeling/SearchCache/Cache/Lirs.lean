import SearchCache.Cache.Dlirs
import Mathlib.Data.List.Count
import Mathlib.Logic.Function.Iterate

/-! The cache as an algorithm on keys: a stack of recently used keys, a queue of resident HIR keys
and what is known about each key.  There are no tables or references here, and of the counters only
that of the demotions, on which the limits depend.  `WF` is what all operations keep, for requests
of keys that the cache does not track and for lookups of keys in the stack or unknown. -/

namespace SearchCache

/-- What an entry says about its key. -/
structure Info (V : Type) where
  isLIR : Bool
  isDemoted : Bool
  inCache : Bool
  value : Option V

structure Lirs (K V : Type) where
  cacheSize : Nat
  hirsLimit : Int
  lirsLimit : Int
  demoted : Nat
  stack : List K
  hirs : List K
  queue : List K
  info : K → Info V

namespace Lirs

variable {K V : Type}

def lirCount (a : Lirs K V) : Nat := a.stack.countP fun k => (a.info k).isLIR

def ghostCount (a : Lirs K V) : Nat := a.stack.countP fun k => !(a.info k).inCache

def demotedCount (a : Lirs K V) : Nat := a.queue.countP fun k => (a.info k).isDemoted

def residents (a : Lirs K V) : Nat := a.queue.length + a.lirCount

variable [DecidableEq K]

def setInfo (a : Lirs K V) (k : K) (f : Info V → Info V) : Lirs K V :=
  { a with info := Function.update a.info k (f (a.info k)) }

/-- Drop the HIR keys below the first LIR key of the stack. -/
def prune (a : Lirs K V) : Lirs K V :=
  { a with
    stack := a.stack.dropWhile fun k => !(a.info k).isLIR
    hirs := a.hirs.filter fun k => k ∉ a.stack.takeWhile fun k => !(a.info k).isLIR }

/-- Make the LIR key at the bottom of the stack a HIR key. -/
def demote (a : Lirs K V) : Lirs K V :=
  match a.stack with
  | [] => a
  | k :: rest =>
    prune (setInfo { a with
      demoted := a.demoted + 1
      stack := rest
      queue := a.queue ++ [k] } k
      fun i => { i with isLIR := false, isDemoted := true })

/-- Make room for one more LIR key.  Without a limit of at least 1 there never is. -/
def demoteAll (a : Lirs K V) : Option (Lirs K V) :=
  if a.lirsLimit.toNat = 0 then none
  else some (demote^[a.lirCount + 1 - a.lirsLimit.toNat] a)

/-- Evict the first key of the queue, which stays in the stack as a ghost. -/
def evict (a : Lirs K V) : Option (K × Lirs K V) :=
  match a.queue with
  | [] => none
  | k :: rest =>
    some (k, setInfo { a with
      demoted := if (a.info k).isDemoted then dec a.demoted else a.demoted
      queue := rest } k fun i =>
      { i with isDemoted := false, inCache := if k ∈ a.stack then false else i.inCache })

def makeRoom (a : Lirs K V) : Option (Option K × Lirs K V) :=
  if a.cacheSize ≤ a.residents then a.evict.map fun (k, a) => (some k, a) else some (none, a)

/-- Forget the oldest HIR key of the stack. -/
def forget (a : Lirs K V) : Lirs K V :=
  match a.hirs with
  | [] => a
  | k :: rest => { a with hirs := rest, stack := a.stack.erase k }

/-- `pruneSize`, in `int` arithmetic. -/
def excess (a : Lirs K V) : Nat :=
  (toInt32 (toInt32 a.queue.length + toInt32 a.lirCount + toInt32 a.ghostCount -
    toInt32 a.cacheSize * 2)).toNat

def limitStack (a : Lirs K V) : Option (Lirs K V) :=
  if a.excess ≤ a.hirs.length then some (forget^[a.excess] a) else none

def hitLir (a : Lirs K V) (k : K) : Lirs K V :=
  let moved := { a with stack := a.stack.erase k ++ [k] }
  if a.stack.head? = some k then prune moved else moved

/-- The limits after a hit on a ghost. -/
def grow (a : Lirs K V) : Lirs K V :=
  let hirsLimit := toFloat (grownLimit a.cacheSize a.hirsLimit a.demoted a.ghostCount)
  { a with hirsLimit, lirsLimit := toFloat (toFloat a.cacheSize - hirsLimit) }

def detach (a : Lirs K V) (k : K) : Lirs K V :=
  { a with stack := a.stack.erase k, hirs := a.hirs.erase k, queue := a.queue.erase k }

/-- Take a HIR key out of the stack to make it a LIR key. -/
def promote (a : Lirs K V) (k : K) : Lirs K V :=
  setInfo ((if (a.info k).inCache then a else a.grow).detach k) k
    fun i => { i with isLIR := true, inCache := true }

def hitHir (a : Lirs K V) (k : K) : Option (Option K × Lirs K V) := do
  let a ← (a.promote k).demoteAll
  let (evicted, a) ← a.makeRoom
  return (evicted, { a with stack := a.stack ++ [k] })

def get (a : Lirs K V) (k : K) : Option (Option K × Lirs K V) :=
  if k ∈ a.stack then
    if (a.info k).isLIR then some (none, a.hitLir k) else a.hitHir k
  else some (none, a)

/-- A new key, in the queue as well as in the stack. -/
def addHir (a : Lirs K V) (k : K) (value : Option V) : Lirs K V :=
  { a with
    stack := a.stack ++ [k]
    hirs := a.hirs ++ [k]
    queue := a.queue ++ [k]
    info := Function.update a.info k
      { isLIR := false, isDemoted := false, inCache := true, value } }

def addLir (a : Lirs K V) (k : K) (value : Option V) : Lirs K V :=
  { a with
    stack := a.stack ++ [k]
    info := Function.update a.info k
      { isLIR := true, isDemoted := false, inCache := true, value } }

def request (a : Lirs K V) (k : K) (value : Option V) : Option (Option K × Lirs K V) :=
  if a.lirCount < a.lirsLimit.toNat ∧ a.queue = [] then some (none, a.addLir k value)
  else do
    let (evicted, a) ← a.makeRoom
    let a ← (a.addHir k value).limitStack
    return (evicted, a)

/-! ### The invariant -/

structure WF (a : Lirs K V) : Prop where
  stack_nodup : a.stack.Nodup
  hirs_nodup : a.hirs.Nodup
  queue_nodup : a.queue.Nodup
  mem_hirs : ∀ k, k ∈ a.hirs ↔ k ∈ a.stack ∧ (a.info k).isLIR = false
  queue_hir : ∀ k ∈ a.queue, (a.info k).isLIR = false
  queue_cached : ∀ k ∈ a.queue, k ∈ a.stack → (a.info k).inCache = true
  resident : ∀ k ∈ a.stack, (a.info k).isLIR = false → (a.info k).inCache = true → k ∈ a.queue
  lir_cached : ∀ k ∈ a.stack, (a.info k).isLIR = true → (a.info k).inCache = true

/-- The keys of the queue are in the cache, and all demoted keys are among them. -/
structure Queued (a : Lirs K V) : Prop where
  cached : ∀ k ∈ a.queue, (a.info k).inCache = true
  count : a.demoted = a.demotedCount
  out : ∀ k ∈ a.stack, (a.info k).isDemoted = false

/-- The bottom of the stack is a LIR key. -/
def Rooted (a : Lirs K V) : Prop := ∀ k rest, a.stack = k :: rest → (a.info k).isLIR = true

/-- The cache tracks the key. -/
def Tracked (a : Lirs K V) (k : K) : Prop := k ∈ a.stack ∨ k ∈ a.queue

end Lirs

end SearchCache
