import SearchCache.Cache.DqHashtable
import SearchCache.Lib.Loop
import Mathlib.Data.Rat.Defs

/-! `dlirs_entry.c` and `dlirs.c`.  The values of the tables are references to `DLIRSEntry` objects,
whose memory is part of the cache.  A function returns `none` where the source does not return: in
a loop that does not end, after `FATAL`, and where it reads through a pointer that nobody has set.
An object that `dlirs_entry_destroy` released is absent from the memory, and reading it finds the
NULL key that the destructor left.  The counters are natural numbers: each counts objects in
memory, so that only a decrement of 0 wraps around. -/

namespace SearchCache

abbrev Ref := Nat

/-- `DLIRSEntry`.  Its `length` is not read, and its `value_destroy_handler` is `result_destroy` in
all of them. -/
structure DLIRSEntry (V : Type) where
  isLIR : Bool
  isDemoted : Bool
  inCache : Bool
  referenceCounter : Nat
  key : Key
  value : Option V

/-- `DLIRS`, with the memory of its entries, the next reference that an allocation returns, and the
calls of `value_destroy_handler` so far.  The two limits are `float`s with integral values. -/
structure DLIRS (V : Type) where
  cacheSize : Nat
  hirsRatio : ℚ
  hirsLimit : Int
  lirsLimit : Int
  hirsCount : Nat
  lirsCount : Nat
  demoted : Nat
  nonResident : Nat
  lirs : DequeueHashTable Key Ref
  nonResidentHirs : DequeueHashTable Key Ref
  residentHirs : DequeueHashTable Key Ref
  heap : Ref → Option (DLIRSEntry V)
  fresh : Ref
  destroyed : List (Ref × Option V)

/-- Which of the allocations that `dlirs_request` makes succeed: the entry, with its key, and those
of the insertions into the three tables and of the insertions that demote. -/
structure DlirsAlloc where
  entry : Bool := true
  lirs : Alloc := {}
  nonResidentHirs : Alloc := {}
  residentHirs : Alloc := {}
  demoted : Alloc := {}

variable {V : Type}

/-! ### Arithmetic -/

/-- `n--` of a `size_t`. -/
def dec (n : Nat) : Nat := if n = 0 then 2 ^ 64 - 1 else n - 1

/-- The conversion of a `size_t` to `int`, and an `int` sum. -/
def toInt32 (n : Int) : Int := n.bmod (2 ^ 32)

/-- `rint`, which rounds a tie to the even integer. -/
def rint (q : ℚ) : Int :=
  let f := q.floor
  if q - f < 1 / 2 then f
  else if 1 / 2 < q - f then f + 1
  else if f % 2 = 0 then f else f + 1

/-- The conversion of an integer to `float`, whose significand has 24 bits. -/
def toFloat (n : Int) : Int :=
  let ulp : Nat := 2 ^ (n.natAbs.log2 - 23)
  rint (n / ulp) * ulp

/-- `fmin(cache_size - 1, limit + fmax(1, rint(a / b + 0.5)))`, where 0 / 0 is a NaN, which `fmax`
drops, and another quotient by 0 is infinite. -/
def grownLimit (cacheSize : Nat) (limit : Int) (a b : Nat) : Int :=
  if b = 0 then
    if a = 0 then min (cacheSize - 1) (limit + 1) else cacheSize - 1
  else min (cacheSize - 1) (limit + max 1 (rint ((a : ℚ) / b + 1 / 2)))

/-! ### Entries -/

def DLIRS.modify (cache : DLIRS V) (r : Ref) (f : DLIRSEntry V → DLIRSEntry V) : DLIRS V :=
  { cache with heap := Function.update cache.heap r ((cache.heap r).map f) }

/-- `dlirs_entry_create`, which returns NULL when an allocation fails. -/
def dlirsEntryCreate (ok : Bool) (cache : DLIRS V) (key : Key) (value : Option V) :
    Option Ref × DLIRS V :=
  if ok then
    (some cache.fresh, { cache with
      heap := Function.update cache.heap cache.fresh (some {
        isLIR := false, isDemoted := false, inCache := true, referenceCounter := 1, key, value })
      fresh := cache.fresh + 1 })
  else (none, cache)

/-- `dlirs_entry_reference_copy`. -/
def dlirsEntryReferenceCopy (cache : DLIRS V) (other : Option Ref) : Option Ref × DLIRS V :=
  match other with
  | none => (none, cache)
  | some r =>
    match cache.heap r with
    | none => (none, cache)
    | some _ =>
      (some r, cache.modify r fun e => { e with referenceCounter := e.referenceCounter + 1 })

/-- `dlirs_entry_destroy`, and `entry_destroy_handler`, whose second argument is the address of an
entry and so never that of the value. -/
def dlirsEntryDestroy (cache : DLIRS V) (entry : Option Ref) : DLIRS V :=
  match entry with
  | none => cache
  | some r =>
    match cache.heap r with
    | none => cache
    | some e =>
      if dec e.referenceCounter = 0 then
        { cache with
          heap := Function.update cache.heap r none
          destroyed := cache.destroyed ++ [(r, e.value)] }
      else cache.modify r fun e => { e with referenceCounter := dec e.referenceCounter }

/-! ### The three tables -/

/-- `dlirs_create`, where the allocations succeed. -/
def dlirsCreate (htSize cacheSize : Nat) (comparator : Option (KeyComparator Key Ref))
    (hirsRatio : ℚ) : DLIRS V :=
  let hirsLimit := toFloat (max 1 (rint (cacheSize * hirsRatio + 1 / 2)))
  { cacheSize
    hirsRatio
    hirsLimit
    lirsLimit := toFloat (toFloat cacheSize - hirsLimit)
    hirsCount := 0
    lirsCount := 0
    demoted := 0
    nonResident := 0
    lirs := dqhtCreate htSize comparator
    nonResidentHirs := dqhtCreate htSize comparator
    residentHirs := dqhtCreate htSize comparator
    heap := fun _ => none
    fresh := 0
    destroyed := [] }

/-- The tables of the cache. -/
inductive Table
  | lirs
  | nonResidentHirs
  | residentHirs
  deriving DecidableEq

def DLIRS.table (cache : DLIRS V) : Table → DequeueHashTable Key Ref
  | .lirs => cache.lirs
  | .nonResidentHirs => cache.nonResidentHirs
  | .residentHirs => cache.residentHirs

def DLIRS.setTable (cache : DLIRS V) (table : Table) (dqht : DequeueHashTable Key Ref) : DLIRS V :=
  match table with
  | .lirs => { cache with lirs := dqht }
  | .nonResidentHirs => { cache with nonResidentHirs := dqht }
  | .residentHirs => { cache with residentHirs := dqht }

/-- `dqht_insert` into a table of the cache, with its handler. -/
def DLIRS.insert (cache : DLIRS V) (table : Table) (ok : Alloc) (key : Key) (r : Option Ref) :
    Option (Int × DLIRS V) :=
  (dqhtInsert ok (cache.table table) key r).map fun i =>
    (i.code, dlirsEntryDestroy (cache.setTable table i.table) i.overridden)

/-- `dqht_remove` from a table of the cache, which stores the removed reference. -/
def DLIRS.remove (cache : DLIRS V) (table : Table) (key : Key) : Int × Option Ref × DLIRS V :=
  let (code, removed, dqht) := dqhtRemove (cache.table table) key
  (code, removed, cache.setTable table dqht)

/-- `dqht_pop_front` of a table of the cache. -/
def DLIRS.popFront (cache : DLIRS V) (table : Table) : Option Ref × DLIRS V :=
  let (front, dqht) := dqhtPopFront (cache.table table)
  (front, cache.setTable table dqht)

def dlirsContains (cache : DLIRS V) (key : Key) : Bool :=
  let resident : Bool :=
    match (dqhtGet cache.residentHirs key).bind cache.heap with
    | some e => e.value.isSome
    | none => false
  match (dqhtGet cache.lirs key).bind cache.heap with
  | some e => if e.inCache then e.value.isSome else resident
  | none => resident

/-- `cache->hirs_count + cache->lirs_count`. -/
def DLIRS.residents (cache : DLIRS V) : Nat := cache.hirsCount + cache.lirsCount

def dlirsIsFull (cache : DLIRS V) : Bool := cache.residents = cache.cacheSize

/-! ### Limits -/

def dlirsResize (cache : DLIRS V) (hitNonresidentHir : Bool) : DLIRS V :=
  if hitNonresidentHir then
    let hirsLimit :=
      toFloat (grownLimit cache.cacheSize cache.hirsLimit cache.demoted cache.nonResident)
    { cache with hirsLimit, lirsLimit := toFloat (toFloat cache.cacheSize - hirsLimit) }
  else
    let lirsLimit :=
      toFloat (grownLimit cache.cacheSize cache.lirsLimit cache.nonResident cache.demoted)
    { cache with lirsLimit, hirsLimit := toFloat (toFloat cache.cacheSize - lirsLimit) }

/-! ### Pruning -/

/-- One iteration of `dlirs_prune`. -/
def dlirsPruneStep (cache : DLIRS V) : Option (Loop.Step (DLIRS V)) :=
  if cache.lirs.ht.count = 0 then some (.done cache)
  else do
    let front ← dqhtGetFront cache.lirs
    let entry ← cache.heap front
    if entry.isLIR then return .done cache
    let (code, entry1, cache) := cache.remove .lirs entry.key
    if code ≠ 0 then none
    let cache := dlirsEntryDestroy cache entry1
    -- The key of the entry is read once more.
    let entry ← cache.heap front
    let (_, entry1, cache) := cache.remove .nonResidentHirs entry.key
    let cache := dlirsEntryDestroy cache entry1
    if entry.inCache then return .next cache
    return .next { cache with nonResident := dec cache.nonResident }

/-- `dlirs_prune`.  Every iteration takes an entry out of `lirs`. -/
def dlirsPrune (cache : DLIRS V) : Option (DLIRS V) :=
  Loop.run dlirsPruneStep (cache.lirs.ht.count + 1) cache

/-- The loop of `dlirs_limit_stack`, with the `pruneSize` that is left. -/
def dlirsLimitStackLoop : Nat → DLIRS V → Option (DLIRS V)
  | 0, cache => some cache
  | pruneSize + 1, cache => do
    let (lru, cache) := cache.popFront .nonResidentHirs
    let lru ← lru
    let e ← cache.heap lru
    let cache := if e.inCache then cache else { cache with nonResident := dec cache.nonResident }
    let (code, entry, cache) := cache.remove .lirs e.key
    if code ≠ 0 then none
    dlirsLimitStackLoop pruneSize (dlirsEntryDestroy (dlirsEntryDestroy cache entry) (some lru))

def dlirsLimitStack (cache : DLIRS V) : Option (DLIRS V) :=
  let pruneSize := toInt32 (toInt32 cache.hirsCount + toInt32 cache.lirsCount +
    toInt32 cache.nonResident - toInt32 cache.cacheSize * 2)
  dlirsLimitStackLoop pruneSize.toNat cache

/-! ### Eviction -/

def dlirsEvictLir (ok : Alloc) (cache : DLIRS V) : Option (DLIRS V) := do
  let (lru, cache) := cache.popFront .lirs
  match lru with
  | none => return cache
  | some lru =>
    let cache := { cache with lirsCount := dec cache.lirsCount, demoted := cache.demoted + 1 }
    let cache := cache.modify lru fun e => { e with isLIR := false, isDemoted := true }
    let e ← cache.heap lru
    let (code, cache) ← cache.insert .residentHirs ok e.key (some lru)
    if code ≠ 0 then none
    dlirsPrune { cache with hirsCount := cache.hirsCount + 1 }

def dlirsEvictResidentHir (cache : DLIRS V) : Option (Option Ref × DLIRS V) := do
  let (lru, cache) := cache.popFront .residentHirs
  match lru with
  | none => return (none, cache)
  | some lru =>
    let e ← cache.heap lru
    let cache :=
      if (dqhtGet cache.lirs e.key).isSome then
        { cache.modify lru fun e => { e with inCache := false } with
          nonResident := cache.nonResident + 1 }
      else cache
    let cache :=
      if e.isDemoted then
        { cache.modify lru fun e => { e with isDemoted := false } with
          demoted := dec cache.demoted }
      else cache
    return (some lru, { cache with hirsCount := dec cache.hirsCount })

/-- The loop of `dlirs_hir_in_lirs` that ejects LIR entries.  It does not end when `lirs` gets empty
before the limit is met, since `dlirs_evict_lir` then does nothing. -/
def dlirsDemoteLoop (ok : Alloc) (cache : DLIRS V) : Option (DLIRS V) :=
  Loop.run
    (fun cache =>
      if cache.lirsLimit.toNat ≤ cache.lirsCount then (dlirsEvictLir ok cache).map .next
      else some (.done cache))
    (cache.lirs.ht.count + 1) cache

/-- The loop of `dlirs_hir_in_lirs` that ejects HIR entries, with `*evicted`. -/
def dlirsEvictLoop (cache : DLIRS V) (evicted : Option Ref) : Option (Option Ref × DLIRS V) :=
  Loop.run
    (fun (evicted, cache) =>
      if cache.cacheSize ≤ cache.residents then (dlirsEvictResidentHir cache).map .next
      else some (.done (evicted, cache)))
    (cache.residentHirs.ht.count + 1) (evicted, cache)

/-- The inner loop of `dlirs_request`. -/
def dlirsOverLimitLoop (ok : Alloc) (cache : DLIRS V) : Option (DLIRS V) :=
  Loop.run
    (fun cache =>
      if cache.lirsLimit < toFloat cache.lirsCount then (dlirsEvictLir ok cache).map .next
      else some (.done cache))
    (cache.lirs.ht.count + 1) cache

/-- The outer loop of `dlirs_request`, with `*evicted`. -/
def dlirsMakeRoomLoop (ok : Alloc) (cache : DLIRS V) (evicted : Option Ref) :
    Option (Option Ref × DLIRS V) :=
  Loop.run
    (fun (evicted, cache) =>
      if cache.cacheSize ≤ cache.residents then
        (dlirsOverLimitLoop ok cache).bind fun cache => (dlirsEvictResidentHir cache).map .next
      else some (.done (evicted, cache)))
    (cache.lirs.ht.count + cache.residentHirs.ht.count + 1) (evicted, cache)

/-! ### Hits -/

def dlirsHitLir (ok : Alloc) (cache : DLIRS V) (key : Key) : Option (DLIRS V) :=
  match dqhtGetFront cache.lirs with
  | none => some cache
  | some lruLir => do
    let (code, value, cache) := cache.remove .lirs key
    if code ≠ 0 then none
    let value ← value
    let e ← cache.heap value
    let (code, cache) ← cache.insert .lirs ok e.key (some value)
    if code ≠ 0 then none
    let lru ← cache.heap lruLir
    if TableKey.cmp lru.key key = 0 then dlirsPrune cache else return cache

/-- What `dlirs_hir_in_lirs` does to the entry that it has removed from `lirs`, before its loops. -/
def dlirsPromote (cache : DLIRS V) (key : Key) (entry : Ref) : Option (Bool × DLIRS V) := do
  let e ← cache.heap entry
  let cache := cache.modify entry fun e => { e with isLIR := true }
  let (_, hirsEntry, cache) := cache.remove .nonResidentHirs key
  let hirsEntry ← hirsEntry
  let cache := dlirsEntryDestroy cache (some hirsEntry)
  if e.inCache then
    let (_, residentEntry, cache) := cache.remove .residentHirs key
    let residentEntry ← residentEntry
    let cache := { cache with hirsCount := dec cache.hirsCount }
    return (true, dlirsEntryDestroy cache (some residentEntry))
  else
    let cache := dlirsResize cache true
    let cache := cache.modify entry fun e => { e with inCache := true }
    return (false, { cache with nonResident := dec cache.nonResident })

/-- What `dlirs_hir_in_lirs` has done: the return value, `*evicted` and the cache. -/
structure HirInLirs (V : Type) where
  code : Int
  evicted : Option Ref
  cache : DLIRS V

def dlirsHirInLirs (ok : Alloc) (cache : DLIRS V) (key : Key) (evicted : Option Ref) :
    Option (HirInLirs V) := do
  let (code, entry, cache) := cache.remove .lirs key
  if code ≠ 0 then return { code, evicted, cache }
  let entry ← entry
  let (inCache, cache) ← dlirsPromote cache key entry
  let cache ← dlirsDemoteLoop ok cache
  let (evicted, cache) ← dlirsEvictLoop cache evicted
  let (code, cache) ← cache.insert .lirs ok key (some entry)
  if code ≠ 0 then none
  return {
    code := if inCache then 0 else 1
    evicted
    cache := { cache with lirsCount := cache.lirsCount + 1 } }

def dlirsHitHirInResidentHirs (ok : Alloc) (cache : DLIRS V) (key : Key) : Option (DLIRS V) :=
  match dqhtGet cache.residentHirs key with
  | none => some cache
  | some entry => do
    let e ← cache.heap entry
    let cache :=
      if e.isDemoted then
        let cache := (dlirsResize cache false).modify entry fun e => { e with isDemoted := false }
        { cache with demoted := dec cache.demoted }
      else cache
    let (lirsEntry, cache) := dlirsEntryReferenceCopy cache (some entry)
    let (nonResidentEntry, cache) := dlirsEntryReferenceCopy cache (some entry)
    let (code, cache) ← cache.insert .residentHirs ok key (some entry)
    if code ≠ 0 then none
    let (code, cache) ← cache.insert .lirs ok key lirsEntry
    if code ≠ 0 then none
    let (code, cache) ← cache.insert .nonResidentHirs ok key nonResidentEntry
    if code ≠ 0 then none
    dlirsLimitStack cache

/-! ### The operations -/

/-- What `dlirs_get` has done: the entry that it returns, `*evicted` and the cache. -/
structure DlirsGot (V : Type) where
  entry : Option Ref
  evicted : Option Ref
  cache : DLIRS V

/-- `dlirs_get`, which sets `*evicted` to NULL first. -/
def dlirsGet (ok : Alloc) (cache : DLIRS V) (key : Key) : Option (DlirsGot V) :=
  match dqhtGet cache.lirs key with
  | some entry => do
    let e ← cache.heap entry
    if e.isLIR then
      let cache ← dlirsHitLir ok cache key
      return { entry := some entry, evicted := none, cache }
    else
      let r ← dlirsHirInLirs ok cache key none
      return {
        entry := if r.code = 1 then none else some entry
        evicted := r.evicted
        cache := r.cache }
  | none =>
    match dqhtGet cache.residentHirs key with
    | some entry => (dlirsHitHirInResidentHirs ok cache key).map fun cache =>
        { entry := some entry, evicted := none, cache }
    | none => some { entry := none, evicted := none, cache }

/-- What `dlirs_request` has done: the return value, `*evicted` and the cache. -/
structure DlirsRequested (V : Type) where
  code : Int
  evicted : Option Ref
  cache : DLIRS V

/-- The end of `dlirs_request`, which stores a new HIR entry in the three tables. -/
def dlirsRequestHir (ok : DlirsAlloc) (cache : DLIRS V) (key : Key) (value : Option V)
    (evicted : Option Ref) : Option (DlirsRequested V) := do
  let (lirsEntry, cache) := dlirsEntryCreate ok.entry cache key value
  let (nonResidentEntry, cache) := dlirsEntryReferenceCopy cache lirsEntry
  let (residentEntry, cache) := dlirsEntryReferenceCopy cache lirsEntry
  if lirsEntry = none then return { code := -1, evicted, cache }
  let (code, cache) ← cache.insert .lirs ok.lirs key lirsEntry
  if code ≠ 0 then return { code := -1, evicted, cache }
  let (code, cache) ← cache.insert .nonResidentHirs ok.nonResidentHirs key nonResidentEntry
  if code ≠ 0 then return { code := -1, evicted, cache }
  let (code, cache) ← cache.insert .residentHirs ok.residentHirs key residentEntry
  if code ≠ 0 then return { code := -1, evicted, cache }
  let cache ← dlirsLimitStack { cache with hirsCount := cache.hirsCount + 1 }
  return { code := 0, evicted, cache }

/-- `dlirs_request`, where `evicted` is what `*evicted` holds before the call. -/
def dlirsRequest (ok : DlirsAlloc) (cache : DLIRS V) (key : Key) (value : Option V)
    (evicted : Option Ref) : Option (DlirsRequested V) :=
  if cache.lirsCount < cache.lirsLimit.toNat ∧ cache.hirsCount = 0 then
    match dlirsEntryCreate ok.entry cache key value with
    | (none, cache) => some { code := -1, evicted, cache }
    | (some entry, cache) => do
      let cache := cache.modify entry fun e => { e with isLIR := true }
      let (code, cache) ← cache.insert .lirs ok.lirs key (some entry)
      if code ≠ 0 then return { code := -1, evicted, cache }
      return { code := 0, evicted := none,
               cache := { cache with lirsCount := cache.lirsCount + 1 } }
  else do
    let (evicted, cache) ← dlirsMakeRoomLoop ok.demoted cache evicted
    dlirsRequestHir ok cache key value evicted

/-- The pointers that `dqht_destroy_handled` hands to its handler, in the order of the links. -/
def dqhtPtrs (dqht : DequeueHashTable Key Ref) : Nat → Option Addr → Option (List (Option Ref))
  | _, none => some []
  | 0, some _ => none
  | n + 1, some a => (dqhtPtrs dqht n (dqht.next a)).map (dqht.ptr a :: ·)

/-- `dqht_destroy_handled` with a handler that calls `dlirs_entry_destroy`. -/
def DLIRS.destroyTable (cache : DLIRS V) (table : Table) : Option (DLIRS V) :=
  let dqht := cache.table table
  (dqhtPtrs dqht dqht.ht.fresh dqht.head).map fun ptrs => ptrs.foldl dlirsEntryDestroy cache

/-- `dlirs_destroy`: the memory that it leaves. -/
def dlirsDestroy (cache : DLIRS V) : Option (DLIRS V) := do
  let cache ← cache.destroyTable .residentHirs
  let cache ← cache.destroyTable .nonResidentHirs
  cache.destroyTable .lirs

end SearchCache
