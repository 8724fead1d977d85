import SearchCache.Cache.HashTableMap

/-! `random.c`.  The loop of `rc_evict_random` looks for a slot at random and ends at the first one
that is empty, whose NULL entry it then reads.  So a cache that has room takes its requests like a
map, and a full cache returns from none. -/

namespace SearchCache

open HashTable

/-- `RandomCache`, with the values that `result_destroy` has released. -/
structure RandomCache (K V : Type) where
  cacheSize : Nat
  ht : HashTable K V
  freed : List V

variable {K V : Type} [TableKey K]

omit [TableKey K] in
/-- `rc_create`, where the allocations succeed. -/
def rcCreate (htSize cacheSize : Nat) (comparator : KeyComparator K V) : RandomCache K V where
  cacheSize := cacheSize
  ht := htCreate htSize comparator
  freed := []

def rcContains (cache : RandomCache K V) (key : K) : Bool := (htGet cache.ht key).isSome

/-- `rc_get`, which returns the entry of the table. -/
def rcGet (cache : RandomCache K V) (key : K) : Option Addr := htGet cache.ht key

omit [TableKey K] in
def rcIsFull (cache : RandomCache K V) : Bool := cache.ht.count = cache.cacheSize

omit [TableKey K] in
/-- The loop of `rc_evict_random` over the values of `rand`: the entry at which it stops, unless it
goes on after the last value. -/
def rcSample (ht : HashTable K V) : List Nat → Option (Option Addr)
  | [] => none
  | r :: rands =>
    let entry := ht.items (r % ht.size)
    if entry ≠ none then rcSample ht rands else some entry

/-- `rc_evict_random`: the value that it returns and the cache. -/
def rcEvictRandom (cache : RandomCache K V) (rands : List Nat) :
    Option (Option V × RandomCache K V) := do
  let entry ← rcSample cache.ht rands
  let a ← entry
  let e ← cache.ht.entries a
  let (value, ht) := htDelete cache.ht e.key
  return (value, { cache with ht })

def rcEvictByKey (cache : RandomCache K V) (key : K) : Option V × RandomCache K V :=
  let (value, ht) := htDelete cache.ht key
  (value, { cache with ht })

/-- What `rc_request` has done: the return value, `*evicted` and the cache. -/
structure RcRequested (K V : Type) where
  code : Int
  evicted : Option V
  cache : RandomCache K V

/-- The end of `rc_request`, which returns `retVal` where the insertion does not fail. -/
def rcInsert (ok : Alloc) (cache : RandomCache K V) (key : K) (value : Option V) (retVal : Int)
    (evicted : Option V) : Option (RcRequested K V) :=
  (htInsert ok cache.ht key value).map fun r => {
    code := if r.code ≠ -1 then retVal else -1
    evicted
    cache := { cache with ht := r.table, freed := r.overridden.toList ++ cache.freed } }

/-- `rc_request`, where `rands` are the values of `rand`. -/
def rcRequest (ok : Alloc) (cache : RandomCache K V) (key : K) (value : Option V)
    (rands : List Nat) : Option (RcRequested K V) :=
  if cache.cacheSize ≤ cache.ht.count then do
    let (evicted, cache) ← rcEvictRandom cache rands
    rcInsert ok cache key value 1 evicted
  else rcInsert ok cache key value 0 none

/-! ### The sampling -/

omit [TableKey K] in
theorem rcSample_eq {ht : HashTable K V} {rands : List Nat} {entry : Option Addr}
    (h : rcSample ht rands = some entry) : entry = none := by
  induction rands with
  | nil => cases h
  | cons r rands ih =>
    rw [rcSample] at h
    by_cases hempty : ht.items (r % ht.size) = none
    · simpa [hempty] using h.symm
    · exact ih (by simpa [hempty] using h)

omit [TableKey K] in
/-- The loop stops exactly when it comes to an empty slot. -/
theorem rcSample_stops {ht : HashTable K V} {rands : List Nat} :
    (∃ entry, rcSample ht rands = some entry) ↔ ∃ r ∈ rands, ht.items (r % ht.size) = none := by
  induction rands with
  | nil => simp [rcSample]
  | cons r rands ih =>
    rw [rcSample]
    by_cases hempty : ht.items (r % ht.size) = none
    · simp [hempty]
    · simp [hempty, ih]

theorem rcEvictRandom_eq (cache : RandomCache K V) (rands : List Nat) :
    rcEvictRandom cache rands = none := by
  cases hsample : rcSample cache.ht rands with
  | none => simp [rcEvictRandom, hsample]
  | some entry =>
    obtain rfl := rcSample_eq hsample
    simp [rcEvictRandom, hsample]

theorem rcRequest_full {cache : RandomCache K V} (hfull : cache.cacheSize ≤ cache.ht.count)
    (ok : Alloc) (key : K) (value : Option V) (rands : List Nat) :
    rcRequest ok cache key value rands = none := by
  rw [rcRequest, if_pos hfull, rcEvictRandom_eq]
  rfl

/-! ### The cache as a map -/

namespace HoldsMap

variable {V : Type} {cache : RandomCache Key V} {m : Key → Option V} {key : Key} {value : V}

theorem contains (h : HoldsMap cache.ht m) (key : Key) :
    rcContains cache key = (m key).isSome := by
  rw [rcContains, ← h.get key]
  cases hget : htGet cache.ht key with
  | none => rfl
  | some a =>
    obtain ⟨e, has⟩ := (htGet_eq_some h.wf.toShape h.wf.distinct h.exact).mp hget
    simp [has.1]

theorem evictByKey (h : HoldsMap cache.ht m) (key : Key) :
    (rcEvictByKey cache key).1 = m key ∧
      HoldsMap (rcEvictByKey cache key).2.ht (Function.update m key none) :=
  h.delete key

theorem request_room (h : HoldsMap cache.ht m) (hroom : cache.ht.count < cache.cacheSize)
    (key : Key) (hkey : m key = none) (value : V) (rands : List Nat) :
    ∃ r, rcRequest {} cache key (some value) rands = some r ∧ r.code = 0 ∧ r.evicted = none ∧
      HoldsMap r.cache.ht (Function.update m key (some value)) := by
  obtain ⟨r, hinsert, hcode, hover, hholds⟩ := @HoldsMap.insert V _ m h key value
    (.inr fun i a e _ he hek => absurd ⟨he, hek⟩ (h.absent hkey a e))
  refine ⟨_, by rw [rcRequest, if_neg (by omega), rcInsert, hinsert]; rfl, ?_, rfl, hholds⟩
  simp [hcode, hkey]

end HoldsMap

/-! ### Eviction -/

/-- The request takes one entry out of the cache, returns its value, and puts the new one in its
place. -/
def RequestEvictsOne (cache : RandomCache Key V) (m : Key → Option V) (key : Key) (value : V)
    (rands : List Nat) : Prop :=
  ∃ r victim old, rcRequest {} cache key (some value) rands = some r ∧ m victim = some old ∧
    r.evicted = some old ∧ r.cache.ht.count = cache.cacheSize ∧
    HoldsMap r.cache.ht (Function.update (Function.update m victim none) key (some value))

/-- A cache of one entry, with an empty slot that the loop comes to. -/
theorem exists_full : ∃ (cache : RandomCache Key Nat) (m : Key → Option Nat),
    HoldsMap cache.ht m ∧ cache.cacheSize = 1 ∧ cache.ht.count = 1 ∧ m keyB = none ∧
      rcSample cache.ht [0, 1, 2, 3] = some none := by
  have hempty : HoldsMap (rcCreate 4 1 defaultComparator : RandomCache Key Nat).ht
      (fun _ => none) := HoldsMap.create (by decide)
  obtain ⟨r, hr, -, -, h⟩ := hempty.request_room (by decide) keyA rfl 1 []
  have hrun : ((rcRequest {} (rcCreate 4 1 defaultComparator) keyA (some 1) []).map fun r =>
      (r.cache.cacheSize, r.cache.ht.count, rcSample r.cache.ht [0, 1, 2, 3])) =
      some (1, 1, some none) := by
    decide +kernel
  rw [hr, Option.map_some, Option.some_inj, Prod.mk.injEq, Prod.mk.injEq] at hrun
  obtain ⟨hsize, hcount, hsample⟩ := hrun
  exact ⟨r.cache, _, h, hsize, hcount, by decide +kernel, hsample⟩

/-- No request of a full cache does, whatever the values of `rand`. -/
theorem not_requestEvictsOne {cache : RandomCache Key V}
    (hfull : cache.ht.count = cache.cacheSize) (m : Key → Option V) (key : Key) (value : V)
    (rands : List Nat) : ¬RequestEvictsOne cache m key value rands := by
  rintro ⟨r, victim, old, hr, -⟩
  rw [rcRequest_full hfull.ge] at hr
  cases hr

theorem not_requestEvictsOne_one : ∃ (cache : RandomCache Key Nat) (m : Key → Option Nat),
    cache.ht.count = 1 ∧ cache.cacheSize = 1 ∧ ¬RequestEvictsOne cache m keyB 2 [0, 1, 2, 3] := by
  obtain ⟨cache, m, -, hsize, hcount, -⟩ := exists_full
  exact ⟨cache, m, hcount, hsize, not_requestEvictsOne (hcount.trans hsize.symm) m keyB 2 _⟩

theorem exists_not_requestEvictsOne : ∃ (cache : RandomCache Key Nat) (m : Key → Option Nat),
    HoldsMap cache.ht m ∧ 1 ≤ cache.cacheSize ∧ cache.ht.count = cache.cacheSize ∧
      m keyB = none ∧ (∃ entry, rcSample cache.ht [0, 1, 2, 3] = some entry) ∧
      ¬RequestEvictsOne cache m keyB 2 [0, 1, 2, 3] := by
  obtain ⟨cache, m, h, hsize, hcount, hkey, hsample⟩ := exists_full
  refine ⟨cache, m, h, hsize.ge, hcount.trans hsize.symm, hkey, ⟨none, hsample⟩, ?_⟩
  rintro ⟨r, victim, old, hr, -⟩
  rw [rcRequest_full (hsize.trans hcount.symm).le] at hr
  cases hr

end SearchCache
