import SearchCache.Cache.DqHashtableDeque

/-! `lru.c`: a cache of the least recently used pairs, on a deque whose front is the oldest pair.  A
run that requests only keys that are not present keeps to a list of pairs with a capacity.  A request
of a present key evicts from a full cache all the same. -/

namespace SearchCache

open DequeueHashTable HashTable

/-- `LRUCache`, with the values that `destroy_entry` has released. -/
structure LRUCache (K V : Type) where
  cacheSize : Nat
  dqht : DequeueHashTable K V
  freed : List V

variable {K V : Type} [TableKey K]

/-- `lru_create`, where the allocations succeed. -/
def lruCreate (htSize cacheSize : Nat) (comparator : Option (KeyComparator K V)) :
    LRUCache K V where
  cacheSize := cacheSize
  dqht := dqhtCreate htSize comparator
  freed := []

def lruContains (cache : LRUCache K V) (key : K) : Bool := (dqhtGet cache.dqht key).isSome

omit [TableKey K] in
def lruIsFull (cache : LRUCache K V) : Bool := cache.cacheSize ≤ cache.dqht.ht.count

/-- What `lru_request` has done: the return value, `*evicted` and the cache. -/
structure LruRequested (K V : Type) where
  code : Int
  evicted : Option V
  cache : LRUCache K V

/-- The end of `lru_request`, which returns `retVal` where the insertion succeeds. -/
def lruInsert (ok : Alloc) (cache : LRUCache K V) (key : K) (value : Option V) (retVal : Int)
    (evicted : Option V) : Option (LruRequested K V) :=
  (dqhtInsert ok cache.dqht key value).map fun r => {
    code := if r.code = (0 : Int) then retVal else -1
    evicted
    cache := { cache with dqht := r.table, freed := r.overridden.toList ++ cache.freed } }

def lruRequest (ok : Alloc) (cache : LRUCache K V) (key : K) (value : Option V) :
    Option (LruRequested K V) :=
  if cache.cacheSize ≤ cache.dqht.ht.count then
    match dqhtPopFront cache.dqht with
    | (none, dqht) => some { code := -1, evicted := none, cache := { cache with dqht } }
    | (some front, dqht) => lruInsert ok { cache with dqht } key value 1 (some front)
  else lruInsert ok cache key value 0 none

/-- `lru_get`: the value that it returns and the cache. -/
def lruGet (ok : Alloc) (cache : LRUCache K V) (key : K) : Option (Option V × LRUCache K V) :=
  match dqhtRemove cache.dqht key with
  | (code, entry, dqht) =>
    if code ≠ 0 then some (none, { cache with dqht })
    else (dqhtInsert ok dqht key entry).map fun r =>
      (if r.code = 0 then entry else none,
        { cache with dqht := r.table, freed := r.overridden.toList ++ cache.freed })

/-- `lru_evict`: the return value, `*evicted` and the cache. -/
def lruEvict (cache : LRUCache K V) : Int × Option V × LRUCache K V :=
  match dqhtPopFront cache.dqht with
  | (evicted, dqht) => (if evicted.isSome then 0 else -1, evicted, { cache with dqht })

/-! ### Runs -/

inductive LruOp (V : Type)
  | get (key : Key)
  | request (key : Key) (value : V)
  | evict

inductive LruReply (V : Type)
  | got (value : Option V)
  | requested (code : Int) (evicted : Option V)
  | evicted (code : Int) (value : Option V)

namespace LruOp

/-- An operation on the cache, where allocations succeed. -/
def run (cache : LRUCache Key V) : LruOp V → Option (LruReply V × LRUCache Key V)
  | get key => (lruGet {} cache key).map fun (value, cache) => (.got value, cache)
  | request key value =>
    (lruRequest {} cache key (some value)).map fun r => (.requested r.code r.evicted, r.cache)
  | evict =>
    let (code, value, cache) := lruEvict cache
    some (.evicted code value, cache)

/-- The operation on a list of pairs in the order of their last use, of which there are at most
`capacity`. -/
def onList (capacity : Nat) (l : List (Key × V)) : LruOp V → LruReply V × List (Key × V)
  | get key =>
    match l.find? fun x => x.1 = key with
    | none => (.got none, l)
    | some x => (.got (some x.2), (l.eraseP fun x => x.1 = key) ++ [x])
  | request key value =>
    if capacity ≤ l.length then
      (.requested 1 (l.head?.map Prod.snd), l.tail ++ [(key, value)])
    else (.requested 0 none, l ++ [(key, value)])
  | evict =>
    match l with
    | [] => (.evicted (-1) none, [])
    | x :: l => (.evicted 0 (some x.2), l)

/-- The key of a request is not present. -/
def Absent (l : List (Key × V)) : LruOp V → Prop
  | request key _ => key ∉ l.map Prod.fst
  | _ => True

end LruOp

def lruRun (cache : LRUCache Key V) :
    List (LruOp V) → Option (List (LruReply V) × LRUCache Key V)
  | [] => some ([], cache)
  | op :: ops =>
    match op.run cache with
    | none => none
    | some (reply, cache) => (lruRun cache ops).map fun (replies, cache) => (reply :: replies, cache)

def listRun (capacity : Nat) (l : List (Key × V)) :
    List (LruOp V) → List (LruReply V) × List (Key × V)
  | [] => ([], l)
  | op :: ops =>
    let (reply, l) := op.onList capacity l
    let (replies, l) := listRun capacity l ops
    (reply :: replies, l)

def LruRunAbsent (capacity : Nat) (l : List (Key × V)) : List (LruOp V) → Prop
  | [] => True
  | op :: ops => op.Absent l ∧ LruRunAbsent capacity (op.onList capacity l).2 ops

/-- The cache holds the pairs `l` and keeps to its size. -/
structure HoldsRecent (cache : LRUCache Key V) (l : List (Key × V)) : Prop where
  represents : Represents cache.dqht l
  size_pos : 1 ≤ cache.cacheSize
  length_le : l.length ≤ cache.cacheSize

namespace HoldsRecent

variable {cache : LRUCache Key V} {l : List (Key × V)} {key : Key}

theorem contains_iff (h : HoldsRecent cache l) (key : Key) :
    lruContains cache key = true ↔ key ∈ l.map Prod.fst := by
  constructor
  · intro hcontains
    by_contra habsent
    simp [lruContains, h.represents.get_absent habsent] at hcontains
  · intro hkey
    obtain ⟨x, hx, rfl⟩ := List.mem_map.mp hkey
    simp [lruContains, h.represents.get_of_mem hx]

theorem isFull_iff (h : HoldsRecent cache l) :
    lruIsFull cache = true ↔ l.length = cache.cacheSize := by
  have := h.length_le
  rw [lruIsFull, h.represents.count_eq, decide_eq_true_iff]
  omega

theorem insert (h : Represents cache.dqht l) (hkey : key ∉ l.map Prod.fst) (value : V)
    (retVal : Int) (evicted : Option V) :
    ∃ dqht, lruInsert {} cache key (some value) retVal evicted = some {
        code := retVal, evicted, cache := { cache with dqht } } ∧
      Represents dqht (l ++ [(key, value)]) := by
  obtain ⟨r, hr, hcode, hover, hrep⟩ := h.insert hkey value
  exact ⟨r.table, by simp [lruInsert, hr, hcode, hover], hrep⟩

theorem get (h : HoldsRecent cache l) (key : Key) : ∃ cache',
    (LruOp.get key).run cache = some (((LruOp.get key).onList cache.cacheSize l).1, cache') ∧
      cache'.cacheSize = cache.cacheSize ∧
      HoldsRecent cache' ((LruOp.get key).onList cache.cacheSize l).2 := by
  cases hfind : l.find? fun x => x.1 = key with
  | none =>
    have hremove := h.represents.remove_absent (Represents.find_eq_none hfind)
    refine ⟨cache, ?_, rfl, ?_⟩
    · simp [LruOp.run, LruOp.onList, lruGet, hremove, hfind]
    · simpa [LruOp.onList, hfind] using h
  | some x =>
    obtain ⟨hx, before, after, rfl, hbefore⟩ := List.find?_eq_some_iff_append.mp hfind
    obtain ⟨key', value⟩ := x
    obtain rfl : key' = key := by simpa using hx
    have herase : (before ++ (key', value) :: after).eraseP (fun x => x.1 = key') =
        before ++ after := by
      rw [List.eraseP_append_right _ (by simpa using hbefore), List.eraseP_cons_of_pos (by simp)]
    obtain ⟨dqht1, hremove, h1⟩ := h.represents.remove_mem
    -- The removed key is absent when it is inserted again.
    have habsent : key' ∉ (before ++ after).map Prod.fst := by
      have := h.represents.keys_nodup
      rw [List.map_append, List.map_cons, List.nodup_middle] at this
      simpa using (List.nodup_cons.mp this).1
    obtain ⟨r, hr, hcode, hover, h2⟩ := h1.insert habsent value
    refine ⟨{ cache with dqht := r.table }, ?_, rfl, ?_⟩
    · simp [LruOp.run, LruOp.onList, lruGet, hremove, hfind, hr, hcode, hover]
    · have hlength := h.length_le
      refine ⟨?_, h.size_pos, ?_⟩
      · simpa only [LruOp.onList, hfind, herase] using h2
      · simp only [LruOp.onList, hfind, herase]
        simp at hlength ⊢
        omega

theorem request (h : HoldsRecent cache l) {key : Key} {value : V}
    (absent : key ∉ l.map Prod.fst) : ∃ cache',
    (LruOp.request key value).run cache =
        some (((LruOp.request key value).onList cache.cacheSize l).1, cache') ∧
      cache'.cacheSize = cache.cacheSize ∧
      HoldsRecent cache' ((LruOp.request key value).onList cache.cacheSize l).2 := by
  have hcount := h.represents.count_eq
  have hsize := h.size_pos
  have hlength := h.length_le
  by_cases hfull : cache.cacheSize ≤ l.length
  · -- A full cache has a front, since its size is positive.
    obtain ⟨x, rest, rfl⟩ : ∃ x rest, l = x :: rest :=
      List.exists_cons_of_ne_nil (by rintro rfl; simp at hfull; omega)
    obtain ⟨dqht1, hpop, h1⟩ := h.represents.popFront
    have habsent : key ∉ rest.map Prod.fst := by
      simp only [List.map_cons, List.mem_cons, not_or] at absent
      exact absent.2
    obtain ⟨dqht2, hinsert, h2⟩ :=
      insert (show Represents ({ cache with dqht := dqht1 } : LRUCache Key V).dqht rest from h1)
        habsent value 1 (some x.2)
    refine ⟨{ cache with dqht := dqht2 }, ?_, rfl, ?_⟩
    · simp only [LruOp.run, lruRequest, hcount, if_pos hfull, hpop, hinsert, Option.map_some,
        LruOp.onList, List.head?_cons]
    · rw [LruOp.onList, if_pos hfull]
      refine ⟨h2, hsize, ?_⟩
      simpa using hlength
  · obtain ⟨dqht1, hinsert, h1⟩ := insert h.represents absent value 0 none
    refine ⟨{ cache with dqht := dqht1 }, ?_, rfl, ?_⟩
    · simp only [LruOp.run, lruRequest, hcount, if_neg hfull, hinsert, Option.map_some,
        LruOp.onList]
    · rw [LruOp.onList, if_neg hfull]
      refine ⟨h1, hsize, ?_⟩
      simp
      omega

theorem evict (h : HoldsRecent cache l) : ∃ cache',
    LruOp.evict.run cache = some ((LruOp.evict.onList cache.cacheSize l).1, cache') ∧
      cache'.cacheSize = cache.cacheSize ∧
      HoldsRecent cache' (LruOp.evict.onList cache.cacheSize l).2 := by
  cases l with
  | nil =>
    have hpop := h.represents.popFront_nil
    exact ⟨cache, by simp [LruOp.run, LruOp.onList, lruEvict, hpop], rfl, h⟩
  | cons x l =>
    obtain ⟨dqht1, hpop, h1⟩ := h.represents.popFront
    have hlength := h.length_le
    refine ⟨{ cache with dqht := dqht1 }, by simp [LruOp.run, LruOp.onList, lruEvict, hpop], rfl,
      h1, h.size_pos, ?_⟩
    simp only [LruOp.onList, List.length_cons] at hlength ⊢
    omega

/-- One operation of a run. -/
theorem step (h : HoldsRecent cache l) {op : LruOp V} (absent : op.Absent l) :
    ∃ cache', op.run cache = some ((op.onList cache.cacheSize l).1, cache') ∧
      cache'.cacheSize = cache.cacheSize ∧
      HoldsRecent cache' (op.onList cache.cacheSize l).2 := by
  cases op with
  | get key => exact h.get key
  | request key value => exact h.request absent
  | evict => exact h.evict

theorem run (h : HoldsRecent cache l) {ops : List (LruOp V)}
    (absent : LruRunAbsent cache.cacheSize l ops) :
    ∃ cache', lruRun cache ops = some ((listRun cache.cacheSize l ops).1, cache') ∧
      cache'.cacheSize = cache.cacheSize ∧
      HoldsRecent cache' (listRun cache.cacheSize l ops).2 := by
  induction ops generalizing cache l with
  | nil => exact ⟨cache, rfl, rfl, h⟩
  | cons op ops ih =>
    obtain ⟨cache1, hrun, hsize1, h1⟩ := h.step absent.1
    obtain ⟨cache2, hrest, hsize2, h2⟩ := ih h1 (hsize1 ▸ absent.2)
    rw [hsize1] at hrest h2
    exact ⟨cache2, by simp [lruRun, listRun, hrun, hrest], hsize2.trans hsize1, h2⟩

end HoldsRecent

/-- The cache holds the pairs `l`, of which no two keys compare equal, and keeps to its size. -/
structure LruWF (cache : LRUCache K V) (l : List (K × V)) : Prop where
  holds : ∃ order, Holds cache.dqht order l
  separated : cache.dqht.ht.Separated
  size_pos : 1 ≤ cache.cacheSize
  length_le : l.length ≤ cache.cacheSize

/-- The request returns 0, evicts nothing and leaves the pairs `l`. -/
def UpdatesInPlace (r : Option (LruRequested K V)) (l : List (K × V)) : Prop :=
  ∃ i order, r = some i ∧ i.code = 0 ∧ i.evicted = none ∧ Holds i.cache.dqht order l

theorem updatesInPlace_lruInsert {ok : Alloc} {cache : LRUCache K V} {key : K} {value : V}
    {l : List (K × V)} : UpdatesInPlace (lruInsert ok cache key (some value) 0 none) l ↔
      Leaves (dqhtInsert ok cache.dqht key (some value)) l := by
  constructor
  · rintro ⟨i, order, hi, hcode, -, hl⟩
    obtain ⟨r, hr, rfl⟩ := Option.map_eq_some_iff.mp hi
    refine ⟨r, order, hr, ?_, hl⟩
    by_contra hne
    simp [hne] at hcode
  · rintro ⟨r, order, hr, hcode, hl⟩
    exact ⟨_, order, by rw [lruInsert, hr, Option.map_some], by simp [hcode], rfl, hl⟩

end SearchCache
