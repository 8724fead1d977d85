import SearchCache.Cache.Random
import SearchCache.Lib.Servers

/-! Runs of `random.c`.  A run returns exactly where no request comes to a full cache, and until then
its replies are those of a map. -/

namespace SearchCache

open HashTable

variable {V : Type}

inductive RcOp (V : Type)
  | get (key : Key)
  | contains (key : Key)
  | isFull
  /-- A request, with the values of `rand` that it may draw. -/
  | request (key : Key) (value : V) (rands : List Nat)
  | evictByKey (key : Key)

inductive RcReply (V : Type)
  /-- What the entry says that `rc_get` returns. -/
  | got (entry : Option (Key × V))
  | flag (b : Bool)
  | requested (code : Int) (evicted : Option V)
  | evicted (value : Option V)

def rcCall (cache : RandomCache Key V) : RcOp V → Option (RcReply V × RandomCache Key V)
  | .get key =>
    some (.got (((rcGet cache key).bind cache.ht.entries).map fun e => (e.key, e.ptr)), cache)
  | .contains key => some (.flag (rcContains cache key), cache)
  | .isFull => some (.flag (rcIsFull cache), cache)
  | .request key value rands =>
    (rcRequest {} cache key (some value) rands).map fun r => (.requested r.code r.evicted, r.cache)
  | .evictByKey key =>
    let (value, cache) := rcEvictByKey cache key
    some (.evicted value, cache)

/-- A request is for a key that the cache does not contain. -/
def RcMisses (cache : RandomCache Key V) : RcOp V → Prop
  | .request key _ _ => rcContains cache key = false
  | _ => True

instance (cache : RandomCache Key V) (op : RcOp V) : Decidable (RcMisses cache op) :=
  match op with
  | .request key _ _ => inferInstanceAs (Decidable (rcContains cache key = false))
  | .get _ | .contains _ | .isFull | .evictByKey _ => .isTrue trivial

/-- The number of keys that a map has. -/
noncomputable def keyCount (m : Key → Option V) : Nat := {key | (m key).isSome}.ncard

open Classical in
/-- The same on a map.  A request returns where the map has room. -/
noncomputable def mapCall (capacity : Nat) (m : Key → Option V) :
    RcOp V → Option (RcReply V × (Key → Option V))
  | .get key => some (.got ((m key).map fun value => (key, value)), m)
  | .contains key => some (.flag (m key).isSome, m)
  | .isFull => some (.flag (decide (keyCount m = capacity)), m)
  | .request key value _ =>
    if keyCount m < capacity then some (.requested 0 none, Function.update m key (some value)) else none
  | .evictByKey key => some (.evicted (m key), Function.update m key none)

/-- The cache holds the map. -/
structure HoldsRandom (capacity : Nat) (cache : RandomCache Key V) (m : Key → Option V) : Prop where
  holds : HoldsMap cache.ht m
  cacheSize : cache.cacheSize = capacity

variable {capacity : Nat} {cache : RandomCache Key V} {m : Key → Option V}

namespace HoldsRandom

theorem count_eq (h : HoldsRandom capacity cache m) : cache.ht.count = keyCount m := h.holds.count_eq

theorem get (h : HoldsRandom capacity cache m) (key : Key) :
    ((rcGet cache key).bind cache.ht.entries).map (fun e => (e.key, e.ptr)) =
      (m key).map fun value => (key, value) := by
  rw [← h.holds.get key, rcGet]
  cases hget : htGet cache.ht key with
  | none => rfl
  | some a =>
    obtain ⟨e, he, hkey⟩ :=
      (htGet_eq_some h.holds.wf.toShape h.holds.wf.distinct h.holds.exact).mp hget
    simp [he, hkey]

/-- A request returns exactly where there is room, and stores its pair. -/
theorem request (h : HoldsRandom capacity cache m) {key : Key} (value : V) (rands : List Nat)
    (misses : rcContains cache key = false) :
    (rcCall cache (.request key value rands) = none ∧
        mapCall capacity m (.request key value rands) = none) ∨
      ∃ o cache' m', rcCall cache (.request key value rands) = some (o, cache') ∧
        mapCall capacity m (.request key value rands) = some (o, m') ∧
        HoldsRandom capacity cache' m' := by
  have hcount := h.count_eq
  have hsize := h.cacheSize
  by_cases hroom : keyCount m < capacity
  · have hkey : m key = none := by
      rw [HoldsMap.contains h.holds key] at misses
      simpa using misses
    obtain ⟨r, hinsert, hcode, -, hholds⟩ := @HoldsMap.insert V _ m h.holds key value
      (.inr fun i a e _ he hek => absurd ⟨he, hek⟩ (h.holds.absent hkey a e))
    refine .inr ⟨_, { cache with ht := r.table, freed := r.overridden.toList ++ cache.freed }, _, ?_,
      by rw [mapCall, if_pos hroom], hholds, h.cacheSize⟩
    rw [rcCall, rcRequest, if_neg (by omega), rcInsert, hinsert]
    simp [hcode, hkey]
  · left
    rw [rcCall, rcRequest_full (by omega), mapCall, if_neg hroom]
    exact ⟨rfl, rfl⟩

/-- One operation. -/
theorem call (h : HoldsRandom capacity cache m) {op : RcOp V} (misses : RcMisses cache op) :
    (rcCall cache op = none ∧ mapCall capacity m op = none) ∨
      ∃ o cache' m', rcCall cache op = some (o, cache') ∧ mapCall capacity m op = some (o, m') ∧
        HoldsRandom capacity cache' m' := by
  cases op with
  | get key => exact .inr ⟨_, cache, m, by rw [rcCall, h.get], rfl, h⟩
  | contains key => exact .inr ⟨_, cache, m, by rw [rcCall, HoldsMap.contains h.holds], rfl, h⟩
  | isFull => exact .inr ⟨_, cache, m, rfl, by rw [mapCall, rcIsFull, h.count_eq, h.cacheSize], h⟩
  | request key value rands => exact h.request value rands misses
  | evictByKey key =>
    obtain ⟨hvalue, hholds⟩ := HoldsMap.evictByKey h.holds key
    exact .inr ⟨_, (rcEvictByKey cache key).2, _, by rw [rcCall, ← hvalue], rfl, hholds, h.cacheSize⟩

end HoldsRandom

/-- Whatever `rand` returns, a run whose requests are for absent keys returns exactly where the run on a
map with room for `cacheSize` keys does, with the same replies. -/
theorem rcRun_returns {htSize cacheSize : Nat} (hht : 0 < htSize) {ops : List (RcOp V)}
    (misses : Servers.Permitted rcCall RcMisses (rcCreate htSize cacheSize defaultComparator) ops) :
    (Servers.serve rcCall (rcCreate htSize cacheSize defaultComparator) ops).map Prod.fst =
      (Servers.serve (mapCall cacheSize) (fun _ => none) ops).map Prod.fst :=
  Servers.serve_match (fun _ _ _ h misses => h.call misses)
    (⟨HoldsMap.create hht, rfl⟩ : HoldsRandom cacheSize _ _) misses

/-- The second request returns after an eviction by key, and the third does not. -/
def fillsUp : List (RcOp Nat) :=
  [.request keyA 1 [], .isFull, .evictByKey keyA, .request keyB 2 [], .get keyB, .request keyC 3 [0, 1]]

theorem rcRun_returns_fillsUp :
    (Servers.serve rcCall (rcCreate 4 1 defaultComparator) fillsUp).map Prod.fst =
      (Servers.serve (mapCall 1) (fun _ => none) fillsUp).map Prod.fst :=
  rcRun_returns (by decide) (by unfold Servers.Permitted; decide +kernel)

end SearchCache
