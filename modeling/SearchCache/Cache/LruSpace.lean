import SearchCache.Cache.DqHashtableSize
import SearchCache.Cache.LruFailure

/-! The space of an LRU cache: however long a run is, the slot array of its table stays within four
times the number of entries that the cache is made for, or as long as it was at the start. -/

namespace SearchCache

variable {V : Type}

/-- A table that has room for one of `capacity` entries. -/
theorem Represents.fits {dqht dqht' : DequeueHashTable Key V} {l : List (Key × V)} {capacity n : Nat}
    (h : Represents dqht' l) (hthin : dqht.Thinned dqht') (hroom : l.length < capacity)
    (hsize : dqht.ht.size ≤ n) (hn : 4 * capacity ≤ n + 2) : dqht'.ht.Fits n :=
  ⟨hthin.size ▸ hsize, by
    rw [h.count_eq]
    omega⟩

namespace HoldsRecent

variable {cache : LRUCache Key V} {l : List (Key × V)} {key : Key} {n : Nat}

theorem size_get (h : HoldsRecent cache l) {ok : Alloc} {r : Option V × LRUCache Key V}
    (hr : lruGet ok cache key = some r) (hsize : cache.dqht.ht.size ≤ n)
    (hn : 4 * cache.cacheSize ≤ n + 2) : r.2.dqht.ht.size ≤ n := by
  have hthin := dqhtRemove_thinned cache.dqht key
  unfold lruGet at hr
  cases hfind : l.find? fun x => x.1 = key with
  | none =>
    rw [h.represents.remove_absent (Represents.find_eq_none hfind)] at hr
    cases hr
    exact hsize
  | some x =>
    obtain ⟨rfl, before, after, rfl, -⟩ := Ledger.find_split hfind
    obtain ⟨dqht, hremove, hd⟩ := h.represents.remove_mem
    rw [hremove] at hr hthin
    obtain ⟨i, hi, rfl⟩ := Option.map_eq_some_iff.mp hr
    have hlength := h.length_le
    refine dqhtInsert_size (hd.fits hthin ?_ hsize hn) hi
    simp only [List.length_append, List.length_cons] at hlength ⊢
    omega

theorem size_request (h : HoldsRecent cache l) {ok : Alloc} {value : Option V}
    {r : LruRequested Key V} (hr : lruRequest ok cache key value = some r)
    (hsize : cache.dqht.ht.size ≤ n) (hn : 4 * cache.cacheSize ≤ n + 2) :
    r.cache.dqht.ht.size ≤ n := by
  have hpos := h.size_pos
  have hlength := h.length_le
  have hthin := dqhtPopFront_thinned cache.dqht
  rw [lruRequest, h.represents.count_eq] at hr
  split at hr
  · cases l with
    | nil => simp_all
    | cons x rest =>
      obtain ⟨dqht, hpop, hd⟩ := h.represents.popFront
      rw [hpop] at hr hthin
      obtain ⟨i, hi, rfl⟩ := Option.map_eq_some_iff.mp hr
      exact dqhtInsert_size (hd.fits hthin hlength hsize hn) hi
  · obtain ⟨i, hi, rfl⟩ := Option.map_eq_some_iff.mp hr
    exact dqhtInsert_size (h.represents.fits (.refl _) (by omega) hsize hn) hi

theorem size_call (h : HoldsRecent cache l) {c : LruCall V} {reply : LruReply V}
    {cache' : LRUCache Key V} (hrun : c.run cache = some (reply, cache'))
    (hsize : cache.dqht.ht.size ≤ n) (hn : 4 * cache.cacheSize ≤ n + 2) :
    cache'.dqht.ht.size ≤ n := by
  obtain ⟨op, ok⟩ := c
  cases op with
  | get key =>
    obtain ⟨r, hr, heq⟩ := Option.map_eq_some_iff.mp hrun
    cases heq
    exact h.size_get hr hsize hn
  | request key value =>
    obtain ⟨r, hr, heq⟩ := Option.map_eq_some_iff.mp hrun
    cases heq
    exact h.size_request hr hsize hn
  | evict =>
    cases hrun
    exact (dqhtPopFront_thinned cache.dqht).size ▸ hsize

/-- By induction on the calls. -/
theorem size_calls {s : Ledger V} (h : HoldsRecent cache s.pairs) {calls : List (LruCall V)}
    (misses : Servers.Permitted LruCall.run LruCall.Misses cache calls)
    (hsize : cache.dqht.ht.size ≤ n) (hn : 4 * cache.cacheSize ≤ n + 2) :
    ∃ replies cache' l, Servers.serve LruCall.run cache calls = some (replies, cache') ∧
      HoldsRecent cache' l ∧ cache'.cacheSize = cache.cacheSize ∧ cache'.dqht.ht.size ≤ n := by
  induction calls generalizing cache s with
  | nil => exact ⟨[], cache, s.pairs, rfl, h, rfl, hsize⟩
  | cons c calls ih =>
    obtain ⟨m, cache1, -, hrun, hnext⟩ := h.call misses.1
    have hsize1 := h.size_call hrun hsize hn
    obtain ⟨replies, cache2, l, hserve, hholds, hsame, hlast⟩ :=
      ih hnext.holds (misses.next hrun) hsize1 (by rwa [hnext.cacheSize])
    exact ⟨_, cache2, l, Servers.serve_cons hrun hserve, hholds, hsame.trans hnext.cacheSize, hlast⟩

end HoldsRecent

/-- Over every run whose requests are for absent keys, whatever its allocations come to, the cache
keeps to its number of entries and its table to the length that these need. -/
theorem lruCalls_space {htSize cacheSize : Nat} (hht : 1 ≤ htSize) (hsize : 1 ≤ cacheSize)
    {calls : List (LruCall V)}
    (misses : Servers.Permitted LruCall.run LruCall.Misses (lruCreate htSize cacheSize none) calls) :
    ∃ replies cache, Servers.serve LruCall.run (lruCreate htSize cacheSize none) calls =
        some (replies, cache) ∧
      cache.dqht.ht.count ≤ cacheSize ∧ cache.dqht.ht.size ≤ max htSize (4 * cacheSize - 2) := by
  obtain ⟨replies, cache, l, hserve, h, hsame, hle⟩ :=
    (HoldsRecent.create hht hsize).size_calls (n := max htSize (4 * cacheSize - 2)) misses
      (Nat.le_max_left ..) (by
        show 4 * cacheSize ≤ _
        omega)
  have hlength := h.length_le
  rw [hsame] at hlength
  exact ⟨replies, cache, hserve, h.represents.count_eq ▸ hlength, hle⟩

theorem lruCalls_space_failing : ∃ replies cache,
    Servers.serve LruCall.run (lruCreate 1 2 none) failingCalls = some (replies, cache) ∧
    cache.dqht.ht.count ≤ 2 ∧ cache.dqht.ht.size ≤ max 1 (4 * 2 - 2) :=
  lruCalls_space (by decide) (by decide) (by unfold Servers.Permitted; decide +kernel)

end SearchCache
