import SearchCache.Cache.LruFailure
import SearchCache.Lib.Recency

/-! What `lru.c` is for.  A client looks a key up and requests it where the lookup finds nothing.  The
cache then holds the keys that were used last, a larger cache finds what a smaller one does, and no
other cache has fewer misses than it by more than a factor. -/

namespace SearchCache

variable {V : Type}

/-- A lookup, and the request of the key and value after a lookup that finds nothing. -/
def lruFetch (cache : LRUCache Key V) (x : Key × V) : Option (Option V × LRUCache Key V) :=
  match lruGet {} cache x.1 with
  | none => none
  | some (some value, cache) => some (some value, cache)
  | some (none, cache) => (lruRequest {} cache x.1 (some x.2)).map fun r => (none, r.cache)

/-- The same on pairs in the order of their last use. -/
def fetchList (capacity : Nat) (l : List (Key × V)) (x : Key × V) : Option V × List (Key × V) :=
  match l.find? fun y => y.1 = x.1 with
  | some y => (some y.2, (l.eraseP fun y => y.1 = x.1) ++ [y])
  | none => (none, (if capacity ≤ l.length then l.tail else l) ++ [x])

section

variable {capacity : Nat} {l : List (Key × V)} {x : Key × V}

theorem fetchList_isSome : (fetchList capacity l x).1.isSome = decide (x.1 ∈ l.map Prod.fst) := by
  rw [fetchList]
  cases hfind : l.find? fun y => y.1 = x.1 with
  | none => simp [Represents.find_eq_none hfind]
  | some y =>
    have hmem := List.mem_of_find?_eq_some hfind
    have hy : y.1 = x.1 := by simpa using List.find?_some hfind
    simpa [hy] using ⟨y.2, hy ▸ hmem⟩

theorem fetchList_mem {y : Key × V} (hy : y ∈ (fetchList capacity l x).2) : y ∈ l ∨ y = x := by
  rw [fetchList] at hy
  split at hy
  · rename_i z hfind
    rcases List.mem_append.mp hy with hmem | hmem
    · exact .inl (List.mem_of_mem_eraseP hmem)
    · exact .inl (List.mem_singleton.mp hmem ▸ List.mem_of_find?_eq_some hfind)
  · rcases List.mem_append.mp hy with hmem | hmem
    · split at hmem
      · exact .inl (List.mem_of_mem_tail hmem)
      · exact .inl hmem
    · exact .inr (List.mem_singleton.mp hmem)

/-- The keys are those of a cache of the most recent ones. -/
theorem fetchList_keys (hl : (l.map Prod.fst).Nodup) (hlength : l.length ≤ capacity)
    (hsize : 1 ≤ capacity) :
    (fetchList capacity l x).2.map Prod.fst = Recency.touch capacity (l.map Prod.fst) x.1 := by
  rw [fetchList]
  cases hfind : l.find? fun y => y.1 = x.1 with
  | none =>
    have hkey := Represents.find_eq_none hfind
    by_cases hfull : capacity ≤ l.length
    · obtain ⟨y, rest, rfl⟩ : ∃ y rest, l = y :: rest :=
        List.exists_cons_of_ne_nil (by rintro rfl; simp at hfull; omega)
      rw [List.map_cons] at hkey ⊢
      rw [Recency.touch_notMem_full hkey (by simp at hlength hfull ⊢; omega)]
      rw [if_pos hfull, List.tail_cons, List.map_append, List.map_singleton]
    · rw [Recency.touch_notMem_room hkey (by simpa using hfull), if_neg hfull, List.map_append,
        List.map_singleton]
  | some y =>
    obtain ⟨hy, before, after, rfl, herase⟩ := Ledger.find_split hfind
    have hkeys : (before ++ y :: after).map Prod.fst =
        before.map Prod.fst ++ y.1 :: after.map Prod.fst := by simp
    rw [hkeys] at hl ⊢
    have hbefore : y.1 ∉ before.map Prod.fst := fun hmem =>
      (List.nodup_append.mp hl).2.2 y.1 hmem y.1 List.mem_cons_self rfl
    simp only [herase, List.map_append, List.map_singleton]
    rw [Recency.touch_mem (by simp [← hy]) (by simpa using hlength), ← hy,
      List.erase_append_right _ hbefore, List.erase_cons_head]

end

namespace HoldsRecent

variable {cache : LRUCache Key V} {l : List (Key × V)}

theorem fetch (h : HoldsRecent cache l) (x : Key × V) : ∃ cache',
    lruFetch cache x = some ((fetchList cache.cacheSize l x).1, cache') ∧
      cache'.cacheSize = cache.cacheSize ∧ HoldsRecent cache' (fetchList cache.cacheSize l x).2 := by
  obtain ⟨cache1, hget, hsize1, h1⟩ := h.get x.1
  rw [LruOp.run, Option.map_eq_some_iff] at hget
  obtain ⟨⟨found, cache1'⟩, hget, heq⟩ := hget
  cases hfind : l.find? fun y => y.1 = x.1 with
  | some y =>
    simp only [LruOp.onList, hfind, Prod.mk.injEq, LruReply.got.injEq] at heq h1
    obtain ⟨rfl, rfl⟩ := heq
    exact ⟨cache1', by simp [lruFetch, hget, fetchList, hfind], hsize1, by simpa [fetchList, hfind] using h1⟩
  | none =>
    simp only [LruOp.onList, hfind, Prod.mk.injEq, LruReply.got.injEq] at heq h1
    obtain ⟨rfl, rfl⟩ := heq
    obtain ⟨cache2, hrequest, hsize2, h2⟩ := @request _ _ _ h1 x.1 x.2 (Represents.find_eq_none hfind)
    rw [LruOp.run, Option.map_eq_some_iff] at hrequest
    obtain ⟨r, hr, heq⟩ := hrequest
    rw [Prod.mk.injEq] at heq
    obtain ⟨-, rfl⟩ := heq
    refine ⟨r.cache, by simp [lruFetch, hget, hr, fetchList, hfind], hsize2.trans hsize1, ?_⟩
    rw [hsize1] at h2
    simp only [LruOp.onList, fetchList, hfind] at h2 ⊢
    by_cases hfull : cache.cacheSize ≤ l.length
    · rwa [if_pos hfull] at h2 ⊢
    · rwa [if_neg hfull] at h2 ⊢

/-- By induction on the lookups, after the keys `seen`. -/
theorem fetches (h : HoldsRecent cache l) {seen : List Key}
    (hl : l.map Prod.fst = Recency.recent cache.cacheSize seen) (uses : List (Key × V)) :
    ∃ answers cache' l', Servers.serve lruFetch cache uses = some (answers, cache') ∧
      HoldsRecent cache' l' ∧
      l'.map Prod.fst = Recency.recent cache.cacheSize (seen ++ uses.map Prod.fst) ∧
      answers.map Option.isSome = Recency.hits cache.cacheSize seen (uses.map Prod.fst) ∧
      ∀ x ∈ l', x ∈ l ∨ x ∈ uses := by
  induction uses generalizing cache l seen with
  | nil => exact ⟨[], cache, l, rfl, h, by simpa using hl, rfl, fun x hx => .inl hx⟩
  | cons x uses ih =>
    obtain ⟨cache1, hfetch, hsize1, h1⟩ := h.fetch x
    have hkeys := fetchList_keys (x := x) h.represents.keys_nodup h.length_le h.size_pos
    rw [hl, ← Recency.recent_snoc, ← hsize1] at hkeys
    obtain ⟨answers, cache', l', hserve, h', hl', hhits, hmem⟩ := ih h1 (by rw [← hkeys, hsize1])
    rw [hsize1] at hl' hhits
    refine ⟨_ :: answers, cache', l', Servers.serve_cons hfetch hserve, h', ?_, ?_, fun y hy => ?_⟩
    · simpa using hl'
    · rw [List.map_cons, List.map_cons, Recency.hits, hhits, fetchList_isSome, hl]
    · rcases hmem y hy with hold | hnew
      · refine (fetchList_mem hold).imp id fun heq => ?_
        rw [heq]
        exact List.mem_cons_self
      · exact .inr (List.mem_cons_of_mem _ hnew)

theorem fetches_create {htSize cacheSize : Nat} (hht : 1 ≤ htSize) (hsize : 1 ≤ cacheSize)
    (uses : List (Key × V)) : ∃ answers cache l,
      Servers.serve lruFetch (lruCreate htSize cacheSize none) uses = some (answers, cache) ∧
      HoldsRecent cache l ∧ l.map Prod.fst = Recency.recent cacheSize (uses.map Prod.fst) ∧
      answers.map Option.isSome = Recency.hits cacheSize [] (uses.map Prod.fst) ∧
      ∀ x ∈ l, x ∈ uses := by
  have hstart : HoldsRecent (lruCreate htSize cacheSize none : LRUCache Key V) [] := create hht hsize
  have hnone : ([] : List (Key × V)).map Prod.fst = Recency.recent cacheSize [] := by
    simp [Recency.recent]
  obtain ⟨answers, cache, l, hserve, h, hl, hhits, hmem⟩ := hstart.fetches hnone uses
  exact ⟨answers, cache, l, hserve, h, hl, hhits, fun x hx => (hmem x hx).resolve_left List.not_mem_nil⟩

end HoldsRecent

/-! ### Runs of lookups -/

/-- The cache holds the last distinct keys of the lookups, with values from them, and a lookup finds its
key exactly where it is one of the last distinct ones before. -/
theorem lruFetches_recent {htSize cacheSize : Nat} (hht : 1 ≤ htSize) (hsize : 1 ≤ cacheSize)
    (uses : List (Key × V)) : ∃ answers cache pairs,
      Servers.serve lruFetch (lruCreate htSize cacheSize none) uses = some (answers, cache) ∧
      Mirrors cache.dqht pairs ∧
      pairs.map Prod.fst = Recency.recent cacheSize (uses.map Prod.fst) ∧
      (∀ x ∈ pairs, x ∈ uses) ∧
      ∀ i : Nat, answers[i]?.map Option.isSome =
        uses[i]?.map fun x => decide (x.1 ∈ Recency.recent cacheSize ((uses.take i).map Prod.fst)) := by
  obtain ⟨answers, cache, pairs, hserve, hholds, hkeys, hhits, hmem⟩ :=
    HoldsRecent.fetches_create hht hsize uses
  refine ⟨answers, cache, pairs, hserve, hholds.represents.mirrors, hkeys, hmem, fun i => ?_⟩
  have hi := congrArg (fun bs : List Bool => bs[i]?) hhits
  simpa [Recency.hits_getElem?, List.map_take, Function.comp_def] using hi

/-- The third key evicts the second one, which the last lookup finds no more. -/
def fourUses : List (Key × Nat) := [(keyA, 1), (keyB, 2), (keyA, 3), (keyC, 4), (keyB, 5)]

theorem lruFetches_recent_four : ∃ answers cache pairs,
    Servers.serve lruFetch (lruCreate 4 2 none) fourUses = some (answers, cache) ∧
    Mirrors cache.dqht pairs ∧ pairs.map Prod.fst = Recency.recent 2 (fourUses.map Prod.fst) ∧
    (∀ x ∈ pairs, x ∈ fourUses) ∧
    ∀ i : Nat, answers[i]?.map Option.isSome = fourUses[i]?.map fun x =>
      decide (x.1 ∈ Recency.recent 2 ((fourUses.take i).map Prod.fst)) :=
  lruFetches_recent (by decide) (by decide) fourUses

/-- A larger cache finds what a smaller one finds and holds what it holds, whatever the sizes of their
tables are. -/
theorem lruFetches_mono {htSize₁ htSize₂ cacheSize₁ cacheSize₂ : Nat} (hht₁ : 1 ≤ htSize₁)
    (hht₂ : 1 ≤ htSize₂) (hsize : 1 ≤ cacheSize₁) (hle : cacheSize₁ ≤ cacheSize₂)
    (uses : List (Key × V)) : ∃ answers₁ cache₁ pairs₁ answers₂ cache₂ pairs₂,
      Servers.serve lruFetch (lruCreate htSize₁ cacheSize₁ none) uses = some (answers₁, cache₁) ∧
      Servers.serve lruFetch (lruCreate htSize₂ cacheSize₂ none) uses = some (answers₂, cache₂) ∧
      Mirrors cache₁.dqht pairs₁ ∧ Mirrors cache₂.dqht pairs₂ ∧
      List.Forall₂ (fun o₁ o₂ => o₁.isSome → o₂.isSome) answers₁ answers₂ ∧
      pairs₁.map Prod.fst <:+ pairs₂.map Prod.fst := by
  obtain ⟨answers₁, cache₁, pairs₁, hserve₁, hholds₁, hkeys₁, hhits₁, -⟩ :=
    HoldsRecent.fetches_create hht₁ hsize uses
  obtain ⟨answers₂, cache₂, pairs₂, hserve₂, hholds₂, hkeys₂, hhits₂, -⟩ :=
    HoldsRecent.fetches_create hht₂ (hsize.trans hle) uses
  refine ⟨answers₁, cache₁, pairs₁, answers₂, cache₂, pairs₂, hserve₁, hserve₂,
    hholds₁.represents.mirrors, hholds₂.represents.mirrors, ?_, ?_⟩
  · have hmono := @Recency.hits_mono Key _ _ _ [] (uses.map Prod.fst) hle
    rw [← hhits₁, ← hhits₂, List.forall₂_map_left_iff, List.forall₂_map_right_iff] at hmono
    exact hmono
  · rw [hkeys₁, hkeys₂]
    exact Recency.recent_suffix hle _

theorem lruFetches_mono_four : ∃ answers₁ cache₁ pairs₁ answers₂ cache₂ pairs₂,
    Servers.serve lruFetch (lruCreate 4 2 none) fourUses = some (answers₁, cache₁) ∧
    Servers.serve lruFetch (lruCreate 1 3 none) fourUses = some (answers₂, cache₂) ∧
    Mirrors cache₁.dqht pairs₁ ∧ Mirrors cache₂.dqht pairs₂ ∧
    List.Forall₂ (fun o₁ o₂ => o₁.isSome → o₂.isSome) answers₁ answers₂ ∧
    pairs₁.map Prod.fst <:+ pairs₂.map Prod.fst :=
  lruFetches_mono (by decide) (by decide) (by decide) (by decide) fourUses

/-- The lookups that find nothing are at most `cacheSize / (cacheSize - h + 1)` times as many as those of
any cache of `h` keys that serves the same lookups, up to `cacheSize * (cacheSize + 1) / 2`. -/
theorem lruFetches_competitive {htSize cacheSize : Nat} (hht : 1 ≤ htSize) (hsize : 1 ≤ cacheSize)
    (uses : List (Key × V)) : ∃ answers cache,
      Servers.serve lruFetch (lruCreate htSize cacheSize none) uses = some (answers, cache) ∧
      ∀ (h n : Nat) (C : Finset Key), h ≤ cacheSize → C.card ≤ h →
        Recency.Serves h C (uses.map Prod.fst) n →
        2 * ((cacheSize - h + 1) * answers.countP Option.isNone) ≤
          2 * (cacheSize * n) + cacheSize * (cacheSize + 1) := by
  obtain ⟨answers, cache, l, hserve, -, -, hhits, -⟩ := HoldsRecent.fetches_create hht hsize uses
  refine ⟨answers, cache, hserve, fun h n C hle hC hserves => ?_⟩
  have hcount : answers.countP Option.isNone = (answers.map Option.isSome).count false := by
    rw [List.count, List.countP_map]
    congr 1
    funext o
    cases o <;> rfl
  rw [hcount, hhits]
  exact hserves.count_hits_le hC hle

theorem lruFetches_competitive_four : ∃ answers cache,
    Servers.serve lruFetch (lruCreate 4 2 none) fourUses = some (answers, cache) ∧
    ∀ (h n : Nat) (C : Finset Key), h ≤ 2 → C.card ≤ h →
      Recency.Serves h C (fourUses.map Prod.fst) n →
      2 * ((2 - h + 1) * answers.countP Option.isNone) ≤ 2 * (2 * n) + 2 * (2 + 1) :=
  lruFetches_competitive (by decide) (by decide) fourUses

end SearchCache
