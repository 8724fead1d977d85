import SearchCache.Cache.Lru
import SearchCache.Lib.Servers
import Mathlib.Algebra.Order.Group.Multiset
import Mathlib.Tactic.Abel

/-! `lru.c` with allocations that fail, and where the values end up.  A request that fails may have
evicted, and a lookup that cannot insert its entry again loses it: nobody gets the value.  Every other
value that the cache takes is handed out once or released once, by `lru_destroy`. -/

namespace SearchCache

open DequeueHashTable HashTable

/-! ### Destroying -/

section Destroy

variable {K V : Type}

/-- The pointers that `dqht_destroy_handled` hands to its handler, in the order of the links. -/
def dqhtHandled (dqht : DequeueHashTable K V) : Nat → Option Addr → Option (List (Option V))
  | _, none => some []
  | 0, some _ => none
  | n + 1, some a => (dqhtHandled dqht n (dqht.next a)).map (dqht.ptr a :: ·)

/-- The entries that `ht_destroy` releases. -/
def htDestroy (ht : HashTable K V) : List Addr := (List.range ht.size).filterMap ht.items

/-- `lru_destroy`: the values that `destroy_entry` releases and the entries that `ht_destroy` does. -/
def lruDestroy (cache : LRUCache K V) : Option (List V × List Addr) :=
  (dqhtHandled cache.dqht cache.dqht.ht.fresh cache.dqht.head).map fun ptrs =>
    (ptrs.filterMap id, htDestroy cache.dqht.ht)

variable {dqht : DequeueHashTable K V}

theorem dqhtHandled_of_path {order : List Addr} {p : Option Addr} {n : Nat}
    (h : Linked.Path dqht.next p order none) (hn : order.length ≤ n) :
    dqhtHandled dqht n p = some (order.map dqht.ptr) := by
  induction order generalizing p n with
  | nil =>
    obtain rfl : p = none := h
    cases n <;> rfl
  | cons a order ih =>
    obtain ⟨rfl, hpath⟩ := h
    obtain ⟨m, rfl⟩ : ∃ m, n = m + 1 := ⟨n - 1, by simp at hn; omega⟩
    rw [dqhtHandled, ih hpath (by simpa using hn)]
    rfl

/-- The walk hands out the values in their order. -/
theorem Represents.handled [TableKey K] {l : List (K × V)} (h : Represents dqht l) :
    dqhtHandled dqht dqht.ht.fresh dqht.head = some (l.map fun x => some x.2) := by
  obtain ⟨order, hl⟩ := h.holds
  rw [dqhtHandled_of_path hl.linked.forward hl.length_le]
  have hptr : dqht.ptr = fun a => (dqht.pair a).map Prod.snd := by
    funext a
    simp [DequeueHashTable.ptr, DequeueHashTable.pair, Function.comp_def]
  have hmap := congrArg (List.map (Option.map Prod.snd)) hl.contents
  rw [hptr]
  simpa [Function.comp_def] using hmap

/-- Every entry is in one slot. -/
theorem HashTable.WF.htDestroy {ht : HashTable K V} (h : ht.WF) :
    (SearchCache.htDestroy ht).Nodup ∧
      ∀ a, a ∈ SearchCache.htDestroy ht ↔ ∃ e, ht.entries a = some e := by
  constructor
  · refine List.Nodup.filterMap (fun i j a hi hj => ?_) List.nodup_range
    exact h.inj i j a hi hj
  · intro a
    rw [SearchCache.htDestroy, List.mem_filterMap]
    constructor
    · rintro ⟨i, -, hi⟩
      exact h.live i a hi
    · rintro ⟨e, he⟩
      obtain ⟨i, hi⟩ := h.placed a e he
      exact ⟨i, List.mem_range.mpr (h.bound i a hi), hi⟩

end Destroy

/-! ### The list -/

variable {V : Type}

/-- The pairs in the order of their last use, and the values that nobody has. -/
structure Ledger (V : Type) where
  pairs : List (Key × V)
  lost : List V

/-- An operation whose insertion succeeds or not. -/
structure Marked (V : Type) where
  op : LruOp V
  stored : Bool

namespace Ledger

def call (capacity : Nat) (s : Ledger V) : Marked V → LruReply V × Ledger V
  | ⟨.get key, stored⟩ =>
    match s.pairs.find? fun x => x.1 = key with
    | none => (.got none, s)
    | some x =>
      let rest := s.pairs.eraseP fun x => x.1 = key
      if stored then (.got (some x.2), { s with pairs := rest ++ [x] })
      else (.got none, { s with pairs := rest, lost := x.2 :: s.lost })
  | ⟨.request key value, stored⟩ =>
    let full : Bool := capacity ≤ s.pairs.length
    let evicted := if full then s.pairs.head?.map Prod.snd else none
    let rest := if full then s.pairs.tail else s.pairs
    if stored then
      (.requested (if full then 1 else 0) evicted, { s with pairs := rest ++ [(key, value)] })
    else (.requested (-1) evicted, { s with pairs := rest })
  | ⟨.evict, _⟩ =>
    match s.pairs with
    | [] => (.evicted (-1) none, s)
    | x :: rest => (.evicted 0 (some x.2), { s with pairs := rest })

def run (capacity : Nat) (s : Ledger V) : List (Marked V) → List (LruReply V) × Ledger V
  | [] => ([], s)
  | m :: ops =>
    let (reply, s) := s.call capacity m
    let (replies, s) := run capacity s ops
    (reply :: replies, s)

/-- The values that the cache has or has lost. -/
def values (s : Ledger V) : Multiset V := s.pairs.map Prod.snd + s.lost

end Ledger

/-- The values that a reply hands out as evicted. -/
def LruReply.handed : LruReply V → List V
  | .got _ => []
  | .requested _ value => value.toList
  | .evicted _ value => value.toList

/-- The value that an operation leaves in the cache, by its reply. -/
def LruOp.kept : LruOp V → LruReply V → List V
  | .request _ value, .requested code _ => if 0 ≤ code then [value] else []
  | _, _ => []

/-- The values that a run leaves in the cache, by its replies. -/
def keptValues (ops : List (LruOp V)) (replies : List (LruReply V)) : List V :=
  (List.zipWith LruOp.kept ops replies).flatten

namespace Ledger

variable {s : Ledger V} {capacity : Nat}

theorem find_split {l : List (Key × V)} {key : Key} {x : Key × V}
    (h : l.find? (fun x => x.1 = key) = some x) : x.1 = key ∧ ∃ before after,
      l = before ++ x :: after ∧ l.eraseP (fun x => x.1 = key) = before ++ after := by
  obtain ⟨hx, before, after, rfl, hbefore⟩ := List.find?_eq_some_iff_append.mp h
  refine ⟨by simpa using hx, before, after, rfl, ?_⟩
  rw [List.eraseP_append_right _ (by simpa using hbefore), List.eraseP_cons_of_pos (by simpa using hx)]

/-- No operation makes a value or drops one. -/
theorem values_call (m : Marked V) : ((s.call capacity m).1.handed : Multiset V) +
    (s.call capacity m).2.values = (m.op.kept (s.call capacity m).1 : Multiset V) + s.values := by
  obtain ⟨op, stored⟩ := m
  cases op with
  | get key =>
    rw [call]
    split
    · simp [LruOp.kept, LruReply.handed]
    · rename_i x hfind
      obtain ⟨-, before, after, hpairs, herase⟩ := find_split hfind
      rw [herase]
      cases stored <;>
      · simp only [if_true, Bool.false_eq_true, if_false, values, hpairs, LruOp.kept,
          LruReply.handed, List.map_append, List.map_cons, List.map_nil, ← Multiset.coe_add,
          ← Multiset.cons_coe, ← Multiset.singleton_add, Multiset.coe_nil]
        abel
  | request key value =>
    have hsplit : ∀ full : Bool, full = decide (capacity ≤ s.pairs.length) →
        ((if full then s.pairs.head?.map Prod.snd else none).toList : Multiset V) +
          ((if full then s.pairs.tail else s.pairs).map Prod.snd : List V) =
        (s.pairs.map Prod.snd : List V) := by
      rintro (_ | _) - <;> cases s.pairs <;> simp
    have hcode : ∀ full : Bool, (0 : Int) ≤ if full then 1 else 0 := by decide
    specialize hsplit _ rfl
    specialize hcode (decide (capacity ≤ s.pairs.length))
    rw [call]
    cases stored <;>
    · simp only [if_true, Bool.false_eq_true, if_false, values, ← hsplit, LruOp.kept, hcode,
        LruReply.handed, List.map_append, List.map_cons, List.map_nil, ← Multiset.coe_add,
        ← Multiset.cons_coe, ← Multiset.singleton_add, Multiset.coe_nil, Int.reduceNeg, Int.reduceLE]
      abel
  | evict =>
    rw [call]
    split
    · simp [LruOp.kept, LruReply.handed]
    · rename_i x rest hpairs
      simp only [values, hpairs, LruOp.kept, LruReply.handed, Option.toList_some, List.map_cons,
        ← Multiset.cons_coe, ← Multiset.singleton_add, Multiset.coe_nil]
      abel

theorem values_run (ops : List (Marked V)) :
    ((run capacity s ops).1.flatMap LruReply.handed : Multiset V) + (run capacity s ops).2.values =
      (keptValues (ops.map Marked.op) (run capacity s ops).1 : Multiset V) + s.values := by
  induction ops generalizing s with
  | nil => simp [run, keptValues]
  | cons m ops ih =>
    have hcall := @values_call V s capacity m
    have hrest := ih (s := (s.call capacity m).2)
    rw [run, List.flatMap_cons, List.map_cons, keptValues, List.zipWith_cons_cons, List.flatten_cons,
      ← Multiset.coe_add, ← Multiset.coe_add, add_assoc, hrest, add_left_comm, hcall, keptValues]
    abel

/-- Nothing is lost where every insertion succeeds. -/
theorem lost_call {m : Marked V} (hm : m.stored = true) : (s.call capacity m).2.lost = s.lost := by
  obtain ⟨op, stored⟩ := m
  obtain rfl : stored = true := hm
  cases op <;> simp only [call, if_true] <;> split <;> rfl

theorem lost_run {ops : List (Marked V)} (h : ∀ m ∈ ops, m.stored = true) :
    (run capacity s ops).2.lost = s.lost := by
  induction ops generalizing s with
  | nil => rfl
  | cons m ops ih =>
    rw [run, ih fun m hm => h m (List.mem_cons_of_mem _ hm), lost_call (h m List.mem_cons_self)]

end Ledger

/-! ### The cache -/

/-- An operation with what its allocations come to. -/
structure LruCall (V : Type) where
  op : LruOp V
  ok : Alloc

def LruCall.run (cache : LRUCache Key V) : LruCall V → Option (LruReply V × LRUCache Key V)
  | ⟨.get key, ok⟩ => (lruGet ok cache key).map fun (value, cache) => (.got value, cache)
  | ⟨.request key value, ok⟩ =>
    (lruRequest ok cache key (some value)).map fun r => (.requested r.code r.evicted, r.cache)
  | ⟨.evict, _⟩ =>
    let (code, value, cache) := lruEvict cache
    some (.evicted code value, cache)

/-- A request is for a key that the cache does not contain. -/
def LruCall.Misses (cache : LRUCache Key V) : LruCall V → Prop
  | ⟨.request key _, _⟩ => lruContains cache key = false
  | _ => True

instance (cache : LRUCache Key V) (c : LruCall V) : Decidable (c.Misses cache) :=
  match c with
  | ⟨.request key _, _⟩ => inferInstanceAs (Decidable (lruContains cache key = false))
  | ⟨.get _, _⟩ | ⟨.evict, _⟩ => .isTrue trivial

/-- The operation of the call, whose insertion succeeds where the allocations do. -/
def LruCall.Marks (c : LruCall V) (m : Marked V) : Prop :=
  m.op = c.op ∧ (c.ok = {} → m.stored = true)

section Insert

variable {K : Type} [TableKey K] [LawfulTableKey K] {dqht : DequeueHashTable K V} {l : List (K × V)} {key : K}

/-- An insertion of an absent key stores the pair or changes nothing. -/
theorem Represents.insert_any (h : Represents dqht l) (hkey : key ∉ l.map Prod.fst) (ok : Alloc)
    (value : V) : ∃ (stored : Bool) (table : DequeueHashTable K V),
      dqhtInsert ok dqht key (some value) =
        some { code := if stored then 0 else -1, table, overridden := none } ∧
      Represents table (if stored then l ++ [(key, value)] else l) ∧ (ok = {} → stored = true) := by
  by_cases hok : ok.Suffices dqht.ht.size dqht.ht.count
  · obtain ⟨⟨code, table, overridden⟩, hr, hcode, hover, hrep⟩ := h.insert hkey value
    obtain rfl : code = 0 := hcode
    obtain rfl : overridden = none := hover
    exact ⟨true, table, by rw [Represents.insert_suffices hok, hr]; rfl, hrep, fun _ => rfl⟩
  · obtain ⟨table, hr, hrep⟩ := h.insert_fails hkey hok value
    refine ⟨false, table, hr, hrep, fun hfull => ?_⟩
    subst hfull
    exact (hok ⟨fun _ => rfl, rfl⟩).elim

end Insert

namespace HoldsRecent

variable {cache : LRUCache Key V} {s : Ledger V} {l : List (Key × V)} {key : Key}

/-- A state of the cache that an operation may leave. -/
structure Next (cache : LRUCache Key V) (s' : Ledger V) (cache' : LRUCache Key V) : Prop where
  holds : HoldsRecent cache' s'.pairs
  cacheSize : cache'.cacheSize = cache.cacheSize
  freed : cache'.freed = cache.freed

theorem insert_any (cache : LRUCache Key V) (h : Represents cache.dqht l)
    (hkey : key ∉ l.map Prod.fst) (ok : Alloc) (value : V) (retVal : Int) (evicted : Option V) :
    ∃ (stored : Bool) (dqht : DequeueHashTable Key V),
      lruInsert ok cache key (some value) retVal evicted = some {
        code := if stored then retVal else -1, evicted, cache := { cache with dqht } } ∧
      Represents dqht (if stored then l ++ [(key, value)] else l) ∧ (ok = {} → stored = true) := by
  obtain ⟨stored, dqht, hr, hrep, hok⟩ := h.insert_any hkey ok value
  refine ⟨stored, dqht, ?_, hrep, hok⟩
  rw [lruInsert, hr]
  cases stored <;> rfl

theorem getWith (h : HoldsRecent cache s.pairs) (key : Key) (ok : Alloc) :
    ∃ (stored : Bool) (cache' : LRUCache Key V), (ok = {} → stored = true) ∧
      LruCall.run cache ⟨.get key, ok⟩ =
        some ((s.call cache.cacheSize ⟨.get key, stored⟩).1, cache') ∧
      Next cache (s.call cache.cacheSize ⟨.get key, stored⟩).2 cache' := by
  cases hfind : s.pairs.find? fun x => x.1 = key with
  | none =>
    have hremove := h.represents.remove_absent (Represents.find_eq_none hfind)
    refine ⟨true, cache, fun _ => rfl, ?_, ?_⟩
    · simp [LruCall.run, lruGet, hremove, Ledger.call, hfind]
    · simpa [Ledger.call, hfind] using (⟨h, rfl, rfl⟩ : Next cache s cache)
  | some x =>
    obtain ⟨rfl, before, after, hpairs, herase⟩ := Ledger.find_split hfind
    have hlength := h.length_le
    rw [hpairs] at hlength
    have hrep := h.represents
    rw [hpairs] at hrep
    obtain ⟨dqht1, hremove, h1⟩ := hrep.remove_mem
    -- the removed key is absent when it is inserted again
    have habsent : x.1 ∉ (before ++ after).map Prod.fst := by
      have := hrep.keys_nodup
      rw [List.map_append, List.map_cons, List.nodup_middle] at this
      simpa using (List.nodup_cons.mp this).1
    obtain ⟨stored, table, hr, h2, hok⟩ := h1.insert_any habsent ok x.2
    refine ⟨stored, { cache with dqht := table }, hok, ?_, ?_⟩
    · cases stored <;> simp [LruCall.run, lruGet, hremove, hr, Ledger.call, hfind]
    · simp only [List.length_append, List.length_cons] at hlength
      cases stored <;> refine ⟨⟨?_, h.size_pos, ?_⟩, rfl, rfl⟩ <;>
        simp only [Ledger.call, hfind, herase, if_true, Bool.false_eq_true, if_false]
      · exact h2
      · simp
        omega
      · exact h2
      · simp
        omega

theorem requestWith (h : HoldsRecent cache s.pairs) {value : V} (ok : Alloc)
    (absent : lruContains cache key = false) :
    ∃ (stored : Bool) (cache' : LRUCache Key V), (ok = {} → stored = true) ∧
      LruCall.run cache ⟨.request key value, ok⟩ =
        some ((s.call cache.cacheSize ⟨.request key value, stored⟩).1, cache') ∧
      Next cache (s.call cache.cacheSize ⟨.request key value, stored⟩).2 cache' := by
  have hkey : key ∉ s.pairs.map Prod.fst := fun hmem => by
    rw [(h.contains_iff key).mpr hmem] at absent
    simp at absent
  have hcount := h.represents.count_eq
  have hsize := h.size_pos
  have hlength := h.length_le
  by_cases hfull : cache.cacheSize ≤ s.pairs.length
  · obtain ⟨x, rest, hpairs⟩ : ∃ x rest, s.pairs = x :: rest :=
      List.exists_cons_of_ne_nil (by intro hnil; rw [hnil] at hfull; simp at hfull; omega)
    have hrep := h.represents
    rw [hpairs] at hrep hkey hlength
    obtain ⟨dqht1, hpop, h1⟩ := hrep.popFront
    have habsent : key ∉ rest.map Prod.fst := by
      simp only [List.map_cons, List.mem_cons, not_or] at hkey
      exact hkey.2
    obtain ⟨stored, dqht2, hinsert, h2, hok⟩ :=
      insert_any { cache with dqht := dqht1 } h1 habsent ok value 1 (some x.2)
    have hfull' : cache.cacheSize ≤ rest.length + 1 := by simpa [hpairs] using hfull
    refine ⟨stored, { cache with dqht := dqht2 }, hok, ?_, ?_⟩
    · rw [LruCall.run, lruRequest, hcount, if_pos hfull, hpop]
      simp only [hinsert, Option.map_some]
      cases stored <;> simp [Ledger.call, hpairs, hfull']
    · simp only [List.length_cons] at hlength
      cases stored <;> refine ⟨⟨?_, hsize, ?_⟩, rfl, rfl⟩ <;> simp [Ledger.call, hpairs, hfull']
      · exact h2
      · omega
      · exact h2
      · omega
  · obtain ⟨stored, dqht1, hinsert, h1, hok⟩ := insert_any cache h.represents hkey ok value 0 none
    refine ⟨stored, { cache with dqht := dqht1 }, hok, ?_, ?_⟩
    · rw [LruCall.run, lruRequest, hcount, if_neg hfull, hinsert]
      cases stored <;> simp [Ledger.call, hfull]
    · cases stored <;> refine ⟨⟨?_, hsize, ?_⟩, rfl, rfl⟩ <;> simp [Ledger.call, hfull]
      · exact h1
      · omega
      · exact h1
      · omega

theorem evictWith (h : HoldsRecent cache s.pairs) (ok : Alloc) :
    ∃ cache', LruCall.run cache ⟨.evict, ok⟩ =
        some ((s.call cache.cacheSize ⟨.evict, true⟩).1, cache') ∧
      Next cache (s.call cache.cacheSize ⟨.evict, true⟩).2 cache' := by
  have hlength := h.length_le
  have hrep := h.represents
  cases hpairs : s.pairs with
  | nil =>
    rw [hpairs] at hrep
    refine ⟨cache, by simp [LruCall.run, lruEvict, hrep.popFront_nil, Ledger.call, hpairs], ?_⟩
    simpa [Ledger.call, hpairs] using (⟨h, rfl, rfl⟩ : Next cache s cache)
  | cons x rest =>
    rw [hpairs] at hrep hlength
    obtain ⟨dqht1, hpop, h1⟩ := hrep.popFront
    refine ⟨{ cache with dqht := dqht1 }, by simp [LruCall.run, lruEvict, hpop, Ledger.call, hpairs],
      ⟨?_, h.size_pos, ?_⟩, rfl, rfl⟩
    · simpa [Ledger.call, hpairs] using h1
    · simp only [Ledger.call, hpairs, List.length_cons] at hlength ⊢
      omega

/-- One call, whatever its allocations come to. -/
theorem call (h : HoldsRecent cache s.pairs) {c : LruCall V} (misses : c.Misses cache) :
    ∃ m cache', c.Marks m ∧ c.run cache = some ((s.call cache.cacheSize m).1, cache') ∧
      Next cache (s.call cache.cacheSize m).2 cache' := by
  obtain ⟨op, ok⟩ := c
  cases op with
  | get key =>
    obtain ⟨stored, cache', hok, hrun, hnext⟩ := h.getWith key ok
    exact ⟨⟨.get key, stored⟩, cache', ⟨rfl, hok⟩, hrun, hnext⟩
  | request key value =>
    obtain ⟨stored, cache', hok, hrun, hnext⟩ := h.requestWith ok misses
    exact ⟨⟨.request key value, stored⟩, cache', ⟨rfl, hok⟩, hrun, hnext⟩
  | evict =>
    obtain ⟨cache', hrun, hnext⟩ := h.evictWith ok
    exact ⟨⟨.evict, true⟩, cache', ⟨rfl, fun _ => rfl⟩, hrun, hnext⟩

/-- By induction on the calls. -/
theorem calls (h : HoldsRecent cache s.pairs) {calls : List (LruCall V)}
    (misses : Servers.Permitted LruCall.run LruCall.Misses cache calls) :
    ∃ ops cache', List.Forall₂ LruCall.Marks calls ops ∧
      Servers.serve LruCall.run cache calls = some ((s.run cache.cacheSize ops).1, cache') ∧
      Next cache (s.run cache.cacheSize ops).2 cache' := by
  induction calls generalizing cache s with
  | nil => exact ⟨[], cache, .nil, rfl, h, rfl, rfl⟩
  | cons c calls ih =>
    obtain ⟨m, cache1, hmarks, hrun, hnext⟩ := h.call misses.1
    obtain ⟨ops, cache2, hall, hserve, hlast⟩ := ih hnext.holds (misses.next hrun)
    rw [hnext.cacheSize] at hserve hlast
    exact ⟨m :: ops, cache2, .cons hmarks hall, Servers.serve_cons hrun hserve, hlast.holds,
      hlast.cacheSize.trans hnext.cacheSize, hlast.freed.trans hnext.freed⟩

theorem create {htSize cacheSize : Nat} (hht : 1 ≤ htSize) (hsize : 1 ≤ cacheSize) :
    HoldsRecent (lruCreate htSize cacheSize none : LRUCache Key V) (⟨[], []⟩ : Ledger V).pairs :=
  ⟨Represents.create hht, hsize, Nat.zero_le _⟩

end HoldsRecent

theorem marks_ops {calls : List (LruCall V)} {ops : List (Marked V)}
    (h : List.Forall₂ LruCall.Marks calls ops) : ops.map Marked.op = calls.map LruCall.op := by
  induction h with
  | nil => rfl
  | cons hmarks _ ih => rw [List.map_cons, List.map_cons, hmarks.1, ih]

theorem marks_stored {calls : List (LruCall V)} {ops : List (Marked V)}
    (h : List.Forall₂ LruCall.Marks calls ops) (hok : ∀ c ∈ calls, c.ok = {}) :
    ∀ m ∈ ops, m.stored = true := by
  induction h with
  | nil => simp
  | cons hmarks _ ih =>
    rw [List.forall_mem_cons] at hok
    exact List.forall_mem_cons.mpr ⟨hmarks.2 hok.1, ih hok.2⟩

/-! ### Runs whose allocations may fail -/

/-- The request of the third key evicts the first one and then fails; the lookup loses the second. -/
def failingCalls : List (LruCall Nat) :=
  [⟨.request keyA 1, {}⟩, ⟨.request keyB 2, {}⟩, ⟨.request keyC 3, { entry := false }⟩,
    ⟨.get keyB, { entry := false }⟩, ⟨.get keyB, {}⟩]

end SearchCache
