import SearchCache.Cache.DlirsTracks
import SearchCache.Cache.LirsQueued

/-! The counters of the cache under the loop of `queryProcessor`, which requests a key exactly when
the lookup has returned NULL, and releases what is evicted. -/

namespace SearchCache

open Lirs

variable {V : Type}

def DLIRS.isLIR (cache : DLIRS V) (r : Ref) : Bool := (cache.heap r).any DLIRSEntry.isLIR

def DLIRS.isGhost (cache : DLIRS V) (r : Ref) : Bool := (cache.heap r).any fun e => !e.inCache

def DLIRS.isDemoted (cache : DLIRS V) (r : Ref) : Bool := (cache.heap r).any DLIRSEntry.isDemoted

/-- The tables hold the pairs of keys and references `pairs`, each on a list that ends and with one
entry for a key; the two counts of residents are right and within the size of the cache. -/
structure Consistent (cache : DLIRS V) (pairs : Table → List (Key × Ref)) : Prop where
  mirrors : ∀ t, Mirrors (cache.table t) (pairs t)
  lirsCount : cache.lirsCount = (pairs .lirs).countP fun x => cache.isLIR x.2
  hirsCount : cache.hirsCount = (pairs .residentHirs).length
  residents_le : cache.hirsCount + cache.lirsCount ≤ cache.cacheSize

/-- All four counters are right, and `non_resident_hirs` has the HIR entries of `lirs`. -/
structure Accounted (cache : DLIRS V) (pairs : Table → List (Key × Ref)) : Prop
    extends Consistent cache pairs where
  nonResident : cache.nonResident = (pairs .lirs).countP fun x => cache.isGhost x.2
  demoted : cache.demoted = (pairs .residentHirs).countP fun x => cache.isDemoted x.2
  hirs : ∀ x, x ∈ pairs .nonResidentHirs ↔ x ∈ pairs .lirs ∧ cache.isLIR x.2 = false

/-- The walk along the links of a table. -/
theorem Mirrors.ptrs_eq {dqht : DequeueHashTable Key Ref} {l : List (Key × Ref)}
    (h : Mirrors dqht l) {n : Nat} {ptrs : List (Option Ref)}
    (hptrs : dqhtPtrs dqht n dqht.head = some ptrs) : ptrs = l.map fun x => some x.2 := by
  obtain ⟨order, hpath, -, hpairs, -⟩ := h.chains
  have walk : ∀ (order : List Addr) (p : Option Addr) (n : Nat) (ptrs : List (Option Ref)),
      Linked.Path dqht.next p order none → dqhtPtrs dqht n p = some ptrs →
      ptrs = order.map dqht.ptr := by
    intro order
    induction order with
    | nil =>
      rintro p n ptrs (rfl : p = none) hw
      cases n <;> simpa [dqhtPtrs] using hw.symm
    | cons a order ih =>
      rintro p n ptrs ⟨rfl, hpath⟩ hw
      cases n with
      | zero => simp [dqhtPtrs] at hw
      | succ n =>
        obtain ⟨rest, hrest, rfl⟩ := Option.map_eq_some_iff.mp hw
        rw [ih _ n rest hpath hrest]
        rfl
  have hmap := congrArg (List.map (Option.map Prod.snd)) hpairs
  rw [walk order _ n ptrs hpath hptrs]
  show order.map (fun a => (dqht.ht.entries a).map DQHTEntry.ptr) = _
  simpa [DequeueHashTable.pair, Function.comp_def] using hmap

/-! ### The counters are those of the algorithm -/

namespace Sim

variable {cache : DLIRS V} {ref : Key → Ref} {a : Lirs Key V} {held : Multiset Ref}

/-- The pairs of the tables. -/
def pairs (ref : Key → Ref) (a : Lirs Key V) (t : Table) : List (Key × Ref) :=
  (a.order t).map fun k => (k, ref k)

/-- A count over the keys of a table is one over its entries. -/
theorem countP_pairs (h : Sim cache ref a [] held) (t : Table) {p : DLIRSEntry V → Bool}
    {q : Info V → Bool} (hpq : ∀ k i n, p (entryOf k i n) = q i) :
    (pairs ref a t).countP (fun x => (cache.heap x.2).any p) =
      (a.order t).countP fun k => q (a.info k) := by
  rw [pairs, List.countP_map]
  refine List.countP_congr fun k hk => ?_
  obtain ⟨n, hn⟩ := h.entries k (.inl ⟨t, hk⟩)
  simp [hn, hpq]

theorem consistent (h : Sim cache ref a [] held) (hle : a.residents ≤ a.cacheSize) :
    Consistent cache (pairs ref a) where
  mirrors t := (h.tables t).mirrors
  lirsCount := by
    rw [h.lirsCount, lirCount]
    exact (h.countP_pairs .lirs (q := Info.isLIR) fun _ _ _ => rfl).symm
  hirsCount := by
    rw [h.hirsCount, pairs, List.length_map]
    rfl
  residents_le := by
    have := h.residents
    rw [DLIRS.residents] at this
    rw [this, h.cacheSize]
    exact hle

theorem accounted (h : Sim cache ref a [] held) (wf : a.WF) (hd : a.Queued)
    (hle : a.residents ≤ a.cacheSize) :
    Accounted cache (pairs ref a) where
  toConsistent := h.consistent hle
  nonResident := by
    rw [h.nonResident, ghostCount]
    exact (h.countP_pairs .lirs (q := fun i => !i.inCache) fun _ _ _ => rfl).symm
  demoted := by
    rw [h.demoted, hd.count, demotedCount]
    exact (h.countP_pairs .residentHirs (q := Info.isDemoted) fun _ _ _ => rfl).symm
  hirs x := by
    have hlir : ∀ k ∈ a.stack, cache.isLIR (ref k) = (a.info k).isLIR := by
      intro k hk
      obtain ⟨n, hn⟩ := h.entries k (.inl ⟨.lirs, hk⟩)
      simp [DLIRS.isLIR, hn, entryOf]
    simp only [pairs, order, List.mem_map]
    constructor
    · rintro ⟨k, hk, rfl⟩
      obtain ⟨hmem, hhir⟩ := (wf.mem_hirs k).mp hk
      exact ⟨⟨k, hmem, rfl⟩, (hlir k hmem).trans hhir⟩
    · rintro ⟨⟨k, hk, rfl⟩, hhir⟩
      exact ⟨k, (wf.mem_hirs k).mpr ⟨hk, (hlir k hk).symm.trans hhir⟩, rfl⟩

end Sim

/-! ### Accesses -/

/-- One round of `queryProcessor`: `dlirs_get`, `dlirs_request` where that returns NULL, and
`dlirs_entry_destroy` of what they evict. -/
def dlirsAccess (cache : DLIRS V) (key : Key) (value : V) : Option (DLIRS V) := do
  let got ← dlirsGet {} cache key
  let cache := dlirsEntryDestroy got.cache got.evicted
  if got.entry.isSome then return cache
  let requested ← dlirsRequest {} cache key (some value) none
  return dlirsEntryDestroy requested.cache requested.evicted

def dlirsAccesses (cache : DLIRS V) (accesses : List (Key × V)) : Option (DLIRS V) :=
  Runs.run (fun cache (key, value) => dlirsAccess cache key value) cache accesses

/-- The access finds neither an evicted entry in `lirs` nor an entry in `resident_hirs` only. -/
def RegularAccess (cache : DLIRS V) (access : Key × V) : Prop :=
  cache.findsGhost access.1 = false ∧ cache.findsResidentOnly access.1 = false

def RegularAccesses (cache : DLIRS V) (accesses : List (Key × V)) : Prop :=
  Runs.Regular (fun cache (key, value) => dlirsAccess cache key value) RegularAccess cache accesses

namespace Tracks

variable {cache : DLIRS V} {ref : Key → Ref} {a : Lirs Key V} {k : Key}

/-- A step of a run. -/
theorem access (h : Tracks cache ref a 0) (he : a.Exact) (hd : a.Queued)
    (hghost : cache.findsGhost k = false)
    (hresident : cache.findsResidentOnly k = false) (value : V) :
    ∃ cache' ref' b, dlirsAccess cache k value = some cache' ∧ Tracks cache' ref' b 0 ∧
      b.Exact ∧ b.Queued := by
  have hl := h.lookup hresident fun hfinds => by simp [hghost] at hfinds
  obtain ⟨⟨e, b⟩, hget⟩ := get_progress h.stable h.founded.rooted he (k := k)
  have hexact := he.get h.stable hl hget
  have hdemotions := hd.get h.stable hl hget
  obtain ⟨r, hr, hgot, hb⟩ := Loop.of_rel_some (hget ▸ h.get hl)
  have h1 := hb.releaseEvicted
  unfold dlirsAccess
  rw [hr, Option.bind_eq_bind, Option.bind_some]
  dsimp only
  by_cases hk : k ∈ a.stack
  · have hcached : (a.info k).inCache = true := by
      by_contra hnot
      have := (findsGhost_iff h.toSim).mpr ⟨hk, by simpa using hnot⟩
      simp [hghost] at this
    have hentry : r.entry = some (ref k) := by rw [hgot.entry, if_pos ⟨hk, hcached⟩]
    exact ⟨_, ref, b, by rw [hentry]; rfl, h1, hexact, hdemotions⟩
  · have hentry : r.entry = none := by rw [hgot.entry, if_neg fun hc => hk hc.1]
    have hsame : b = a := by
      rw [Lirs.get, if_neg hk, Option.some_inj, Prod.mk.injEq] at hget
      exact hget.2.symm
    subst hsame
    have huntracked : ¬b.Tracked k := fun ht => hk (mem_stack h.toSim hresident ht)
    obtain ⟨⟨i, c⟩, hrequest⟩ := request_progress h.stable he huntracked (some value)
    obtain ⟨q, hq, -, -, ref', -, -, hc⟩ :=
      Loop.of_rel_some (hrequest ▸ h1.request huntracked (some value))
    refine ⟨_, ref', c, ?_, hc.releaseEvicted, he.request h.stable huntracked (some value) hrequest,
      hd.request h.stable huntracked (some value) hrequest⟩
    rw [hentry, hq]
    rfl

end Tracks

end SearchCache
