import SearchCache.Cache.DlirsLimits
import SearchCache.Cache.DlirsMembership

/-! What it is for a cache to be well formed, in terms of its tables, entries and counters.  Such a
cache follows the algorithm, with the keys of its tables, and a cache that does is well formed. -/

namespace SearchCache

open Lirs

variable {V : Type}

namespace DLIRS

/-- The references in the tables. -/
def holders (pairs : Table → List (Key × Ref)) : Multiset Ref :=
  ((pairs .lirs).map Prod.snd : Multiset Ref) +
    ((pairs .nonResidentHirs).map Prod.snd : Multiset Ref) +
    ((pairs .residentHirs).map Prod.snd : Multiset Ref)

/-- The tables, the entries and the counters fit together, and the limits add up.  The references
`handles` are those of evicted entries that nobody has released. -/
structure Ordered (cache : DLIRS V) (pairs : Table → List (Key × Ref)) (handles : Multiset Ref) :
    Prop extends cache.Shares pairs where
  counted : RefCount.Counted cache.counter (holders pairs + handles)
  fresh : ∀ r e, cache.heap r = some e → r < cache.fresh
  destroyed_nodup : (cache.destroyed.map Prod.fst).Nodup
  destroyed_iff : ∀ r, r ∈ cache.destroyed.map Prod.fst ↔ r < cache.fresh ∧ cache.heap r = none
  lirsCount : cache.lirsCount = (pairs .lirs).countP fun p => cache.isLIR p.2
  hirsCount : cache.hirsCount = (pairs .residentHirs).length
  nonResident : cache.nonResident = (pairs .lirs).countP fun p => cache.isGhost p.2
  lir_cached : ∀ p ∈ pairs .lirs, cache.isLIR p.2 = true → cache.isGhost p.2 = false
  resident_hir : ∀ p ∈ pairs .residentHirs, cache.isLIR p.2 = false
  hirs : ∀ p, p ∈ pairs .nonResidentHirs ↔ p ∈ pairs .lirs ∧ cache.isLIR p.2 = false
  resident : ∀ p ∈ pairs .lirs, cache.isLIR p.2 = false →
    (p ∈ pairs .residentHirs ↔ cache.isGhost p.2 = false)
  sum : cache.hirsLimit + cache.lirsLimit = cache.cacheSize
  hirs_pos : 1 ≤ cache.hirsLimit
  lirs_pos : 1 ≤ cache.lirsLimit
  residents_le : cache.residents ≤ cache.cacheSize

/-- The front of `lirs` is a LIR entry, and the LIR entries keep to their limit. -/
structure WellFormed (cache : DLIRS V) (pairs : Table → List (Key × Ref)) (handles : Multiset Ref) :
    Prop extends cache.Ordered pairs handles where
  rooted : ∀ p rest, pairs .lirs = p :: rest → cache.isLIR p.2 = true
  lirs_le : cache.lirsCount ≤ cache.lirsLimit

/-- The demoted entries are counted, and all of them are in `resident_hirs` only. -/
structure Demotions (cache : DLIRS V) (pairs : Table → List (Key × Ref)) : Prop where
  cached : ∀ p ∈ pairs .residentHirs, cache.isGhost p.2 = false
  count : cache.demoted = (pairs .residentHirs).countP fun p => cache.isDemoted p.2
  out : ∀ p ∈ pairs .lirs, cache.isDemoted p.2 = false

/-- The entry of a key in the cache. -/
def entryAt (cache : DLIRS V) (key : Key) : Option Ref :=
  (dqhtGet cache.lirs key).or (dqhtGet cache.residentHirs key)

/-- What the entry of a key says about it. -/
def infoAt (cache : DLIRS V) (key : Key) : Info V :=
  match cache.heap ((cache.entryAt key).getD 0) with
  | none => { isLIR := false, isDemoted := false, inCache := false, value := none }
  | some e => { isLIR := e.isLIR, isDemoted := e.isDemoted, inCache := e.inCache, value := e.value }

/-- The cache as an algorithm on keys. -/
def toLirs (cache : DLIRS V) (pairs : Table → List (Key × Ref)) : Lirs Key V where
  cacheSize := cache.cacheSize
  hirsLimit := cache.hirsLimit
  lirsLimit := cache.lirsLimit
  demoted := cache.demoted
  stack := (pairs .lirs).map Prod.fst
  hirs := (pairs .nonResidentHirs).map Prod.fst
  queue := (pairs .residentHirs).map Prod.fst
  info := cache.infoAt

theorem order_toLirs (cache : DLIRS V) (pairs : Table → List (Key × Ref)) (t : Table) :
    (cache.toLirs pairs).order t = (pairs t).map Prod.fst := by
  cases t <;> rfl

namespace Ordered

variable {cache : DLIRS V} {pairs : Table → List (Key × Ref)} {handles : Multiset Ref} {t : Table}
  {p : Key × Ref}

theorem entryAt_eq (h : cache.Ordered pairs handles) (hp : p ∈ pairs t) :
    cache.entryAt p.1 = some p.2 := by
  cases t with
  | lirs =>
    rw [entryAt, show dqhtGet cache.lirs p.1 = some p.2 from (h.tables .lirs).get_of_mem hp]
    rfl
  | nonResidentHirs =>
    rw [entryAt, show dqhtGet cache.lirs p.1 = some p.2 from
      (h.tables .lirs).get_of_mem ((h.hirs p).mp hp).1]
    rfl
  | residentHirs =>
    rw [entryAt, show dqhtGet cache.residentHirs p.1 = some p.2 from
      (h.tables .residentHirs).get_of_mem hp]
    cases hget : dqhtGet cache.lirs p.1 with
    | none => rfl
    | some r =>
      have hmem := h.get_mem (t := .lirs) hget
      rw [h.shared .lirs .residentHirs p.1 r p.2 hmem hp]
      rfl

theorem info_eq (h : cache.Ordered pairs handles) (hp : p ∈ pairs t) :
    (∃ n, cache.heap p.2 = some (entryOf p.1 (cache.infoAt p.1) n)) ∧
      cache.isLIR p.2 = (cache.infoAt p.1).isLIR ∧
      cache.isGhost p.2 = !(cache.infoAt p.1).inCache ∧
      cache.isDemoted p.2 = (cache.infoAt p.1).isDemoted := by
  obtain ⟨e, he, hkey⟩ := h.entries t p.1 p.2 hp
  have hinfo : cache.infoAt p.1 =
      { isLIR := e.isLIR, isDemoted := e.isDemoted, inCache := e.inCache, value := e.value } := by
    rw [infoAt, h.entryAt_eq hp, Option.getD_some, he]
  refine ⟨⟨e.referenceCounter, ?_⟩, ?_⟩
  · rw [he, hinfo, ← hkey]
    rfl
  · simp [isLIR, isGhost, isDemoted, he, hinfo]

theorem pairs_eq (h : cache.Ordered pairs handles) (t : Table) :
    pairs t = ((cache.toLirs pairs).order t).map fun k => (k, (cache.entryAt k).getD 0) := by
  have hid : ∀ p ∈ pairs t, (p.1, (cache.entryAt p.1).getD 0) = p := fun p hp => by
    rw [h.entryAt_eq hp]
    rfl
  rw [order_toLirs, List.map_map]
  exact ((List.map_congr_left hid).trans (List.map_id _)).symm

theorem refs_eq (h : cache.Ordered pairs handles) (t : Table) :
    ((cache.toLirs pairs).order t).map (fun k => (cache.entryAt k).getD 0) =
      (pairs t).map Prod.snd := by
  rw [h.pairs_eq t, List.map_map]
  rfl

/-- A count over the entries of a table is one over its keys. -/
theorem countP_eq (t : Table) {p : Ref → Bool}
    {q : Info V → Bool} (hpq : ∀ x ∈ pairs t, p x.2 = q (cache.infoAt x.1)) :
    ((pairs t).countP fun x => p x.2) =
      ((cache.toLirs pairs).order t).countP fun k => q (cache.infoAt k) := by
  rw [order_toLirs, List.countP_map]
  exact List.countP_congr fun x hx => by rw [hpq x hx]; rfl

theorem mem_pairs {k : Key} (hk : k ∈ (cache.toLirs pairs).order t) : ∃ r, (k, r) ∈ pairs t := by
  rw [order_toLirs] at hk
  obtain ⟨⟨j, r⟩, hmem, rfl⟩ := List.mem_map.mp hk
  exact ⟨r, hmem⟩

theorem tracked_pairs {k : Key} (hk : (cache.toLirs pairs).Tracked k) :
    ∃ t r, (k, r) ∈ pairs t := by
  rcases hk with hk | hk
  · exact ⟨.lirs, mem_pairs (t := .lirs) hk⟩
  · exact ⟨.residentHirs, mem_pairs (t := .residentHirs) hk⟩

/-- The entry of a tracked key. -/
theorem entryAt_tracked (h : cache.Ordered pairs handles) {k : Key}
    (hk : (cache.toLirs pairs).Tracked k) :
    cache.entryAt k = some ((cache.entryAt k).getD 0) := by
  obtain ⟨t, r, hmem⟩ := tracked_pairs hk
  rw [h.entryAt_eq hmem]
  rfl

theorem sim (h : cache.Ordered pairs handles) :
    Sim cache (fun k => (cache.entryAt k).getD 0) (cache.toLirs pairs) [] handles := by
  refine ⟨⟨rfl, rfl, rfl, fun t => h.pairs_eq t ▸ h.tables t, ?_, by simp, ?_, h.fresh,
    h.destroyed_nodup, h.destroyed_iff⟩, ?_⟩
  · rintro k (⟨t, hk⟩ | hk)
    · obtain ⟨r, hmem⟩ := mem_pairs hk
      rw [h.entryAt_eq hmem]
      exact (h.info_eq hmem).1
    · simp at hk
  · have hrefs : (cache.toLirs pairs).tableRefs (fun k => (cache.entryAt k).getD 0) =
        holders pairs := by
      have hlirs := h.refs_eq .lirs
      have hhirs := h.refs_eq .nonResidentHirs
      have hqueue := h.refs_eq .residentHirs
      simp only [order] at hlirs hhirs hqueue
      rw [tableRefs, holders, hlirs, hhirs, hqueue]
    rw [hrefs]
    exact h.counted
  · have hlirs : cache.lirsCount = (cache.toLirs pairs).lirCount :=
      h.lirsCount.trans (countP_eq .lirs (q := Info.isLIR) fun x hx => (h.info_eq hx).2.1)
    have hghosts : cache.nonResident = (cache.toLirs pairs).ghostCount :=
      h.nonResident.trans
        (countP_eq .lirs (q := fun i => !i.inCache) fun x hx => (h.info_eq hx).2.2.1)
    rw [DLIRS.counts, Lirs.counts, hlirs, hghosts, h.hirsCount, toLirs, List.length_map]

theorem wf (h : cache.Ordered pairs handles) : (cache.toLirs pairs).WF where
  stack_nodup := h.sim.order_nodup .lirs
  hirs_nodup := h.sim.order_nodup .nonResidentHirs
  queue_nodup := h.sim.order_nodup .residentHirs
  mem_hirs k := by
    constructor
    · intro hk
      obtain ⟨r, hmem⟩ := mem_pairs (t := .nonResidentHirs) hk
      obtain ⟨hlirs, hlir⟩ := (h.hirs (k, r)).mp hmem
      exact ⟨List.mem_map_of_mem (f := Prod.fst) hlirs, (h.info_eq hlirs).2.1.symm.trans hlir⟩
    · rintro ⟨hk, hlir⟩
      obtain ⟨r, hmem⟩ := mem_pairs (t := .lirs) hk
      have hhirs := (h.hirs (k, r)).mpr ⟨hmem, (h.info_eq hmem).2.1.trans hlir⟩
      exact List.mem_map_of_mem (f := Prod.fst) hhirs
  queue_hir k hk := by
    obtain ⟨r, hmem⟩ := mem_pairs (t := .residentHirs) hk
    exact (h.info_eq hmem).2.1.symm.trans (h.resident_hir (k, r) hmem)
  queue_cached k hk hstack := by
    obtain ⟨r, hmem⟩ := mem_pairs (t := .residentHirs) hk
    obtain ⟨r', hmem'⟩ := mem_pairs (t := .lirs) hstack
    rw [h.shared .lirs .residentHirs k r' r hmem' hmem] at hmem'
    have hghost := (h.resident (k, r) hmem' (h.resident_hir (k, r) hmem)).mp hmem
    show (cache.infoAt k).inCache = true
    simpa [hghost] using (h.info_eq hmem).2.2.1
  resident k hk hlir hcached := by
    obtain ⟨r, hmem⟩ := mem_pairs (t := .lirs) hk
    have hinfo := h.info_eq hmem
    have hghost : cache.isGhost r = false := by
      rw [hinfo.2.2.1, show (cache.infoAt k).inCache = true from hcached]
      rfl
    have hqueue := (h.resident (k, r) hmem (hinfo.2.1.trans hlir)).mpr hghost
    exact List.mem_map_of_mem (f := Prod.fst) hqueue
  lir_cached k hk hlir := by
    obtain ⟨r, hmem⟩ := mem_pairs (t := .lirs) hk
    have hinfo := h.info_eq hmem
    have hghost := h.lir_cached (k, r) hmem (hinfo.2.1.trans hlir)
    show (cache.infoAt k).inCache = true
    simpa [hghost] using hinfo.2.2.1

theorem residents_toLirs (h : cache.Ordered pairs handles) :
    (cache.toLirs pairs).residents ≤ (cache.toLirs pairs).cacheSize := by
  rw [← h.sim.residents]
  exact h.residents_le

theorem exact (h : cache.Ordered pairs handles) (hsize : cache.cacheSize < 2 ^ 24) :
    (cache.toLirs pairs).Exact :=
  ⟨hsize, h.sum, h.hirs_pos, h.lirs_pos, h.residents_toLirs⟩

end Ordered

variable {cache : DLIRS V} {pairs : Table → List (Key × Ref)} {handles : Multiset Ref}

theorem WellFormed.stable (h : cache.WellFormed pairs handles) : (cache.toLirs pairs).Stable where
  wf := h.wf
  lirs_le := by
    have hle := h.lirs_le
    rw [h.sim.lirsCount, h.sim.lirsLimit] at hle
    omega
  residents_le := .inr h.residents_toLirs

theorem WellFormed.rooted_toLirs (h : cache.WellFormed pairs handles) :
    (cache.toLirs pairs).Rooted := by
  intro k rest hstack
  cases hpairs : pairs .lirs with
  | nil => simp [toLirs, hpairs] at hstack
  | cons p l =>
    have hk : p.1 = k := by
      simp only [toLirs, hpairs, List.map_cons, List.cons.injEq] at hstack
      exact hstack.1
    have hp : p ∈ pairs .lirs := by simp [hpairs]
    rw [← hk]
    exact (h.info_eq hp).2.1.symm.trans (h.rooted p l hpairs)

theorem Demotions.queued (hd : cache.Demotions pairs) (h : cache.Ordered pairs handles) :
    (cache.toLirs pairs).Queued where
  cached k hk := by
    obtain ⟨r, hmem⟩ := Ordered.mem_pairs (t := .residentHirs) hk
    have hghost := hd.cached (k, r) hmem
    show (cache.infoAt k).inCache = true
    simpa [hghost] using (h.info_eq hmem).2.2.1
  count := hd.count.trans <|
    Ordered.countP_eq .residentHirs (q := Info.isDemoted) fun x hx => (h.info_eq hx).2.2.2
  out k hk := by
    obtain ⟨r, hmem⟩ := Ordered.mem_pairs (t := .lirs) hk
    exact (h.info_eq hmem).2.2.2.symm.trans (hd.out (k, r) hmem)

end DLIRS

/-! ### What the algorithm says about the tables -/

namespace Sim

variable {cache : DLIRS V} {ref : Key → Ref} {a : Lirs Key V} {held : Multiset Ref} {t : Table}
  {p : Key × Ref}

theorem mem_pairs (hp : p ∈ pairs ref a t) : p.1 ∈ a.order t ∧ p.2 = ref p.1 := by
  obtain ⟨k, hk, rfl⟩ := List.mem_map.mp hp
  exact ⟨hk, rfl⟩

theorem flags (h : Sim cache ref a [] held) (hp : p ∈ pairs ref a t) :
    (∃ n, cache.heap p.2 = some (entryOf p.1 (a.info p.1) n)) ∧
      cache.isLIR p.2 = (a.info p.1).isLIR ∧ cache.isGhost p.2 = !(a.info p.1).inCache ∧
      cache.isDemoted p.2 = (a.info p.1).isDemoted := by
  obtain ⟨hk, href⟩ := mem_pairs hp
  obtain ⟨n, hn⟩ := h.entries p.1 (.inl ⟨t, hk⟩)
  rw [← href] at hn
  exact ⟨⟨n, hn⟩, by simp [DLIRS.isLIR, hn, entryOf], by simp [DLIRS.isGhost, hn, entryOf],
    by simp [DLIRS.isDemoted, hn, entryOf]⟩

theorem shares (h : Sim cache ref a [] held) : cache.Shares (pairs ref a) where
  tables := h.tables
  entries t k r hmem := by
    obtain ⟨⟨n, hn⟩, -⟩ := h.flags hmem
    exact ⟨_, hn, rfl⟩
  shared t t' k r r' hmem hmem' := (mem_pairs hmem).2.trans (mem_pairs hmem').2.symm

theorem ordered (h : Sim cache ref a [] held) (wf : a.WF) (he : a.Exact) :
    cache.Ordered (pairs ref a) held where
  toShares := h.shares
  counted := by
    have hrefs : DLIRS.holders (pairs ref a) = a.tableRefs ref := by
      simp [DLIRS.holders, tableRefs, pairs, order, Function.comp_def]
    rw [hrefs]
    exact h.counted
  fresh := h.fresh
  destroyed_nodup := h.destroyed_nodup
  destroyed_iff := h.destroyed_iff
  lirsCount := (h.consistent he.residents_le).lirsCount
  hirsCount := (h.consistent he.residents_le).hirsCount
  nonResident := by
    rw [h.nonResident, ghostCount]
    exact (h.countP_pairs .lirs (q := fun i => !i.inCache) fun _ _ _ => rfl).symm
  lir_cached p hp hlir := by
    obtain ⟨-, hlir', hghost, -⟩ := h.flags hp
    rw [hghost, wf.lir_cached p.1 (mem_pairs hp).1 (hlir'.symm.trans hlir)]
    rfl
  resident_hir p hp := (h.flags hp).2.1.trans (wf.queue_hir p.1 (mem_pairs hp).1)
  hirs p := by
    constructor
    · intro hp
      obtain ⟨hk, href⟩ := mem_pairs hp
      obtain ⟨hstack, hlir⟩ := (wf.mem_hirs p.1).mp hk
      refine ⟨List.mem_map.mpr ⟨p.1, hstack, ?_⟩, (h.flags hp).2.1.trans hlir⟩
      rw [← href]
    · rintro ⟨hp, hlir⟩
      obtain ⟨hk, href⟩ := mem_pairs hp
      refine List.mem_map.mpr ⟨p.1, (wf.mem_hirs p.1).mpr ⟨hk, ?_⟩, ?_⟩
      · exact (h.flags hp).2.1.symm.trans hlir
      · rw [← href]
  resident p hp hlir := by
    obtain ⟨hk, href⟩ := mem_pairs hp
    obtain ⟨-, hlir', hghost, -⟩ := h.flags hp
    constructor
    · intro hq
      rw [hghost, wf.queue_cached p.1 (mem_pairs hq).1 hk]
      rfl
    · intro hcached
      refine List.mem_map.mpr ⟨p.1, wf.resident p.1 hk (hlir'.symm.trans hlir) ?_, ?_⟩
      · simpa [hcached] using hghost
      · rw [← href]
  sum := by
    rw [h.hirsLimit, h.lirsLimit, h.cacheSize]
    exact he.sum
  hirs_pos := h.hirsLimit ▸ he.hirs_pos
  lirs_pos := h.lirsLimit ▸ he.lirs_pos
  residents_le := by
    rw [h.residents, h.cacheSize]
    exact he.residents_le

theorem wellFormed (h : Sim cache ref a [] held) (stable : a.Stable) (rooted : a.Rooted)
    (he : a.Exact) : cache.WellFormed (pairs ref a) held where
  toOrdered := h.ordered stable.wf he
  rooted p rest hp := by
    have hmem : p ∈ pairs ref a .lirs := by simp [hp]
    cases hstack : a.stack with
    | nil => simp [pairs, order, hstack] at hp
    | cons k l =>
      have hk : p.1 = k := by
        simp only [pairs, order, hstack, List.map_cons, List.cons.injEq] at hp
        rw [← hp.1]
      rw [(h.flags hmem).2.1, hk]
      exact rooted k l hstack
  lirs_le := by
    have hle := stable.lirs_le
    have hpos := he.lirs_pos
    rw [h.lirsCount, h.lirsLimit]
    omega

theorem demotions (h : Sim cache ref a [] held) (hd : a.Queued) :
    cache.Demotions (pairs ref a) where
  cached p hp := by
    rw [(h.flags hp).2.2.1, hd.cached p.1 (mem_pairs hp).1]
    rfl
  count := by
    rw [h.demoted, hd.count, demotedCount]
    exact (h.countP_pairs .residentHirs (q := Info.isDemoted) fun _ _ _ => rfl).symm
  out p hp := (h.flags hp).2.2.2.trans (hd.out p.1 (mem_pairs hp).1)

end Sim

end SearchCache
