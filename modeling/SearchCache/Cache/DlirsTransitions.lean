import SearchCache.Cache.DlirsWellFormed

/-! Lookups of keys that are in `lirs` or in no table, and requests of keys that are in no table, from
any well formed cache: what they keep, how far `lirs` grows and what `*evicted` says. -/

namespace SearchCache

open Lirs

variable {V : Type}

namespace Lirs

variable {K : Type} [DecidableEq K] {a b : Lirs K V} {k : K}

theorem Stable.demote (h : a.Stable) (rooted : a.Rooted) (he : a.Exact) :
    a.demote.Stable ∧ a.demote.Exact := by
  cases hstack : a.stack with
  | nil =>
    rw [show a.demote = a by simp only [Lirs.demote, hstack]]
    exact ⟨h, he⟩
  | cons k rest =>
    have hk := rooted k rest hstack
    have hcount := demote_lirCount h.wf hstack hk
    have hlength := demote_queue_length hstack
    have hs := demote_shrinks a
    have hres := he.residents_le
    have hle := h.lirs_le
    have hres' : a.demote.residents ≤ a.demote.cacheSize := by
      rw [Lirs.residents] at hres ⊢
      rw [hs.cacheSize]
      omega
    refine ⟨⟨h.wf.demote hstack hk, ?_, .inr hres'⟩, hs.cacheSize ▸ he.size_lt, ?_,
      hs.hirsLimit ▸ he.hirs_pos, hs.lirsLimit ▸ he.lirs_pos, hres'⟩
    · rw [hs.lirsLimit]
      omega
    · rw [hs.hirsLimit, hs.lirsLimit, hs.cacheSize]
      exact he.sum

theorem Queued.demote (h : a.Queued) (wf : a.WF) (rooted : a.Rooted) : a.demote.Queued := by
  cases hstack : a.stack with
  | nil => rwa [show a.demote = a by simp only [Lirs.demote, hstack]]
  | cons k rest =>
    rw [demote_eq hstack]
    exact (h.toQueue wf hstack (rooted k rest hstack)).prune

theorem Stable.evict (h : a.Stable) (he : a.Exact) (hb : a.evict = some (k, b)) :
    b.Stable ∧ b.Exact := by
  have hev := evict_evicts hb
  have hlength := congrArg List.length hev.queue
  rw [List.length_cons] at hlength
  have hres := he.residents_le
  have hres' : b.residents ≤ b.cacheSize := by
    rw [Lirs.residents] at hres ⊢
    rw [hev.lirCount, hev.cacheSize]
    omega
  refine ⟨⟨h.wf.evict hb, ?_, .inr hres'⟩, hev.cacheSize ▸ he.size_lt, ?_,
    hev.hirsLimit ▸ he.hirs_pos, hev.lirsLimit ▸ he.lirs_pos, hres'⟩
  · rw [hev.lirCount, hev.lirsLimit]
    exact h.lirs_le
  · rw [hev.hirsLimit, hev.lirsLimit, hev.cacheSize]
    exact he.sum

end Lirs

namespace DLIRS

variable {cache : DLIRS V} {pairs : Table → List (Key × Ref)} {handles : Multiset Ref} {key : Key}

/-- `dlirs_request` makes a LIR entry. -/
def AdmitsLir (cache : DLIRS V) : Prop :=
  cache.lirsCount < cache.lirsLimit.toNat ∧ cache.hirsCount = 0

instance : Decidable cache.AdmitsLir := inferInstanceAs (Decidable (_ ∧ _))

/-- The key of a lookup is in `lirs` or in no table. -/
def LooksUp (cache : DLIRS V) (key : Key) : Prop :=
  (dqhtGet cache.lirs key).isSome ∨ cache.hasKey key = false

namespace WellFormed

theorem lookup (h : cache.WellFormed pairs handles) (hkey : cache.LooksUp key) :
    (cache.toLirs pairs).Lookup key where
  known htracked := by
    refine Tracks.mem_stack h.sim ?_ htracked
    rcases hkey with hsome | hnone
    · obtain ⟨r, hr⟩ := Option.isSome_iff_exists.mp hsome
      simp [findsResidentOnly, hr]
    · have hresident : dqhtGet cache.residentHirs key = none := by
        simp only [hasKey, Bool.or_eq_false_iff, Option.isSome_eq_false_iff] at hnone
        simpa using hnone.2
      simp [findsResidentOnly, hresident]
  rooted _ _ := h.rooted_toLirs
  room _ _ := h.residents_toLirs

/-- A lookup does what the algorithm does. -/
theorem get (h : cache.WellFormed pairs handles) (hsize : cache.cacheSize < 2 ^ 24)
    (hkey : cache.LooksUp key) :
    ∃ got evicted b ref, dlirsGet {} cache key = some got ∧
      (cache.toLirs pairs).get key = some (evicted, b) ∧ got.evicted = evicted.map ref ∧
      (∀ k, ref k = (cache.entryAt k).getD 0) ∧
      Sim got.cache ref b [] (hold got.evicted handles) := by
  obtain ⟨⟨evicted, b⟩, hb⟩ := get_progress (k := key) h.stable h.rooted_toLirs (h.exact hsize)
  obtain ⟨got, hgot, hr⟩ := Loop.of_rel_some (hb ▸ h.sim.get h.stable (h.lookup hkey))
  exact ⟨got, evicted, b, _, hgot, hb, hr.evicted, fun _ => rfl, hr.sim.forgetHand⟩

theorem untracked (h : cache.WellFormed pairs handles) (hkey : cache.hasKey key = false) :
    ¬(cache.toLirs pairs).Tracked key := fun ht => by
  simp [(Tracks.hasKey_iff h.sim h.wf).mpr ht] at hkey

theorem admitsLir_iff (h : cache.WellFormed pairs handles) : cache.AdmitsLir ↔
    (cache.toLirs pairs).lirCount < (cache.toLirs pairs).lirsLimit.toNat ∧
      (cache.toLirs pairs).queue = [] := by
  rw [AdmitsLir, h.sim.lirsCount, h.sim.lirsLimit, h.sim.hirsCount, List.length_eq_zero_iff]

/-- A request does what the algorithm does, and leaves `*evicted` alone where it neither makes a LIR
entry nor finds the cache full. -/
theorem request (h : cache.WellFormed pairs handles) (hsize : cache.cacheSize < 2 ^ 24)
    (hkey : cache.hasKey key = false) (value : Option V) (evicted : Option Ref) :
    ∃ r lost b ref, dlirsRequest {} cache key value evicted = some r ∧ r.code = 0 ∧
      (cache.toLirs pairs).request key value = some (lost, b) ∧
      r.evicted = (if cache.AdmitsLir ∨ cache.cacheSize ≤ cache.residents then lost.map ref
        else evicted) ∧
      (lost ≠ none → cache.cacheSize ≤ cache.residents) ∧
      (∀ k, k ≠ key → ref k = (cache.entryAt k).getD 0) ∧
      Sim r.cache ref b [] (hold (lost.map ref) handles) := by
  have huntracked := h.untracked hkey
  have hlimit : ¬(cache.toLirs pairs).lirsLimit < toFloat (cache.toLirs pairs).lirCount := by
    have hle := h.lirs_le
    have hres := h.residents_le
    rw [residents] at hres
    rw [h.sim.lirsCount, h.sim.lirsLimit] at hle
    rw [h.sim.lirsCount] at hres
    rw [toFloat_eq (by omega)]
    omega
  obtain ⟨⟨lost, b⟩, hb⟩ := request_progress h.stable (h.exact hsize) huntracked value
  obtain ⟨q, hq, hcode, hevicted, ref, href, hsim⟩ :=
    Loop.of_rel_some (hb ▸ h.sim.request h.stable huntracked hlimit value)
  have hlost : lost ≠ none → cache.cacheSize ≤ cache.residents := by
    intro hne
    obtain ⟨j, rfl⟩ := Option.ne_none_iff_exists'.mp hne
    rw [h.sim.residents, h.sim.cacheSize]
    exact request_full hb
  have hsets : cache.setsEvicted q.code ↔ cache.AdmitsLir ∨ cache.cacheSize ≤ cache.residents := by
    unfold setsEvicted AdmitsLir
    split <;> simp_all
  have hmap : q.evicted = lost.map ref := by
    rw [hevicted]
    cases lost with
    | none => rfl
    | some j =>
      have hne : j ≠ key := fun hj => huntracked (hj ▸ (request_lost hb).tracked)
      rw [Option.map_some, Option.map_some, href j hne]
  refine ⟨{ q with evicted := if cache.setsEvicted q.code then q.evicted else evicted }, lost, b,
    ref, ?_, hcode, hb, ?_, hlost, href, ?_⟩
  · rw [dlirsRequest_evicted, hq]
    rfl
  · simp only [hsets, hmap]
  · rw [← hmap]
    exact hsim.forgetHand

/-! ### Well-formedness -/

theorem founded (h : cache.WellFormed pairs handles)
    (hqueue : pairs .lirs = [] → pairs .residentHirs = []) : (cache.toLirs pairs).Founded where
  limit_pos := by
    have := (show (cache.toLirs pairs).lirsLimit = cache.lirsLimit from rfl)
    have := h.lirs_pos
    omega
  rooted := h.rooted_toLirs
  queue_nil hstack := by
    simp only [toLirs, List.map_eq_nil_iff] at hstack ⊢
    exact hqueue hstack

/-- A lookup keeps the cache well formed, and does nothing where `lirs` is empty. -/
theorem get_keeps (h : cache.WellFormed pairs handles) (hd : cache.Demotions pairs)
    (hsize : cache.cacheSize < 2 ^ 24) (hkey : cache.LooksUp key) :
    ∃ got pairs', dlirsGet {} cache key = some got ∧ got.cache.cacheSize = cache.cacheSize ∧
      got.cache.WellFormed pairs' (hold got.evicted handles) ∧ got.cache.Demotions pairs' ∧
      ((pairs .lirs = [] → pairs .residentHirs = []) →
        pairs' .lirs = [] → pairs' .residentHirs = []) := by
  obtain ⟨got, evicted, b, ref, hgot, hb, -, -, hsim⟩ := h.get hsize hkey
  have hl := h.lookup hkey
  obtain ⟨hstable, hsame, -, hfounded⟩ := h.stable.get hl hb
  refine ⟨got, Sim.pairs ref b, hgot, hsim.cacheSize.trans hsame, hsim.wellFormed hstable ?_
    ((h.exact hsize).get h.stable hl hb), hsim.demotions ((hd.queued h.toOrdered).get h.stable hl hb), fun hqueue hnil => ?_⟩
  · by_cases hstack : (cache.toLirs pairs).stack = []
    · rw [Lirs.get, if_neg (by simp [hstack]), Option.some_inj, Prod.mk.injEq] at hb
      exact hb.2 ▸ h.rooted_toLirs
    · refine (hfounded (h.founded fun hnil => ?_)).rooted
      simp [toLirs, hnil] at hstack
  · have := (hfounded (h.founded hqueue)).queue_nil
    simp only [Sim.pairs, order, List.map_eq_nil_iff] at hnil ⊢
    exact this hnil

/-- A request keeps the cache well formed where `lirs` is not empty or `resident_hirs` is. -/
theorem request_keeps (h : cache.WellFormed pairs handles) (hd : cache.Demotions pairs)
    (hsize : cache.cacheSize < 2 ^ 24) (hqueue : pairs .lirs = [] → pairs .residentHirs = [])
    (hkey : cache.hasKey key = false) (value : Option V) (evicted : Option Ref) :
    ∃ r pairs' lost, dlirsRequest {} cache key value evicted = some r ∧ r.code = 0 ∧
      r.cache.cacheSize = cache.cacheSize ∧ (lost ≠ none → r.evicted = lost) ∧
      r.cache.WellFormed pairs' (hold lost handles) ∧ r.cache.Demotions pairs' ∧
      (pairs' .lirs = [] → pairs' .residentHirs = []) := by
  obtain ⟨r, lost, b, ref, hr, hcode, hb, hevicted, hlost, -, hsim⟩ :=
    h.request hsize hkey value evicted
  have hk := h.untracked hkey
  obtain ⟨hstable, hsame, -, -, -, hfounded⟩ := h.stable.request hk value hb
  have hf := hfounded (h.founded hqueue)
  refine ⟨r, Sim.pairs ref b, lost.map ref, hr, hcode, hsim.cacheSize.trans hsame, fun hne => ?_, hsim.wellFormed hstable
    hf.rooted ((h.exact hsize).request h.stable hk value hb),
    hsim.demotions ((hd.queued h.toOrdered).request h.stable hk value hb), fun hnil => ?_⟩
  · rw [hevicted, if_pos (.inr (hlost (by rintro rfl; exact hne rfl)))]
  · have := hf.queue_nil
    simp only [Sim.pairs, order, List.map_eq_nil_iff] at hnil ⊢
    exact this hnil

/-- `dlirs_evict_lir` keeps the cache well formed. -/
theorem evictLir_keeps (h : cache.WellFormed pairs handles) (hd : cache.Demotions pairs)
    (hsize : cache.cacheSize < 2 ^ 24) :
    ∃ cache' pairs', dlirsEvictLir {} cache = some cache' ∧ cache'.WellFormed pairs' handles ∧
      cache'.Demotions pairs' := by
  obtain ⟨cache', hevict, hsim⟩ := h.sim.evictLir_rooted h.wf h.rooted_toLirs
  obtain ⟨hstable, hexact⟩ := h.stable.demote h.rooted_toLirs (h.exact hsize)
  have hqueued := (hd.queued h.toOrdered).demote h.wf h.rooted_toLirs
  exact ⟨cache', _, hevict, hsim.wellFormed hstable (demote_rooted h.rooted_toLirs) hexact,
    hsim.demotions hqueued⟩

/-- `dlirs_evict_resident_hir` keeps the cache well formed, with the evicted entry as a handle. -/
theorem evictHir_keeps (h : cache.WellFormed pairs handles) (hd : cache.Demotions pairs)
    (hsize : cache.cacheSize < 2 ^ 24) :
    ∃ evicted cache' pairs', dlirsEvictResidentHir cache = some (evicted, cache') ∧
      cache'.cacheSize = cache.cacheSize ∧ cache'.WellFormed pairs' (hold evicted handles) ∧
      cache'.Demotions pairs' := by
  cases hqueue : (cache.toLirs pairs).queue with
  | nil => exact ⟨none, cache, pairs, h.sim.evictHir_nil hqueue, rfl, h, hd⟩
  | cons k rest =>
    obtain ⟨b, hb⟩ : ∃ b, (cache.toLirs pairs).evict = some (k, b) := ⟨_, by rw [evict, hqueue]⟩
    obtain ⟨cache', hevict, hsim⟩ := h.sim.evictHir h.wf hb
    obtain ⟨hstable, hexact⟩ := h.stable.evict (h.exact hsize) hb
    exact ⟨_, cache', _, hevict, hsim.cacheSize.trans (evict_evicts hb).cacheSize,
      hsim.forgetHand.wellFormed hstable
      ((evict_evicts hb).rooted h.rooted_toLirs) hexact,
      hsim.forgetHand.demotions ((hd.queued h.toOrdered).evict h.wf hb)⟩

/-- Other limits with the same sum. -/
theorem withLimits (h : cache.WellFormed pairs handles) {hirsLimit lirsLimit : Int}
    (hsum : hirsLimit + lirsLimit = cache.cacheSize) (hhirs : 1 ≤ hirsLimit) (hlirs : 1 ≤ lirsLimit)
    (hle : cache.lirsCount ≤ lirsLimit) :
    ({ cache with hirsLimit, lirsLimit } : DLIRS V).WellFormed pairs handles where
  tables
    | .lirs => h.tables .lirs
    | .nonResidentHirs => h.tables .nonResidentHirs
    | .residentHirs => h.tables .residentHirs
  entries := h.entries
  shared := h.shared
  counted := h.counted
  fresh := h.fresh
  destroyed_nodup := h.destroyed_nodup
  destroyed_iff := h.destroyed_iff
  lirsCount := h.lirsCount
  hirsCount := h.hirsCount
  nonResident := h.nonResident
  lir_cached := h.lir_cached
  resident_hir := h.resident_hir
  hirs := h.hirs
  resident := h.resident
  sum := hsum
  hirs_pos := hhirs
  lirs_pos := hlirs
  residents_le := h.residents_le
  rooted := h.rooted
  lirs_le := hle

end WellFormed

end DLIRS

/-! ### Runs -/

theorem dlirsCreate_wellFormed {htSize cacheSize : Nat} {hirsRatio : ℚ} (hht : 1 ≤ htSize)
    (hsmall : cacheSize < 2 ^ 24)
    (hhirs : 1 ≤ (dlirsCreate htSize cacheSize none hirsRatio : DLIRS V).hirsLimit)
    (hlirs : 1 ≤ (dlirsCreate htSize cacheSize none hirsRatio : DLIRS V).lirsLimit) :
    ∃ pairs, (dlirsCreate htSize cacheSize none hirsRatio : DLIRS V).WellFormed pairs 0 ∧
      (dlirsCreate htSize cacheSize none hirsRatio : DLIRS V).Demotions pairs ∧
      (∀ t, pairs t = []) := by
  have hsim : Sim (dlirsCreate htSize cacheSize none hirsRatio : DLIRS V) _ _ _ _ := Sim.create hht
  have hrooted : (Lirs.create (V := V) cacheSize
      (dlirsCreate htSize cacheSize none hirsRatio : DLIRS V).hirsLimit
      (dlirsCreate htSize cacheSize none hirsRatio : DLIRS V).lirsLimit).Rooted := by
    intro k rest hk
    simp [Lirs.create] at hk
  refine ⟨_, hsim.wellFormed (Lirs.create_stable ..) hrooted (dlirsCreate_exact hsmall hhirs hlirs),
    hsim.demotions (Lirs.create_queued ..), fun t => ?_⟩
  cases t <;> rfl

deriving instance DecidableEq for Alloc, DlirsAlloc

instance (cache : DLIRS V) : ∀ op : DlirsOp V, Decidable (cache.Permits op)
  | .get _ => inferInstanceAs (Decidable (_ ∨ _))
  | .request .. => inferInstanceAs (Decidable (_ = _))

instance : ∀ op : DlirsOp V, Decidable op.Allocates
  | .get _ => inferInstanceAs (Decidable True)
  | .request .. => inferInstanceAs (Decidable (_ = _))

/-- Every cache that permitted calls reach is well formed. -/
theorem dlirsRun_wellFormed {htSize cacheSize : Nat} {hirsRatio : ℚ} (hht : 1 ≤ htSize)
    (hsmall : cacheSize < 2 ^ 24)
    (hhirs : 1 ≤ (dlirsCreate htSize cacheSize none hirsRatio : DLIRS V).hirsLimit)
    (hlirs : 1 ≤ (dlirsCreate htSize cacheSize none hirsRatio : DLIRS V).lirsLimit)
    {ops : List (DlirsOp V)}
    (permitted : (dlirsCreate htSize cacheSize none hirsRatio : DLIRS V).RunPermitted ops) :
    ∃ cache pairs handles, (dlirsCreate htSize cacheSize none hirsRatio).run ops = some cache ∧
      cache.cacheSize = cacheSize ∧ cache.WellFormed pairs handles ∧ cache.Demotions pairs ∧
      (pairs .lirs = [] → pairs .residentHirs = []) := by
  let inv : DLIRS V → Prop := fun cache => cache.cacheSize = cacheSize ∧ ∃ pairs handles,
    cache.WellFormed pairs handles ∧ cache.Demotions pairs ∧
      (pairs .lirs = [] → pairs .residentHirs = [])
  have step : ∀ cache op, inv cache → cache.Permits op ∧ op.Allocates →
      ∃ cache', cache.op op = some cache' ∧ inv cache' := by
    rintro cache op ⟨hsize, pairs, handles, h, hd, hqueue⟩ ⟨hop, hok⟩
    cases op with
    | get key =>
      obtain ⟨got, pairs', hgot, hsame, h', hd', hqueue'⟩ := h.get_keeps hd (hsize ▸ hsmall) hop
      exact ⟨got.cache, by rw [DLIRS.op, hgot]; rfl, hsame.trans hsize, pairs', _, h', hd',
        hqueue' hqueue⟩
    | request key value evicted ok =>
      obtain ⟨r, pairs', lost, hr, -, hsame, -, h', hd', hqueue'⟩ :=
        h.request_keeps hd (hsize ▸ hsmall) hqueue hop (some value) evicted
      exact ⟨r.cache, by rw [show ok = {} from hok, DLIRS.op, hr]; rfl, hsame.trans hsize, pairs', _,
        h', hd', hqueue'⟩
  have start : inv (dlirsCreate htSize cacheSize none hirsRatio) := by
    obtain ⟨pairs, h, hd, hnil⟩ := dlirsCreate_wellFormed (V := V) hht hsmall hhirs hlirs
    exact ⟨rfl, pairs, 0, h, hd, fun _ => hnil _⟩
  have preserves : ∀ cache op cache', inv cache → cache.Permits op ∧ op.Allocates →
      cache.op op = some cache' → inv cache' := by
    intro cache op cache' hinv hop hcache
    obtain ⟨cache1, hstep, hinv'⟩ := step cache op hinv hop
    rwa [← Option.some.inj (hstep.symm.trans hcache)]
  obtain ⟨cache, hrun⟩ := Runs.run_returns preserves
    (fun cache op hinv hop => (step cache op hinv hop).imp fun _ h => h.1) start permitted
  obtain ⟨hsize, pairs, handles, h, hd, hqueue⟩ := Runs.run_preserves preserves start permitted hrun
  exact ⟨cache, pairs, handles, hrun, hsize, h, hd, hqueue⟩

/-! ### The core transitions -/

/-- The six keys of a full `lirs`, of which five are ghosts, and another key. -/
def keyD : Key := Key.single [100] (by decide) (by decide)

@[inherit_doc keyD]
def keyF : Key := Key.single [102] (by decide) (by decide)

@[inherit_doc keyD]
def keyG : Key := Key.single [103] (by decide) (by decide)

/-- A cache of three entries with one LIR entry and five ghosts, and room for two LIR entries. -/
def dlirsGhosts : Option (DLIRS Unit) := do
  let cache ← (dlirsCreate 4 3 none (1 / 2)).run ([keyA, keyB, keyC, keyD, keyE, keyF].map
    fun key => .request key () none {})
  let (_, cache) ← dlirsEvictResidentHir cache
  let (_, cache) ← dlirsEvictResidentHir cache
  return { cache with hirsLimit := 1, lirsLimit := 2 }

theorem dlirsGhosts_wellFormed : ∃ cache pairs handles, dlirsGhosts = some cache ∧
    cache.WellFormed pairs handles ∧ cache.Demotions pairs := by
  obtain ⟨cache, pairs, handles, hrun, hsize, h, hd, -⟩ := @dlirsRun_wellFormed Unit 4 3 (1 / 2)
    (by decide) (by decide) (by decide +kernel) (by decide +kernel)
    ([keyA, keyB, keyC, keyD, keyE, keyF].map fun key => .request key () none {})
    (by unfold DLIRS.RunPermitted; decide +kernel)
  obtain ⟨e1, cache1, pairs1, hevict1, hsize1, h1, hd1⟩ := h.evictHir_keeps hd (by omega)
  obtain ⟨e2, cache2, pairs2, hevict2, -, h2, hd2⟩ := h1.evictHir_keeps hd1 (by omega)
  have hghosts : dlirsGhosts = some { cache2 with hirsLimit := 1, lirsLimit := 2 } := by
    simp only [dlirsGhosts, hrun, hevict1, hevict2, Option.bind_eq_bind, Option.bind_some]
    rfl
  have heval : dlirsGhosts.map (fun cache => (cache.cacheSize, cache.lirsCount)) = some (3, 1) := by
    decide +kernel
  rw [hghosts, Option.map_some, Option.some_inj, Prod.mk.injEq] at heval
  have hsize2 : cache2.cacheSize = 3 := heval.1
  have hlirs2 : cache2.lirsCount = 1 := heval.2
  exact ⟨_, pairs2, _, hghosts, h2.withLimits (by omega) (by decide) (by decide) (by omega), hd2.cached, hd2.count, hd2.out⟩

end SearchCache
