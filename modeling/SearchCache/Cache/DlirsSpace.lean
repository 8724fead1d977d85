import SearchCache.Cache.DlirsFailure
import SearchCache.Cache.DlirsRefinement
import SearchCache.Cache.DqHashtableSize
import SearchCache.Cache.LirsSpace

/-! The space of a cache over its runs: how many keys are resident, how many entries there are in
memory, and how long the slot arrays of the three tables get. -/

namespace SearchCache

open Lirs

variable {V : Type}

/-! ### The slot arrays -/

namespace DLIRS

variable {cache cache' cache'' : DLIRS V} {t : Table} {key : Key} {ok : Alloc} {n : Nat}

/-- The same arrays, with no more entries. -/
def Thinned (cache cache' : DLIRS V) : Prop := ∀ t, (cache.table t).Thinned (cache'.table t)

/-- The arrays have `n` slots at most. -/
def Small (n : Nat) (cache : DLIRS V) : Prop := ∀ t, (cache.table t).ht.size ≤ n

/-- There is room for one more entry in each of them. -/
def Fits (n : Nat) (cache : DLIRS V) : Prop := ∀ t, (cache.table t).ht.Fits n

theorem Thinned.of_table (h : ∀ t, cache'.table t = cache.table t) : cache.Thinned cache' :=
  fun t => .of_eq (h t)

theorem Thinned.trans (h : cache.Thinned cache') (h' : cache'.Thinned cache'') :
    cache.Thinned cache'' := fun t => (h t).trans (h' t)

theorem Thinned.small (h : cache.Thinned cache') (hsmall : cache.Small n) : cache'.Small n :=
  fun t => (h t).size ▸ hsmall t

theorem Thinned.fits (h : cache.Thinned cache') (hfits : cache.Fits n) : cache'.Fits n :=
  fun t => (h t).fits (hfits t)

theorem Fits.small (h : cache.Fits n) : cache.Small n := fun t => (h t).size_le

theorem thinned_setTable {dqht : DequeueHashTable Key Ref} (h : (cache.table t).Thinned dqht) :
    cache.Thinned (cache.setTable t dqht) := by
  intro t'
  by_cases hne : t' = t
  · subst hne
    rw [show (cache.setTable t' dqht).table t' = dqht by cases t' <;> rfl]
    exact h
  · rw [table_setTable _ _ hne]
    exact .refl _

theorem thinned_remove (cache : DLIRS V) (t : Table) (key : Key) :
    cache.Thinned (cache.remove t key).2.2 :=
  thinned_setTable (dqhtRemove_thinned _ key)

theorem thinned_popFront (cache : DLIRS V) (t : Table) : cache.Thinned (cache.popFront t).2 :=
  thinned_setTable (dqhtPopFront_thinned _)

theorem thinned_destroy (cache : DLIRS V) (entry : Option Ref) :
    cache.Thinned (dlirsEntryDestroy cache entry) :=
  .of_table (table_destroy cache entry)

/-- An entry leaves a table and is released. -/
theorem thinned_drop (cache : DLIRS V) (t : Table) (key : Key) : cache.Thinned
    (dlirsEntryDestroy (cache.remove t key).2.2 (cache.remove t key).2.1) :=
  (thinned_remove cache t key).trans (thinned_destroy _ _)

theorem small_insert {r : Option Ref} {i : Int × DLIRS V} (hi : cache.insert t ok key r = some i)
    (hsmall : cache.Small n) (hfits : (cache.table t).ht.Fits n) : i.2.Small n := by
  obtain ⟨inserted, hinserted, rfl⟩ := Option.map_eq_some_iff.mp hi
  intro t'
  rw [table_destroy]
  by_cases hne : t' = t
  · subst hne
    rw [show (cache.setTable t' inserted.table).table t' = inserted.table by cases t' <;> rfl]
    exact dqhtInsert_size hfits hinserted
  · rw [table_setTable _ _ hne]
    exact hsmall t'

/-! ### What makes no array -/

theorem thinned_pruneStep {r : Loop.Step (DLIRS V)} (h : dlirsPruneStep cache = some r) :
    cache.Thinned r.state := by
  unfold dlirsPruneStep at h
  split at h
  · cases h
    exact .of_table fun _ => rfl
  · obtain ⟨front, -, h⟩ := Option.bind_eq_some_iff.mp h
    obtain ⟨entry, -, h⟩ := Option.bind_eq_some_iff.mp h
    split at h
    · cases h
      exact .of_table fun _ => rfl
    · dsimp only at h
      generalize entry.key = key' at h
      split at h
      · cases h
      · obtain ⟨entry, -, h⟩ := Option.bind_eq_some_iff.mp h
        have hout := (thinned_drop cache .lirs key').trans
          (thinned_drop _ .nonResidentHirs entry.key)
        split at h <;> cases h
        · exact hout
        · exact hout.trans (.of_table fun t => by cases t <;> rfl)

theorem thinned_prune (h : dlirsPrune cache = some cache') : cache.Thinned cache' :=
  Loop.run_keeps (I := fun c => cache.Thinned c)
    (fun _ _ hs hr => hs.trans (thinned_pruneStep hr)) (.of_table fun _ => rfl) h

theorem thinned_evictResidentHir {r : Option Ref × DLIRS V}
    (h : dlirsEvictResidentHir cache = some r) : cache.Thinned r.2 := by
  unfold dlirsEvictResidentHir at h
  dsimp only at h
  split at h
  · cases h
    exact thinned_popFront cache .residentHirs
  · obtain ⟨e, -, h⟩ := Option.bind_eq_some_iff.mp h
    cases h
    refine (thinned_popFront cache .residentHirs).trans (.of_table fun t => ?_)
    split <;> split <;> cases t <;> rfl

theorem thinned_evictLoop {evicted : Option Ref} {r : Option Ref × DLIRS V}
    (h : dlirsEvictLoop cache evicted = some r) : cache.Thinned r.2 := by
  refine Loop.run_keeps (I := fun c => cache.Thinned c.2) ?_ (.of_table fun _ => rfl) h
  intro s r hs hr
  dsimp only at hr
  split at hr
  · obtain ⟨s1, hs1, rfl⟩ := Option.map_eq_some_iff.mp hr
    exact hs.trans (thinned_evictResidentHir hs1)
  · cases hr
    exact hs

theorem thinned_limitStackLoop {m : Nat} (h : dlirsLimitStackLoop m cache = some cache') :
    cache.Thinned cache' := by
  induction m generalizing cache with
  | zero =>
    cases h
    exact .of_table fun _ => rfl
  | succ m ih =>
    unfold dlirsLimitStackLoop at h
    dsimp only at h
    obtain ⟨lru, -, h⟩ := Option.bind_eq_some_iff.mp h
    obtain ⟨e, -, h⟩ := Option.bind_eq_some_iff.mp h
    have hpopped : cache.Thinned (if e.inCache then (cache.popFront .nonResidentHirs).2
        else { (cache.popFront .nonResidentHirs).2 with
          nonResident := dec (cache.popFront .nonResidentHirs).2.nonResident }) := by
      refine (thinned_popFront cache .nonResidentHirs).trans (.of_table fun t => ?_)
      split <;> cases t <;> rfl
    by_cases hcode : (((if e.inCache then (cache.popFront .nonResidentHirs).2
        else { (cache.popFront .nonResidentHirs).2 with
          nonResident := dec (cache.popFront .nonResidentHirs).2.nonResident }).remove .lirs
            e.key).1) ≠ 0
    · rw [if_pos hcode] at h
      cases h
    · rw [if_neg hcode] at h
      exact (hpopped.trans (thinned_remove _ _ _)).trans
        (((thinned_destroy _ _).trans (thinned_destroy _ _)).trans (ih h))

theorem thinned_promote {entry : Ref} {r : Bool × DLIRS V}
    (h : dlirsPromote cache key entry = some r) : cache.Thinned r.2 := by
  unfold dlirsPromote at h
  obtain ⟨e, -, h⟩ := Option.bind_eq_some_iff.mp h
  dsimp only at h
  obtain ⟨hirsEntry, -, h⟩ := Option.bind_eq_some_iff.mp h
  have hfirst : cache.Thinned (cache.modify entry fun e => { e with isLIR := true }) :=
    .of_table fun t => by cases t <;> rfl
  have hout := (hfirst.trans (thinned_remove _ .nonResidentHirs key)).trans
    (thinned_destroy _ (some hirsEntry))
  split at h
  · obtain ⟨residentEntry, -, h⟩ := Option.bind_eq_some_iff.mp h
    cases h
    refine Thinned.trans ?_ (thinned_destroy _ _)
    refine (hout.trans (thinned_remove _ .residentHirs key)).trans (.of_table fun t => ?_)
    cases t <;> rfl
  · cases h
    refine hout.trans (.of_table fun t => ?_)
    cases t <;> rfl

/-! ### What may make one -/

theorem small_hitLir (h : dlirsHitLir ok cache key = some cache') (hfits : cache.Fits n) :
    cache'.Small n := by
  unfold dlirsHitLir at h
  split at h
  · cases h
    exact hfits.small
  · dsimp only at h
    split at h
    · cases h
    · obtain ⟨value, -, h⟩ := Option.bind_eq_some_iff.mp h
      obtain ⟨e, -, h⟩ := Option.bind_eq_some_iff.mp h
      obtain ⟨⟨code, cache1⟩, hinsert, h⟩ := Option.bind_eq_some_iff.mp h
      have hout := (thinned_remove cache .lirs key).fits hfits
      have hsmall := small_insert hinsert hout.small (hout .lirs)
      dsimp only at h
      split at h
      · cases h
      · obtain ⟨lru, -, h⟩ := Option.bind_eq_some_iff.mp h
        split at h
        · exact (thinned_prune h).small hsmall
        · cases h
          exact hsmall

/-- A demotion puts an entry into `resident_hirs`. -/
theorem small_evictLir (h : dlirsEvictLir ok cache = some cache') (hsmall : cache.Small n)
    (hfits : cache.residentHirs.ht.Fits n) :
    cache'.Small n ∧ cache.lirs.Thinned cache'.lirs := by
  have hpop := thinned_popFront cache .lirs
  unfold dlirsEvictLir at h
  dsimp only at h
  split at h
  · cases h
    exact ⟨hpop.small hsmall, hpop .lirs⟩
  · rename_i lru hlru
    obtain ⟨e, -, h⟩ := Option.bind_eq_some_iff.mp h
    obtain ⟨⟨code, cache1⟩, hinsert, h⟩ := Option.bind_eq_some_iff.mp h
    dsimp only at h
    split at h
    · cases h
    · have hthin : cache.Thinned (DLIRS.modify { (cache.popFront .lirs).2 with
          lirsCount := dec (cache.popFront .lirs).2.lirsCount
          demoted := (cache.popFront .lirs).2.demoted + 1 } lru
            fun e => { e with isLIR := false, isDemoted := true }) :=
        hpop.trans (.of_table fun t => by cases t <;> rfl)
      have hinserted := small_insert hinsert (hthin.small hsmall) ((hthin .residentHirs).fits hfits)
      have hlirs := table_insert hinsert (show Table.lirs ≠ .residentHirs by decide)
      have hprune := (Thinned.of_table fun t => by cases t <;> rfl :
        cache1.Thinned { cache1 with hirsCount := cache1.hirsCount + 1 }).trans (thinned_prune h)
      refine ⟨hprune.small hinserted, (hthin .lirs).trans ?_⟩
      rw [← hlirs]
      exact hprune .lirs

/-- The end of a request for a HIR entry, which puts it into the three tables. -/
theorem small_requestHir {ok : DlirsAlloc} {value : Option V} {evicted : Option Ref}
    {r : DlirsRequested V} (h : dlirsRequestHir ok cache key value evicted = some r)
    (hfits : cache.Fits n) : r.cache.Small n := by
  unfold dlirsRequestHir at h
  have htable1 := table_create ok.entry cache key value
  generalize dlirsEntryCreate ok.entry cache key value = created at htable1 h
  obtain ⟨entry, cache1⟩ := created
  have htable2 := table_copy cache1 entry
  dsimp only at htable1 h
  generalize dlirsEntryReferenceCopy cache1 entry = copied at htable2 h
  obtain ⟨entry2, cache2⟩ := copied
  have htable3 := table_copy cache2 entry
  dsimp only at htable2 h
  generalize dlirsEntryReferenceCopy cache2 entry = copied at htable3 h
  obtain ⟨entry3, cache3⟩ := copied
  dsimp only at htable3 h
  have hfits3 := (Thinned.of_table fun t =>
    (htable3 t).trans ((htable2 t).trans (htable1 t))).fits hfits
  split at h
  · cases h
    exact hfits3.small
  obtain ⟨⟨code4, cache4⟩, h4, h⟩ := Option.bind_eq_some_iff.mp h
  have hsmall4 := small_insert h4 hfits3.small (hfits3 .lirs)
  dsimp only at h
  split at h
  · cases h
    exact hsmall4
  obtain ⟨⟨code5, cache5⟩, h5, h⟩ := Option.bind_eq_some_iff.mp h
  have hsmall5 := small_insert h5 hsmall4 (by
    rw [table_insert h4 (by decide)]
    exact hfits3 .nonResidentHirs)
  dsimp only at h
  split at h
  · cases h
    exact hsmall5
  obtain ⟨⟨code6, cache6⟩, h6, h⟩ := Option.bind_eq_some_iff.mp h
  have hsmall6 := small_insert h6 hsmall5 (by
    rw [table_insert h5 (by decide), table_insert h4 (by decide)]
    exact hfits3 .residentHirs)
  dsimp only at h
  split at h
  · cases h
    exact hsmall6
  obtain ⟨cache7, h7, h⟩ := Option.bind_eq_some_iff.mp h
  cases h
  have hcounted : cache6.Thinned { cache6 with hirsCount := cache6.hirsCount + 1 } :=
    .of_table fun t => by cases t <;> rfl
  exact (hcounted.trans (thinned_limitStackLoop h7)).small hsmall6

end DLIRS

/-! ### The calls -/

theorem Lirs.demote_residents {K : Type} [DecidableEq K] {a : Lirs K V} (wf : a.WF)
    (rooted : a.Rooted) : a.demote.residents = a.residents := by
  cases hstack : a.stack with
  | nil => rw [show a.demote = a by simp only [demote, hstack]]
  | cons k rest =>
    have hcount := demote_lirCount wf hstack (rooted k rest hstack)
    have hqueue := demote_queue_length hstack
    rw [residents, residents]
    omega

namespace Sim

open DLIRS

variable {cache cache' : DLIRS V} {ref : Key → Ref} {a : Lirs Key V} {hand : List Key}
  {held : Multiset Ref} {k : Key} {n : Nat}

/-- The demotions of a lookup only move residents. -/
theorem small_demoteLoop (h : Sim cache ref a hand held) (wf : a.WF) (rooted : a.Rooted)
    (hn : 4 * a.residents + 2 ≤ n) (hsmall : cache.Small n)
    (hrun : dlirsDemoteLoop {} cache = some cache') :
    cache'.Small n ∧ cache.lirs.Thinned cache'.lirs := by
  have hfinal := Loop.run_keeps (I := fun s : DLIRS V => (s.Small n ∧ cache.lirs.Thinned s.lirs) ∧
    ∃ b, Sim s ref b hand held ∧ b.WF ∧ b.Rooted ∧ b.residents = a.residents) ?_
    ⟨⟨hsmall, .refl _⟩, a, h, wf, rooted, rfl⟩ hrun
  · exact hfinal.1
  rintro s r ⟨⟨hs, hlirs⟩, b, hsim, hwf, hrooted, hres⟩ hr
  split at hr
  · obtain ⟨s1, hs1, rfl⟩ := Option.map_eq_some_iff.mp hr
    obtain ⟨s2, hs2, hsim2⟩ := hsim.evictLir_rooted hwf hrooted
    obtain rfl : s2 = s1 := Option.some.inj (hs2.symm.trans hs1)
    have hcount : s.residentHirs.ht.count = b.queue.length := hsim.count_eq .residentHirs
    obtain ⟨hsmall2, hlirs2⟩ := small_evictLir hs1 hs ⟨hs .residentHirs, by
      rw [Lirs.residents, Lirs.residents] at hres
      rw [Lirs.residents] at hn
      omega⟩
    refine ⟨⟨hsmall2, hlirs.trans hlirs2⟩, b.demote, hsim2, ?_, demote_rooted hrooted,
      (demote_residents hwf hrooted).trans hres⟩
    cases hstack : b.stack with
    | nil => rwa [show b.demote = b by simp only [demote, hstack]]
    | cons j rest => exact hwf.demote hstack (hrooted j rest hstack)
  · cases hr
    exact ⟨⟨hs, hlirs⟩, b, hsim, hwf, hrooted, hres⟩

theorem small_hirInLirs (h : Sim cache ref a [] held) (wf : a.WF) (rooted : a.Rooted)
    (hk : k ∈ a.stack) (hlir : (a.info k).isLIR = false) (hn : 4 * a.residents + 2 ≤ n)
    (hfits : cache.Fits n) {r : HirInLirs V} (hr : dlirsHirInLirs {} cache k none = some r) :
    r.cache.Small n := by
  obtain ⟨hwf, -⟩ := wf.promote k
  obtain ⟨hcount, hrooted, hqueue⟩ := promote_spec wf hk hlir
  obtain ⟨cache1, cache2, hremove, hpromote, h2⟩ := h.promote wf hk hlir
  rw [h.hirInLirs_eq hremove hpromote] at hr
  obtain ⟨cache3, hdemote, hr⟩ := Option.bind_eq_some_iff.mp hr
  obtain ⟨⟨evicted, cache4⟩, hevict, hr⟩ := Option.bind_eq_some_iff.mp hr
  obtain ⟨⟨code, cache5⟩, hinsert, hr⟩ := Option.bind_eq_some_iff.mp hr
  have hout := thinned_remove cache .lirs k
  rw [hremove] at hout
  have hthin2 := hout.trans (thinned_promote hpromote)
  have hle : (a.promote k).residents ≤ a.residents := by
    rw [Lirs.residents, Lirs.residents, hcount]
    split at hqueue <;> omega
  obtain ⟨hsmall3, hlirs3⟩ := h2.small_demoteLoop hwf (hrooted rooted) (by omega)
    (hthin2.small hfits.small) hdemote
  have hthin4 := thinned_evictLoop hevict
  have hlirs4 := ((hthin2 .lirs).trans hlirs3).trans (hthin4 .lirs)
  have hsmall5 := small_insert hinsert (hthin4.small hsmall3) (hlirs4.fits (hfits .lirs))
  split at hr
  · cases hr
  · cases hr
    exact (Thinned.of_table fun t => by cases t <;> rfl :
      cache5.Thinned { cache5 with lirsCount := cache5.lirsCount + 1 }).small hsmall5

theorem small_get (h : Sim cache ref a [] held) (stable : a.Stable) (hl : a.Lookup k)
    (hn : 4 * a.residents + 2 ≤ n) (hfits : cache.Fits n) {r : DlirsGot V}
    (hr : dlirsGet {} cache k = some r) : r.cache.Small n := by
  unfold dlirsGet at hr
  by_cases hk : k ∈ a.stack
  · obtain ⟨m, hm⟩ := h.entries k (.inl ⟨.lirs, hk⟩)
    rw [show dqhtGet cache.lirs k = some (ref k) from h.get_mem (t := .lirs) hk] at hr
    simp only [hm, Option.bind_eq_bind, Option.bind_some, entryOf] at hr
    split at hr
    · obtain ⟨cache1, hhit, hr⟩ := Option.bind_eq_some_iff.mp hr
      cases hr
      exact small_hitLir hhit hfits
    · rename_i hlir
      rw [Bool.not_eq_true] at hlir
      obtain ⟨hit, hhit, hr⟩ := Option.bind_eq_some_iff.mp hr
      cases hr
      exact h.small_hirInLirs stable.wf (hl.rooted hk hlir) hk hlir hn hfits hhit
  · rw [show dqhtGet cache.lirs k = none from h.get_absent (t := .lirs) hk,
      show dqhtGet cache.residentHirs k = none from
        h.get_absent (t := .residentHirs) fun hq => hk (hl.known (.inr hq))] at hr
    cases hr
    exact hfits.small

end Sim

theorem Tracks.small_request {cache : DLIRS V} {ref : Key → Ref} {a : Lirs Key V}
    {held : Multiset Ref} {k : Key} {n : Nat} (h : Tracks cache ref a held) (he : a.Exact)
    (hfits : cache.Fits n) {value : Option V} {r : DlirsRequested V}
    (hr : dlirsRequest {} cache k value none = some r) : r.cache.Small n := by
  by_cases hadmits : cache.AdmitsLir
  · unfold DLIRS.AdmitsLir at hadmits
    rw [dlirsRequest, if_pos hadmits] at hr
    have htable := DLIRS.table_create true cache k value
    generalize dlirsEntryCreate true cache k value = created at htable hr
    obtain ⟨_ | entry, cache1⟩ := created
    · cases hr
      exact ((DLIRS.Thinned.of_table htable).fits hfits).small
    · have hfits1 : (cache1.modify entry fun e => { e with isLIR := true }).Fits n :=
        (DLIRS.Thinned.of_table fun t => (htable t ▸ by cases t <;> rfl)).fits hfits
      obtain ⟨⟨code, cache2⟩, hinsert, hr⟩ := Option.bind_eq_some_iff.mp hr
      have hsmall := DLIRS.small_insert hinsert hfits1.small (hfits1 .lirs)
      dsimp only at hr
      split at hr
      · cases hr
        exact hsmall
      · cases hr
        exact (DLIRS.Thinned.of_table fun t => by cases t <;> rfl :
          cache2.Thinned { cache2 with lirsCount := cache2.lirsCount + 1 }).small hsmall
  · obtain ⟨e, cache1, b, hloop, hspares, hcount, -⟩ := h.makeRoom he
    rw [DLIRS.request_hir hadmits (hloop _)] at hr
    have hthin : cache.Thinned cache1 := by
      intro t
      cases t with
      | lirs => exact .of_eq hspares.lirs
      | nonResidentHirs => exact .of_eq hspares.nonResidentHirs
      | residentHirs =>
        refine ⟨hspares.size, ?_⟩
        show cache1.residentHirs.ht.count ≤ cache.residentHirs.ht.count
        rw [hcount]
        split <;> omega
    exact DLIRS.small_requestHir hr (hthin.fits hfits)

/-! ### The runs -/

def CacheCall.isRequest : CacheCall V → Bool
  | .request _ _ => true
  | _ => false

/-- The entries in memory. -/
def DLIRS.live (cache : DLIRS V) : Finset Ref :=
  (Finset.range cache.fresh).filter fun r => (cache.heap r).isSome

namespace Served

variable {s : Served V} {a : Lirs Key V} {n : Nat}

/-- The cache follows a compact algorithm, and its arrays are within a bound. -/
structure Bounded (n : Nat) (s : Served V) (a : Lirs Key V) : Prop where
  shows : s.Shows a
  compact : a.Compact
  small : s.cache.Small n

/-- The stack has as many keys as two caches hold, the queue as one. -/
theorem Bounded.fits (h : s.Bounded n a) (hn : 8 * a.cacheSize + 2 ≤ n) : s.cache.Fits n := by
  obtain ⟨⟨hsmall, ref, hserves⟩, hcompact, hsize⟩ := h
  have hstack := hcompact.stack_le
  have hhirs := stack_length hserves.stable.wf
  have hresidents := (hserves.exact hsmall).residents_le
  rw [Lirs.residents] at hresidents
  intro t
  refine ⟨hsize t, ?_⟩
  rw [hserves.toSim.count_eq t]
  cases t <;> simp only [order] <;> omega

theorem Bounded.call (h : s.Bounded n a) (hn : 8 * a.cacheSize + 2 ≤ n) {c : CacheCall V}
    (permits : s.Permits c) : ∃ o s' b, s.call c = some (o, s') ∧ s'.Bounded n b ∧
      b.cacheSize = a.cacheSize ∧
      b.residents = min a.cacheSize (a.residents + c.isRequest.toNat) := by
  have hfits := h.fits hn
  obtain ⟨o, s', b, hs, ha, hshows⟩ := h.shows.call permits
  obtain ⟨⟨hsmall, ref, hserves⟩, hcompact, hsize⟩ := h
  have hexact := hserves.exact hsmall
  have hle := hexact.residents_le
  refine ⟨o, s', b, hs, ?_⟩
  cases c with
  | get k =>
    have hl : a.Lookup k := ⟨hserves.permitted permits, fun _ _ => hserves.founded.rooted,
      fun _ _ => hle⟩
    obtain ⟨⟨e, b'⟩, hb, heq⟩ := Option.map_eq_some_iff.mp ha
    obtain rfl : b' = b := congrArg Prod.snd heq
    obtain ⟨r, hr, heq⟩ := Option.map_eq_some_iff.mp hs
    cases heq
    obtain ⟨-, htracked⟩ := get_values hserves.stable hl hb
    obtain ⟨-, hsame, -⟩ := hserves.stable.get hl hb
    obtain ⟨hcompact', hresidents⟩ := hcompact.get hserves.stable hexact hl htracked hb
    refine ⟨⟨hshows, hcompact', ?_⟩, hsame, ?_⟩
    · exact hserves.toSim.small_get hserves.stable hl (by omega) hfits hr
    · rw [hresidents]
      exact (Nat.min_eq_right hle).symm
  | request k value =>
    have hk : ¬a.Tracked k := hserves.untracked permits
    obtain ⟨⟨e, b'⟩, hb, heq⟩ := Option.map_eq_some_iff.mp ha
    obtain rfl : b' = b := congrArg Prod.snd heq
    obtain ⟨r, hr, heq⟩ := Option.map_eq_some_iff.mp hs
    cases heq
    obtain ⟨-, hsame, -⟩ := hserves.stable.request hk (some value) hb
    obtain ⟨hcompact', hresidents⟩ := hcompact.request hserves.stable hexact hk hb
    exact ⟨⟨hshows, hcompact', hserves.toTracks.small_request hexact hfits hr⟩, hsame, hresidents⟩
  | contains k =>
    obtain rfl : s = s' := congrArg Prod.snd (Option.some.inj hs)
    obtain rfl : a = b := congrArg Prod.snd (Option.some.inj ha)
    exact ⟨⟨hshows, hcompact, hsize⟩, rfl, (Nat.min_eq_right hle).symm⟩
  | isFull =>
    obtain rfl : s = s' := congrArg Prod.snd (Option.some.inj hs)
    obtain rfl : a = b := congrArg Prod.snd (Option.some.inj ha)
    exact ⟨⟨hshows, hcompact, hsize⟩, rfl, (Nat.min_eq_right hle).symm⟩
  | release r =>
    cases ha
    obtain ⟨-, hs⟩ := Option.ite_none_right_eq_some.mp hs
    cases hs
    exact ⟨⟨hshows, hcompact, (DLIRS.thinned_destroy _ _).small hsize⟩, rfl,
      (Nat.min_eq_right hle).symm⟩

/-- By induction on the calls. -/
theorem Bounded.calls (h : s.Bounded n a) (hn : 8 * a.cacheSize + 2 ≤ n)
    {calls : List (CacheCall V)} (permitted : Servers.Permitted Served.call Served.Permits s calls) :
    ∃ answers s' b, Servers.serve Served.call s calls = some (answers, s') ∧ s'.Bounded n b ∧
      b.cacheSize = a.cacheSize ∧
      b.residents = min a.cacheSize (a.residents + calls.countP CacheCall.isRequest) := by
  induction calls generalizing s a with
  | nil =>
    obtain ⟨hsmall, ref, hserves⟩ := h.shows
    have hle := (hserves.exact hsmall).residents_le
    exact ⟨[], s, a, rfl, h, rfl, (Nat.min_eq_right hle).symm⟩
  | cons c calls ih =>
    obtain ⟨o, s1, a1, hs1, h1, hsame1, hresidents1⟩ := h.call hn permitted.1
    obtain ⟨answers, s', b, hs', h', hsame, hresidents⟩ :=
      ih h1 (hsame1 ▸ hn) (permitted.next hs1)
    refine ⟨o :: answers, s', b, Servers.serve_cons hs1 hs', h', hsame.trans hsame1, ?_⟩
    rw [hresidents, hsame1, hresidents1, List.countP_cons]
    cases c.isRequest <;> simp <;> omega

theorem create_bounded {htSize cacheSize : Nat} {hirsRatio : ℚ} (hht : 1 ≤ htSize)
    (hsmall : cacheSize < 2 ^ 24)
    (hhirs : 1 ≤ (dlirsCreate htSize cacheSize none hirsRatio : DLIRS V).hirsLimit)
    (hlirs : 1 ≤ (dlirsCreate htSize cacheSize none hirsRatio : DLIRS V).lirsLimit) :
    (create htSize cacheSize hirsRatio : Served V).Bounded (max htSize (8 * cacheSize + 2))
      (Lirs.create cacheSize (dlirsCreate htSize cacheSize none hirsRatio : DLIRS V).hirsLimit
        (dlirsCreate htSize cacheSize none hirsRatio : DLIRS V).lirsLimit) where
  shows := create_shows hht hsmall hhirs hlirs
  compact := ⟨fun j hj => by simp [Tracked, Lirs.create] at hj, Nat.zero_le _⟩
  small t := by cases t <;> exact Nat.le_max_left ..

/-- Every entry in memory is in the stack or in the queue, or it has been handed out. -/
theorem Bounded.live_le (h : s.Bounded n a) :
    s.cache.live.card ≤ 3 * a.cacheSize + s.handles.length := by
  obtain ⟨⟨hsmall, ref, hserves⟩, hcompact, -⟩ := h
  have hstack := hcompact.stack_le
  have hresidents := (hserves.exact hsmall).residents_le
  rw [Lirs.residents] at hresidents
  have hsub : s.cache.live ⊆ ((a.stack ++ a.queue).map ref ++ s.handles).toFinset := by
    intro r hr
    obtain ⟨e, he⟩ := Option.isSome_iff_exists.mp (Finset.mem_filter.mp hr).2
    have hholder := hserves.counted.mem (r := r) (n := e.referenceCounter) (by
      rw [DLIRS.counter, he]
      rfl)
    simp only [tableRefs, Multiset.mem_add, Multiset.mem_coe, List.mem_map] at hholder
    simp only [List.mem_toFinset, List.mem_append, List.mem_map]
    rcases hholder with ((⟨k, hk, rfl⟩ | ⟨k, hk, rfl⟩) | ⟨k, hk, rfl⟩) | hr
    · exact .inl ⟨k, .inl hk, rfl⟩
    · exact .inl ⟨k, .inl ((hserves.stable.wf.mem_hirs k).mp hk).1, rfl⟩
    · exact .inl ⟨k, .inr hk, rfl⟩
    · exact .inr hr
  have hcard := (Finset.card_le_card hsub).trans (List.toFinset_card_le _)
  simp only [List.length_append, List.length_map] at hcard
  omega

end Served

/-- However long a permitted run is, the tables keep to two caches' worth of entries and one, the
entries in memory to three and those handed out, and the arrays to the length that these need. -/
theorem served_space {htSize cacheSize : Nat} {hirsRatio : ℚ} (hht : 1 ≤ htSize)
    (hsmall : cacheSize < 2 ^ 24)
    (hhirs : 1 ≤ (dlirsCreate htSize cacheSize none hirsRatio : DLIRS V).hirsLimit)
    (hlirs : 1 ≤ (dlirsCreate htSize cacheSize none hirsRatio : DLIRS V).lirsLimit)
    {calls : List (CacheCall V)}
    (permitted : Servers.Permitted Served.call Served.Permits
      (Served.create htSize cacheSize hirsRatio) calls) :
    ∃ answers s, Servers.serve Served.call (Served.create htSize cacheSize hirsRatio) calls =
        some (answers, s) ∧
      s.cache.lirs.ht.count ≤ 2 * cacheSize ∧ s.cache.residentHirs.ht.count ≤ cacheSize ∧
      s.cache.live.card ≤ 3 * cacheSize + s.handles.length ∧
      ∀ t, (s.cache.table t).ht.size ≤ max htSize (8 * cacheSize + 2) := by
  obtain ⟨answers, s, b, hs, h, hsame, -⟩ :=
    (Served.create_bounded hht hsmall hhirs hlirs).calls (Nat.le_max_right ..) permitted
  have hsame : b.cacheSize = cacheSize := hsame
  have hlive := h.live_le
  obtain ⟨⟨hlt, ref, hserves⟩, hcompact, hsize⟩ := h
  have hstack := hcompact.stack_le
  have hresidents := (hserves.exact hlt).residents_le
  rw [hsame] at hstack hresidents hlive
  rw [Lirs.residents] at hresidents
  have hlirs : s.cache.lirs.ht.count = b.stack.length := hserves.toSim.count_eq .lirs
  have hqueue : s.cache.residentHirs.ht.count = b.queue.length :=
    hserves.toSim.count_eq .residentHirs
  exact ⟨answers, s, hs, by omega, by omega, hlive, hsize⟩

theorem served_space_ghostHit : ∃ answers s,
    Servers.serve Served.call (Served.create 4 2 (1 / 100)) ghostHit = some (answers, s) ∧
    s.cache.lirs.ht.count ≤ 2 * 2 ∧ s.cache.residentHirs.ht.count ≤ 2 ∧
    s.cache.live.card ≤ 3 * 2 + s.handles.length ∧
    ∀ t, (s.cache.table t).ht.size ≤ max 4 (8 * 2 + 2) :=
  served_space (by decide) (by decide) (by decide +kernel) (by decide +kernel)
    (by unfold Servers.Permitted; decide +kernel)

end SearchCache
