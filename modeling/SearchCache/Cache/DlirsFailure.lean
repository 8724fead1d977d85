import SearchCache.Cache.DlirsTransitions

/-! Requests in which allocations fail.  The key of the request stays in `lirs` where the insertion
there succeeds and one of the next two does not, since nothing takes it out again. -/

namespace SearchCache

open Lirs

variable {V : Type}

namespace DLIRS

variable {cache : DLIRS V} {t t' : Table} {ok : Alloc} {key : Key} {r : Option Ref}

/-- The insertion of a new key into the table succeeds. -/
def Suffices (cache : DLIRS V) (t : Table) (ok : Alloc) : Prop :=
  ok.Suffices (cache.table t).ht.size (cache.table t).ht.count

theorem Suffices.congr {cache' : DLIRS V} (h : cache.Suffices t ok)
    (htable : cache'.table t = cache.table t) : cache'.Suffices t ok := by
  rw [Suffices, htable]
  exact h

theorem insert_suffices (h : cache.Suffices t ok) (key : Key) (r : Option Ref) :
    cache.insert t ok key r = cache.insert t {} key r := by
  rw [DLIRS.insert, DLIRS.insert, Represents.insert_suffices h]

/-! ### What leaves the tables alone -/

theorem table_create (ok : Bool) (cache : DLIRS V) (key : Key) (value : Option V) (t : Table) :
    (dlirsEntryCreate ok cache key value).2.table t = cache.table t := by
  unfold dlirsEntryCreate
  split <;> cases t <;> rfl

theorem table_copy (cache : DLIRS V) (r : Option Ref) (t : Table) :
    (dlirsEntryReferenceCopy cache r).2.table t = cache.table t := by
  unfold dlirsEntryReferenceCopy
  split
  · rfl
  · split <;> cases t <;> rfl

theorem table_setTable (cache : DLIRS V) (dqht : DequeueHashTable Key Ref) (hne : t' ≠ t) :
    (cache.setTable t dqht).table t' = cache.table t' := by
  cases t <;> cases t' <;> first | rfl | exact absurd rfl hne

theorem table_insert {i : Int × DLIRS V} (hi : cache.insert t ok key r = some i) (hne : t' ≠ t) :
    i.2.table t' = cache.table t' := by
  obtain ⟨inserted, -, rfl⟩ := Option.map_eq_some_iff.mp hi
  rw [table_destroy, table_setTable _ _ hne]

/-! ### The end of a request -/

theorem requestHir_suffices {ok : DlirsAlloc} (hentry : ok.entry = true)
    (hlirs : cache.Suffices .lirs ok.lirs)
    (hhirs : cache.Suffices .nonResidentHirs ok.nonResidentHirs)
    (hqueue : cache.Suffices .residentHirs ok.residentHirs) (key : Key) (value : Option V)
    (evicted : Option Ref) :
    dlirsRequestHir ok cache key value evicted = dlirsRequestHir {} cache key value evicted := by
  unfold dlirsRequestHir
  rw [hentry]
  have htable1 := table_create true cache key value
  generalize dlirsEntryCreate true cache key value = created at htable1 ⊢
  obtain ⟨entry, cache1⟩ := created
  have htable2 := table_copy cache1 entry
  dsimp only at htable1 ⊢
  generalize dlirsEntryReferenceCopy cache1 entry = copied at htable2 ⊢
  obtain ⟨entry2, cache2⟩ := copied
  have htable3 := table_copy cache2 entry
  dsimp only at htable2 ⊢
  generalize dlirsEntryReferenceCopy cache2 entry = copied at htable3 ⊢
  obtain ⟨entry3, cache3⟩ := copied
  dsimp only at htable3 ⊢
  have htable : ∀ t, cache3.table t = cache.table t := fun t =>
    (htable3 t).trans ((htable2 t).trans (htable1 t))
  split
  · rfl
  rw [insert_suffices (hlirs.congr (htable _))]
  cases hinsert4 : cache3.insert .lirs {} key entry with
  | none => rfl
  | some i4 =>
    obtain ⟨code4, cache4⟩ := i4
    have htable4 : ∀ t, t ≠ .lirs → cache4.table t = cache.table t := fun t hne =>
      (table_insert hinsert4 hne).trans (htable t)
    simp only [Option.bind_eq_bind, Option.bind_some]
    split
    · rfl
    rw [insert_suffices (hhirs.congr (htable4 _ (by decide)))]
    cases hinsert5 : cache4.insert .nonResidentHirs {} key entry2 with
    | none => rfl
    | some i5 =>
      obtain ⟨code5, cache5⟩ := i5
      have htable5 : cache5.table .residentHirs = cache.table .residentHirs :=
        (table_insert hinsert5 (by decide)).trans (htable4 _ (by decide))
      simp only [Option.bind_some]
      split
      · rfl
      rw [insert_suffices (hqueue.congr htable5)]

theorem requestLir_suffices {ok : DlirsAlloc} (hadmits : cache.AdmitsLir)
    (hentry : ok.entry = true) (hlirs : cache.Suffices .lirs ok.lirs) (key : Key)
    (value : Option V) (evicted : Option Ref) :
    dlirsRequest ok cache key value evicted = dlirsRequest {} cache key value evicted := by
  unfold DLIRS.AdmitsLir at hadmits
  rw [dlirsRequest, dlirsRequest, if_pos hadmits, if_pos hadmits, hentry]
  have htable := table_create true cache key value
  generalize dlirsEntryCreate true cache key value = created at htable ⊢
  obtain ⟨_ | r, cache1⟩ := created
  · rfl
  · have hlirs1 : (cache1.modify r fun e => { e with isLIR := true }).Suffices .lirs ok.lirs :=
      hlirs.congr (htable .lirs)
    dsimp only
    rw [insert_suffices hlirs1]

end DLIRS

namespace Models

variable {cache : DLIRS V} {ref : Key → Ref} {a : Lirs Key V} {hand : List Key}
  {held : Multiset Ref} {t : Table} {k : Key}

/-- An insertion that fails may have resized the table. -/
theorem insert_fails (h : Models cache ref a hand held) (habsent : k ∉ a.order t) {ok : Alloc}
    (hok : ¬cache.Suffices t ok) (r : Ref) :
    ∃ cache', cache.insert t ok k (some r) = some (-1, cache') ∧ cache'.counts = cache.counts ∧
      Models cache' ref a hand held := by
  obtain ⟨table, hinsert, hd⟩ := (h.tables t).insert_fails (h.notMem_keys habsent) hok r
  have hsame : a.setOrder t (a.order t) = a := by cases t <;> rfl
  refine ⟨cache.setTable t table, ?_, counts_setTable .., ?_⟩
  · rw [DLIRS.insert, hinsert]
    rfl
  · have hset : Models (cache.setTable t table) ref (a.setOrder t (a.order t)) hand held :=
      h.setTable hd h.hand_held (fun j hj => hj.imp_left fun hj => ⟨t, hj⟩) (by rw [hsame])
    rwa [hsame] at hset

/-- What is known about a key that no table has makes no difference. -/
theorem forgetInfo {f : Info V → Info V} (h : Models cache ref (a.setInfo k f) [] held)
    (hk : ∀ t, k ∉ a.order t) : Models cache ref a [] held := by
  have horder : ∀ t, (a.setInfo k f).order t = a.order t := by
    intro t
    cases t <;> rfl
  refine ⟨h.cacheSize, h.hirsLimit, h.lirsLimit, fun t => horder t ▸ h.tables t, fun j hj => ?_,
    by simp, h.counted, h.fresh, h.destroyed_nodup, h.destroyed_iff⟩
  have hne : j ≠ k := by
    rintro rfl
    rcases hj with ⟨t, hj⟩ | hj
    · exact hk t hj
    · simp at hj
  have := h.entries j (hj.imp_left fun ⟨t, hj⟩ => ⟨t, horder t ▸ hj⟩)
  rwa [setInfo_info_of_ne _ _ hne] at this

/-- The entry of a new key with its three references, before the insertions. -/
theorem created (h : Models cache ref a hand held) (hk : ∀ t, k ∉ a.order t) (value : Option V) :
    ∃ cache1 cache2 cache3 r ref', dlirsEntryCreate true cache k value = (some r, cache1) ∧
      dlirsEntryReferenceCopy cache1 (some r) = (some r, cache2) ∧
      dlirsEntryReferenceCopy cache2 (some r) = (some r, cache3) ∧
      cache3.counts = cache.counts ∧ (∀ t, cache3.table t = cache.table t) ∧ ref' k = r ∧
      Models cache3 ref' (a.setInfo k fun _ =>
          { isLIR := false, isDemoted := false, inCache := true, value }) [k]
        (r ::ₘ r ::ₘ r ::ₘ held) := by
  obtain ⟨cache1, hcreate, hcounts1, h1⟩ := (h.weaken (G := []) (by simp)).create hk (by simp) value
  generalize hnew : Function.update ref k cache.fresh = ref' at h1
  have href : ref' k = cache.fresh := by rw [← hnew, Function.update_self]
  rw [← href] at h1 hcreate
  obtain ⟨cache2, hcopy2, hcounts2, h2⟩ := h1.referenceCopy (k := k) (.inr (by simp))
  obtain ⟨cache3, hcopy3, hcounts3, h3⟩ := h2.referenceCopy (k := k) (.inr (by simp))
  have htable1 : ∀ t, cache1.table t = cache.table t := fun t => by
    rw [← DLIRS.table_create true cache k value t, hcreate]
  have htable2 : ∀ t, cache2.table t = cache1.table t := fun t => by
    rw [← DLIRS.table_copy cache1 (some (ref' k)) t, hcopy2]
  have htable3 : ∀ t, cache3.table t = cache2.table t := fun t => by
    rw [← DLIRS.table_copy cache2 (some (ref' k)) t, hcopy3]
  exact ⟨cache1, cache2, cache3, ref' k, ref', hcreate, hcopy2, hcopy3,
    hcounts3.trans (hcounts2.trans hcounts1),
    fun t => (htable3 t).trans ((htable2 t).trans (htable1 t)), rfl, h3⟩

end Models

theorem Lirs.WF.absent {a : Lirs Key V} {k : Key} (wf : a.WF) (hk : ¬a.Tracked k) (t : Table) :
    k ∉ a.order t := by
  cases t with
  | lirs => exact fun hmem => hk (.inl hmem)
  | nonResidentHirs => exact fun hmem => hk (.inl ((wf.mem_hirs k).mp hmem).1)
  | residentHirs => exact fun hmem => hk (.inr hmem)

namespace Sim

variable {cache : DLIRS V} {ref : Key → Ref} {a : Lirs Key V} {hand : List Key}
  {held : Multiset Ref} {k : Key}

theorem requestLir_fails (h : Sim cache ref a hand held) (hk : ∀ t, k ∉ a.order t)
    (hadmits : cache.AdmitsLir) {ok : DlirsAlloc}
    (hfail : ok.entry = false ∨ ¬cache.Suffices .lirs ok.lirs) (value : Option V)
    (evicted : Option Ref) :
    ∃ cache' ref' held', dlirsRequest ok cache k value evicted =
        some { code := -1, evicted, cache := cache' } ∧ Sim cache' ref' a [] held' := by
  unfold DLIRS.AdmitsLir at hadmits
  cases hentry : ok.entry with
  | false =>
    refine ⟨cache, ref, held, ?_, h.forgetHand⟩
    rw [dlirsRequest, if_pos hadmits, hentry]
    rfl
  | true =>
    have hlirs := hfail.resolve_left (by simp [hentry])
    obtain ⟨cache1, hcreate, hcounts1, h1⟩ :=
      (h.toModels.weaken (G := []) (by simp)).create hk (by simp) value
    generalize hnew : Function.update ref k cache.fresh = ref' at h1
    have href : ref' k = cache.fresh := by rw [← hnew, Function.update_self]
    have h2 := h1.modify (k := k) (f := fun e => { e with isLIR := true })
      (g := fun i => { i with isLIR := true }) (.inr (by simp)) fun i n => rfl
    rw [setInfo_setInfo, href] at h2
    have htable : ∀ t, (cache1.modify cache.fresh fun e => { e with isLIR := true }).table t =
        cache.table t := by
      intro t
      rw [← DLIRS.table_create true cache k value t, hcreate]
      rfl
    obtain ⟨cache4, hinsert, hcounts4, h4⟩ := h2.insert_fails (t := .lirs) (hk .lirs)
      (fun hsuffices => hlirs (hsuffices.congr (htable _).symm)) cache.fresh
    refine ⟨cache4, ref', _, ?_, (h4.weaken (G := []) (by simp)).forgetInfo hk,
      hcounts4.trans (hcounts1.trans h.counts)⟩
    rw [dlirsRequest, if_pos hadmits, hentry, hcreate]
    simp only [hinsert, Option.bind_eq_bind, Option.bind_some]
    rfl

/-- The request fails before its key is in a table.  Nobody releases the new entry. -/
theorem requestHir_fails (h : Sim cache ref a hand held) (hk : ∀ t, k ∉ a.order t)
    {ok : DlirsAlloc} (hfail : ok.entry = false ∨ ¬cache.Suffices .lirs ok.lirs)
    (value : Option V) (evicted : Option Ref) :
    ∃ cache' ref' held', dlirsRequestHir ok cache k value evicted =
        some { code := -1, evicted, cache := cache' } ∧ Sim cache' ref' a [] held' := by
  cases hentry : ok.entry with
  | false =>
    refine ⟨cache, ref, held, ?_, h.forgetHand⟩
    rw [dlirsRequestHir, hentry]
    rfl
  | true =>
    have hlirs := hfail.resolve_left (by simp [hentry])
    obtain ⟨cache1, cache2, cache3, r, ref', hcreate, hcopy2, hcopy3, hcounts, htable, -, h3⟩ :=
      h.toModels.created hk value
    obtain ⟨cache4, hinsert, hcounts4, h4⟩ := h3.insert_fails (t := .lirs) (hk .lirs)
      (fun hsuffices => hlirs (hsuffices.congr (htable _).symm)) r
    refine ⟨cache4, ref', _, ?_, (h4.weaken (G := []) (by simp)).forgetInfo hk,
      hcounts4.trans (hcounts.trans h.counts)⟩
    rw [dlirsRequestHir, hentry, hcreate]
    dsimp only
    rw [hcopy2]
    dsimp only
    rw [hcopy3, if_neg (by simp), hinsert]
    rfl

/-- The request fails after its key is in `lirs`. -/
theorem requestHir_strays (h : Sim cache ref a hand held) (hk : ∀ t, k ∉ a.order t)
    {ok : DlirsAlloc} (hentry : ok.entry = true)
    (hlirs : cache.Suffices .lirs ok.lirs)
    (hfail : ¬(cache.Suffices .nonResidentHirs ok.nonResidentHirs ∧
      cache.Suffices .residentHirs ok.residentHirs)) (value : Option V) (evicted : Option Ref) :
    ∃ r, dlirsRequestHir ok cache k value evicted = some r ∧ r.code = -1 ∧
      r.cache.hasKey k = true := by
  obtain ⟨cache1, cache2, cache3, r, ref', hcreate, hcopy2, hcopy3, hcounts, htable, href, h3⟩ :=
    h.toModels.created hk value
  subst href
  obtain ⟨cache4, hinsert4, -, h4⟩ := h3.insert (t := .lirs) (G := [k]) (by simp) (hk .lirs)
    (by simp)
  have htable4 : ∀ t, t ≠ .lirs → cache4.table t = cache.table t := fun t hne =>
    (DLIRS.table_insert hinsert4 hne).trans (htable t)
  have hlirs3 := hlirs.congr (htable _)
  by_cases hhirs : cache.Suffices .nonResidentHirs ok.nonResidentHirs
  · have hqueue : ¬cache.Suffices .residentHirs ok.residentHirs := fun hqueue => hfail ⟨hhirs, hqueue⟩
    obtain ⟨cache5, hinsert5, -, h5⟩ := h4.insert (t := .nonResidentHirs) (G := [k]) (by simp)
      (hk .nonResidentHirs) (by simp)
    have htable5 : cache5.table .residentHirs = cache.table .residentHirs :=
      (DLIRS.table_insert hinsert5 (by decide)).trans (htable4 _ (by decide))
    obtain ⟨cache6, hinsert6, -, h6⟩ := h5.insert_fails (t := .residentHirs) (hk .residentHirs)
      (fun hsuffices => hqueue (hsuffices.congr htable5.symm)) (ref' k)
    refine ⟨{ code := -1, evicted, cache := cache6 }, ?_, rfl, ?_⟩
    · rw [dlirsRequestHir, hentry, hcreate]
      dsimp only
      rw [hcopy2]
      dsimp only
      rw [hcopy3, if_neg (by simp), DLIRS.insert_suffices hlirs3, hinsert4, Option.bind_eq_bind,
        Option.bind_some]
      dsimp only
      rw [if_neg (by simp), DLIRS.insert_suffices (hhirs.congr (htable4 _ (by decide))), hinsert5,
        Option.bind_eq_bind, Option.bind_some]
      dsimp only
      rw [if_neg (by simp), hinsert6, Option.bind_some]
      rfl
    · have hget : dqhtGet cache6.lirs k = some (ref' k) := h6.get_mem (t := .lirs) (by simp [order, setOrder])
      simp [DLIRS.hasKey, hget]
  · obtain ⟨cache5, hinsert5, -, h5⟩ := h4.insert_fails (t := .nonResidentHirs) (hk .nonResidentHirs)
      (fun hsuffices => hhirs (hsuffices.congr (htable4 _ (by decide)).symm)) (ref' k)
    refine ⟨{ code := -1, evicted, cache := cache5 }, ?_, rfl, ?_⟩
    · rw [dlirsRequestHir, hentry, hcreate]
      dsimp only
      rw [hcopy2]
      dsimp only
      rw [hcopy3, if_neg (by simp), DLIRS.insert_suffices hlirs3, hinsert4, Option.bind_eq_bind,
        Option.bind_some]
      dsimp only
      rw [if_neg (by simp), hinsert5, Option.bind_eq_bind, Option.bind_some]
      rfl
    · have hget : dqhtGet cache5.lirs k = some (ref' k) := h5.get_mem (t := .lirs) (by simp [order, setOrder])
      simp [DLIRS.hasKey, hget]

end Sim

/-! ### Requests -/

namespace DLIRS

variable {cache cache' : DLIRS V} {evicted lost : Option Ref}

theorem popFront_size (dqht : DequeueHashTable Key Ref) :
    (dqhtPopFront dqht).2.ht.size = dqht.ht.size := by
  unfold dqhtPopFront dqhtPop
  cases dqht.head with
  | none => rfl
  | some a =>
    have hsize : (dqhtUnlink dqht a).ht.size = dqht.ht.size := by
      rw [(DequeueHashTable.relinked_unlink dqht a).ht]
    dsimp only
    split
    · exact hsize
    · rw [← hsize]
      unfold htDeleteEntry
      dsimp only
      split <;> rfl

/-- What an eviction leaves alone. -/
structure Spares (cache cache' : DLIRS V) : Prop where
  lirs : cache'.lirs = cache.lirs
  nonResidentHirs : cache'.nonResidentHirs = cache.nonResidentHirs
  size : cache'.residentHirs.ht.size = cache.residentHirs.ht.size
  lirsCount : cache'.lirsCount = cache.lirsCount
  lirsLimit : cache'.lirsLimit = cache.lirsLimit

theorem Spares.trans {cache'' : DLIRS V} (h : cache.Spares cache') (h' : cache'.Spares cache'') :
    cache.Spares cache'' :=
  ⟨h'.lirs.trans h.lirs, h'.nonResidentHirs.trans h.nonResidentHirs, h'.size.trans h.size,
    h'.lirsCount.trans h.lirsCount, h'.lirsLimit.trans h.lirsLimit⟩

theorem evictResidentHir_spares (h : dlirsEvictResidentHir cache = some (evicted, cache')) :
    cache.Spares cache' := by
  have hsize := popFront_size cache.residentHirs
  unfold dlirsEvictResidentHir at h
  simp only [DLIRS.popFront, DLIRS.table] at h
  generalize dqhtPopFront cache.residentHirs = popped at h hsize
  obtain ⟨_ | lru, dqht⟩ := popped
  · cases h
    exact ⟨rfl, rfl, hsize, rfl, rfl⟩
  · obtain ⟨e, -, h⟩ := Option.bind_eq_some_iff.mp h
    cases hlirs : (dqhtGet (cache.setTable .residentHirs dqht).lirs e.key).isSome <;>
      cases hdemoted : e.isDemoted <;>
      · simp only [hlirs, hdemoted, if_true] at h
        cases h
        exact ⟨rfl, rfl, hsize, rfl, rfl⟩

theorem makeRoomLoop_spares (hlimit : ¬cache.lirsLimit < toFloat cache.lirsCount) (ok : Alloc) :
    dlirsMakeRoomLoop ok cache none = dlirsMakeRoomLoop {} cache none ∧
      ∀ p, dlirsMakeRoomLoop ok cache none = some p → cache.Spares p.2 := by
  have skipped : ∀ c, cache.Spares c → ∀ ok, dlirsOverLimitLoop ok c = some c := fun c hc ok =>
    Sim.overLimitLoop ok (by rwa [hc.lirsLimit, hc.lirsCount])
  have keeps : ∀ (p : Option Ref × DLIRS V) r, cache.Spares p.2 →
      (if p.2.cacheSize ≤ p.2.residents then (dlirsOverLimitLoop ok p.2).bind fun cache =>
        (dlirsEvictResidentHir cache).map Loop.Step.next else some (.done p)) = some r →
      cache.Spares r.state.2 := by
    intro p r hp hr
    split at hr
    · rw [skipped _ hp, Option.bind_some] at hr
      obtain ⟨q, hq, rfl⟩ := Option.map_eq_some_iff.mp hr
      exact hp.trans (evictResidentHir_spares hq)
    · cases hr
      exact hp
  constructor
  · refine Loop.run_congr (I := fun p => cache.Spares p.2) (fun p hp => ?_) keeps
      ⟨rfl, rfl, rfl, rfl, rfl⟩
    dsimp only
    rw [skipped _ hp, skipped _ hp]
  · exact fun p hp => Loop.run_keeps (I := fun p => cache.Spares p.2) keeps
      ⟨rfl, rfl, rfl, rfl, rfl⟩ hp

/-- The key of the request gets into `lirs` and into one of the other tables not. -/
def Strays (cache : DLIRS V) (ok : DlirsAlloc) : Prop :=
  ¬cache.AdmitsLir ∧ ok.entry = true ∧ cache.Suffices .lirs ok.lirs ∧
    ¬(cache.Suffices .nonResidentHirs ok.nonResidentHirs ∧
      ok.residentHirs.Suffices cache.residentHirs.ht.size
        (if cache.cacheSize ≤ cache.residents then cache.residentHirs.ht.count - 1
        else cache.residentHirs.ht.count))

instance (ok : Alloc) (size count : Nat) : Decidable (ok.Suffices size count) :=
  inferInstanceAs (Decidable (_ ∧ _))

instance (cache : DLIRS V) (t : Table) (ok : Alloc) : Decidable (cache.Suffices t ok) :=
  inferInstanceAs (Decidable (ok.Suffices _ _))

instance (cache : DLIRS V) (ok : DlirsAlloc) : Decidable (cache.Strays ok) :=
  inferInstanceAs (Decidable (_ ∧ _))

/-- The insertions work on the cache that has room. -/
theorem Spares.strays (h : cache.Spares cache') {ok : DlirsAlloc} (hadmits : ¬cache.AdmitsLir)
    (hcount : cache'.residentHirs.ht.count = (if cache.cacheSize ≤ cache.residents then
      cache.residentHirs.ht.count - 1 else cache.residentHirs.ht.count)) :
    cache.Strays ok ↔ ok.entry = true ∧ cache'.Suffices .lirs ok.lirs ∧
      ¬(cache'.Suffices .nonResidentHirs ok.nonResidentHirs ∧
        cache'.Suffices .residentHirs ok.residentHirs) := by
  simp only [Strays, Suffices, table, hadmits, h.lirs, h.nonResidentHirs, h.size, hcount,
    not_false_eq_true, true_and]

theorem request_hir {ok : DlirsAlloc} (hadmits : ¬cache.AdmitsLir)
    (hloop : dlirsMakeRoomLoop ok.demoted cache none = some (lost, cache')) (key : Key)
    (value : Option V) (evicted : Option Ref) :
    dlirsRequest ok cache key value evicted = dlirsRequestHir ok cache' key value
      (if cache.cacheSize ≤ cache.residents then lost else evicted) := by
  unfold DLIRS.AdmitsLir at hadmits
  rw [dlirsRequest, if_neg hadmits, dlirsMakeRoomLoop_evicted]
  by_cases hfull : cache.cacheSize ≤ cache.residents
  · rw [if_pos hfull, if_pos hfull, hloop]
    rfl
  · rw [dlirsMakeRoomLoop_evicted, if_neg hfull, Option.some_inj, Prod.mk.injEq] at hloop
    rw [if_neg hfull, if_neg hfull, ← hloop.2]
    rfl

end DLIRS

namespace Tracks

variable {cache : DLIRS V} {ref : Key → Ref} {a : Lirs Key V} {held : Multiset Ref} {k : Key}

/-- The loop that makes room, whatever allocations it is given. -/
theorem makeRoom (h : Tracks cache ref a held) (he : a.Exact) :
    ∃ e cache1 b, (∀ ok, dlirsMakeRoomLoop ok cache none = some (e, cache1)) ∧
      cache.Spares cache1 ∧
      cache1.residentHirs.ht.count = (if cache.cacheSize ≤ cache.residents then
        cache.residentHirs.ht.count - 1 else cache.residentHirs.ht.count) ∧
      Tracks cache1 ref b (hold e held) ∧ b.Exact ∧ b.cacheSize = a.cacheSize ∧
      ∀ j, b.Tracked j → a.Tracked j := by
  have hlimit : ¬cache.lirsLimit < toFloat cache.lirsCount := by
    rw [h.lirsLimit, h.lirsCount]
    exact h.limit_kept
  obtain ⟨⟨lost, b⟩, hb⟩ := makeRoom_progress (a := a) fun hfull hnil => by
    rw [residents, hnil, List.length_nil] at hfull
    have hle := h.stable.lirs_le
    have hhirs := he.hirs_pos
    have hlirs := he.lirs_pos
    have hsum := he.sum
    omega
  obtain ⟨⟨e, cache1⟩, hloop, hevicted, h1⟩ := Loop.of_rel_some
    (hb ▸ h.toSim.makeRoomLoop h.stable.wf h.stable.residents_le {} hlimit)
  dsimp only at hevicted h1
  have hthins := makeRoom_thins h.stable.wf hb
  have hcount : cache.residentHirs.ht.count = a.queue.length := h.count_eq .residentHirs
  have hcount1 : cache1.residentHirs.ht.count = b.queue.length := h1.count_eq .residentHirs
  obtain ⟨n, hn⟩ := h.float
  refine ⟨e, cache1, b, fun ok => (DLIRS.makeRoomLoop_spares hlimit ok).1.trans hloop,
    (DLIRS.makeRoomLoop_spares hlimit {}).2 _ hloop, ?_, ?_⟩
  · rw [hcount, hcount1, h.cacheSize, h.residents]
    rcases makeRoom_cases hb with ⟨-, rfl, hroom⟩ | ⟨j, -, hfull, hj⟩
    · rw [if_neg (by omega)]
    · rw [if_pos hfull, (evict_evicts hj).queue]
      rfl
  · have hstable : b.Stable ∧ b.Exact := by
      rcases makeRoom_cases hb with ⟨-, rfl, -⟩ | ⟨j, -, -, hj⟩
      · exact ⟨h.stable, he⟩
      · exact h.stable.evict he hj
    refine ⟨⟨h1.forgetHand, hstable.1, ⟨?_, hthins.rooted h.founded.rooted, fun hnil => ?_⟩, n,
      hthins.lirsLimit.trans hn⟩, hstable.2, hthins.cacheSize, hthins.tracked⟩
    · rw [hthins.lirsLimit]
      exact h.founded.limit_pos
    · have hqueue := h.founded.queue_nil (hthins.stack ▸ hnil)
      rcases makeRoom_cases hb with ⟨-, rfl, -⟩ | ⟨j, -, -, hj⟩
      · exact hqueue
      · simp [(evict_evicts hj).queue] at hqueue

/-- A request with all allocations. -/
theorem request_returns (h : Tracks cache ref a held) (he : a.Exact) (hk : ¬a.Tracked k)
    (value : Option V) (evicted : Option Ref) :
    ∃ r ref' b held', dlirsRequest {} cache k value evicted = some r ∧ r.code = 0 ∧
      Tracks r.cache ref' b held' ∧ b.Exact ∧ b.cacheSize = a.cacheSize := by
  obtain ⟨⟨lost, b⟩, hb⟩ := request_progress h.stable he hk value
  obtain ⟨r, hr, hcode, -, ref', -, -, h'⟩ := Loop.of_rel_some (hb ▸ h.request hk value)
  obtain ⟨-, hsize, -⟩ := h.stable.request hk value hb
  exact ⟨{ r with evicted := if cache.setsEvicted r.code then r.evicted else evicted }, ref', b, _,
    by rw [dlirsRequest_evicted, hr]; rfl, hcode, h', he.request h.stable hk value hb, hsize⟩

/-- A request whose key does not stay in `lirs`. -/
theorem request_keeps (h : Tracks cache ref a held) (he : a.Exact) (hk : ¬a.Tracked k)
    {ok : DlirsAlloc} (hstrays : ¬cache.Strays ok) (value : Option V) (evicted : Option Ref) :
    ∃ r ref' b held', dlirsRequest ok cache k value evicted = some r ∧
      Tracks r.cache ref' b held' ∧ b.Exact ∧ b.cacheSize = a.cacheSize ∧
      (r.code = -1 → ¬b.Tracked k) := by
  by_cases hall : dlirsRequest ok cache k value evicted = dlirsRequest {} cache k value evicted
  · obtain ⟨r, ref', b, held', hr, hcode, h', he', hsize⟩ := h.request_returns he hk value evicted
    exact ⟨r, ref', b, held', hall.trans hr, h', he', hsize, by simp [hcode]⟩
  by_cases hadmits : cache.AdmitsLir
  · have hfail : ok.entry = false ∨ ¬cache.Suffices .lirs ok.lirs := by
      by_contra hnot
      rw [not_or, Bool.not_eq_false, not_not] at hnot
      exact hall (DLIRS.requestLir_suffices hadmits hnot.1 hnot.2 k value evicted)
    obtain ⟨cache', ref', held', hr, h'⟩ :=
      h.toSim.requestLir_fails (h.stable.wf.absent hk) hadmits hfail value evicted
    exact ⟨{ code := -1, evicted, cache := cache' }, ref', a, held', hr,
      ⟨h', h.stable, h.founded, h.float⟩, he, rfl, fun _ => hk⟩
  · obtain ⟨e, cache1, b, hloop, hspares, hcount, h1, he1, hsize, htracked⟩ := h.makeRoom he
    have hk1 : ¬b.Tracked k := fun hk1 => hk (htracked k hk1)
    have hrequest : ∀ ok : DlirsAlloc, dlirsRequest ok cache k value evicted =
        dlirsRequestHir ok cache1 k value
          (if cache.cacheSize ≤ cache.residents then e else evicted) := fun ok =>
      DLIRS.request_hir hadmits (hloop ok.demoted) k value evicted
    have hfail : ok.entry = false ∨ ¬cache1.Suffices .lirs ok.lirs := by
      by_contra hnot
      rw [not_or, Bool.not_eq_false, not_not] at hnot
      have hrest : cache1.Suffices .nonResidentHirs ok.nonResidentHirs ∧
          cache1.Suffices .residentHirs ok.residentHirs := by
        by_contra hrest
        exact hstrays ((hspares.strays hadmits hcount).mpr ⟨hnot.1, hnot.2, hrest⟩)
      refine hall ?_
      rw [hrequest ok, hrequest {},
        DLIRS.requestHir_suffices hnot.1 hnot.2 hrest.1 hrest.2]
    obtain ⟨cache', ref', held', hr, h'⟩ :=
      h1.toSim.requestHir_fails (h1.stable.wf.absent hk1) hfail value
        (if cache.cacheSize ≤ cache.residents then e else evicted)
    exact ⟨_, ref', b, held', (hrequest ok).trans hr, ⟨h', h1.stable, h1.founded, h1.float⟩, he1,
      hsize, fun _ => hk1⟩

/-- A request whose key stays in `lirs`. -/
theorem request_strays (h : Tracks cache ref a held) (he : a.Exact) (hk : ¬a.Tracked k)
    {ok : DlirsAlloc} (hstrays : cache.Strays ok) (value : Option V) (evicted : Option Ref) :
    ∃ r, dlirsRequest ok cache k value evicted = some r ∧ r.code = -1 ∧
      r.cache.hasKey k = true := by
  obtain ⟨e, cache1, b, hloop, hspares, hcount, h1, -, -, htracked⟩ := h.makeRoom he
  obtain ⟨hentry, hlirs, hrest⟩ := (hspares.strays hstrays.1 hcount).mp hstrays
  rw [DLIRS.request_hir hstrays.1 (hloop ok.demoted)]
  exact h1.toSim.requestHir_strays (h1.stable.wf.absent fun hk1 => hk (htracked k hk1)) hentry hlirs
    hrest value _

end Tracks

/-! ### Runs -/

namespace DLIRS

variable {cache : DLIRS V}

/-- `non_resident_hirs` has the HIR entries of `lirs`, and `resident_hirs` those in the cache. -/
structure Related (cache : DLIRS V) (pairs : Table → List (Key × Ref)) : Prop
    extends Consistent cache pairs where
  hirs : ∀ p, p ∈ pairs .nonResidentHirs ↔ p ∈ pairs .lirs ∧ cache.isLIR p.2 = false
  resident : ∀ p ∈ pairs .lirs, cache.isLIR p.2 = false → cache.isGhost p.2 = false →
    p ∈ pairs .residentHirs

/-- The calls are permitted, and no request leaves its key in `lirs`. -/
def Settles (cache : DLIRS V) : DlirsOp V → Prop
  | .get key => cache.Permits (.get key)
  | .request key value evicted ok => cache.Permits (.request key value evicted ok) ∧ ¬cache.Strays ok

instance (cache : DLIRS V) : ∀ op, Decidable (cache.Settles op)
  | .get key => inferInstanceAs (Decidable (cache.Permits (.get key)))
  | .request .. => inferInstanceAs (Decidable (_ ∧ _))

def RunSettles (cache : DLIRS V) (ops : List (DlirsOp V)) : Prop :=
  Runs.Regular DLIRS.op DLIRS.Settles cache ops

end DLIRS

theorem Tracks.related {cache : DLIRS V} {ref : Key → Ref} {a : Lirs Key V} {held : Multiset Ref}
    (h : Tracks cache ref a held) (he : a.Exact) : cache.Related (Sim.pairs ref a) where
  toConsistent := h.toSim.consistent he.residents_le
  hirs := (h.toSim.ordered h.stable.wf he).hirs
  resident p hp hlir := ((h.toSim.ordered h.stable.wf he).resident p hp hlir).mpr

/-- A run in which allocations may fail. -/
theorem dlirsRun_settles {htSize cacheSize : Nat} {hirsRatio : ℚ} (hht : 1 ≤ htSize)
    (hsmall : cacheSize < 2 ^ 24)
    (hhirs : 1 ≤ (dlirsCreate htSize cacheSize none hirsRatio : DLIRS V).hirsLimit)
    (hlirs : 1 ≤ (dlirsCreate htSize cacheSize none hirsRatio : DLIRS V).lirsLimit)
    {ops : List (DlirsOp V)}
    (settles : (dlirsCreate htSize cacheSize none hirsRatio : DLIRS V).RunSettles ops) :
    ∃ cache ref a held, (dlirsCreate htSize cacheSize none hirsRatio).run ops = some cache ∧
      Tracks cache ref a held ∧ a.Exact := by
  let inv : DLIRS V → Prop := fun cache => ∃ ref a held, Tracks cache ref a held ∧ a.Exact
  have step : ∀ cache op, inv cache → cache.Settles op →
      ∃ cache', cache.op op = some cache' ∧ inv cache' := by
    rintro cache op ⟨ref, a, held, h, he⟩ hop
    cases op with
    | get key =>
      have hl : a.Lookup key := ⟨h.permitted hop, fun _ _ => h.founded.rooted,
        fun _ _ => he.residents_le⟩
      obtain ⟨⟨e, b⟩, hb⟩ := get_progress h.stable h.founded.rooted he (k := key)
      obtain ⟨got, hgot, -, h'⟩ := Loop.of_rel_some (hb ▸ h.get hl)
      exact ⟨got.cache, by rw [DLIRS.op, hgot]; rfl, ref, b, _, h', he.get h.stable hl hb⟩
    | request key value evicted ok =>
      have hk : ¬a.Tracked key := h.untracked hop.1
      obtain ⟨r, ref', b, held', hr, h', he', -, -⟩ :=
        h.request_keeps he hk hop.2 (some value) evicted
      exact ⟨r.cache, by rw [DLIRS.op, hr]; rfl, ref', b, held', h', he'⟩
  have start : inv (dlirsCreate htSize cacheSize none hirsRatio) :=
    ⟨_, _, 0, Tracks.create hht hlirs, dlirsCreate_exact hsmall hhirs hlirs⟩
  have preserves : ∀ cache op cache', inv cache → cache.Settles op →
      cache.op op = some cache' → inv cache' := by
    intro cache op cache' hinv hop hcache
    obtain ⟨cache1, hstep, hinv'⟩ := step cache op hinv hop
    rwa [← Option.some.inj (hstep.symm.trans hcache)]
  obtain ⟨cache, hrun⟩ := Runs.run_returns preserves
    (fun cache op hinv hop => (step cache op hinv hop).imp fun _ h => h.1) start settles
  obtain ⟨ref, a, held, h, he⟩ := Runs.run_preserves preserves start settles hrun
  exact ⟨cache, ref, a, held, hrun, h, he⟩

/-- Where no request of the run leaves its key in `lirs`, the tables stay related, and a request that
fails takes its key out again if and only if it did not get into `lirs`. -/
theorem dlirsRequest_failsCleanly_iff {htSize cacheSize : Nat} {hirsRatio : ℚ} (hht : 1 ≤ htSize)
    (hsmall : cacheSize < 2 ^ 24)
    (hhirs : 1 ≤ (dlirsCreate htSize cacheSize none hirsRatio : DLIRS V).hirsLimit)
    (hlirs : 1 ≤ (dlirsCreate htSize cacheSize none hirsRatio : DLIRS V).lirsLimit)
    {ops : List (DlirsOp V)}
    (settles : (dlirsCreate htSize cacheSize none hirsRatio : DLIRS V).RunSettles ops) :
    ∃ cache, (dlirsCreate htSize cacheSize none hirsRatio).run ops = some cache ∧
      (∃ pairs, cache.Related pairs) ∧
      ∀ key, cache.hasKey key = false → ∀ ok (value : V) evicted, ∃ r,
        dlirsRequest ok cache key (some value) evicted = some r ∧
          ((r.code = -1 → r.cache.hasKey key = false ∧ ∃ pairs, r.cache.Related pairs) ↔
            ¬cache.Strays ok) := by
  obtain ⟨cache, ref, a, held, hrun, h, he⟩ := dlirsRun_settles hht hsmall hhirs hlirs settles
  refine ⟨cache, hrun, ⟨_, h.related he⟩, fun key hkey ok value evicted => ?_⟩
  have hk : ¬a.Tracked key := h.untracked hkey
  by_cases hstrays : cache.Strays ok
  · obtain ⟨r, hr, hcode, hhas⟩ := h.request_strays he hk hstrays (some value) evicted
    refine ⟨r, hr, ⟨fun hclean => ?_, fun hnot => absurd hstrays hnot⟩⟩
    rw [(hclean hcode).1] at hhas
    cases hhas
  · obtain ⟨r, ref', b, held', hr, h', he', -, hb⟩ :=
      h.request_keeps he hk hstrays (some value) evicted
    refine ⟨r, hr, ⟨fun _ => hstrays, fun _ hcode => ⟨?_, _, h'.related he'⟩⟩⟩
    by_contra hhas
    exact hb hcode ((Tracks.hasKey_iff h'.toSim h'.stable.wf).mp (by simpa using hhas))

theorem dlirsRequest_failsCleanly_iff_one :
    ∃ cache, (dlirsCreate 4 2 none (1 / 100) : DLIRS Unit).run [.request keyA () none {}] =
        some cache ∧
      (∃ pairs, cache.Related pairs) ∧
      ∀ key, cache.hasKey key = false → ∀ ok (value : Unit) evicted, ∃ r,
        dlirsRequest ok cache key (some value) evicted = some r ∧
          ((r.code = -1 → r.cache.hasKey key = false ∧ ∃ pairs, r.cache.Related pairs) ↔
            ¬cache.Strays ok) :=
  dlirsRequest_failsCleanly_iff (by decide) (by decide) (by decide +kernel) (by decide +kernel)
    (by unfold DLIRS.RunSettles; decide +kernel)

/-- The second request finds no memory for the entry of `resident_hirs`. -/
theorem dlirsRequest_not_failsCleanly :
    ¬∀ ops (cache : DLIRS Unit), (dlirsCreate 4 2 none (1 / 100)).run ops = some cache →
      (dlirsCreate 4 2 none (1 / 100) : DLIRS Unit).RunPermitted ops →
      (∃ pairs, cache.Related pairs) → ∀ key, cache.hasKey key = false →
      ∀ ok (value : Unit) evicted r, dlirsRequest ok cache key (some value) evicted = some r →
        r.code = -1 → r.cache.hasKey key = false ∧ ∃ pairs, r.cache.Related pairs := by
  intro hall
  obtain ⟨cache, ref, a, held, hrun, h, he⟩ := @dlirsRun_settles Unit 4 2 (1 / 100) (by decide)
    (by decide) (by decide +kernel) (by decide +kernel) [.request keyA () none {}]
    (by unfold DLIRS.RunSettles; decide +kernel)
  let ok : DlirsAlloc := { residentHirs := { entry := false } }
  have hstrays : cache.hasKey keyB = false ∧ cache.Strays ok := by
    have heval : ((dlirsCreate 4 2 none (1 / 100) : DLIRS Unit).run [.request keyA () none {}]).map
        (fun cache => (cache.hasKey keyB, decide (cache.Strays ok))) = some (false, true) := by
      decide +kernel
    simpa only [hrun, Option.map_some, Option.some_inj, Prod.mk.injEq, decide_eq_true_eq]
      using heval
  obtain ⟨r, hr, hcode, hhas⟩ :=
    h.request_strays he (h.untracked hstrays.1) hstrays.2 (some ()) none
  have hclean := hall _ cache hrun (by unfold DLIRS.RunPermitted; decide +kernel) ⟨_, h.related he⟩
    keyB hstrays.1 ok () none r hr hcode
  simp [hclean.1] at hhas

end SearchCache
