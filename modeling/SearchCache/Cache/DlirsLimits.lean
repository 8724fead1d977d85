import SearchCache.Cache.DlirsAccounting

/-! The two calls of `dlirs_resize` in `dlirs_get`.  Nothing else in `dlirs_get` touches the
limits. -/

namespace SearchCache

variable {V : Type}

namespace DLIRS

variable {cache cache' : DLIRS V} {key : Key} {code : Int} {t : Table} {ok : Alloc}

def limits (cache : DLIRS V) : Nat × Int × Int :=
  (cache.cacheSize, cache.hirsLimit, cache.lirsLimit)

/-! ### What keeps the limits -/

@[simp]
theorem limits_modify (cache : DLIRS V) (r : Ref) (f : DLIRSEntry V → DLIRSEntry V) :
    (cache.modify r f).limits = cache.limits := rfl

@[simp]
theorem limits_setTable (cache : DLIRS V) (t : Table) (dqht : DequeueHashTable Key Ref) :
    (cache.setTable t dqht).limits = cache.limits := by
  cases t <;> rfl

@[simp]
theorem limits_destroy (cache : DLIRS V) (entry : Option Ref) :
    (dlirsEntryDestroy cache entry).limits = cache.limits := by
  unfold dlirsEntryDestroy
  split
  · rfl
  · split
    · rfl
    · split <;> rfl

@[simp]
theorem limits_referenceCopy (cache : DLIRS V) (entry : Option Ref) :
    (dlirsEntryReferenceCopy cache entry).2.limits = cache.limits := by
  unfold dlirsEntryReferenceCopy
  split
  · rfl
  · split <;> rfl

@[simp]
theorem limits_remove (cache : DLIRS V) (t : Table) (key : Key) :
    (cache.remove t key).2.2.limits = cache.limits :=
  limits_setTable cache t _

@[simp]
theorem limits_popFront (cache : DLIRS V) (t : Table) :
    (cache.popFront t).2.limits = cache.limits :=
  limits_setTable cache t _

theorem limits_insert {r : Option Ref} (h : cache.insert t ok key r = some (code, cache')) :
    cache'.limits = cache.limits := by
  obtain ⟨i, -, hi⟩ := Option.map_eq_some_iff.mp h
  cases hi
  simp

theorem limits_pruneStep {r : Loop.Step (DLIRS V)} (h : dlirsPruneStep cache = some r) :
    r.state.limits = cache.limits := by
  unfold dlirsPruneStep at h
  split at h
  · cases h
    rfl
  · obtain ⟨front, -, h⟩ := Option.bind_eq_some_iff.mp h
    obtain ⟨entry, -, h⟩ := Option.bind_eq_some_iff.mp h
    split at h
    · cases h
      rfl
    · dsimp only at h
      split at h
      · cases h
      · obtain ⟨entry, -, h⟩ := Option.bind_eq_some_iff.mp h
        split at h <;> cases h
        · simp [Loop.Step.state]
        · exact (limits_destroy _ _).trans (by simp)

theorem limits_prune (h : dlirsPrune cache = some cache') : cache'.limits = cache.limits :=
  Loop.run_keeps (I := fun c => c.limits = cache.limits)
    (fun _ _ hs hr => (limits_pruneStep hr).trans hs) rfl h

theorem limits_evictLir (h : dlirsEvictLir ok cache = some cache') :
    cache'.limits = cache.limits := by
  unfold dlirsEvictLir at h
  dsimp only at h
  split at h
  · cases h
    exact limits_popFront cache .lirs
  · obtain ⟨e, -, h⟩ := Option.bind_eq_some_iff.mp h
    obtain ⟨⟨code, cache1⟩, hinsert, h⟩ := Option.bind_eq_some_iff.mp h
    dsimp only at h
    split at h
    · cases h
    · have hpopped : cache1.limits = cache.limits :=
        (limits_insert hinsert).trans (limits_popFront cache .lirs)
      exact (limits_prune h).trans hpopped

theorem limits_evictResidentHir {r : Option Ref × DLIRS V}
    (h : dlirsEvictResidentHir cache = some r) : r.2.limits = cache.limits := by
  unfold dlirsEvictResidentHir at h
  dsimp only at h
  split at h
  · cases h
    exact limits_popFront cache .residentHirs
  · obtain ⟨e, -, h⟩ := Option.bind_eq_some_iff.mp h
    cases h
    refine Eq.trans ?_ (limits_popFront cache .residentHirs)
    split <;> split <;> rfl

theorem limits_demoteLoop (h : dlirsDemoteLoop ok cache = some cache') :
    cache'.limits = cache.limits := by
  refine Loop.run_keeps (I := fun c => c.limits = cache.limits) ?_ rfl h
  intro s r hs hr
  split at hr
  · obtain ⟨s1, hs1, rfl⟩ := Option.map_eq_some_iff.mp hr
    exact (limits_evictLir hs1).trans hs
  · cases hr
    exact hs

theorem limits_evictLoop {evicted : Option Ref} {r : Option Ref × DLIRS V}
    (h : dlirsEvictLoop cache evicted = some r) : r.2.limits = cache.limits := by
  refine Loop.run_keeps (I := fun c => c.2.limits = cache.limits) ?_ rfl h
  intro s r hs hr
  dsimp only at hr
  split at hr
  · obtain ⟨s1, hs1, rfl⟩ := Option.map_eq_some_iff.mp hr
    exact (limits_evictResidentHir hs1).trans hs
  · cases hr
    exact hs

theorem limits_limitStackLoop {n : Nat} (h : dlirsLimitStackLoop n cache = some cache') :
    cache'.limits = cache.limits := by
  induction n generalizing cache with
  | zero =>
    cases h
    rfl
  | succ n ih =>
    unfold dlirsLimitStackLoop at h
    dsimp only at h
    obtain ⟨lru, -, h⟩ := Option.bind_eq_some_iff.mp h
    obtain ⟨e, -, h⟩ := Option.bind_eq_some_iff.mp h
    have hpopped : (if e.inCache then (cache.popFront .nonResidentHirs).2
        else { (cache.popFront .nonResidentHirs).2 with
          nonResident := dec (cache.popFront .nonResidentHirs).2.nonResident }).limits =
        cache.limits := by
      split <;> exact limits_popFront cache .nonResidentHirs
    by_cases hcode : (((if e.inCache then (cache.popFront .nonResidentHirs).2
        else { (cache.popFront .nonResidentHirs).2 with
          nonResident := dec (cache.popFront .nonResidentHirs).2.nonResident }).remove .lirs
            e.key).1) ≠ 0
    · rw [if_pos hcode] at h
      cases h
    · rw [if_neg hcode] at h
      rw [ih h, limits_destroy, limits_destroy, limits_remove, hpopped]

theorem limits_limitStack (h : dlirsLimitStack cache = some cache') :
    cache'.limits = cache.limits := limits_limitStackLoop h

theorem limits_hitLir (h : dlirsHitLir ok cache key = some cache') :
    cache'.limits = cache.limits := by
  unfold dlirsHitLir at h
  split at h
  · cases h
    rfl
  · dsimp only at h
    split at h
    · cases h
    · obtain ⟨value, -, h⟩ := Option.bind_eq_some_iff.mp h
      obtain ⟨e, -, h⟩ := Option.bind_eq_some_iff.mp h
      obtain ⟨⟨code, cache1⟩, hinsert, h⟩ := Option.bind_eq_some_iff.mp h
      have hlimits : cache1.limits = cache.limits :=
        (limits_insert hinsert).trans (limits_remove cache .lirs key)
      dsimp only at h
      split at h
      · cases h
      · obtain ⟨lru, -, h⟩ := Option.bind_eq_some_iff.mp h
        split at h
        · exact (limits_prune h).trans hlimits
        · cases h
          exact hlimits

theorem limits_hitHirInResidentHirs {entry : Ref} {e : DLIRSEntry V}
    (hget : dqhtGet cache.residentHirs key = some entry) (he : cache.heap entry = some e)
    (h : dlirsHitHirInResidentHirs ok cache key = some cache') :
    cache'.limits = (if e.isDemoted then dlirsResize cache false else cache).limits := by
  unfold dlirsHitHirInResidentHirs at h
  rw [hget] at h
  dsimp only at h
  rw [he, Option.bind_eq_bind, Option.bind_some] at h
  obtain ⟨⟨code1, cache1⟩, h1, h⟩ := Option.bind_eq_some_iff.mp h
  dsimp only at h
  split at h
  · cases h
  · obtain ⟨⟨code2, cache2⟩, h2, h⟩ := Option.bind_eq_some_iff.mp h
    dsimp only at h
    split at h
    · cases h
    · obtain ⟨⟨code3, cache3⟩, h3, h⟩ := Option.bind_eq_some_iff.mp h
      dsimp only at h
      split at h
      · cases h
      · rw [limits_limitStack h, limits_insert h3, limits_insert h2, limits_insert h1,
          limits_referenceCopy, limits_referenceCopy]
        split <;> rfl

end DLIRS

/-! ### The calls -/

/-- The cache and the argument of the call of `dlirs_resize` in `dlirs_hir_in_lirs`, if there is
one, after the entry has been removed from `lirs`. -/
def promoteResize (cache : DLIRS V) (key : Key) (entry : Ref) : Option (DLIRS V × Bool) := do
  let e ← cache.heap entry
  let cache := cache.modify entry fun e => { e with isLIR := true }
  let (_, hirsEntry, cache) := cache.remove .nonResidentHirs key
  let hirsEntry ← hirsEntry
  let cache := dlirsEntryDestroy cache (some hirsEntry)
  if e.inCache then none else return (cache, true)

def hirInLirsResize (cache : DLIRS V) (key : Key) : Option (DLIRS V × Bool) := do
  let (code, entry, cache) := cache.remove .lirs key
  if code ≠ 0 then none
  let entry ← entry
  promoteResize cache key entry

/-- The call in `dlirs_hit_hir_in_resident_hirs`. -/
def hitHirResize (cache : DLIRS V) (key : Key) : Option (DLIRS V × Bool) := do
  let entry ← dqhtGet cache.residentHirs key
  let e ← cache.heap entry
  if e.isDemoted then return (cache, false) else none

/-- The call of `dlirs_resize` that `dlirs_get` makes, if it makes one. -/
def getResize (cache : DLIRS V) (key : Key) : Option (DLIRS V × Bool) :=
  match dqhtGet cache.lirs key with
  | some entry => do
    let e ← cache.heap entry
    if e.isLIR then none else hirInLirsResize cache key
  | none => hitHirResize cache key

namespace DLIRS

variable {cache cache' : DLIRS V} {key : Key} {ok : Alloc}

/-- The limits after a call that may not be made. -/
def limitsAfter (cache : DLIRS V) : Option (DLIRS V × Bool) → Nat × Int × Int
  | some (site, hit) => (dlirsResize site hit).limits
  | none => cache.limits

theorem limits_promote {entry : Ref} {r : Bool × DLIRS V}
    (h : dlirsPromote cache key entry = some r) :
    r.2.limits = cache.limitsAfter (promoteResize cache key entry) := by
  unfold dlirsPromote at h
  unfold promoteResize
  obtain ⟨e, he, h⟩ := Option.bind_eq_some_iff.mp h
  rw [he, Option.bind_eq_bind, Option.bind_some]
  dsimp only at h ⊢
  obtain ⟨hirsEntry, hremove, h⟩ := Option.bind_eq_some_iff.mp h
  rw [hremove, Option.bind_eq_bind, Option.bind_some]
  split at h
  · rename_i hcached
    obtain ⟨residentEntry, -, h⟩ := Option.bind_eq_some_iff.mp h
    cases h
    rw [if_pos hcached]
    refine (limits_destroy _ _).trans ?_
    change DLIRS.limits (DLIRS.remove _ .residentHirs key).2.2 = cache.limits
    simp
  · rename_i hcached
    cases h
    rw [if_neg hcached]
    rfl

theorem limits_hirInLirs {evicted : Option Ref} {r : HirInLirs V}
    (h : dlirsHirInLirs ok cache key evicted = some r) :
    r.cache.limits = cache.limitsAfter (hirInLirsResize cache key) := by
  unfold dlirsHirInLirs at h
  unfold hirInLirsResize
  dsimp only at h ⊢
  by_cases hcode : (cache.remove .lirs key).1 ≠ 0
  · rw [if_pos hcode] at h ⊢
    cases h
    exact limits_remove cache .lirs key
  · rw [if_neg hcode] at h ⊢
    obtain ⟨entry, hentry, h⟩ := Option.bind_eq_some_iff.mp h
    obtain ⟨⟨inCache, cache1⟩, hpromote, h⟩ := Option.bind_eq_some_iff.mp h
    obtain ⟨cache2, hdemote, h⟩ := Option.bind_eq_some_iff.mp h
    obtain ⟨⟨evicted', cache3⟩, hevict, h⟩ := Option.bind_eq_some_iff.mp h
    obtain ⟨⟨code', cache4⟩, hinsert, h⟩ := Option.bind_eq_some_iff.mp h
    have hlimits : cache4.limits = cache1.limits := by
      rw [limits_insert hinsert, limits_evictLoop hevict, limits_demoteLoop hdemote]
    have hcall := hlimits.trans (limits_promote hpromote)
    rw [hentry, Option.bind_eq_bind, Option.bind_some]
    dsimp only at h
    split at h
    · cases h
    · cases h
      refine Eq.trans hcall ?_
      cases promoteResize (cache.remove .lirs key).2.2 key entry with
      | none => exact limits_remove cache .lirs key
      | some call => rfl

/-- Apart from that call nothing in `dlirs_get` changes the limits. -/
theorem limits_get {got : DlirsGot V} (h : dlirsGet ok cache key = some got) :
    got.cache.limits = cache.limitsAfter (getResize cache key) := by
  unfold dlirsGet at h
  unfold getResize
  cases hlirs : dqhtGet cache.lirs key with
  | some entry =>
    rw [hlirs] at h
    obtain ⟨e, he, h⟩ := Option.bind_eq_some_iff.mp h
    dsimp only
    rw [he, Option.bind_eq_bind, Option.bind_some]
    split at h
    · rename_i hlir
      obtain ⟨cache1, hhit, h⟩ := Option.bind_eq_some_iff.mp h
      cases h
      rw [if_pos hlir]
      exact limits_hitLir hhit
    · rename_i hlir
      obtain ⟨r, hhit, h⟩ := Option.bind_eq_some_iff.mp h
      cases h
      rw [if_neg hlir]
      exact limits_hirInLirs hhit
  | none =>
    rw [hlirs] at h
    unfold hitHirResize
    cases hget : dqhtGet cache.residentHirs key with
    | some entry =>
      rw [hget] at h
      obtain ⟨cache1, hhit, rfl⟩ := Option.map_eq_some_iff.mp h
      obtain ⟨e, he⟩ : ∃ e, cache.heap entry = some e := by
        unfold dlirsHitHirInResidentHirs at hhit
        rw [hget] at hhit
        obtain ⟨e, he, -⟩ := Option.bind_eq_some_iff.mp hhit
        exact ⟨e, he⟩
      simp only [he, Option.bind_eq_bind, Option.bind_some]
      refine Eq.trans (limits_hitHirInResidentHirs hget he hhit) ?_
      split <;> rfl
    | none =>
      rw [hget] at h
      cases h
      rfl

/-! ### The state in which the call is made -/

/-- What the call reads of the cache. -/
def basis (cache : DLIRS V) : (Nat × Int × Int) × Nat × Nat :=
  (cache.limits, cache.demoted, cache.nonResident)

theorem basis_remove (cache : DLIRS V) (t : Table) (key : Key) :
    (cache.remove t key).2.2.basis = cache.basis := by
  unfold remove
  cases t <;> rfl

theorem basis_destroy (cache : DLIRS V) (entry : Option Ref) :
    (dlirsEntryDestroy cache entry).basis = cache.basis := by
  unfold dlirsEntryDestroy
  split
  · rfl
  · split
    · rfl
    · split <;> rfl

/-- The tables hold these pairs, of a key and its one object. -/
structure Shares (cache : DLIRS V) (pairs : Table → List (Key × Ref)) : Prop where
  tables : ∀ t, Represents (cache.table t) (pairs t)
  entries : ∀ t k r, (k, r) ∈ pairs t → ∃ e, cache.heap r = some e ∧ e.key = k
  shared : ∀ t t' k r r', (k, r) ∈ pairs t → (k, r') ∈ pairs t' → r = r'

structure Limited (cache : DLIRS V) (pairs : Table → List (Key × Ref)) : Prop extends
    cache.Shares pairs where
  nonResident : cache.nonResident = (pairs .lirs).countP fun p => cache.isGhost p.2
  demoted : cache.demoted = (pairs .residentHirs).countP fun p => cache.isDemoted p.2
  lir_cached : ∀ k r e, (k, r) ∈ pairs .lirs → cache.heap r = some e → e.isLIR = true →
    e.inCache = true
  sum : cache.hirsLimit + cache.lirsLimit = cache.cacheSize
  hirs_pos : 1 ≤ cache.hirsLimit
  hirs_le : cache.hirsLimit ≤ cache.cacheSize - 1
  lirs_pos : 1 ≤ cache.lirsLimit
  lirs_le : cache.lirsLimit ≤ cache.cacheSize - 1

variable {pairs : Table → List (Key × Ref)} {t : Table} {r : Ref}

theorem heap_setTable (cache : DLIRS V) (t : Table) (dqht : DequeueHashTable Key Ref) :
    (cache.setTable t dqht).heap = cache.heap := by
  cases t <;> rfl

theorem Shares.get_mem (h : cache.Shares pairs) (hget : dqhtGet (cache.table t) key = some r) :
    (key, r) ∈ pairs t := by
  by_cases hkey : key ∈ (pairs t).map Prod.fst
  · obtain ⟨⟨k, r'⟩, hmem, rfl⟩ := List.mem_map.mp hkey
    have := (h.tables t).get_of_mem hmem
    rw [hget] at this
    cases this
    exact hmem
  · rw [(h.tables t).get_absent hkey] at hget
    cases hget

/-- The key that is found is the one that is removed. -/
theorem Shares.remove_get (h : cache.Shares pairs)
    (hget : dqhtGet (cache.table t) key = some r) : (cache.remove t key).2.1 = some r := by
  obtain ⟨l1, l2, hsplit⟩ := List.append_of_mem (h.get_mem hget)
  obtain ⟨dqht, hremove, -⟩ := (hsplit ▸ h.tables t).remove_mem
  simp only [remove, hremove]

theorem promoteResize_eq {entry : Ref} {call : DLIRS V × Bool}
    (h : promoteResize cache key entry = some call) :
    call.2 = true ∧ call.1.basis = cache.basis ∧ cache.isGhost entry = true := by
  obtain ⟨e, he, h⟩ := Option.bind_eq_some_iff.mp h
  obtain ⟨hirsEntry, -, h⟩ := Option.bind_eq_some_iff.mp h
  dsimp only at h
  split at h
  · cases h
  · rename_i hcached
    cases h
    refine ⟨rfl, ?_, by simp [isGhost, he, hcached]⟩
    exact (basis_destroy _ _).trans (basis_remove (cache.modify entry _) .nonResidentHirs key)

/-- The call changes nothing that it reads, and the counter by which it divides counts the entry
of the key. -/
theorem Shares.getResize_eq (h : cache.Shares pairs) {call : DLIRS V × Bool}
    (hcall : getResize cache key = some call) :
    call.1.basis = cache.basis ∧
      if call.2 then ∃ r, (key, r) ∈ pairs .lirs ∧ cache.isGhost r = true
      else ∃ r, (key, r) ∈ pairs .residentHirs ∧ cache.isDemoted r = true := by
  unfold getResize at hcall
  split at hcall
  · rename_i entry hget
    obtain ⟨e, he, hcall⟩ := Option.bind_eq_some_iff.mp hcall
    split at hcall
    · cases hcall
    · unfold hirInLirsResize at hcall
      dsimp only at hcall
      rw [h.remove_get (t := .lirs) hget] at hcall
      by_cases hcode : (cache.remove .lirs key).1 ≠ 0
      · rw [if_pos hcode] at hcall
        cases hcall
      · rw [if_neg hcode] at hcall
        obtain ⟨hhit, hbasis, hghost⟩ := promoteResize_eq hcall
        rw [hhit, if_pos rfl]
        exact ⟨hbasis.trans (basis_remove cache .lirs key), entry, h.get_mem (t := .lirs) hget,
          hghost⟩
  · obtain ⟨entry, hget, hcall⟩ := Option.bind_eq_some_iff.mp hcall
    obtain ⟨e, he, hcall⟩ := Option.bind_eq_some_iff.mp hcall
    split at hcall
    · rename_i hdemoted
      cases hcall
      exact ⟨rfl, entry, h.get_mem (t := .residentHirs) hget, by simp [isDemoted, he, hdemoted]⟩
    · cases hcall

/-- The counter by which `dlirs_resize` divides. -/
def divisor (cache : DLIRS V) (hitNonresidentHir : Bool) : Nat :=
  if hitNonresidentHir then cache.nonResident else cache.demoted

/-- The limits are integers within the cache, and the one that should has grown or cannot. -/
structure Resizes (cache cache' : DLIRS V) (hitNonresidentHir : Bool) : Prop where
  sum : cache'.hirsLimit + cache'.lirsLimit = cache.cacheSize
  hirs_pos : 1 ≤ cache'.hirsLimit
  hirs_le : cache'.hirsLimit ≤ cache.cacheSize - 1
  lirs_pos : 1 ≤ cache'.lirsLimit
  lirs_le : cache'.lirsLimit ≤ cache.cacheSize - 1
  hirs_grown : hitNonresidentHir = true → cache.hirsLimit + 1 ≤ cache'.hirsLimit ∨
    cache.hirsLimit = cache.cacheSize - 1
  lirs_grown : hitNonresidentHir = false → cache.lirsLimit + 1 ≤ cache'.lirsLimit ∨
    cache.lirsLimit = cache.cacheSize - 1

theorem resizes_dlirsResize {site : DLIRS V} (h : cache.Limited pairs) (hsize : 2 ≤ cache.cacheSize)
    (hsmall : cache.cacheSize < 2 ^ 24) (hbasis : site.basis = cache.basis) (hit : Bool) :
    Resizes cache (dlirsResize site hit) hit := by
  simp only [basis, limits, Prod.mk.injEq] at hbasis
  obtain ⟨⟨hcs, hhirs, hlirs⟩, hdemoted, hnon⟩ := hbasis
  have hcache : toFloat cache.cacheSize = cache.cacheSize := toFloat_eq (by omega)
  -- The quotient plays no part: whatever it is, the limit grows and stays within the cache.
  have hgrown : ∀ (limit : Int) (m n : Nat), 1 ≤ limit →
      ∃ l : Int, toFloat (grownLimit cache.cacheSize limit m n) = l ∧
        toFloat (cache.cacheSize - l) = cache.cacheSize - l ∧ 1 ≤ l ∧ l ≤ cache.cacheSize - 1 ∧
        (limit + 1 ≤ l ∨ cache.cacheSize - 1 ≤ limit) := by
    intro limit m n hpos
    obtain ⟨hlow, hhigh⟩ := grownLimit_bounds hsize hpos m n
    refine ⟨grownLimit cache.cacheSize limit m n, toFloat_eq (by omega), toFloat_eq (by omega),
      hlow, hhigh, grownLimit_grows limit m n⟩
  have hsum := h.sum
  have hhirs_le := h.hirs_le
  have hlirs_le := h.lirs_le
  cases hit with
  | true =>
    obtain ⟨l, hl, hdiff, hlow, hhigh, hgrows⟩ :=
      hgrown cache.hirsLimit cache.demoted cache.nonResident h.hirs_pos
    have hhirs' : (dlirsResize site true).hirsLimit = l := by
      simp only [dlirsResize, if_pos, hcs, hhirs, hdemoted, hnon, hl]
    have hlirs' : (dlirsResize site true).lirsLimit = cache.cacheSize - l := by
      simp only [dlirsResize, if_pos, hcs, hhirs, hdemoted, hnon, hl, hcache, hdiff]
    refine ⟨?_, ?_, ?_, ?_, ?_, fun hhit => ?_, fun hhit => ?_⟩ <;> first | omega | cases hhit
  | false =>
    obtain ⟨l, hl, hdiff, hlow, hhigh, hgrows⟩ :=
      hgrown cache.lirsLimit cache.nonResident cache.demoted h.lirs_pos
    have hlirs' : (dlirsResize site false).lirsLimit = l := by
      simp [dlirsResize, hcs, hlirs, hdemoted, hnon, hl]
    have hhirs' : (dlirsResize site false).hirsLimit = cache.cacheSize - l := by
      simp [dlirsResize, hcs, hlirs, hdemoted, hnon, hl, hcache, hdiff]
    refine ⟨?_, ?_, ?_, ?_, ?_, fun hhit => ?_, fun hhit => ?_⟩ <;> first | omega | cases hhit

theorem divisor_ne_zero {site : DLIRS V} {hit : Bool} (h : cache.Limited pairs)
    (hcall : getResize cache key = some (site, hit)) : site.divisor hit ≠ 0 := by
  obtain ⟨hbasis, hcounted⟩ := h.toShares.getResize_eq hcall
  simp only [basis, limits, Prod.mk.injEq] at hbasis
  obtain ⟨-, hdemoted, hnon⟩ := hbasis
  cases hit with
  | true =>
    obtain ⟨r, hmem, hghost⟩ := hcounted
    have hpos : 0 < (pairs .lirs).countP fun p => cache.isGhost p.2 :=
      List.countP_pos_iff.mpr ⟨_, hmem, hghost⟩
    rw [divisor, if_pos rfl, hnon, h.nonResident]
    omega
  | false =>
    obtain ⟨r, hmem, hdem⟩ := hcounted
    have hpos : 0 < (pairs .residentHirs).countP fun p => cache.isDemoted p.2 :=
      List.countP_pos_iff.mpr ⟨_, hmem, hdem⟩
    simp only [divisor, Bool.false_eq_true, if_false]
    rw [hdemoted, h.demoted]
    omega

end DLIRS

end SearchCache
