import SearchCache.Cache.LirsResidents
import Mathlib.Data.Finset.Card

/-! How many keys the algorithm holds.  It keeps a key without its value only once it is full, so that
up to then every request adds a resident key, and the stack never outgrows twice the size of the
cache. -/

namespace SearchCache.Lirs

variable {K V : Type} [DecidableEq K] {a b : Lirs K V} {k j : K} {evicted : Option K}

/-! ### The number of residents -/

def residentKeys (a : Lirs K V) : Finset K :=
  (a.queue ++ a.stack.filter fun k => (a.info k).isLIR).toFinset

theorem mem_residentKeys : k ∈ a.residentKeys ↔ a.Resident k := by
  simp [residentKeys, Resident]

theorem card_residentKeys (h : a.WF) : a.residentKeys.card = a.residents := by
  have hnodup : (a.queue ++ a.stack.filter fun k => (a.info k).isLIR).Nodup := by
    refine List.nodup_append.mpr ⟨h.queue_nodup, h.stack_nodup.filter _, ?_⟩
    rintro j hj i hi rfl
    have hlir := (List.mem_filter.mp hi).2
    simp [h.queue_hir j hj] at hlir
  rw [residentKeys, List.toFinset_card_of_nodup hnodup, List.length_append,
    ← List.countP_eq_length_filter]
  rfl

theorem residents_congr (h : a.WF) (h' : b.WF) (hsame : ∀ j, b.Resident j ↔ a.Resident j) :
    b.residents = a.residents := by
  rw [← card_residentKeys h, ← card_residentKeys h']
  congr 1
  ext j
  rw [mem_residentKeys, mem_residentKeys, hsame]

/-- A key comes in. -/
theorem residents_insert (h : a.WF) (h' : b.WF) (hk : ¬a.Resident k)
    (hsame : ∀ j, b.Resident j ↔ a.Resident j ∨ j = k) : b.residents = a.residents + 1 := by
  rw [← card_residentKeys h, ← card_residentKeys h',
    ← Finset.card_insert_of_notMem (mt mem_residentKeys.mp hk)]
  congr 1
  ext j
  rw [mem_residentKeys, hsame, Finset.mem_insert, mem_residentKeys, or_comm]

/-- A key comes in for another one. -/
theorem residents_swap (h : a.WF) (h' : b.WF) (hj : a.Resident j) (hk : ¬a.Resident k)
    (hsame : ∀ i, b.Resident i ↔ (a.Resident i ∧ i ≠ j) ∨ i = k) : b.residents = a.residents := by
  have hpos : 0 < a.residentKeys.card := Finset.card_pos.mpr ⟨j, mem_residentKeys.mpr hj⟩
  have herase : k ∉ a.residentKeys.erase j := fun hmem =>
    hk (mem_residentKeys.mp (Finset.mem_of_mem_erase hmem))
  have hset : b.residentKeys = insert k (a.residentKeys.erase j) := by
    ext i
    rw [mem_residentKeys, hsame, Finset.mem_insert, Finset.mem_erase, mem_residentKeys, or_comm,
      and_comm]
  rw [← card_residentKeys h', hset, Finset.card_insert_of_notMem herase,
    Finset.card_erase_of_mem (mem_residentKeys.mpr hj), card_residentKeys h]
  rw [card_residentKeys h] at hpos
  omega

omit [DecidableEq K] in
/-- A key of the stack that is not in the cache is not resident. -/
theorem not_resident_of_ghost (h : a.WF) (hk : k ∈ a.stack) (hghost : (a.info k).inCache = false) :
    ¬a.Resident k := by
  rintro (hq | ⟨-, hlir⟩)
  · simp [h.queue_cached k hq hk] at hghost
  · simp [h.lir_cached k hk hlir] at hghost

/-! ### The invariant -/

/-- Only a full cache keeps keys without their values, and the stack is within its bound. -/
structure Compact (a : Lirs K V) : Prop where
  full : ∀ j, a.Tracked j → ¬a.Resident j → a.residents = a.cacheSize
  stack_le : a.stack.length ≤ 2 * a.cacheSize

omit [DecidableEq K] in
/-- A cache that is not full has no HIR keys in its stack but those of the queue. -/
theorem Compact.hirs_le (h : a.Compact) (wf : a.WF) (hroom : a.residents < a.cacheSize) :
    a.hirs.length ≤ a.queue.length := by
  refine (List.Nodup.subperm wf.hirs_nodup fun j hj => ?_).length_le
  obtain ⟨hmem, hlir⟩ := (wf.mem_hirs j).mp hj
  by_contra hq
  have := h.full j (.inl hmem) (by rintro (hj | ⟨-, hj⟩) <;> simp_all)
  omega

/-! ### Lookups -/

omit [DecidableEq K] in
theorem Compact.of_shrinks (h : a.Compact) (htracked : ∀ j, b.Tracked j → a.Tracked j)
    (hresident : ∀ j, a.Resident j → b.Resident j) (hresidents : b.residents = a.residents)
    (hsize : b.cacheSize = a.cacheSize) (hstack : b.stack.length ≤ a.stack.length) : b.Compact where
  full j hj hnot := by
    rw [hresidents, hsize]
    exact h.full j (htracked j hj) fun hr => hnot (hresident j hr)
  stack_le := by
    rw [hsize]
    exact hstack.trans h.stack_le

/-- A lookup evicts only for a key that the cache keeps without its value. -/
theorem get_evicts (h : a.Stable) (he : a.Exact) (hl : a.Lookup k)
    (hb : a.get k = some (some j, b)) : k ∈ a.stack ∧ (a.info k).inCache = false := by
  unfold Lirs.get at hb
  split at hb
  · rename_i hk
    split at hb
    · cases hb
    · rename_i hlir
      rw [Bool.not_eq_true] at hlir
      refine ⟨hk, Bool.eq_false_iff.mpr fun hcached => ?_⟩
      obtain ⟨hwf, -⟩ := h.wf.promote k
      obtain ⟨hcount, hrooted, hqueue⟩ := promote_spec h.wf hk hlir
      rw [hitHir, Option.bind_eq_bind, Option.bind_eq_some_iff] at hb
      obtain ⟨a1, hdemote, hb⟩ := hb
      rw [Option.bind_eq_bind, Option.bind_eq_some_iff] at hb
      obtain ⟨⟨e, a2⟩, hmake, hb⟩ := hb
      cases hb
      obtain ⟨-, -, -, hresidents, -, hshrinks⟩ :=
        demoteAll_spec hwf (hrooted (hl.rooted hk hlir)) hdemote
      -- the key has left the queue, so that there is room without an eviction
      rcases makeRoom_cases hmake with ⟨hnone, -⟩ | ⟨i, -, hfull, -⟩
      · cases hnone
      · have hle := he.residents_le
        rw [hresidents, hshrinks.cacheSize, (promote_promotes a k).cacheSize, residents,
          hcount] at hfull
        rw [residents] at hle
        rw [if_pos hcached] at hqueue
        omega
  · cases hb

/-- A lookup keeps the number of residents. -/
theorem Compact.get (h : a.Compact) (stable : a.Stable) (he : a.Exact) (hl : a.Lookup k)
    (htracked : ∀ j, b.Tracked j → a.Tracked j) (hb : a.get k = some (evicted, b)) :
    b.Compact ∧ b.residents = a.residents := by
  obtain ⟨hstable, hsize, -⟩ := stable.get hl hb
  have hresident := get_resident stable hl hb
  have hstack := get_stack_length stable hl hb
  cases evicted with
  | none =>
    have hsub : ∀ j, a.Resident j → b.Resident j := fun j hj =>
      (hresident j).mpr (.inl ⟨hj, by simp⟩)
    have hresidents : b.residents = a.residents := by
      by_cases hk : a.Resident k ∨ k ∉ a.stack
      · refine residents_congr stable.wf hstable.wf fun j => ?_
        rw [hresident]
        constructor
        · rintro (⟨hj, -⟩ | ⟨rfl, hmem⟩)
          · exact hj
          · exact hk.resolve_right fun hnot => hnot hmem
        · exact fun hj => .inl ⟨hj, by simp⟩
      · -- a ghost comes in for nothing, in a full cache
        obtain ⟨hnot, hmem⟩ := not_or.mp hk
        have hmem := not_not.mp hmem
        have hfull := h.full k (.inl hmem) hnot
        have hgrown := residents_insert (k := k) stable.wf hstable.wf hnot fun j => by
          rw [hresident]
          simp [hmem]
        have hle := (he.get stable hl hb).residents_le
        omega
    exact ⟨h.of_shrinks htracked hsub hresidents hsize hstack, hresidents⟩
  | some j =>
    obtain ⟨hmem, hghost⟩ := get_evicts stable he hl hb
    have hnot := not_resident_of_ghost stable.wf hmem hghost
    have hresidents : b.residents = a.residents :=
      residents_swap stable.wf hstable.wf (get_lost stable hl hb).1 hnot fun i => by
        rw [hresident]
        simp [hmem, eq_comm]
    have hfull := h.full k (.inl hmem) hnot
    exact ⟨⟨fun _ _ _ => by rw [hresidents, hsize, hfull], by
      rw [hsize]
      exact hstack.trans h.stack_le⟩, hresidents⟩

/-! ### Requests -/

theorem request_tracked (h : a.Stable) (hk : ¬a.Tracked k) {value : Option V}
    (hb : a.request k value = some (evicted, b)) (hj : b.Tracked j) : j = k ∨ a.Tracked j := by
  have hnew : ∀ l : List K, j ∈ l ++ [k] → j = k ∨ j ∈ l := by simp [or_comm]
  unfold Lirs.request at hb
  split at hb
  · cases hb
    exact hj.elim (fun hs => (hnew _ hs).imp_right .inl) fun hq => .inr (.inr hq)
  · rw [Option.bind_eq_bind, Option.bind_eq_some_iff] at hb
    obtain ⟨⟨e, a1⟩, hmake, hb⟩ := hb
    rw [Option.bind_eq_bind, Option.bind_eq_some_iff] at hb
    obtain ⟨a2, hlimit, hb⟩ := hb
    cases hb
    have hthins := makeRoom_thins h.wf hmake
    have hk1 : ¬a1.Tracked k := fun hk1 => hk (hthins.tracked k hk1)
    rw [limitStack] at hlimit
    split at hlimit
    · rename_i hexcess
      rw [Option.some_inj] at hlimit
      subst hlimit
      obtain ⟨-, -, -, -, -, -, hshrinks⟩ := forget_iterate (hthins.wf.addHir hk1 value) hexcess
      rcases hshrinks.tracked j hj with hs | hq
      · exact (hnew _ hs).imp_right fun hs => hthins.tracked j (.inl hs)
      · exact (hnew _ hq).imp_right fun hq => hthins.tracked j (.inr hq)
    · simp at hlimit

/-- A request adds a resident key as long as there is room. -/
theorem Compact.request (h : a.Compact) (stable : a.Stable) (he : a.Exact) (hk : ¬a.Tracked k)
    {value : Option V} (hb : a.request k value = some (evicted, b)) :
    b.Compact ∧ b.residents = min a.cacheSize (a.residents + 1) := by
  obtain ⟨hstable, hsize, -⟩ := stable.request hk value hb
  have hle := (he.request stable hk value hb).residents_le
  have hresident := request_resident stable hk hb
  have hnot : ¬a.Resident k := fun hr => hk hr.tracked
  have hstack : b.stack.length ≤ 2 * b.cacheSize := by
    refine request_stack_length stable he hk value h.stack_le (fun hfirst => ?_) hb
    have hsum := he.sum
    have hhirs := he.hirs_pos
    have hroom : a.residents < a.cacheSize := by
      rw [residents, hfirst.2, List.length_nil]
      omega
    have hghosts := h.hirs_le stable.wf hroom
    rw [residents] at hroom
    rw [stack_length stable.wf]
    omega
  cases evicted with
  | none =>
    have hresidents := residents_insert (k := k) stable.wf hstable.wf hnot fun j => by
      rw [hresident]
      simp
    refine ⟨⟨fun j hj hout => ?_, hstack⟩, by omega⟩
    have hne : j ≠ k := fun heq => hout ((hresident j).mpr (.inr heq))
    have hfull := h.full j ((request_tracked stable hk hb hj).resolve_left hne) fun hr =>
      hout ((hresident j).mpr (.inl ⟨hr, by simp⟩))
    omega
  | some j =>
    have hresidents : b.residents = a.residents :=
      residents_swap stable.wf hstable.wf (request_lost hb) hnot fun i => by
        rw [hresident]
        simp [eq_comm]
    have hfull := request_full hb
    exact ⟨⟨fun _ _ _ => by omega, hstack⟩, by omega⟩

end SearchCache.Lirs
