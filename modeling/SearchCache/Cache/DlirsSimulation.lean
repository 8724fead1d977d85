import SearchCache.Cache.DlirsModels

/-! The functions of `dlirs.c` do to the tables, the objects and the counters what the algorithm
does to the keys. -/

namespace SearchCache

open Lirs

variable {V : Type}

/-- The cache models the algorithm, and its counters count. -/
structure Sim (cache : DLIRS V) (ref : Key → Ref) (a : Lirs Key V) (hand : List Key)
    (held : Multiset Ref) : Prop extends Models cache ref a hand held where
  counts : cache.counts = a.counts

namespace Sim

variable {cache : DLIRS V} {ref : Key → Ref} {a b : Lirs Key V} {hand G : List Key}
  {held : Multiset Ref} {t : Table} {k j : Key} {r : Ref} {rest : List Key}

theorem hirsCount (h : Sim cache ref a hand held) : cache.hirsCount = a.queue.length :=
  congrArg Prod.fst h.counts

theorem lirsCount (h : Sim cache ref a hand held) : cache.lirsCount = a.lirCount :=
  congrArg (fun c => c.2.1) h.counts

theorem demoted (h : Sim cache ref a hand held) : cache.demoted = a.demoted :=
  congrArg (fun c => c.2.2.1) h.counts

theorem nonResident (h : Sim cache ref a hand held) : cache.nonResident = a.ghostCount :=
  congrArg (fun c => c.2.2.2) h.counts

theorem residents (h : Sim cache ref a hand held) : cache.residents = a.residents := by
  rw [DLIRS.residents, Lirs.residents, h.hirsCount, h.lirsCount]

/-- The counters are set to those of the algorithm. -/
theorem ofModels (h : Models cache ref a hand held) (hirs lirs demoted nonResident : Nat)
    (hcounts : (hirs, lirs, demoted, nonResident) = a.counts) :
    Sim { cache with hirsCount := hirs, lirsCount := lirs, demoted, nonResident }
      ref a hand held :=
  ⟨h.withCounts hirs lirs demoted nonResident, hcounts⟩

theorem forgetHand (h : Sim cache ref a hand held) : Sim cache ref a [] held :=
  ⟨h.weaken fun _ hk => by simp at hk, h.counts⟩

/-! ### Pruning -/

theorem ghostCount_drop (hk : k ∈ a.stack) : a.ghostCount = (a.drop k).ghostCount +
    if (a.info k).inCache then 0 else 1 := by
  rw [ghostCount, (List.perm_cons_erase hk).countP_eq, List.countP_cons]
  cases (a.info k).inCache <;> rfl

theorem counts_drop (hk : k ∈ a.stack) (hlir : (a.info k).isLIR = false) :
    (a.drop k).counts = (a.queue.length, a.lirCount, a.demoted,
      if (a.info k).inCache then a.ghostCount else dec a.ghostCount) := by
  have hghost := ghostCount_drop hk
  have hlirs := (erase_hir hk hlir).1
  have hdrop : (a.drop k).lirCount = a.lirCount := hlirs
  have hafter : (a.drop k).ghostCount =
      if (a.info k).inCache then a.ghostCount else dec a.ghostCount := by
    split at hghost
    · rename_i hcached
      rw [if_pos hcached]
      omega
    · rename_i hcached
      rw [if_neg hcached, dec, if_neg (by omega)]
      omega
  rw [Lirs.counts, hdrop, hafter]
  rfl

/-- The loop of `dlirs_prune` ends at a LIR key. -/
theorem pruneStep_done (h : Sim cache ref a hand held)
    (hroot : ∀ k rest, a.stack = k :: rest → (a.info k).isLIR = true) :
    dlirsPruneStep cache = some (.done cache) := by
  unfold dlirsPruneStep
  have hcount : cache.lirs.ht.count = a.stack.length := h.count_eq .lirs
  have hfront : dqhtGetFront cache.lirs = a.stack.head?.map ref := h.getFront .lirs
  cases hstack : a.stack with
  | nil => simp [hcount, hstack]
  | cons k rest =>
    obtain ⟨n, hn⟩ := h.entries k (.inl ⟨.lirs, by simp [order, hstack]⟩)
    simp [hcount, hstack, hfront, hn, entryOf, hroot k rest hstack]

theorem pruneStep_next (h : Sim cache ref a hand held) (wf : a.WF)
    (hstack : a.stack = k :: rest) (hlir : (a.info k).isLIR = false) :
    ∃ cache', dlirsPruneStep cache = some (.next cache') ∧
      Sim cache' ref (a.drop k) hand held := by
  have hcount : cache.lirs.ht.count = a.stack.length := h.count_eq .lirs
  have hfront : dqhtGetFront cache.lirs = a.stack.head?.map ref := h.getFront .lirs
  have hk : k ∈ a.stack := by simp [hstack]
  have hhand : ∀ j ∈ hand, j ∈ k :: hand ∧ ref j ∈ held := fun j hj =>
    ⟨List.mem_cons_of_mem _ hj, h.hand_held j hj⟩
  obtain ⟨n, hn⟩ := h.entries k (.inl ⟨.lirs, hk⟩)
  obtain ⟨cache1, hremove1, hcounts1, h1⟩ := h.toModels.remove_mem (t := .lirs) hk
  obtain ⟨hcounts2, h2⟩ := h1.destroy hhand
  have hk2 : k ∈ a.hirs := (wf.mem_hirs k).mpr ⟨hk, hlir⟩
  obtain ⟨n2, hn2⟩ := h2.entries k (.inl ⟨.nonResidentHirs, hk2⟩)
  obtain ⟨cache3, hremove3, hcounts3, h3⟩ := h2.remove_mem (t := .nonResidentHirs) hk2
  obtain ⟨hcounts4, h4⟩ := h3.destroy hhand
  have hcounts : (dlirsEntryDestroy cache3 (some (ref k))).counts = a.counts := by
    rw [hcounts4, hcounts3, hcounts2, hcounts1, h.counts]
  have hdrop := counts_drop hk hlir
  unfold dlirsPruneStep
  cases hcached : (a.info k).inCache with
  | true =>
    rw [hcached, if_pos rfl] at hdrop
    refine ⟨dlirsEntryDestroy cache3 (some (ref k)), ?_, h4, hcounts.trans hdrop.symm⟩
    simp [hcount, hstack, hfront, hn, entryOf, hlir, hremove1, hn2, hremove3, setOrder, hcached]
  | false =>
    rw [hcached, if_neg (by simp)] at hdrop
    simp only [DLIRS.counts, Lirs.counts, Prod.mk.injEq] at hcounts
    obtain ⟨hhirs, hlirs, hdemoted, hghosts⟩ := hcounts
    let cache4 := dlirsEntryDestroy cache3 (some (ref k))
    refine ⟨{ cache4 with nonResident := dec cache4.nonResident }, ?_,
      ofModels h4 _ _ _ (dec cache4.nonResident) ?_⟩
    · simp [hcount, hstack, hfront, hn, entryOf, hlir, hremove1, hn2, hremove3, hcached, cache4]
    · rw [hhirs, hlirs, hdemoted, hghosts]
      exact hdrop.symm

theorem pruneLoop (h : Sim cache ref a hand held) (wf : a.WF) {n : Nat}
    (hn : a.stack.length < n) : ∃ cache', Loop.run dlirsPruneStep n cache = some cache' ∧
      Sim cache' ref a.prune hand held := by
  induction n generalizing cache a with
  | zero => omega
  | succ n ih =>
    by_cases hroot : ∀ k rest, a.stack = k :: rest → (a.info k).isLIR = true
    · refine ⟨cache, Loop.run_done (h.pruneStep_done hroot), ?_⟩
      rwa [prune_eq_self hroot]
    · simp only [not_forall, Bool.not_eq_true] at hroot
      obtain ⟨k, rest, hstack, hlir⟩ := hroot
      obtain ⟨cache1, hstep, h1⟩ := h.pruneStep_next wf hstack hlir
      have hlength : (a.drop k).stack.length < n := by
        simp only [drop, hstack, List.erase_cons_head]
        rw [hstack, List.length_cons] at hn
        omega
      obtain ⟨cache2, hrun, h2⟩ := ih h1 (wf.drop k) hlength
      rw [prune_drop wf hstack hlir] at h2
      exact ⟨cache2, by rw [Loop.run_next hstep, hrun], h2⟩

theorem prune (h : Sim cache ref a hand held) (wf : a.WF) :
    ∃ cache', dlirsPrune cache = some cache' ∧ Sim cache' ref a.prune hand held := by
  have hcount : cache.lirs.ht.count = a.stack.length := h.count_eq .lirs
  exact h.pruneLoop wf (by omega)

/-! ### Eviction -/

theorem counts_toQueue (wf : a.WF) (hstack : a.stack = k :: rest)
    (hk : (a.info k).isLIR = true) : (a.toQueue k rest).counts =
      (a.queue.length + 1, dec a.lirCount, a.demoted + 1, a.ghostCount) := by
  have hnodup := wf.stack_nodup
  rw [hstack, List.nodup_cons] at hnodup
  have hlirs := toQueue_lirCount wf hstack hk
  have hother : ∀ j, j ≠ k → (a.toQueue k rest).info j = a.info j := fun j hj =>
    setInfo_info_of_ne _ _ hj
  have hcached : (a.info k).inCache = true := wf.lir_cached k (by simp [hstack]) hk
  have hghosts : (a.toQueue k rest).ghostCount = a.ghostCount := by
    rw [ghostCount, ghostCount, hstack, List.countP_cons, hcached]
    refine List.countP_congr fun j hj => ?_
    rw [hother j (by rintro rfl; exact hnodup.1 hj)]
  have hlir : (a.toQueue k rest).lirCount = dec a.lirCount := by
    rw [dec, if_neg (by omega)]
    omega
  rw [Lirs.counts, hlir, hghosts]
  simp [toQueue]

/-- `dlirs_evict_lir`, where the first key of `lirs` is LIR. -/
theorem evictLir (h : Sim cache ref a hand held) (wf : a.WF) (hstack : a.stack = k :: rest)
    (hk : (a.info k).isLIR = true) :
    ∃ cache', dlirsEvictLir {} cache = some cache' ∧ Sim cache' ref a.demote hand held := by
  have hqueue : k ∉ a.queue := fun hq => by simp [wf.queue_hir k hq] at hk
  obtain ⟨cache1, hpop, hcounts1, h1⟩ := h.toModels.popFront_cons (t := .lirs) hstack
  have h2 := (h1.withCounts cache1.hirsCount (dec cache1.lirsCount) (cache1.demoted + 1)
    cache1.nonResident).withDemoted (a.demoted + 1)
  have h3 := h2.modify (k := k) (f := fun e => { e with isLIR := false, isDemoted := true })
    (g := fun i => { i with isLIR := false, isDemoted := true }) (.inr (by simp)) fun i n => rfl
  obtain ⟨n, hn⟩ := h3.entries k (.inr (by simp))
  obtain ⟨cache4, hinsert, hcounts4, h4⟩ := h3.insert (t := .residentHirs) (by simp) hqueue
    fun j hj => ⟨List.mem_cons_of_mem _ hj, h.hand_held j hj⟩
  have hcounts := counts_toQueue wf hstack hk
  have h5 : Sim { cache4 with hirsCount := cache4.hirsCount + 1 } ref (a.toQueue k rest) hand
      held := by
    refine ofModels h4 _ _ _ _ ?_
    simp only [DLIRS.counts, Prod.mk.injEq] at hcounts1 hcounts4
    show (cache4.hirsCount + 1, _, _, _) = (a.toQueue k rest).counts
    rw [hcounts, hcounts4.1, hcounts4.2.1, hcounts4.2.2.1, hcounts4.2.2.2]
    show (cache1.hirsCount + 1, dec cache1.lirsCount, cache1.demoted + 1, cache1.nonResident) = _
    rw [hcounts1.1, hcounts1.2.1, hcounts1.2.2.1, hcounts1.2.2.2, h.hirsCount, h.lirsCount,
      h.demoted, h.nonResident]
  obtain ⟨cache6, hprune, h6⟩ := h5.prune (wf.toQueue hstack hk)
  refine ⟨cache6, ?_, demote_eq hstack ▸ h6⟩
  unfold dlirsEvictLir
  simp only [hpop]
  rw [hn]
  simp only [Option.bind_eq_bind, Option.bind_some, entryOf]
  rw [hinsert]
  simpa using hprune

/-- Without a LIR key there is nothing to evict, and otherwise the first key of `lirs` is one. -/
theorem evictLir_rooted (h : Sim cache ref a hand held) (wf : a.WF) (rooted : a.Rooted) :
    ∃ cache', dlirsEvictLir {} cache = some cache' ∧ Sim cache' ref a.demote hand held := by
  cases hstack : a.stack with
  | nil =>
    refine ⟨cache, ?_, ?_⟩
    · simp [dlirsEvictLir, h.popFront_nil (t := .lirs) hstack]
    · rwa [show a.demote = a by simp only [demote, hstack]]
  | cons k rest => exact h.evictLir wf hstack (rooted k rest hstack)

theorem demoteRun {n f : Nat} (h : Sim cache ref a hand held) (wf : a.WF) (rooted : a.Rooted)
    (hlimit : a.lirsLimit.toNat ≠ 0) (hn : a.lirCount + 1 - a.lirsLimit.toNat = n)
    (hfuel : n < f) :
    ∃ cache', Loop.run (fun cache : DLIRS V =>
        if cache.lirsLimit.toNat ≤ cache.lirsCount then (dlirsEvictLir {} cache).map .next
        else some (.done cache)) f cache = some cache' ∧
      Sim cache' ref (Lirs.demote^[n] a) hand held := by
  induction n generalizing cache a f with
  | zero =>
    obtain ⟨m, rfl⟩ : ∃ m, f = m + 1 := ⟨f - 1, by omega⟩
    refine ⟨cache, Loop.run_done ?_, h⟩
    rw [if_neg]
    rw [h.lirsLimit, h.lirsCount]
    omega
  | succ n ih =>
    obtain ⟨m, rfl⟩ : ∃ m, f = m + 1 := ⟨f - 1, by omega⟩
    obtain ⟨j, hj, -⟩ := exists_lir (a := a) (by omega)
    obtain ⟨k, rest, hstack⟩ := List.exists_cons_of_ne_nil (List.ne_nil_of_mem hj)
    obtain ⟨cache1, hevict, h1⟩ := h.evictLir wf hstack (rooted k rest hstack)
    have hcount := demote_lirCount wf hstack (rooted k rest hstack)
    have hsame := (demote_shrinks a).lirsLimit
    obtain ⟨cache2, hrun, h2⟩ := ih (f := m) h1 (wf.demote hstack (rooted k rest hstack))
      (demote_rooted rooted) (by rwa [hsame]) (by rw [hsame]; omega) (by omega)
    refine ⟨cache2, ?_, h2⟩
    rw [Loop.run_next, hrun]
    rw [if_pos (by rw [h.lirsLimit, h.lirsCount]; omega), hevict, Option.map_some]

theorem demoteLoop (h : Sim cache ref a hand held) (wf : a.WF) (rooted : a.Rooted) :
    Option.Rel (fun cache' b => Sim cache' ref b hand held) (dlirsDemoteLoop {} cache)
      a.demoteAll := by
  rw [demoteAll]
  split
  · rename_i hlimit
    have hnone : dlirsDemoteLoop {} cache = none := by
      refine Loop.run_eq_none (I := fun cache => ∃ a : Lirs Key V, Sim cache ref a hand held ∧
        a.WF ∧ a.Rooted ∧ a.lirsLimit.toNat = 0) ?_ ⟨a, h, wf, rooted, hlimit⟩
      rintro cache ⟨a, h, wf, rooted, hlimit⟩
      obtain ⟨cache1, hevict, h1⟩ := h.evictLir_rooted wf rooted
      refine .inr ⟨cache1, ?_, a.demote, h1, ?_, demote_rooted rooted, ?_⟩
      · rw [if_pos (by rw [h.lirsLimit]; omega), hevict, Option.map_some]
      · cases hstack : a.stack with
        | nil => rwa [show a.demote = a by simp only [demote, hstack]]
        | cons k rest => exact wf.demote hstack (rooted k rest hstack)
      · rwa [(demote_shrinks a).lirsLimit]
    rw [hnone]
    exact .none
  · rename_i hlimit
    have hcount : cache.lirs.ht.count = a.stack.length := h.count_eq .lirs
    have hle : a.lirCount ≤ a.stack.length := List.countP_le_length
    obtain ⟨cache', hrun, h'⟩ := h.demoteRun (f := cache.lirs.ht.count + 1) wf rooted hlimit rfl
      (by omega)
    rw [dlirsDemoteLoop, hrun]
    exact .some h'

end Sim

end SearchCache
