import SearchCache.Cache.DlirsTransitions

/-! A lookup that finds its key in `resident_hirs` only.  It puts the key on top of `lirs` and of
`non_resident_hirs`, and should put it last in `resident_hirs`. -/

namespace SearchCache

open Lirs DequeueHashTable HashTable

variable {V : Type}

namespace Lirs

variable {K : Type} [DecidableEq K] {a : Lirs K V} {k : K} {n : Nat} {l1 l2 : List K}

/-- A stack limit that does not reach the key on top leaves it there. -/
theorem forget_iterate_top (hstack : a.stack = l1 ++ [k]) (hhirs : a.hirs = l2 ++ [k])
    (hk : k ∉ l2) (hn : n ≤ l2.length) :
    (∃ l, (Lirs.forget^[n] a).stack = l ++ [k]) ∧
      (Lirs.forget^[n] a).hirs = l2.drop n ++ [k] := by
  induction n generalizing a l1 l2 with
  | zero => exact ⟨⟨l1, hstack⟩, by simpa using hhirs⟩
  | succ n ih =>
    cases l2 with
    | nil => simp at hn
    | cons j l2 =>
      rw [List.mem_cons, not_or] at hk
      have hforget : a.forget = { a with hirs := l2 ++ [k], stack := a.stack.erase j } := by
        simp [Lirs.forget, hhirs]
      have herase : a.forget.stack = l1.erase j ++ [k] := by
        rw [hforget]
        show a.stack.erase j = _
        rw [hstack, List.erase_append]
        split
        · rfl
        · rename_i hj
          rw [List.erase_of_not_mem hj, List.erase_of_not_mem (by simpa using Ne.symm hk.1)]
      rw [Function.iterate_succ_apply, List.drop_succ_cons]
      exact ih herase (by rw [hforget]) hk.2 (by simpa using hn)

theorem forget_iterate_hirs (a : Lirs K V) (n : Nat) :
    (Lirs.forget^[n] a).hirs = a.hirs.drop n := by
  induction n generalizing a with
  | zero => rfl
  | succ n ih =>
    rw [Function.iterate_succ_apply, ih, forget]
    cases hhirs : a.hirs with
    | nil => simp [hhirs]
    | cons k rest => rfl

end Lirs

namespace DLIRS

variable {cache : DLIRS V} {pairs : Table → List (Key × Ref)} {handles : Multiset Ref} {key : Key}

/-- The lookup returns the entry of the key, and leaves it at the end of the three tables, each on a
list that ends and with one entry for a key.  The other entries of `resident_hirs` keep their order. -/
def MovesUp (cache : DLIRS V) (pairs : Table → List (Key × Ref)) (key : Key) : Prop :=
  ∃ got r, ∃ pairs' : Table → List (Key × Ref), dlirsGet {} cache key = some got ∧
    cache.entryAt key = some r ∧ got.entry = some r ∧
    (∀ t, Mirrors (got.cache.table t) (pairs' t)) ∧
    pairs' .residentHirs = (pairs .residentHirs).erase (key, r) ++ [(key, r)] ∧
    (pairs' .lirs).getLast? = some (key, r) ∧ (pairs' .nonResidentHirs).getLast? = some (key, r)

/-- The key is the last one of `resident_hirs`, `ht_insert` finds its entry, and
`dlirs_limit_stack` does not pop more entries than `non_resident_hirs` has before the call. -/
def AtEnd (cache : DLIRS V) (key : Key) : Prop :=
  dqhtGetLast cache.residentHirs = dqhtGet cache.residentHirs key ∧
    FindsKey cache.residentHirs.ht key ∧ cache.pruneSize ≤ cache.nonResidentHirs.ht.count

namespace Ordered

theorem resident_only (h : cache.Ordered pairs handles) (hkey : cache.findsResidentOnly key = true) :
    key ∉ (cache.toLirs pairs).stack ∧ key ∈ (cache.toLirs pairs).queue := by
  rw [findsResidentOnly, Bool.and_eq_true, Option.isNone_iff_eq_none] at hkey
  constructor
  · intro hs
    have := h.sim.get_mem (t := .lirs) hs
    rw [show cache.table .lirs = cache.lirs from rfl, hkey.1] at this
    cases this
  · by_contra hq
    have := h.sim.get_absent (t := .residentHirs) hq
    rw [show cache.table .residentHirs = cache.residentHirs from rfl] at this
    simp [this] at hkey

theorem get_resident (h : cache.Ordered pairs handles)
    (hkey : cache.findsResidentOnly key = true) :
    dlirsGet {} cache key = (dlirsHitHirInResidentHirs {} cache key).map fun cache' =>
      { entry := some ((cache.entryAt key).getD 0), evicted := none, cache := cache' } := by
  obtain ⟨hs, hq⟩ := h.resident_only hkey
  have hlirs : dqhtGet cache.lirs key = none := h.sim.get_absent (t := .lirs) hs
  have hresident : dqhtGet cache.residentHirs key = _ := h.sim.get_mem (t := .residentHirs) hq
  rw [dlirsGet, hlirs, hresident]

theorem pruneSize_eq (h : cache.Ordered pairs handles) :
    cache.pruneSize = (cache.toLirs pairs).excess := by
  rw [pruneSize, excess, h.sim.hirsCount, h.sim.lirsCount, h.sim.nonResident, h.sim.cacheSize]

/-- The lookup, where the key is the last one of `resident_hirs`. -/
theorem movesUp (h : cache.Ordered pairs handles) (hkey : cache.findsResidentOnly key = true)
    (hend : cache.AtEnd key) : cache.MovesUp pairs key := by
  obtain ⟨hs, hq⟩ := h.resident_only hkey
  obtain ⟨hlast, finds, hprune⟩ := hend
  have hcount : cache.nonResidentHirs.ht.count = (cache.toLirs pairs).hirs.length :=
    h.sim.count_eq .nonResidentHirs
  rw [h.pruneSize_eq, hcount] at hprune
  rcases h.sim.reinsert_cases hq with ⟨-, -, hqueue, i, hi, hcode, hover, htable⟩ |
    ⟨-, hne, -⟩ | ⟨hnot, -⟩
  · have hhit := h.sim.hitResident h.wf hs hq hi hcode (.inr hover)
    rw [if_pos (Nat.le_succ_of_le hprune)] at hhit
    obtain ⟨cache', hrun, cache1, rfl, h1⟩ := Loop.of_rel_some hhit
    have hhirs : key ∉ (cache.toLirs pairs).hirs := fun hk => hs ((h.wf.mem_hirs key).mp hk).1
    obtain ⟨⟨l, hstack⟩, hhirs'⟩ := forget_iterate_top
      (a := (cache.toLirs pairs).restack key) rfl rfl hhirs hprune
    obtain ⟨b, hb⟩ : ∃ b, Lirs.forget^[(cache.toLirs pairs).excess]
        ((cache.toLirs pairs).restack key) = b := ⟨_, rfl⟩
    rw [hb] at hstack hhirs' h1
    have hentry := h.entryAt_tracked (.inr hq)
    refine ⟨_, _, fun
      | .residentHirs => (cache.toLirs pairs).queue.map fun k => (k, (cache.entryAt k).getD 0)
      | t => (b.order t).map fun k => (k, (cache.entryAt k).getD 0),
      by rw [h.get_resident hkey, hrun]; rfl, hentry, rfl, ?_, ?_, ?_, ?_⟩
    · rintro (_ | _ | _)
      · exact (h1.tables .lirs).mirrors
      · exact (h1.tables .nonResidentHirs).mirrors
      · exact htable.mirrors
    · have hpairs : pairs .residentHirs =
          (cache.toLirs pairs).queue.map fun k => (k, (cache.entryAt k).getD 0) :=
        h.pairs_eq .residentHirs
      obtain ⟨q, hq'⟩ := List.getLast?_eq_some_iff.mp hqueue
      have hnodup := h.wf.queue_nodup
      rw [hq', List.nodup_append] at hnodup
      have hnew : (key, (cache.entryAt key).getD 0) ∉
          q.map fun k => (k, (cache.entryAt k).getD 0) := by
        rw [List.mem_map]
        rintro ⟨j, hj, heq⟩
        exact hnodup.2.2 j hj key (by simp) (congrArg Prod.fst heq)
      rw [hpairs, hq', List.map_append, List.erase_append_right _ hnew]
      simp
    · show (b.stack.map _).getLast? = _
      rw [hstack, List.map_append, List.map_singleton, List.getLast?_concat]
    · show (b.hirs.map _).getLast? = _
      rw [hhirs', List.map_append, List.map_singleton, List.getLast?_concat]
  · exact absurd hlast hne
  · exact absurd finds hnot

/-- The lookup does not return, leaves two entries for the key, or takes it out of
`non_resident_hirs` where the key is not at the end. -/
theorem atEnd (h : cache.Ordered pairs handles) (hkey : cache.findsResidentOnly key = true)
    (hup : cache.MovesUp pairs key) : cache.AtEnd key := by
  obtain ⟨hs, hq⟩ := h.resident_only hkey
  obtain ⟨got, r, pairs', hgot, hentry, -, hmirrors, hqueue, -, hhirs⟩ := hup
  rw [h.get_resident hkey] at hgot
  obtain ⟨cache', hrun, rfl⟩ := Option.map_eq_some_iff.mp hgot
  have hcount : cache.nonResidentHirs.ht.count = (cache.toLirs pairs).hirs.length :=
    h.sim.count_eq .nonResidentHirs
  rcases h.sim.reinsert_cases hq with ⟨finds, hlast, -, i, hi, hcode, hover, -⟩ |
    ⟨-, -, hnone⟩ | ⟨-, i, hi, hcode, hover, hlength⟩
  · refine ⟨hlast, finds, ?_⟩
    rw [h.pruneSize_eq, hcount]
    by_contra hlt
    have hhit := h.sim.hitResident h.wf hs hq hi hcode (.inr hover)
    rw [hrun] at hhit
    split at hhit
    · obtain ⟨b, hb, cache1, rfl, h1⟩ := Loop.some_of_rel hhit rfl
      have hnil : b.hirs = [] := by
        rw [← Option.some.inj hb, forget_iterate_hirs]
        refine List.drop_eq_nil_of_le ?_
        rw [show ((cache.toLirs pairs).restack key).hirs = (cache.toLirs pairs).hirs ++ [key] from rfl,
          List.length_append, List.length_singleton]
        exact Nat.lt_of_not_le hlt
      have hzero : cache1.nonResidentHirs.ht.count = 0 := by
        rw [show cache1.nonResidentHirs.ht.count = b.hirs.length from h1.count_eq .nonResidentHirs,
          hnil, List.length_nil]
      have hlength : cache1.nonResidentHirs.ht.count = (pairs' .nonResidentHirs).length :=
        (hmirrors .nonResidentHirs).count
      rw [List.length_eq_zero_iff.mp (hlength.symm.trans hzero)] at hhirs
      cases hhirs
    · cases hhit
  · obtain ⟨cache3, -, -, hstart⟩ := h.sim.hitResident_start hq
    rw [hstart, hnone] at hrun
    cases hrun
  · have hhit := h.sim.hitResident h.wf hs hq hi hcode (.inl hover)
    rw [hrun] at hhit
    split at hhit
    · obtain ⟨b, -, cache1, rfl, -⟩ := Loop.some_of_rel hhit rfl
      have hpairs : (pairs .residentHirs).length = (cache.toLirs pairs).queue.length := by
        simp [toLirs]
      have hmem : (key, r) ∈ pairs .residentHirs := by
        obtain ⟨r', hr'⟩ := mem_pairs (t := .residentHirs) hq
        rw [h.entryAt_eq hr', Option.some_inj] at hentry
        exact hentry ▸ hr'
      have hcount' : i.table.ht.count = (pairs' .residentHirs).length :=
        (hmirrors .residentHirs).count
      have hlen := List.length_erase_of_mem hmem
      have hpos := List.length_pos_of_mem hmem
      rw [hqueue, List.length_append, List.length_singleton] at hcount'
      omega
    · cases hhit

end Ordered

end DLIRS

/-- The lookup moves a key of `resident_hirs` up as it should if and only if there is nothing to move
there. -/
theorem dlirsGet_movesUp_iff {cache : DLIRS V} {pairs : Table → List (Key × Ref)}
    {handles : Multiset Ref} (h : cache.Ordered pairs handles) {key : Key}
    (hkey : cache.findsResidentOnly key = true) : cache.MovesUp pairs key ↔ cache.AtEnd key :=
  ⟨h.atEnd hkey, h.movesUp hkey⟩

/-- Two lookups have demoted `keyA` and then `keyB`. -/
def dlirsDemoted : Option (DLIRS Unit) :=
  (dlirsCreate 16 4 none (1 / 2)).run ([keyA, keyB, keyC, keyE].map
    (fun key => .request key () none {}) ++ [.get keyC, .get keyE])

theorem dlirsDemoted_wellFormed : ∃ cache pairs handles, dlirsDemoted = some cache ∧
    cache.cacheSize = 4 ∧ cache.WellFormed pairs handles ∧ cache.Demotions pairs ∧
    cache.findsResidentOnly keyA = true := by
  obtain ⟨cache, pairs, handles, hrun, hsize, h, hd, -⟩ := @dlirsRun_wellFormed Unit 16 4 (1 / 2)
    (by decide) (by decide) (by decide +kernel) (by decide +kernel)
    ([keyA, keyB, keyC, keyE].map (fun key => .request key () none {}) ++ [.get keyC, .get keyE])
    (by unfold DLIRS.RunPermitted; decide +kernel)
  have hfinds : dlirsDemoted.map (fun cache => cache.findsResidentOnly keyA) = some true := by
    decide +kernel
  rw [dlirsDemoted, hrun, Option.map_some, Option.some_inj] at hfinds
  exact ⟨cache, pairs, handles, hrun, hsize, h, hd, hfinds⟩

theorem dlirsGet_movesUp_iff_demoted : ∃ cache pairs, dlirsDemoted = some cache ∧
    (cache.MovesUp pairs keyA ↔ cache.AtEnd keyA) := by
  obtain ⟨cache, pairs, handles, hcache, -, h, -, hfinds⟩ := dlirsDemoted_wellFormed
  exact ⟨cache, pairs, hcache, dlirsGet_movesUp_iff h.toOrdered hfinds⟩

/-- `keyA` is in front of `keyB`.  The insertion makes its links a cycle, which `dqht_print_table`
follows for ever. -/
theorem dlirsGet_not_movesUp :
    ¬∀ (cache : DLIRS Unit) pairs handles key, cache.Ordered pairs handles →
      cache.Demotions pairs → 2 ≤ cache.cacheSize → cache.findsResidentOnly key = true →
      cache.MovesUp pairs key := by
  intro hall
  obtain ⟨cache, pairs, handles, hcache, hsize, h, hd, hfinds⟩ := dlirsDemoted_wellFormed
  obtain ⟨got, r, pairs', hgot, -⟩ := hall cache pairs handles keyA h.toOrdered hd (by omega) hfinds
  have hnone : dlirsDemoted.map (fun cache => (dlirsGet {} cache keyA).isSome) = some false := by
    decide +kernel
  simp [hcache, hgot] at hnone

end SearchCache
