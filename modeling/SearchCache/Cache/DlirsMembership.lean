import SearchCache.Cache.DlirsResidentHit
import SearchCache.Cache.LirsResidents

/-! `dlirs_contains`, which reads two tables, against `dlirs_get`, which changes them. -/

namespace SearchCache

open Lirs DequeueHashTable HashTable

variable {V : Type}

namespace DLIRS

/-- The number of entries that `dlirs_limit_stack` pops. -/
def pruneSize (cache : DLIRS V) : Nat :=
  (toInt32 (toInt32 cache.hirsCount + toInt32 cache.lirsCount + toInt32 cache.nonResident -
    toInt32 cache.cacheSize * 2)).toNat

/-- The key is in `resident_hirs` only, and either it is not the last one there and `dqht_insert`
finds its entry, or `dlirs_limit_stack` pops more entries than `non_resident_hirs` then has. -/
def Strands (cache : DLIRS V) (k : Key) : Prop :=
  cache.findsResidentOnly k = true ∧
    (FindsKey cache.residentHirs.ht k ∧
        dqhtGetLast cache.residentHirs ≠ dqhtGet cache.residentHirs k ∨
      cache.nonResidentHirs.ht.count + 1 < cache.pruneSize)

/-- `dlirs_get` returns an entry. -/
def GetFinds (cache : DLIRS V) (k : Key) : Prop :=
  ∃ got, dlirsGet {} cache k = some got ∧ got.entry.isSome

end DLIRS

namespace Lirs

variable {K : Type} {a : Lirs K V} {k : K}

theorem resident_iff (wf : a.WF) (hk : k ∈ a.stack) :
    a.Resident k ↔ (a.info k).inCache = true := by
  constructor
  · rintro (hq | ⟨-, hlir⟩)
    · exact wf.queue_cached k hq hk
    · exact wf.lir_cached k hk hlir
  · intro hcached
    cases hlir : (a.info k).isLIR with
    | true => exact .inr ⟨hk, hlir⟩
    | false => exact .inl (wf.resident k hk hlir hcached)

end Lirs

theorem Sim.contains_iff {cache : DLIRS V} {ref : Key → Ref} {a : Lirs Key V} {held : Multiset Ref}
    {k : Key} (h : Sim cache ref a [] held) (wf : a.WF) (valued : a.Valued) :
    dlirsContains cache k = true ↔ a.Resident k := by
  obtain ⟨o, hfound, hresident⟩ : ∃ o, (dqhtGet cache.residentHirs k).bind cache.heap = o ∧
      ((∃ e, o = some e ∧ e.value.isSome = true) ↔ k ∈ a.queue) := by
    refine ⟨_, rfl, ?_⟩
    by_cases hq : k ∈ a.queue
    · obtain ⟨n, hn⟩ := h.entries k (.inl ⟨.residentHirs, hq⟩)
      rw [show dqhtGet cache.residentHirs k = some (ref k) from h.get_mem (t := .residentHirs) hq]
      simp [hn, entryOf, hq, valued k (.inr hq)]
    · rw [show dqhtGet cache.residentHirs k = none from h.get_absent (t := .residentHirs) hq]
      simp [hq]
  unfold dlirsContains
  rw [hfound]
  by_cases hs : k ∈ a.stack
  · obtain ⟨n, hn⟩ := h.entries k (.inl ⟨.lirs, hs⟩)
    rw [show dqhtGet cache.lirs k = some (ref k) from h.get_mem (t := .lirs) hs, Option.bind_some, hn,
      resident_iff wf hs]
    cases hcached : (a.info k).inCache with
    | true => simp [entryOf, hcached, valued k (.inl hs)]
    | false =>
      have hq : k ∉ a.queue := fun hq => by simp [wf.queue_cached k hq hs] at hcached
      rw [← hresident] at hq
      cases o <;> simp_all [entryOf]
  · rw [show dqhtGet cache.lirs k = none from h.get_absent (t := .lirs) hs, Option.bind_none, Resident]
    cases o <;> simp_all

namespace Serves

variable {cache : DLIRS V} {ref : Key → Ref} {a : Lirs Key V} {held : Multiset Ref} {k : Key}

/-- A lookup of a key of the stack. -/
theorem getFinds_stack (h : Serves cache ref a held) (hs : k ∈ a.stack) :
    cache.GetFinds k ↔ (a.info k).inCache = true := by
  cases hlir : (a.info k).isLIR with
  | true =>
    obtain ⟨cache1, hget, -⟩ := h.toSim.get_lir h.stable.wf hs hlir
    simp [DLIRS.GetFinds, hget, h.stable.wf.lir_cached k hs hlir]
  | false =>
    rw [DLIRS.GetFinds, h.toSim.get_hir hs hlir]
    cases hcached : (a.info k).inCache with
    | true =>
      have hres := h.stable.residents_le.resolve_left
        (List.ne_nil_of_mem (h.stable.wf.resident k hs hlir hcached))
      obtain ⟨q, hq⟩ := hitHir_progress h.stable h.founded hs hlir hcached
      obtain ⟨r, hr, hhit⟩ := Loop.of_rel_some
        (hq ▸ h.toSim.hitHir h.stable.wf h.founded.rooted hs hlir hres)
      have hcode : r.code = 0 := by rw [hhit.code, hcached, if_pos rfl]
      simp [hr, hcode]
    | false =>
      rcases h.toSim.hitHir_any h.stable.wf h.founded.rooted hs hlir with
        hnone | ⟨r, b, held', hr, hcode, -⟩
      · simp [hnone]
      · rw [hcached, if_neg (by simp)] at hcode
        simp [hr, hcode]

/-- A lookup of a key that only `resident_hirs` has. -/
theorem getFinds_resident (h : Serves cache ref a held) (hs : k ∉ a.stack) (hq : k ∈ a.queue) :
    cache.GetFinds k ↔ ¬cache.Strands k := by
  have hlirs : dqhtGet cache.lirs k = none := h.get_absent (t := .lirs) hs
  have hresident : dqhtGet cache.residentHirs k = some (ref k) := h.get_mem (t := .residentHirs) hq
  have honly : cache.findsResidentOnly k = true := by
    simp [DLIRS.findsResidentOnly, hlirs, hresident]
  have hprune : cache.pruneSize = a.excess := by
    rw [DLIRS.pruneSize, excess, h.hirsCount, h.lirsCount, h.nonResident, h.cacheSize]
  have hcount : cache.nonResidentHirs.ht.count = a.hirs.length := h.count_eq .nonResidentHirs
  have hfinds : cache.GetFinds k ↔ (dlirsHitHirInResidentHirs {} cache k).isSome := by
    rw [DLIRS.GetFinds, dlirsGet, hlirs, hresident]
    cases dlirsHitHirInResidentHirs {} cache k <;> simp
  have hrel : ∀ i, dqhtInsert {} cache.residentHirs k (some (ref k)) = some i → i.code = 0 →
      (i.overridden = none ∨ i.overridden = some (ref k)) →
      ((dlirsHitHirInResidentHirs {} cache k).isSome ↔ ¬a.hirs.length + 1 < a.excess) := by
    intro i hi hcode hover
    have hhit := h.toSim.hitResident h.stable.wf hs hq hi hcode hover
    split at hhit
    · rename_i hle
      obtain ⟨cache', hrun, -⟩ := Loop.of_rel_some hhit
      simp [hrun, hle]
    · rename_i hlt
      generalize dlirsHitHirInResidentHirs {} cache k = x at hhit ⊢
      cases hhit
      simpa using hlt
  rw [hfinds, DLIRS.Strands, honly, hprune, hcount]
  rcases h.toSim.reinsert_cases hq with ⟨finds, hlast, -, i, hi, hcode, hover, -⟩ |
    ⟨finds, hlast, hnone⟩ | ⟨finds, i, hi, hcode, hover, -⟩
  · rw [hrel i hi hcode (.inr hover)]
    simp [hlast]
  · obtain ⟨cache3, -, -, hstart⟩ := h.toSim.hitResident_start hq
    rw [hstart, hnone]
    simp [finds, hlast]
  · rw [hrel i hi hcode (.inl hover)]
    simp [finds]

/-- The two agree on every key but one whose lookup does not return. -/
theorem contains_iff_getFinds (h : Serves cache ref a held) (k : Key) :
    (dlirsContains cache k = true ↔ cache.GetFinds k) ↔ ¬cache.Strands k := by
  rw [h.toSim.contains_iff h.stable.wf h.valued]
  by_cases hs : k ∈ a.stack
  · have honly : cache.findsResidentOnly k = false := by
      simp [DLIRS.findsResidentOnly, show dqhtGet cache.lirs k = some (ref k) from
        h.get_mem (t := .lirs) hs]
    rw [h.getFinds_stack hs, resident_iff h.stable.wf hs]
    simp [DLIRS.Strands, honly]
  · by_cases hq : k ∈ a.queue
    · rw [h.getFinds_resident hs hq]
      simp [Resident, hq]
    · have hk : ¬a.Tracked k := fun ht => ht.elim hs hq
      have hresident : dqhtGet cache.residentHirs k = none := h.get_absent (t := .residentHirs) hq
      simp [Resident, hs, hq, DLIRS.GetFinds, h.toSim.get_untracked hk, DLIRS.Strands,
        DLIRS.findsResidentOnly, hresident]

end Serves

end SearchCache
