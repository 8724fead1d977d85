import SearchCache.Cache.DlirsRuns

/-! `dlirs_hit_hir_in_resident_hirs`, which inserts a key into `resident_hirs` that is there already.
Of a key behind others the insertion finds the entry and never returns.  Of the last key it finds
the entry as well, and then drops a reference that nobody has taken.  A key whose entry it does not
find gets a second one. -/

namespace SearchCache

open Lirs DequeueHashTable HashTable

variable {V : Type}

namespace Represents

variable {K V : Type} [TableKey K] [LawfulTableKey K] {dqht : DequeueHashTable K V}
  {l l1 l2 : List (K × V)} {key : K} {old : V}

theorem reinsert_last (h : Represents dqht (l ++ [(key, old)])) (finds : FindsKey dqht.ht key)
    (value : V) :
    ∃ i, dqhtInsert {} dqht key (some value) = some i ∧ i.code = 0 ∧ i.overridden = some old ∧
      Represents i.table (l ++ [(key, value)]) := by
  obtain ⟨order, hl⟩ := h.holds
  obtain ⟨dqht', before, a, after, hholds, -, hnil, hsame, heq⟩ :=
    dqhtInsertWith_present hl hl.wf.separated (show Resizable {} dqht.ht from fun _ => rfl) finds
      value
  obtain rfl := hnil.mpr rfl
  have hr := (relinked_unlink dqht' a).trans (relinked_linkLast (dqhtUnlink dqht' a) a)
  refine ⟨_, by rw [dqhtInsert, heq, hholds.relinkLast.printTable]; rfl, rfl, rfl, ?_, ?_,
    _, hholds.relinkLast⟩
  · exact (hr.keyComparator.trans hsame.1).trans h.keyComparator
  · exact ((congrArg HashTable.comparator hr.ht).trans hsame.2).trans h.comparator

theorem reinsert_none (h : Represents dqht (l1 ++ (key, old) :: l2)) (hl2 : l2 ≠ [])
    (finds : FindsKey dqht.ht key) (value : V) : dqhtInsert {} dqht key (some value) = none := by
  obtain ⟨order, hl⟩ := h.holds
  obtain ⟨dqht', before, a, after, hholds, -, hnil, -, heq⟩ :=
    dqhtInsertWith_present hl hl.wf.separated (show Resizable {} dqht.ht from fun _ => rfl) finds
      value
  rw [dqhtInsert, heq, hholds.printTable_relinkLast fun hafter => hl2 (hnil.mp hafter)]
  rfl

theorem reinsert_duplicate (h : Represents dqht l) (finds : ¬FindsKey dqht.ht key) (value : V) :
    ∃ i, dqhtInsert {} dqht key (some value) = some i ∧ i.code = 0 ∧ i.overridden = none ∧
      i.table.ht.count = dqht.ht.count + 1 := by
  obtain ⟨order, hl⟩ := h.holds
  exact insert_duplicate hl hl.wf.separated finds value

end Represents

/-! ### What does not touch `resident_hirs` -/

namespace DLIRS

/-- Another table in the place of `resident_hirs`. -/
def withResidents (cache : DLIRS V) (dqht : DequeueHashTable Key Ref) : DLIRS V :=
  { cache with residentHirs := dqht }

variable (cache : DLIRS V) (dqht : DequeueHashTable Key Ref)

theorem destroy_withResidents (r : Option Ref) :
    dlirsEntryDestroy (cache.withResidents dqht) r =
      (dlirsEntryDestroy cache r).withResidents dqht := by
  cases r with
  | none => rfl
  | some r =>
    simp only [dlirsEntryDestroy, show (cache.withResidents dqht).heap = cache.heap from rfl]
    cases cache.heap r with
    | none => rfl
    | some e =>
      dsimp only
      split <;> rfl

theorem copy_withResidents (r : Option Ref) :
    dlirsEntryReferenceCopy (cache.withResidents dqht) r =
      ((dlirsEntryReferenceCopy cache r).1,
        (dlirsEntryReferenceCopy cache r).2.withResidents dqht) := by
  cases r with
  | none => rfl
  | some r =>
    simp only [dlirsEntryReferenceCopy, show (cache.withResidents dqht).heap = cache.heap from rfl]
    cases cache.heap r <;> rfl

theorem setTable_withResidents {t : Table} (ht : t ≠ .residentHirs)
    (table : DequeueHashTable Key Ref) :
    (cache.withResidents dqht).setTable t table = (cache.setTable t table).withResidents dqht := by
  cases t <;> first | rfl | exact absurd rfl ht

theorem table_withResidents {t : Table} (ht : t ≠ .residentHirs) :
    (cache.withResidents dqht).table t = cache.table t := by
  cases t <;> first | rfl | exact absurd rfl ht

theorem insert_withResidents {t : Table} (ht : t ≠ .residentHirs) (ok : Alloc) (key : Key)
    (r : Option Ref) :
    (cache.withResidents dqht).insert t ok key r =
      (cache.insert t ok key r).map fun i => (i.1, i.2.withResidents dqht) := by
  rw [DLIRS.insert, DLIRS.insert, table_withResidents cache dqht ht]
  cases dqhtInsert ok (cache.table t) key r with
  | none => rfl
  | some i =>
    simp only [Option.map_some, setTable_withResidents cache dqht ht, destroy_withResidents]

theorem remove_withResidents {t : Table} (ht : t ≠ .residentHirs) (key : Key) :
    (cache.withResidents dqht).remove t key =
      ((cache.remove t key).1, (cache.remove t key).2.1,
        (cache.remove t key).2.2.withResidents dqht) := by
  rw [DLIRS.remove, DLIRS.remove, table_withResidents cache dqht ht]
  dsimp only
  rw [setTable_withResidents cache dqht ht]

theorem popFront_withResidents {t : Table} (ht : t ≠ .residentHirs) :
    (cache.withResidents dqht).popFront t =
      ((cache.popFront t).1, (cache.popFront t).2.withResidents dqht) := by
  rw [DLIRS.popFront, DLIRS.popFront, table_withResidents cache dqht ht]
  dsimp only
  rw [setTable_withResidents cache dqht ht]

theorem limitStackLoop_withResidents (n : Nat) :
    dlirsLimitStackLoop n (cache.withResidents dqht) =
      (dlirsLimitStackLoop n cache).map (withResidents · dqht) := by
  induction n generalizing cache with
  | zero => rfl
  | succ n ih =>
    rw [dlirsLimitStackLoop, dlirsLimitStackLoop, popFront_withResidents cache dqht (by decide)]
    generalize cache.popFront .nonResidentHirs = popped
    obtain ⟨_ | lru, cache⟩ := popped
    · rfl
    simp only [Option.bind_eq_bind, Option.bind_some,
      show (cache.withResidents dqht).heap = cache.heap from rfl]
    cases cache.heap lru with
    | none => rfl
    | some e =>
      have hrest : ∀ c : DLIRS V,
          (if ((c.withResidents dqht).remove .lirs e.key).1 ≠ 0 then none
            else dlirsLimitStackLoop n (dlirsEntryDestroy (dlirsEntryDestroy
              ((c.withResidents dqht).remove .lirs e.key).2.2
              ((c.withResidents dqht).remove .lirs e.key).2.1) (some lru))) =
          (if (c.remove .lirs e.key).1 ≠ 0 then none
            else dlirsLimitStackLoop n (dlirsEntryDestroy (dlirsEntryDestroy
              (c.remove .lirs e.key).2.2 (c.remove .lirs e.key).2.1) (some lru))).map
            (withResidents · dqht) := by
        intro c
        rw [remove_withResidents c dqht (by decide)]
        dsimp only
        split
        · rfl
        · rw [destroy_withResidents, destroy_withResidents, ih]
      cases hcached : e.inCache with
      | true => simpa [hcached] using hrest cache
      | false =>
        simp only [hcached, Option.bind_some, Bool.false_eq_true, if_false]
        exact hrest { cache with nonResident := dec cache.nonResident }

end DLIRS

/-! ### The hit -/

namespace Lirs

variable {K : Type} [DecidableEq K] {a : Lirs K V} {k j : K}

/-- The limits after a hit on a demoted key. -/
def shrink (a : Lirs K V) : Lirs K V :=
  let lirsLimit := toFloat (grownLimit a.cacheSize a.lirsLimit a.ghostCount a.demoted)
  { a with lirsLimit, hirsLimit := toFloat (toFloat a.cacheSize - lirsLimit) }

def undemote (a : Lirs K V) (k : K) : Lirs K V :=
  if (a.info k).isDemoted then
    setInfo { a.shrink with demoted := dec a.demoted } k fun i => { i with isDemoted := false }
  else a

/-- A key of the queue on top of the stack.  The queue is without it: what has become of its place
there depends on the table. -/
def restack (a : Lirs K V) (k : K) : Lirs K V :=
  { a.undemote k with
    stack := a.stack ++ [k]
    hirs := a.hirs ++ [k]
    queue := a.queue.erase k }

theorem undemote_info (a : Lirs K V) (k j : K) :
    ((a.undemote k).info j).isLIR = (a.info j).isLIR ∧
      ((a.undemote k).info j).inCache = (a.info j).inCache ∧
      ((a.undemote k).info j).value = (a.info j).value := by
  unfold undemote
  split
  · rw [setInfo_info]
    split
    · subst j
      exact ⟨rfl, rfl, rfl⟩
    · exact ⟨rfl, rfl, rfl⟩
  · exact ⟨rfl, rfl, rfl⟩

theorem restack_layered (wf : a.WF) (hs : k ∉ a.stack) (hq : k ∈ a.queue) :
    (a.restack k).Layered := by
  have hhirs : k ∉ a.hirs := fun hk => hs ((wf.mem_hirs k).mp hk).1
  have hnew : ∀ l : List K, k ∉ l → l.Nodup → (l ++ [k]).Nodup := by
    intro l hl hnodup
    refine List.nodup_append.mpr ⟨hnodup, by simp, ?_⟩
    rintro j hj i hi rfl
    exact hl (List.mem_singleton.mp hi ▸ hj)
  refine ⟨hnew _ hs wf.stack_nodup, hnew _ hhirs wf.hirs_nodup, fun j => ?_⟩
  show j ∈ a.hirs ++ [k] ↔ j ∈ a.stack ++ [k] ∧ ((a.undemote k).info j).isLIR = false
  rw [(undemote_info a k j).1, List.mem_append, List.mem_append, wf.mem_hirs, List.mem_singleton]
  constructor
  · rintro (hj | rfl)
    · exact ⟨.inl hj.1, hj.2⟩
    · exact ⟨.inr rfl, wf.queue_hir j hq⟩
  · rintro ⟨hj | rfl, hlir⟩
    · exact .inl ⟨hj, hlir⟩
    · exact .inr rfl

end Lirs

namespace Sim

variable {cache : DLIRS V} {ref : Key → Ref} {a : Lirs Key V} {held : Multiset Ref} {k : Key}

/-- `dlirs_hit_hir_in_resident_hirs`, up to its insertions, on a cache whose `resident_hirs` is
replaced by the table without the key. -/
theorem undemote (h : Sim cache ref a [] held) (hq : k ∈ a.queue) :
    ∃ cache1 : DLIRS V, Models cache1 ref ((a.undemote k).setOrder .residentHirs (a.queue.erase k))
        [k] (ref k ::ₘ held) ∧
      cache1.counts = (a.queue.length, a.lirCount, (a.undemote k).demoted, a.ghostCount) ∧
      ∀ e, cache.heap (ref k) = some e →
        (if e.isDemoted then
          let cache := (dlirsResize cache false).modify (ref k) fun e =>
            { e with isDemoted := false }
          { cache with demoted := dec cache.demoted }
        else cache) = cache1.withResidents cache.residentHirs := by
  obtain ⟨cacheR, hremove, hcounts, hR⟩ := h.toModels.remove_mem (t := .residentHirs) hq
  obtain ⟨dqht, rfl⟩ : ∃ dqht, cache = cacheR.withResidents dqht := by
    have hout : (cache.remove .residentHirs k).2.2 = cacheR := by rw [hremove]
    exact ⟨cache.residentHirs, by rw [← hout]; rfl⟩
  have hsame := hcounts.trans h.counts
  simp only [DLIRS.counts, Lirs.counts, Prod.mk.injEq] at hsame
  obtain ⟨n, hn⟩ := h.entries k (.inl ⟨.residentHirs, hq⟩)
  by_cases hdemoted : (a.info k).isDemoted = true
  · let limit := toFloat (grownLimit a.cacheSize a.lirsLimit a.ghostCount a.demoted)
    have h1 := ((hR.withLimits (toFloat (toFloat a.cacheSize - limit)) limit).withDemoted
        (dec a.demoted)).modify (k := k) (f := fun e => { e with isDemoted := false })
        (g := fun i => { i with isDemoted := false }) (.inr (by simp)) fun i n => rfl
    have h2 := h1.withCounts cacheR.hirsCount cacheR.lirsCount (dec cacheR.demoted)
      cacheR.nonResident
    rw [Lirs.undemote, if_pos hdemoted]
    refine ⟨_, h2, ?_, fun e he => ?_⟩
    · show (cacheR.hirsCount, cacheR.lirsCount, dec cacheR.demoted, cacheR.nonResident) = _
      rw [hsame.1, hsame.2.1, hsame.2.2.1, hsame.2.2.2]
      rfl
    obtain rfl := Option.some.inj (hn.symm.trans he)
    have hlimits : dlirsResize (cacheR.withResidents dqht) false = ({ cacheR with
        hirsLimit := toFloat (toFloat a.cacheSize - limit)
        lirsLimit := limit } : DLIRS V).withResidents dqht := by
      rw [dlirsResize, if_neg (by decide)]
      simp only [limit, ← h.cacheSize, ← h.lirsLimit, ← h.nonResident, ← h.demoted]
      rfl
    refine (if_pos (show (entryOf k (a.info k) n).isDemoted = true from hdemoted)).trans ?_
    rw [hlimits]
    rfl
  · rw [Lirs.undemote, if_neg hdemoted]
    refine ⟨cacheR, hR, hcounts.trans h.counts, fun e he => ?_⟩
    obtain rfl := Option.some.inj (hn.symm.trans he)
    exact if_neg hdemoted

/-- The end of `dlirs_hit_hir_in_resident_hirs`, after the insertion into `resident_hirs`. -/
def onTop (k : Key) (r : Ref) (inserted : Int × DLIRS V) : Option (DLIRS V) :=
  if inserted.1 ≠ 0 then none
  else (inserted.2.insert .lirs {} k (some r)).bind fun i =>
    if i.1 ≠ 0 then none
    else (i.2.insert .nonResidentHirs {} k (some r)).bind fun i =>
      if i.1 ≠ 0 then none else dlirsLimitStack i.2

theorem hitResident_start (h : Sim cache ref a [] held) (hq : k ∈ a.queue) :
    ∃ cache3 : DLIRS V, Models cache3 ref ((a.undemote k).setOrder .residentHirs (a.queue.erase k))
        [k] (ref k ::ₘ ref k ::ₘ ref k ::ₘ held) ∧
      cache3.counts = (a.queue.length, a.lirCount, (a.undemote k).demoted, a.ghostCount) ∧
      dlirsHitHirInResidentHirs {} cache k =
        (dqhtInsert {} cache.residentHirs k (some (ref k))).bind fun i =>
          onTop k (ref k) (i.code, (dlirsEntryDestroy cache3 i.overridden).withResidents i.table) := by
  have hget : dqhtGet cache.residentHirs k = some (ref k) := h.get_mem (t := .residentHirs) hq
  obtain ⟨n, hn⟩ := h.entries k (.inl ⟨.residentHirs, hq⟩)
  obtain ⟨cache1, h1, hcounts1, hreal1⟩ := h.undemote hq
  obtain ⟨cache2, hcopy2, hcounts2, h2⟩ := h1.referenceCopy (k := k) (.inr (by simp))
  obtain ⟨cache3, hcopy3, hcounts3, h3⟩ := h2.referenceCopy (k := k) (.inr (by simp))
  refine ⟨cache3, h3, hcounts3.trans (hcounts2.trans hcounts1), ?_⟩
  rw [dlirsHitHirInResidentHirs, hget]
  dsimp only
  rw [hn, Option.bind_eq_bind, Option.bind_some, hreal1 _ hn, DLIRS.copy_withResidents, hcopy2]
  dsimp only
  rw [DLIRS.copy_withResidents, hcopy3]
  dsimp only
  have hinsert : (cache3.withResidents cache.residentHirs).insert .residentHirs {} k
      (some (ref k)) = (dqhtInsert {} cache.residentHirs k (some (ref k))).map fun i =>
        (i.code, (dlirsEntryDestroy cache3 i.overridden).withResidents i.table) := by
    rw [DLIRS.insert, show (cache3.withResidents cache.residentHirs).table .residentHirs =
      cache.residentHirs from rfl]
    refine congrArg (Option.map · _) (funext fun i => ?_)
    rw [← DLIRS.destroy_withResidents]
    rfl
  rw [hinsert]
  cases dqhtInsert {} cache.residentHirs k (some (ref k)) <;> rfl

/-- What the insertion into `resident_hirs` leaves to the rest of the call: the reference of the
entry that the handler has not dropped. -/
def left (i : DqhtInserted Key Ref) (r : Ref) (held : Multiset Ref) : Multiset Ref :=
  if i.overridden = none then r ::ₘ held else held

/-- `dlirs_hit_hir_in_resident_hirs` does to the other two tables what it should, and counts the
references of its entry without the place in `resident_hirs`. -/
theorem hitResident (h : Sim cache ref a [] held) (wf : a.WF) (hs : k ∉ a.stack) (hq : k ∈ a.queue)
    {i : DqhtInserted Key Ref} (hi : dqhtInsert {} cache.residentHirs k (some (ref k)) = some i)
    (hcode : i.code = 0) (hover : i.overridden = none ∨ i.overridden = some (ref k)) :
    Option.Rel (fun cache' b => ∃ cache1 : DLIRS V, cache' = cache1.withResidents i.table ∧
        Models cache1 ref b [] (left i (ref k) held))
      (dlirsHitHirInResidentHirs {} cache k)
      (if a.excess ≤ a.hirs.length + 1 then some (Lirs.forget^[a.excess] (a.restack k))
        else none) := by
  obtain ⟨cache3, h3, hcounts3, hstart⟩ := h.hitResident_start hq
  have h4 : (dlirsEntryDestroy cache3 i.overridden).counts = cache3.counts ∧
      Models (dlirsEntryDestroy cache3 i.overridden) ref
        ((a.undemote k).setOrder .residentHirs (a.queue.erase k)) [k]
        (ref k ::ₘ ref k ::ₘ left i (ref k) held) := by
    rcases hover with hnone | hsome
    · rw [left, if_pos hnone, hnone]
      exact ⟨rfl, h3⟩
    · rw [left, if_neg (by simp [hsome]), hsome]
      exact h3.destroy fun j hj => ⟨hj, by simp_all⟩
  obtain ⟨cache4, hdestroy4⟩ : ∃ c, dlirsEntryDestroy cache3 i.overridden = c := ⟨_, rfl⟩
  rw [hdestroy4] at h4
  obtain ⟨hcounts4, h4⟩ := h4
  obtain ⟨hstack, hhirs⟩ : (a.undemote k).stack = a.stack ∧ (a.undemote k).hirs = a.hirs := by
    unfold Lirs.undemote
    split <;> exact ⟨rfl, rfl⟩
  obtain ⟨cache5, hinsert5, hcounts5, h5⟩ := h4.insert (t := .lirs) (G := [k]) (by simp)
    (show k ∉ (a.undemote k).stack by rwa [hstack]) fun j hj => ⟨hj, by simp_all⟩
  obtain ⟨cache6, hinsert6, hcounts6, h6⟩ := h5.insert (t := .nonResidentHirs) (G := []) (by simp)
    (show k ∉ (a.undemote k).hirs by
      rw [hhirs]
      exact fun hmem => hs ((wf.mem_hirs k).mp hmem).1) fun j hj => by simp at hj
  have hrestack : Models cache6 ref (a.restack k) [] (left i (ref k) held) := by
    rw [restack, ← hstack, ← hhirs]
    exact h6
  have hcounts : cache6.counts =
      (a.queue.length, a.lirCount, (a.undemote k).demoted, a.ghostCount) :=
    hcounts6.trans (hcounts5.trans (hcounts4.trans hcounts3))
  have hreal : dlirsHitHirInResidentHirs {} cache k =
      (dlirsLimitStack cache6).map (DLIRS.withResidents · i.table) := by
    rw [hstart, hi, Option.bind_some, hdestroy4, onTop, if_neg (by simp [hcode]),
      DLIRS.insert_withResidents _ _ (by decide), hinsert5, Option.map_some, Option.bind_some,
      if_neg (by simp), DLIRS.insert_withResidents _ _ (by decide), hinsert6, Option.map_some,
      Option.bind_some, if_neg (by simp)]
    exact DLIRS.limitStackLoop_withResidents cache6 i.table _
  simp only [DLIRS.counts, Prod.mk.injEq] at hcounts
  have hpop := popLoop (n := a.excess) hrestack (restack_layered wf hs hq)
  have hexcess : dlirsLimitStack cache6 = dlirsLimitStackLoop a.excess cache6 := by
    have hsize : cache6.cacheSize = a.cacheSize := by
      rw [hrestack.cacheSize, restack, Lirs.undemote]
      split <;> rfl
    rw [dlirsLimitStack, excess, hcounts.1, hcounts.2.1, hcounts.2.2.2, hsize]
  rw [hreal, hexcess]
  rw [show (a.restack k).hirs.length = a.hirs.length + 1 by simp [restack]] at hpop
  split at hpop
  · rename_i hle
    obtain ⟨cache7, hrun, h7, -⟩ := Loop.of_rel_some hpop
    rw [hrun, if_pos hle]
    exact .some ⟨cache7, rfl, h7⟩
  · rename_i hle
    rw [if_neg hle]
    generalize dlirsLimitStackLoop a.excess cache6 = x at hpop ⊢
    cases hpop
    exact .none

/-- What the insertion of a key of `resident_hirs` into that table does: it replaces the last entry,
finds an entry in front of others and does not return, or makes a second entry. -/
theorem reinsert_cases (h : Sim cache ref a [] held) (hq : k ∈ a.queue) :
    (FindsKey cache.residentHirs.ht k ∧
        dqhtGetLast cache.residentHirs = dqhtGet cache.residentHirs k ∧ a.queue.getLast? = some k ∧
        ∃ i, dqhtInsert {} cache.residentHirs k (some (ref k)) = some i ∧ i.code = 0 ∧
          i.overridden = some (ref k) ∧ Represents i.table (a.queue.map fun k => (k, ref k))) ∨
      (FindsKey cache.residentHirs.ht k ∧
        dqhtGetLast cache.residentHirs ≠ dqhtGet cache.residentHirs k ∧
        dqhtInsert {} cache.residentHirs k (some (ref k)) = none) ∨
      (¬FindsKey cache.residentHirs.ht k ∧
        ∃ i, dqhtInsert {} cache.residentHirs k (some (ref k)) = some i ∧ i.code = 0 ∧
          i.overridden = none ∧ i.table.ht.count = a.queue.length + 1) := by
  have hget : dqhtGet cache.residentHirs k = some (ref k) := h.get_mem (t := .residentHirs) hq
  have hcount : cache.residentHirs.ht.count = a.queue.length := h.count_eq .residentHirs
  rw [hget]
  by_cases finds : FindsKey cache.residentHirs.ht k
  · obtain ⟨q1, q2, hsplit⟩ := List.append_of_mem hq
    have hr := h.tables .residentHirs
    have hmap : (a.order .residentHirs).map (fun k => (k, ref k)) =
        q1.map (fun k => (k, ref k)) ++ (k, ref k) :: q2.map fun k => (k, ref k) := by
      rw [show a.order .residentHirs = q1 ++ k :: q2 from hsplit, List.map_append, List.map_cons]
    have hlast : dqhtGetLast cache.residentHirs = _ := hr.getLast
    rcases List.eq_nil_or_concat q2 with rfl | ⟨q2', j, rfl⟩
    · obtain ⟨i, hi, hcode, hover, htable⟩ := (hmap ▸ hr).reinsert_last finds (ref k)
      refine .inl ⟨finds, ?_, by simp [hsplit], i, hi, hcode, hover, ?_⟩
      · rw [hlast, hmap]
        simp
      · rw [hsplit, List.map_append]
        exact htable
    · refine .inr (.inl ⟨finds, ?_, (hmap ▸ hr).reinsert_none (by simp) finds (ref k)⟩)
      have hne : j ≠ k := by
        have hnodup := h.order_nodup .residentHirs
        rw [show a.order .residentHirs = _ from hsplit, List.nodup_append] at hnodup
        rintro rfl
        simp at hnodup
      have hj : j ∈ a.queue := by simp [hsplit]
      have href : ref j ≠ ref k := h.ref_ne (.inl ⟨.residentHirs, hq⟩) (.inl ⟨.residentHirs, hj⟩) hne
      rw [hlast, hmap, List.concat_eq_append, List.map_append, ← List.cons_append,
        ← List.append_assoc]
      simp only [List.map_cons, List.map_nil, List.getLast?_concat, Option.map_some, ne_eq,
        Option.some_inj]
      exact href
  · obtain ⟨i, hi, hcode, hover, hlength⟩ := (h.tables .residentHirs).reinsert_duplicate finds (ref k)
    exact .inr (.inr ⟨finds, i, hi, hcode, hover, hlength.trans (congrArg (· + 1) hcount)⟩)

end Sim

end SearchCache
