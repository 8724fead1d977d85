import SearchCache.Cache.DlirsWellFormed

/-! Who refers to an entry: the tables, and the callers that have received it as `*evicted` and not
released it yet.  The reference counter of every entry is their number as long as `dqht_insert` gets
no key that its table has, since its handler releases the reference that it replaces even where it is
the one that it stores. -/

namespace SearchCache

open Lirs

variable {V : Type}

/-- The walk along the links of a table. -/
theorem dqhtPtrs_of_path {dqht : DequeueHashTable Key Ref} {order : List Addr} {p : Option Addr}
    {n : Nat} (h : Linked.Path dqht.next p order none) (hn : order.length ≤ n) :
    dqhtPtrs dqht n p = some (order.map dqht.ptr) := by
  induction order generalizing p n with
  | nil =>
    obtain rfl : p = none := h
    cases n <;> rfl
  | cons a order ih =>
    obtain ⟨rfl, hpath⟩ := h
    obtain ⟨m, rfl⟩ : ∃ m, n = m + 1 := ⟨n - 1, by simp at hn; omega⟩
    rw [dqhtPtrs, ih hpath (by simpa using hn)]
    rfl

theorem Represents.ptrs {dqht : DequeueHashTable Key Ref} {l : List (Key × Ref)}
    (h : Represents dqht l) : dqhtPtrs dqht dqht.ht.fresh dqht.head =
      some ((l.map Prod.snd).map some) := by
  obtain ⟨order, hl⟩ := h.holds
  rw [dqhtPtrs_of_path hl.linked.forward hl.length_le]
  have hmap := congrArg (List.map (Option.map Prod.snd)) hl.contents
  have hptr : dqht.ptr = fun a => (dqht.pair a).map Prod.snd := by
    funext a
    simp [DequeueHashTable.ptr, DequeueHashTable.pair, Function.comp_def]
  rw [hptr]
  simpa [Function.comp_def] using hmap

namespace DLIRS

/-- The number of tables that hold the entry, and of handles to it. -/
def references (pairs : Table → List (Key × Ref)) (handles : List Ref) (r : Ref) : Nat :=
  [Table.lirs, .nonResidentHirs, .residentHirs].countP
    (fun t => (pairs t).any fun p => p.2 = r) + handles.count r

/-- Each entry in memory counts its references, of which it has some.  The others have no references,
and `value_destroy_handler` has run once for each of them. -/
structure Owned (cache : DLIRS V) (pairs : Table → List (Key × Ref)) (handles : List Ref) :
    Prop where
  counter : ∀ r e, cache.heap r = some e → e.referenceCounter = references pairs handles r
  live : ∀ r, (∃ e, cache.heap r = some e) ↔ 0 < references pairs handles r
  destroyed_nodup : (cache.destroyed.map Prod.fst).Nodup
  destroyed_iff : ∀ r, r ∈ cache.destroyed.map Prod.fst ↔
    r < cache.fresh ∧ references pairs handles r = 0

/-- The front of `lirs` is a LIR entry. -/
def frontIsLIR (cache : DLIRS V) : Bool := (dqhtGetFront cache.lirs).any cache.isLIR

/-- `dlirs_get` calls `dlirs_evict_lir`, and not for ever. -/
def ejects (cache : DLIRS V) (key : Key) : Bool :=
  ((dqhtGet cache.lirs key).bind cache.heap).any fun e =>
    let limit := (if e.inCache then cache else dlirsResize cache true).lirsLimit.toNat
    !e.isLIR && 0 < limit && limit ≤ cache.lirsCount

/-- The entry that `dlirs_request` evicts from a full cache is the only one of the key. -/
def evictsFirst (cache : DLIRS V) (key : Key) : Bool :=
  cache.cacheSize ≤ cache.residents && (dqhtGet cache.lirs key).isNone &&
    (dqhtGet cache.residentHirs key).isSome &&
      dqhtGet cache.residentHirs key = dqhtGetFront cache.residentHirs

theorem Memory.owned {cache : DLIRS V} {pairs : Table → List (Key × Ref)} {handles : List Ref}
    {holders : Multiset Ref} (h : cache.Memory holders)
    (hholders : ∀ r, holders.count r = references pairs handles r) : cache.Owned pairs handles where
  counter r e he := by
    rw [← hholders]
    exact h.counted.eq r _ (by rw [DLIRS.counter, he]; rfl)
  live r := by
    rw [← hholders, Multiset.count_pos]
    constructor
    · rintro ⟨e, he⟩
      have hn : cache.counter r = some e.referenceCounter := by rw [DLIRS.counter, he]; rfl
      exact Multiset.count_pos.mp (h.counted.eq r _ hn ▸ h.counted.pos r _ hn)
    · exact h.entry
  destroyed_nodup := h.destroyed_nodup
  destroyed_iff r := by
    rw [h.destroyed_iff, ← hholders, Multiset.count_eq_zero]
    refine and_congr_right fun _ => ⟨fun hnone hr => ?_, fun hr => ?_⟩
    · obtain ⟨e, he⟩ := h.entry hr
      simp [hnone] at he
    · by_contra hsome
      obtain ⟨e, he⟩ := Option.ne_none_iff_exists'.mp hsome
      have hn : cache.counter r = some e.referenceCounter := by rw [DLIRS.counter, he]; rfl
      exact hr (Multiset.count_pos.mp (h.counted.eq r _ hn ▸ h.counted.pos r _ hn))

/-! ### Destruction -/

/-- The handler releases one reference after the other. -/
theorem Memory.destroyAll {cache : DLIRS V} {refs : List Ref} {holders : Multiset Ref}
    (h : cache.Memory (refs + holders)) :
    ((refs.map some).foldl dlirsEntryDestroy cache).Memory holders := by
  induction refs generalizing cache with
  | nil => simpa using h
  | cons r refs ih =>
    rw [← Multiset.cons_coe, Multiset.cons_add] at h
    exact ih h.destroy.1

theorem table_destroyAll (cache : DLIRS V) (refs : List (Option Ref)) (t : Table) :
    (refs.foldl dlirsEntryDestroy cache).table t = cache.table t := by
  induction refs generalizing cache with
  | nil => rfl
  | cons r refs ih => rw [List.foldl_cons, ih, table_destroy]

theorem fresh_destroyAll (cache : DLIRS V) (refs : List (Option Ref)) :
    (refs.foldl dlirsEntryDestroy cache).fresh = cache.fresh := by
  induction refs generalizing cache with
  | nil => rfl
  | cons r refs ih => rw [List.foldl_cons, ih, fresh_destroy]

/-- `dqht_destroy_handled` releases the references of one table. -/
theorem destroyTable_memory {cache : DLIRS V} {t : Table} {l : List (Key × Ref)}
    {holders : Multiset Ref} (hd : Represents (cache.table t) l)
    (h : cache.Memory ((l.map Prod.snd : List Ref) + holders)) :
    ∃ cache', cache.destroyTable t = some cache' ∧ cache'.Memory holders ∧
      (∀ t', cache'.table t' = cache.table t') ∧ cache'.fresh = cache.fresh := by
  refine ⟨_, ?_, h.destroyAll, fun t' => table_destroyAll .., fresh_destroyAll ..⟩
  simp only [destroyTable, hd.ptrs, Option.map_some]

/-- `dlirs_destroy` releases the references of the tables.  What it leaves are the handles. -/
theorem destroy_memory {cache : DLIRS V} {pairs : Table → List (Key × Ref)} {handles : Multiset Ref}
    (hd : ∀ t, Represents (cache.table t) (pairs t))
    (h : cache.Memory (holders pairs + handles)) :
    ∃ cache', dlirsDestroy cache = some cache' ∧ cache'.Memory handles ∧
      cache'.fresh = cache.fresh := by
  have horder : holders pairs + handles = ((pairs .residentHirs).map Prod.snd : List Ref) +
      (((pairs .nonResidentHirs).map Prod.snd : List Ref) +
        (((pairs .lirs).map Prod.snd : List Ref) + handles)) := by
    rw [holders]
    abel
  obtain ⟨cache1, hdestroy1, h1, htable1, hfresh1⟩ :=
    destroyTable_memory (hd .residentHirs) (horder ▸ h)
  obtain ⟨cache2, hdestroy2, h2, htable2, hfresh2⟩ :=
    destroyTable_memory (t := .nonResidentHirs) (htable1 _ ▸ hd _) h1
  obtain ⟨cache3, hdestroy3, h3, -, hfresh3⟩ :=
    destroyTable_memory (t := .lirs) (htable2 _ ▸ htable1 _ ▸ hd _) h2
  exact ⟨cache3, by simp [dlirsDestroy, hdestroy1, hdestroy2, hdestroy3], h3,
    hfresh3.trans (hfresh2.trans hfresh1)⟩

end DLIRS

/-! ### The algorithm -/

theorem rint_nonneg {q : ℚ} (h : 0 ≤ q) : 0 ≤ rint q := by
  have hfloor : 0 ≤ q.floor := Rat.le_floor_iff.mpr (by exact_mod_cast h)
  unfold rint
  simp only
  split
  · exact hfloor
  · split <;> [skip; split] <;> omega

theorem toFloat_nonneg (n : Nat) : 0 ≤ toFloat n := by
  rw [toFloat_natCast]
  exact Int.mul_nonneg (rint_nonneg (div_nonneg (Nat.cast_nonneg _) (Nat.cast_nonneg _))) (Int.natCast_nonneg _)

/-- The cache follows the algorithm, whose limit for LIR keys is a `float`. -/
structure Refines (cache : DLIRS V) (ref : Key → Ref) (a : Lirs Key V) (held : Multiset Ref) : Prop
    extends Sim cache ref a [] held where
  stable : a.Stable
  float : ∃ n, a.lirsLimit = toFloat n

/-- A table holds an entry at most once. -/
theorem Models.count_table {cache : DLIRS V} {ref : Key → Ref} {a : Lirs Key V} {held : Multiset Ref}
    (h : Models cache ref a [] held) (t : Table) (r : Ref) :
    ((Sim.pairs ref a t).map Prod.snd).count r =
      if (Sim.pairs ref a t).any (fun p => p.2 = r) then 1 else 0 := by
  have hnodup : ((Sim.pairs ref a t).map Prod.snd).Nodup := by
    rw [Sim.pairs, List.map_map]
    refine (h.order_nodup t).map_on fun j hj k hk hjk => ?_
    by_contra hne
    exact h.ref_ne (.inl ⟨t, hk⟩) (.inl ⟨t, hj⟩) hne hjk
  split
  · rename_i hany
    obtain ⟨p, hp, hpr⟩ := List.any_eq_true.mp hany
    refine List.count_eq_one_of_mem hnodup (List.mem_map.mpr ⟨p, hp, by simpa using hpr⟩)
  · rename_i hany
    refine List.count_eq_zero_of_not_mem fun hmem => hany ?_
    obtain ⟨p, hp, hpr⟩ := List.mem_map.mp hmem
    exact List.any_eq_true.mpr ⟨p, hp, by simpa using hpr⟩

namespace Refines

variable {cache : DLIRS V} {ref : Key → Ref} {a : Lirs Key V} {held : Multiset Ref} {k : Key}
  {r : Ref}

theorem holders_eq (ref : Key → Ref) (a : Lirs Key V) :
    a.tableRefs ref = DLIRS.holders (Sim.pairs ref a) := by
  simp [DLIRS.holders, tableRefs, Sim.pairs, order, Function.comp_def]

theorem count_holders (h : Refines cache ref a held) (handles : List Ref) (r : Ref) :
    (DLIRS.holders (Sim.pairs ref a) + handles).count r =
      DLIRS.references (Sim.pairs ref a) handles r := by
  simp only [DLIRS.holders, DLIRS.references, Multiset.count_add, Multiset.coe_count,
    h.toModels.count_table, List.countP_cons, List.countP_nil]
  omega

theorem owned (h : Refines cache ref a held) {handles : List Ref} (hheld : held = handles) :
    (∀ t, Mirrors (cache.table t) (Sim.pairs ref a t)) ∧ cache.Owned (Sim.pairs ref a) handles := by
  refine ⟨fun t => (h.tables t).mirrors, h.toModels.memory.owned fun r => ?_⟩
  rw [hheld, holders_eq]
  exact h.count_holders handles r

/-- `dlirs_destroy` leaves the handles. -/
theorem destroy (h : Refines cache ref a held) {handles : List Ref} (hheld : held = handles) :
    ∃ cache', dlirsDestroy cache = some cache' ∧ cache'.fresh = cache.fresh ∧
      cache'.Owned (fun _ => []) handles := by
  have hmemory := h.toModels.memory
  rw [holders_eq] at hmemory
  obtain ⟨cache', hdestroy, hmemory', hfresh⟩ := DLIRS.destroy_memory h.tables hmemory
  refine ⟨cache', hdestroy, hfresh, hmemory'.owned fun r => ?_⟩
  rw [hheld]
  simp [DLIRS.references]

/-! ### Lookups -/

theorem frontIsLIR_iff {hand : List Key} (h : Models cache ref a hand held) :
    cache.frontIsLIR = true ↔ ∃ j rest, a.stack = j :: rest ∧ (a.info j).isLIR = true := by
  rw [DLIRS.frontIsLIR, show dqhtGetFront cache.lirs = _ from h.getFront .lirs, order]
  cases hstack : a.stack with
  | nil => simp
  | cons j rest =>
    obtain ⟨n, hn⟩ := h.entries j (.inl ⟨.lirs, by simp [order, hstack]⟩)
    simp [DLIRS.isLIR, hn, entryOf]

/-- What the demotions leave where they find LIR keys only. -/
theorem demoteLoop {cache' : DLIRS V} (h : Sim cache ref a [k] held) (wf : a.WF)
    (hejects : 0 < a.lirsLimit.toNat → a.lirsLimit.toNat ≤ a.lirCount → a.Rooted)
    (hloop : dlirsDemoteLoop {} cache = some cache') :
    ∃ b, a.demoteAll = some b ∧ Sim cache' ref b [k] held ∧ b.WF ∧
      b.lirCount < b.lirsLimit.toNat ∧ b.residents = a.residents ∧ Shrinks a b := by
  by_cases hzero : a.lirsLimit.toNat = 0
  · have hnone : dlirsDemoteLoop {} cache = none := by
      refine Loop.run_eq_none (I := fun c => c.lirsLimit.toNat = 0) (fun c hc => ?_)
        (h.lirsLimit ▸ hzero)
      rw [if_pos (by omega)]
      cases hevict : dlirsEvictLir {} c with
      | none => exact .inl rfl
      | some c' =>
        refine .inr ⟨c', rfl, ?_⟩
        have hlimits := congrArg (fun l => l.2.2) (DLIRS.limits_evictLir hevict)
        exact (show c'.lirsLimit = c.lirsLimit from hlimits) ▸ hc
    simp [hnone] at hloop
  · by_cases hfull : a.lirsLimit.toNat ≤ a.lirCount
    · obtain ⟨b, hb, hsim⟩ :=
        Loop.some_of_rel (h.demoteLoop wf (hejects (by omega) hfull)) hloop
      obtain ⟨hwf, -, hlt, hresidents, -, hshrinks⟩ :=
        demoteAll_spec wf (hejects (by omega) hfull) hb
      exact ⟨b, hb, hsim, hwf, hlt, hresidents, hshrinks⟩
    · have hsame : dlirsDemoteLoop {} cache = some cache :=
        Loop.run_done (by rw [if_neg (by rwa [h.lirsLimit, h.lirsCount])])
      obtain rfl := Option.some.inj (hsame.symm.trans hloop)
      refine ⟨a, ?_, h, wf, by omega, rfl, Shrinks.refl a⟩
      rw [demoteAll, if_neg hzero, show a.lirCount + 1 - a.lirsLimit.toNat = 0 by omega]
      rfl

/-- A hit on a HIR entry of `lirs`. -/
theorem hitHir (h : Refines cache ref a held) (hk : k ∈ a.stack) (hlir : (a.info k).isLIR = false)
    (hroom : a.residents ≤ a.cacheSize)
    (hejects : 0 < (a.promote k).lirsLimit.toNat → (a.promote k).lirsLimit.toNat ≤ a.lirCount →
      (a.promote k).Rooted) {r : HirInLirs V} (hr : dlirsHirInLirs {} cache k none = some r) :
    ∃ b, Refines r.cache ref b (hold r.evicted held) := by
  have hp := promote_promotes a k
  obtain ⟨hwf, huntracked⟩ := h.stable.wf.promote k
  obtain ⟨hcount, -, hqueue⟩ := promote_spec h.stable.wf hk hlir
  obtain ⟨cache1, cache2, hremove, hpromote, h2⟩ := h.toSim.promote h.stable.wf hk hlir
  rw [h.toSim.hirInLirs_eq hremove hpromote, Option.bind_eq_some_iff] at hr
  obtain ⟨cache3, hloop, hr⟩ := hr
  obtain ⟨a3, -, h3, hwf3, hlt3, hresidents3, hshrinks⟩ :=
    demoteLoop h2 hwf (by rwa [hcount]) hloop
  have hk3 : ¬a3.Tracked k := fun hk => huntracked (hshrinks.tracked k hk)
  have hinfo : a3.info k = { a.info k with isLIR := true, inCache := true } := by
    rw [hshrinks.untracked k huntracked, hp.info]
  have hle3 : a3.residents ≤ a3.cacheSize := by
    rw [hresidents3, hshrinks.cacheSize, hp.cacheSize, Lirs.residents, hcount]
    rw [Lirs.residents] at hroom
    split at hqueue <;> omega
  obtain ⟨⟨e, b⟩, hb, -, -, hsim⟩ := Loop.some_of_rel
    (h3.hitHirRest hwf3 hle3 hk3 (by rw [hinfo]) (by rw [hinfo]) _) hr
  obtain ⟨⟨e, a4⟩, hmake, hb⟩ := Option.bind_eq_some_iff.mp hb
  cases hb
  have hthins := makeRoom_thins hwf3 hmake
  have hinfo4 := (hthins.untracked k hk3).trans hinfo
  have hroom4 := makeRoom_room hmake hle3
  obtain ⟨hcount4, -⟩ := push_spec (a := a4) (k := k) (by rw [hinfo4])
  refine ⟨_, hsim.forgetHand, ⟨hthins.wf.push (fun hk => hk3 (hthins.tracked k hk))
    (by rw [hinfo4]) (by rw [hinfo4]), ?_, .inr ?_⟩, ?_⟩
  · rw [hcount4, hthins.lirCount]
    show a3.lirCount + 1 ≤ a4.lirsLimit.toNat
    rw [hthins.lirsLimit]
    exact hlt3
  · rw [Lirs.residents, hcount4]
    exact hroom4
  · have hlimit : a4.lirsLimit = (a.promote k).lirsLimit :=
      hthins.lirsLimit.trans hshrinks.lirsLimit
    obtain ⟨n, hn⟩ := h.float
    cases hcached : (a.info k).inCache with
    | true => exact ⟨n, hlimit.trans ((hp.limits hcached).2.trans hn)⟩
    | false => exact ⟨_, hlimit.trans (hp.grown hcached).2⟩

/-- Where the code ejects an entry, the front of `lirs` without that of the key is a LIR entry. -/
theorem rooted (h : Refines cache ref a held) (hk : k ∈ a.stack) (hlir : (a.info k).isLIR = false)
    (hfront : cache.ejects k = true → (cache.remove .lirs k).2.2.frontIsLIR = true)
    (hpos : 0 < (a.promote k).lirsLimit.toNat)
    (hfull : (a.promote k).lirsLimit.toNat ≤ a.lirCount) : (a.promote k).Rooted := by
  have hp := promote_promotes a k
  obtain ⟨n, hn⟩ := h.entries k (.inl ⟨.lirs, hk⟩)
  have hlimit : (a.promote k).lirsLimit =
      (if (a.info k).inCache then cache else dlirsResize cache true).lirsLimit := by
    cases hcached : (a.info k).inCache with
    | true => rw [(hp.limits hcached).2, if_pos rfl, h.lirsLimit]
    | false =>
      rw [(hp.grown hcached).2, if_neg (by simp), dlirsResize, if_pos rfl, grow, h.cacheSize,
        h.hirsLimit, h.demoted, h.nonResident]
  have hejects : cache.ejects k = true := by
    rw [DLIRS.ejects, show dqhtGet cache.lirs k = some (ref k) from h.get_mem (t := .lirs) hk]
    rw [hlimit] at hpos hfull
    rw [← h.lirsCount] at hfull
    simp only [Option.bind_some, hn, Option.any_some, entryOf, hlir, Bool.not_false, Bool.true_and,
      Bool.and_eq_true, decide_eq_true_eq]
    exact ⟨hpos, hfull⟩
  obtain ⟨cache1, hremove, -, h1⟩ := h.toModels.remove_mem (t := .lirs) hk
  have hfront' := hfront hejects
  rw [hremove] at hfront'
  obtain ⟨j, rest, hstack, hj⟩ := (frontIsLIR_iff h1).mp hfront'
  have herase : a.stack.erase k = j :: rest := hstack
  intro i l hi
  rw [hp.stack, herase, List.cons.injEq] at hi
  obtain ⟨rfl, -⟩ := hi
  rw [hp.other j (h.stable.wf.stack_nodup.mem_erase_iff.mp (by simp [herase])).1]
  exact hj

theorem get (h : Refines cache ref a held) (hresident : cache.findsResidentOnly k = false)
    (hfront : cache.ejects k = true → (cache.remove .lirs k).2.2.frontIsLIR = true)
    (hroom : cache.findsGhost k = true → cache.residents ≤ cache.cacheSize) {got : DlirsGot V}
    (hgot : dlirsGet {} cache k = some got) :
    ∃ b, Refines got.cache ref b (hold got.evicted held) := by
  by_cases hk : k ∈ a.stack
  · cases hlir : (a.info k).isLIR with
    | true =>
      obtain ⟨cache1, hget, h1⟩ := h.toSim.get_lir h.stable.wf hk hlir
      obtain rfl := Option.some.inj (hget.symm.trans hgot)
      obtain ⟨hwf, -, hcount, hqueue, -, hshrinks⟩ := hitLir_spec h.stable.wf hk
      obtain ⟨n, hn⟩ := h.float
      refine ⟨_, h1, ⟨hwf, ?_, ?_⟩, n, hshrinks.lirsLimit.trans hn⟩
      · rw [hcount, hshrinks.lirsLimit]
        exact h.stable.lirs_le
      · rw [hqueue, Lirs.residents, hcount, hqueue, hshrinks.cacheSize]
        exact h.stable.residents_le
    | false =>
      have hle : a.residents ≤ a.cacheSize := by
        cases hcached : (a.info k).inCache with
        | true =>
          have hqueue := h.stable.wf.resident k hk hlir hcached
          exact h.stable.residents_le.resolve_left (List.ne_nil_of_mem hqueue)
        | false =>
          rw [← h.residents, ← h.cacheSize]
          exact hroom ((Tracks.findsGhost_iff h.toSim).mpr ⟨hk, hcached⟩)
      rw [h.toSim.get_hir hk hlir, Option.bind_eq_some_iff] at hgot
      obtain ⟨r, hr, hgot⟩ := hgot
      cases hgot
      exact h.hitHir hk hlir hle (h.rooted hk hlir hfront) hr
  · have huntracked : ¬a.Tracked k := fun ht => hk (Tracks.mem_stack h.toSim hresident ht)
    obtain rfl := Option.some.inj ((h.toSim.get_untracked huntracked).symm.trans hgot)
    exact ⟨a, h⟩

/-! ### Requests -/

/-- A limit below 0 is never kept, so that the inner loop of a request does not return. -/
theorem overLimitLoop_none (ok : Alloc) (hneg : cache.lirsLimit < 0) :
    dlirsOverLimitLoop ok cache = none := by
  refine Loop.run_eq_none (I := fun c => c.lirsLimit < 0) (fun c hc => ?_) hneg
  have hpos := toFloat_nonneg c.lirsCount
  rw [if_pos (by omega)]
  cases hevict : dlirsEvictLir ok c with
  | none => exact .inl rfl
  | some c' =>
    refine .inr ⟨c', rfl, ?_⟩
    have hlimits := congrArg (fun l => l.2.2) (DLIRS.limits_evictLir hevict)
    exact (show c'.lirsLimit = c.lirsLimit from hlimits) ▸ hc

theorem makeRoomLoop_none (ok : Alloc) (hneg : cache.lirsLimit < 0)
    (hfull : cache.cacheSize ≤ cache.residents) : dlirsMakeRoomLoop ok cache none = none := by
  rw [dlirsMakeRoomLoop, Loop.run]
  simp only [if_pos hfull, overLimitLoop_none ok hneg, Option.bind_none]

/-- A limit that is not kept is below 0, since it is a `float`. -/
theorem limit_neg (h : Refines cache ref a held) (hlimit : a.lirsLimit < toFloat a.lirCount) :
    a.lirsLimit < 0 := by
  obtain ⟨n, hn⟩ := h.float
  have hle := h.stable.lirs_le
  by_contra hneg
  rw [hn] at hle hlimit hneg
  exact absurd hlimit (not_lt.mpr (toFloat_le_toFloat (by omega)))

/-- The loop of a request evicts one entry at most, or it does not return. -/
theorem makeRoomLoop (h : Refines cache ref a held) {p : Option Ref × DLIRS V}
    (hp : dlirsMakeRoomLoop {} cache none = some p) :
    ∃ e b, a.makeRoom = some (e, b) ∧ Sim p.2 ref b [] (hold p.1 held) := by
  by_cases hlimit : a.lirsLimit < toFloat a.lirCount
  · have hneg : cache.lirsLimit < 0 := h.lirsLimit ▸ h.limit_neg hlimit
    have hroom : ¬cache.cacheSize ≤ cache.residents := fun hfull => by
      simp [makeRoomLoop_none {} hneg hfull] at hp
    rw [dlirsMakeRoomLoop_evicted, if_neg hroom, Option.some_inj] at hp
    subst hp
    refine ⟨none, a, ?_, h.toSim⟩
    rw [makeRoom, if_neg (by rwa [← h.cacheSize, ← h.residents])]
  · obtain ⟨⟨e, b⟩, hb, -, hsim⟩ := Loop.some_of_rel (h.toSim.makeRoomLoop h.stable.wf
      h.stable.residents_le {} (by rwa [h.lirsLimit, h.lirsCount])) hp
    exact ⟨e, b, hb, hsim.forgetHand⟩

theorem request_sim (h : Refines cache ref a held) (hs : k ∉ a.stack)
    (hmiss : ∀ e b, a.makeRoom = some (e, b) → ¬b.Tracked k) {value : Option V}
    {r : DlirsRequested V} (hr : dlirsRequest {} cache k value none = some r) :
    ∃ e b ref', a.request k value = some (e, b) ∧ Sim r.cache ref' b [] (hold r.evicted held) := by
  have hhirs : k ∉ a.hirs := fun hmem => hs ((h.stable.wf.mem_hirs k).mp hmem).1
  by_cases hfirst : a.lirCount < a.lirsLimit.toNat ∧ a.queue = []
  · have hk : ¬a.Tracked k := fun hk => by simp [Tracked, hs, hfirst.2] at hk
    obtain ⟨q, hq, -, -, ref', -, hsim⟩ := h.toSim.requestLir hk hhirs value hfirst
    obtain rfl := Option.some.inj (hq.symm.trans hr)
    exact ⟨none, _, ref', by rw [Lirs.request, if_pos hfirst], hsim⟩
  · have hcode : ¬(cache.lirsCount < cache.lirsLimit.toNat ∧ cache.hirsCount = 0) := by
      rw [h.lirsCount, h.lirsLimit, h.hirsCount, List.length_eq_zero_iff]
      exact hfirst
    rw [dlirsRequest, if_neg hcode] at hr
    obtain ⟨p, hp, hr⟩ := Option.bind_eq_some_iff.mp hr
    obtain ⟨e, a1, hmake, h1⟩ := h.makeRoomLoop hp
    obtain ⟨b, hb, -, hevicted, ref', -, hsim⟩ := Loop.some_of_rel
      (h1.requestHir (makeRoom_thins h.stable.wf hmake).wf (hmiss e a1 hmake) (by simp) value p.1) hr
    refine ⟨e, b, ref', ?_, hevicted ▸ hsim⟩
    rw [Lirs.request, if_neg hfirst, hmake, Option.bind_eq_bind, Option.bind_some]
    dsimp only
    rw [hb]
    rfl

/-- After the eviction no table has the key. -/
theorem evictsFirst (h : Refines cache ref a held) (hfirst : cache.evictsFirst k = true) :
    k ∉ a.stack ∧ ∀ e b, a.makeRoom = some (e, b) → ¬b.Tracked k := by
  simp only [DLIRS.evictsFirst, Bool.and_eq_true, decide_eq_true_eq] at hfirst
  obtain ⟨⟨⟨hfull, hlirs⟩, hsome⟩, hfront⟩ := hfirst
  have hstack : k ∉ a.stack := fun hk => by
    simp [show dqhtGet cache.lirs k = some (ref k) from h.get_mem (t := .lirs) hk] at hlirs
  have hqueue : k ∈ a.queue := by
    by_contra hk
    simp [show dqhtGet cache.residentHirs k = none from h.get_absent (t := .residentHirs) hk]
      at hsome
  refine ⟨hstack, fun e b hmake => ?_⟩
  rw [h.cacheSize, h.residents] at hfull
  rcases makeRoom_cases hmake with ⟨-, -, hlt⟩ | ⟨i, -, -, he⟩
  · omega
  · have hev := evict_evicts he
    have hi : i = k := by
      by_contra hne
      refine h.ref_ne (.inl ⟨.residentHirs, hqueue⟩)
        (.inl ⟨.residentHirs, show i ∈ a.queue by simp [hev.queue]⟩) hne ?_
      rw [show dqhtGet cache.residentHirs k = some (ref k) from
        h.get_mem (t := .residentHirs) hqueue, show dqhtGetFront cache.residentHirs = _ from
        h.getFront .residentHirs, order, hev.queue] at hfront
      simpa using hfront.symm
    have hnodup := h.stable.wf.queue_nodup
    rw [hev.queue, hi, List.nodup_cons] at hnodup
    rintro (hk | hk)
    · exact hstack (hev.stack ▸ hk)
    · exact hnodup.1 hk

theorem request (h : Refines cache ref a held)
    (hmiss : cache.hasKey k = false ∨ cache.evictsFirst k = true) {value : Option V}
    {r : DlirsRequested V} (hr : dlirsRequest {} cache k value none = some r) :
    ∃ ref' b, Refines r.cache ref' b (hold r.evicted held) := by
  have hk : k ∉ a.stack ∧ ∀ e b, a.makeRoom = some (e, b) → ¬b.Tracked k := by
    rcases hmiss with hkey | hfirst
    · have huntracked : ¬a.Tracked k := fun ht => by
        simp [(Tracks.hasKey_iff h.toSim h.stable.wf).mpr ht] at hkey
      exact ⟨fun hs => huntracked (.inl hs), fun e b hmake ht =>
        huntracked ((makeRoom_thins h.stable.wf hmake).tracked k ht)⟩
    · exact h.evictsFirst hfirst
  obtain ⟨e, b, ref', hb, hsim⟩ := h.request_sim hk.1 hk.2 hr
  obtain ⟨hstable, -, hlimit, -⟩ := h.stable.request_evicted hk.1 hk.2 value hb
  obtain ⟨n, hn⟩ := h.float
  exact ⟨ref', b, hsim, hstable, n, hlimit.trans hn⟩

theorem release (h : Refines cache ref a (r ::ₘ held)) :
    Refines (dlirsEntryDestroy cache (some r)) ref a held := by
  obtain ⟨hcounts, hmodels⟩ := h.toModels.destroy (G := []) fun j hj => by simp at hj
  exact ⟨⟨hmodels, hcounts.trans h.counts⟩, h.stable, h.float⟩

end Refines

/-! ### Runs -/

/-- The cache, and the evicted entries that its callers have not released. -/
structure Owners (V : Type) where
  cache : DLIRS V
  handles : List Ref

inductive OwnerCall (V : Type)
  | get (key : Key)
  | request (key : Key) (value : Option V)
  | release (r : Ref)

namespace Owners

def create (htSize cacheSize : Nat) (hirsRatio : ℚ) : Owners V where
  cache := dlirsCreate htSize cacheSize none hirsRatio
  handles := []

def call (s : Owners V) : OwnerCall V → Option (Owners V)
  | .get key => (dlirsGet {} s.cache key).map fun got =>
    { cache := got.cache, handles := got.evicted.toList ++ s.handles }
  | .request key value => (dlirsRequest {} s.cache key value none).map fun r =>
    { cache := r.cache, handles := r.evicted.toList ++ s.handles }
  | .release r =>
    if r ∈ s.handles then some {
      cache := dlirsEntryDestroy s.cache (some r)
      handles := s.handles.erase r }
    else none

def run (s : Owners V) (calls : List (OwnerCall V)) : Option (Owners V) := Runs.run call s calls

/-- No `dqht_insert` of the call gets a key that its table has, `dlirs_evict_lir` finds a LIR entry,
and one entry is evicted at most. -/
def Careful (s : Owners V) : OwnerCall V → Prop
  | .get key => s.cache.findsResidentOnly key = false ∧
      (s.cache.ejects key = true → (s.cache.remove .lirs key).2.2.frontIsLIR = true) ∧
      (s.cache.findsGhost key = true → s.cache.residents ≤ s.cache.cacheSize)
  | .request key _ => s.cache.hasKey key = false ∨ s.cache.evictsFirst key = true
  | .release _ => True

instance (s : Owners V) (c : OwnerCall V) : Decidable (s.Careful c) := by
  cases c <;> unfold Careful <;> infer_instance

def RunCareful (s : Owners V) (calls : List (OwnerCall V)) : Prop :=
  Runs.Regular call Careful s calls

theorem call_refines {s s' : Owners V} {ref : Key → Ref} {a : Lirs Key V}
    (h : Refines s.cache ref a s.handles) {c : OwnerCall V} (careful : s.Careful c)
    (hcall : s.call c = some s') : ∃ ref' b, Refines s'.cache ref' b s'.handles := by
  cases c with
  | get key =>
    obtain ⟨got, hgot, rfl⟩ := Option.map_eq_some_iff.mp hcall
    obtain ⟨hresident, hfront, hroom⟩ := careful
    obtain ⟨b, hb⟩ := h.get hresident hfront hroom hgot
    exact ⟨ref, b, by rw [hold_toList]; exact hb⟩
  | request key value =>
    obtain ⟨r, hr, rfl⟩ := Option.map_eq_some_iff.mp hcall
    obtain ⟨ref', b, hb⟩ := h.request careful hr
    exact ⟨ref', b, by rw [hold_toList]; exact hb⟩
  | release r =>
    rw [call] at hcall
    split at hcall
    · rename_i hmem
      rw [Option.some_inj] at hcall
      subst hcall
      rw [Multiset.coe_eq_coe.mpr (List.perm_cons_erase hmem), ← Multiset.cons_coe] at h
      exact ⟨ref, a, h.release⟩
    · simp at hcall

theorem create_refines {htSize cacheSize : Nat} {hirsRatio : ℚ} (hht : 1 ≤ htSize) :
    ∃ ref a, Refines (create htSize cacheSize hirsRatio : Owners V).cache ref a
      (create htSize cacheSize hirsRatio : Owners V).handles :=
  ⟨_, _, Sim.create hht, Lirs.create_stable .., _, rfl⟩

theorem run_refines {s s' : Owners V} (h : ∃ ref a, Refines s.cache ref a s.handles)
    {calls : List (OwnerCall V)} (careful : s.RunCareful calls) (hrun : s.run calls = some s') :
    ∃ ref a, Refines s'.cache ref a s'.handles := by
  let inv : Owners V → Prop := fun s => ∃ ref a, Refines s.cache ref a s.handles
  have preserves : ∀ s c s', inv s → s.Careful c → s.call c = some s' → inv s' := by
    rintro s c s' ⟨ref, a, ha⟩ hcareful hcall
    exact call_refines ha hcareful hcall
  have hinv : inv s' := Runs.run_preserves preserves h careful hrun
  exact hinv

end Owners

/-- A cache whose entries are in no table and at no caller has destroyed each of them once. -/
theorem DLIRS.Owned.destroyed_perm {cache : DLIRS V} (h : cache.Owned (fun _ => []) []) :
    (cache.destroyed.map Prod.fst).Perm (List.range cache.fresh) := by
  refine (List.perm_ext_iff_of_nodup h.destroyed_nodup List.nodup_range).mpr fun r => ?_
  rw [h.destroyed_iff, List.mem_range]
  simp [DLIRS.references]

/-- In every careful run each counter is the number of references.  `dlirs_destroy` then leaves the
handles, and without handles it has destroyed every entry that the run has created, once. -/
theorem owners_owned {htSize cacheSize : Nat} {hirsRatio : ℚ} (hht : 1 ≤ htSize)
    {calls : List (OwnerCall V)}
    (careful : (Owners.create htSize cacheSize hirsRatio : Owners V).RunCareful calls)
    {s : Owners V} (hrun : (Owners.create htSize cacheSize hirsRatio).run calls = some s) :
    (∃ pairs, (∀ t, Mirrors (s.cache.table t) (pairs t)) ∧ s.cache.Owned pairs s.handles) ∧
      ∃ cache, dlirsDestroy s.cache = some cache ∧ cache.fresh = s.cache.fresh ∧
        cache.Owned (fun _ => []) s.handles ∧
        (s.handles = [] → (cache.destroyed.map Prod.fst).Perm (List.range s.cache.fresh)) := by
  obtain ⟨ref, a, h⟩ := Owners.run_refines (Owners.create_refines hht) careful hrun
  obtain ⟨cache, hdestroy, hfresh, howned⟩ := h.destroy rfl
  refine ⟨⟨_, h.owned rfl⟩, cache, hdestroy, hfresh, howned, fun hnil => ?_⟩
  rw [← hfresh]
  exact (hnil ▸ howned).destroyed_perm

/-- `keyB` is evicted for `keyC`, and released. -/
theorem owners_owned_release :
    ∃ s, (Owners.create 4 2 (1 / 100) : Owners Unit).run
        [.request keyA (some ()), .request keyB (some ()), .request keyC (some ()), .release 1] =
          some s ∧
      (∃ pairs, (∀ t, Mirrors (s.cache.table t) (pairs t)) ∧ s.cache.Owned pairs s.handles) ∧
      ∃ cache, dlirsDestroy s.cache = some cache ∧ cache.fresh = s.cache.fresh ∧
        cache.Owned (fun _ => []) s.handles ∧
        (s.handles = [] → (cache.destroyed.map Prod.fst).Perm (List.range s.cache.fresh)) := by
  have hreturns : ((Owners.create 4 2 (1 / 100) : Owners Unit).run
      [.request keyA (some ()), .request keyB (some ()), .request keyC (some ()),
        .release 1]).isSome = true := by
    decide +kernel
  obtain ⟨s, hs⟩ := Option.isSome_iff_exists.mp hreturns
  exact ⟨s, hs, owners_owned (by decide) (by unfold Owners.RunCareful; decide +kernel) hs⟩

/-- The second lookup of `keyB` finds it in `resident_hirs` only, and `dqht_insert` releases the
reference that the table keeps. -/
theorem owners_not_owned :
    ¬∀ s, (Owners.create 4 2 (1 / 100)).run [.request keyA (some ()), .request keyB (some ()),
        .get keyA, .get keyB] = some s →
      ∃ pairs, (∀ t, Mirrors (s.cache.table t) (pairs t)) ∧ s.cache.Owned pairs s.handles := by
  intro h
  have hcounts : ((Owners.create 4 2 (1 / 100)).run [.request keyA (some ()),
      .request keyB (some ()), .get keyA, .get keyB]).map (fun s =>
        ((s.cache.heap 1).map DLIRSEntry.referenceCounter,
          [Table.lirs, .nonResidentHirs, .residentHirs].map fun t =>
            dqhtPtrs (s.cache.table t) 8 (s.cache.table t).head)) =
      some (some 2, [some [some 0, some 1], some [some 1], some [some 1]]) := by
    decide +kernel
  obtain ⟨s, hs, hcounts⟩ := Option.map_eq_some_iff.mp hcounts
  obtain ⟨pairs, hpairs, howned⟩ := h s hs
  simp only [List.map_cons, List.map_nil, Prod.mk.injEq, List.cons.injEq, and_true] at hcounts
  obtain ⟨hcounter, hlirs, hhirs, hresident⟩ := hcounts
  obtain ⟨e, he, htwo⟩ := Option.map_eq_some_iff.mp hcounter
  have hmem : ∀ t ptrs, dqhtPtrs (s.cache.table t) 8 (s.cache.table t).head = some ptrs →
      some 1 ∈ ptrs → ((pairs t).any fun p => p.2 = 1) = true := by
    intro t ptrs hptrs hone
    rw [(hpairs t).ptrs_eq hptrs] at hone
    obtain ⟨p, hp, hp1⟩ := List.mem_map.mp hone
    exact List.any_eq_true.mpr ⟨p, hp, by simpa using hp1⟩
  have hcount := howned.counter 1 e he
  rw [DLIRS.references] at hcount
  simp only [List.countP_cons, List.countP_nil, hmem _ _ hlirs (by decide),
    hmem _ _ hhirs (by decide), hmem _ _ hresident (by decide), if_true] at hcount
  omega

end SearchCache
