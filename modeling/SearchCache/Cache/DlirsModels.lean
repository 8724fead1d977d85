import SearchCache.Cache.DqHashtableDeque
import SearchCache.Cache.LirsProgress
import SearchCache.Lib.RefCount
import Mathlib.Algebra.Order.Group.Multiset
import Mathlib.Tactic.Abel

/-! How the cache in memory models the algorithm on keys.  `ref` gives the object of each key, the
three tables hold the references of the three lists, and the counter of every object is the number
of its places in the tables and among the references `held` elsewhere: by a function that has taken
them out of a table, or by a caller that has received an evicted entry.  The keys `hand` are those
whose entries a function still works on. -/

namespace SearchCache

variable {V : Type}

/-- The entry of the key `k` with the counter `n`. -/
def entryOf (k : Key) (i : Info V) (n : Nat) : DLIRSEntry V where
  isLIR := i.isLIR
  isDemoted := i.isDemoted
  inCache := i.inCache
  referenceCounter := n
  key := k
  value := i.value

namespace Lirs

variable {K : Type}

def order (a : Lirs K V) : Table → List K
  | .lirs => a.stack
  | .nonResidentHirs => a.hirs
  | .residentHirs => a.queue

def setOrder (a : Lirs K V) (t : Table) (l : List K) : Lirs K V :=
  match t with
  | .lirs => { a with stack := l }
  | .nonResidentHirs => { a with hirs := l }
  | .residentHirs => { a with queue := l }

@[simp] theorem setOrder_info (a : Lirs K V) (t : Table) (l : List K) :
    (a.setOrder t l).info = a.info := by
  cases t <;> rfl

/-- The references in the tables. -/
def tableRefs (ref : K → Ref) (a : Lirs K V) : Multiset Ref :=
  (a.stack.map ref : Multiset Ref) + (a.hirs.map ref : Multiset Ref) +
    (a.queue.map ref : Multiset Ref)

/-- The four counters. -/
def counts (a : Lirs K V) : Nat × Nat × Nat × Nat :=
  (a.queue.length, a.lirCount, a.demoted, a.ghostCount)

theorem mem_tableRefs {ref : K → Ref} {a : Lirs K V} {t : Table} {k : K} (hk : k ∈ a.order t) :
    ref k ∈ a.tableRefs ref := by
  have := List.mem_map_of_mem (f := ref) hk
  cases t <;> simp_all [tableRefs, order]

theorem tableRefs_setOrder (ref : K → Ref) (a : Lirs K V) (t : Table) {l : List K} {m : Multiset Ref}
    (h : ((a.order t).map ref : Multiset Ref) = (l.map ref : Multiset Ref) + m) :
    a.tableRefs ref = (a.setOrder t l).tableRefs ref + m := by
  cases t <;> simp only [order] at h <;> simp only [tableRefs, setOrder, h] <;> abel

end Lirs

def DLIRS.counts (cache : DLIRS V) : Nat × Nat × Nat × Nat :=
  (cache.hirsCount, cache.lirsCount, cache.demoted, cache.nonResident)

/-- The counter of an object. -/
def DLIRS.counter (cache : DLIRS V) (r : Ref) : Option Nat :=
  (cache.heap r).map DLIRSEntry.referenceCounter

theorem DLIRS.table_destroy (cache : DLIRS V) (r : Option Ref) (t : Table) :
    (dlirsEntryDestroy cache r).table t = cache.table t := by
  unfold dlirsEntryDestroy
  split
  · rfl
  · split
    · rfl
    · split <;> cases t <;> rfl

theorem DLIRS.fresh_destroy (cache : DLIRS V) (r : Option Ref) :
    (dlirsEntryDestroy cache r).fresh = cache.fresh := by
  unfold dlirsEntryDestroy
  split
  · rfl
  · split
    · rfl
    · split <;> rfl

/-- The objects in memory are those with holders, which their counters count.
`value_destroy_handler` has run once for each of the others. -/
structure DLIRS.Memory (cache : DLIRS V) (holders : Multiset Ref) : Prop where
  counted : RefCount.Counted cache.counter holders
  fresh : ∀ r e, cache.heap r = some e → r < cache.fresh
  destroyed_nodup : (cache.destroyed.map Prod.fst).Nodup
  destroyed_iff : ∀ r, r ∈ cache.destroyed.map Prod.fst ↔ r < cache.fresh ∧ cache.heap r = none

namespace DLIRS.Memory

variable {cache : DLIRS V} {holders : Multiset Ref} {r : Ref}

theorem entry (h : cache.Memory holders) (hr : r ∈ holders) : ∃ e, cache.heap r = some e := by
  obtain ⟨n, hn⟩ := h.counted.live r hr
  obtain ⟨e, he, -⟩ := Option.map_eq_some_iff.mp hn
  exact ⟨e, he⟩

/-- `dlirs_entry_destroy` of a holder.  The last one takes the object with it. -/
theorem destroy (h : cache.Memory (r ::ₘ holders)) :
    (dlirsEntryDestroy cache (some r)).Memory holders ∧
      ∃ e, cache.heap r = some e ∧ (dlirsEntryDestroy cache (some r)).heap =
        Function.update cache.heap r (if dec e.referenceCounter = 0 then none
          else some { e with referenceCounter := dec e.referenceCounter }) := by
  obtain ⟨e, he⟩ := h.entry (Multiset.mem_cons_self r holders)
  have hn : cache.counter r = some e.referenceCounter := by rw [DLIRS.counter, he]; rfl
  have hpos := h.counted.pos r _ hn
  have hdec : dec e.referenceCounter = e.referenceCounter - 1 := if_neg (by omega)
  have hrelease := h.counted.release hn
  have hheap : (dlirsEntryDestroy cache (some r)).heap =
      Function.update cache.heap r (if dec e.referenceCounter = 0 then none
        else some { e with referenceCounter := dec e.referenceCounter }) := by
    simp only [dlirsEntryDestroy, he]
    split
    · rfl
    · simp [DLIRS.modify, he]
  have hcounter : (dlirsEntryDestroy cache (some r)).counter = Function.update cache.counter r
      (if e.referenceCounter - 1 = 0 then none else some (e.referenceCounter - 1)) := by
    funext s
    rw [DLIRS.counter, hheap]
    rcases eq_or_ne s r with rfl | hne
    · rw [Function.update_self, Function.update_self, hdec]
      split <;> rfl
    · rw [Function.update_of_ne hne, Function.update_of_ne hne]
      rfl
  refine ⟨⟨hcounter ▸ hrelease, ?_, ?_, ?_⟩, e, he, hheap⟩
  · intro s f hs
    rw [fresh_destroy]
    rcases eq_or_ne s r with rfl | hne
    · exact h.fresh s e he
    · rw [hheap, Function.update_of_ne hne] at hs
      exact h.fresh s f hs
  · simp only [dlirsEntryDestroy, he]
    split
    · rw [List.map_append, List.nodup_append]
      refine ⟨h.destroyed_nodup, by simp, ?_⟩
      rintro s hs t ht rfl
      have hnone := ((h.destroyed_iff s).mp hs).2
      rw [show s = r by simpa using ht, he] at hnone
      simp at hnone
    · exact h.destroyed_nodup
  · intro s
    have hold := h.destroyed_iff s
    simp only [dlirsEntryDestroy, he]
    split
    · rw [List.map_append, List.mem_append, hold]
      rcases eq_or_ne s r with rfl | hne
      · simp [h.fresh s e he]
      · simp [hne]
    · rw [show (cache.modify r _).destroyed = cache.destroyed from rfl, hold]
      rcases eq_or_ne s r with rfl | hne
      · simp [DLIRS.modify, he]
      · simp [DLIRS.modify, Function.update_of_ne hne]

end DLIRS.Memory

structure Models (cache : DLIRS V) (ref : Key → Ref) (a : Lirs Key V) (hand : List Key)
    (held : Multiset Ref) : Prop where
  cacheSize : cache.cacheSize = a.cacheSize
  hirsLimit : cache.hirsLimit = a.hirsLimit
  lirsLimit : cache.lirsLimit = a.lirsLimit
  tables : ∀ t, Represents (cache.table t) ((a.order t).map fun k => (k, ref k))
  entries : ∀ k, (∃ t, k ∈ a.order t) ∨ k ∈ hand →
    ∃ n, cache.heap (ref k) = some (entryOf k (a.info k) n)
  hand_held : ∀ k ∈ hand, ref k ∈ held
  counted : RefCount.Counted cache.counter (a.tableRefs ref + held)
  fresh : ∀ r e, cache.heap r = some e → r < cache.fresh
  destroyed_nodup : (cache.destroyed.map Prod.fst).Nodup
  destroyed_iff : ∀ r, r ∈ cache.destroyed.map Prod.fst ↔ r < cache.fresh ∧ cache.heap r = none

namespace Models

variable {cache : DLIRS V} {ref : Key → Ref} {a : Lirs Key V} {hand G : List Key}
  {held : Multiset Ref} {t : Table} {k j : Key} {r : Ref} {rest : List Key}

/-! ### Reading -/

theorem order_nodup (h : Models cache ref a hand held) (t : Table) : (a.order t).Nodup := by
  have := (h.tables t).keys_nodup
  rwa [List.map_map, Function.comp_def, List.map_id'] at this

theorem get_mem (h : Models cache ref a hand held) (hk : k ∈ a.order t) :
    dqhtGet (cache.table t) k = some (ref k) :=
  (h.tables t).get_of_mem (List.mem_map_of_mem hk)

theorem notMem_keys (_ : Models cache ref a hand held) (hk : k ∉ a.order t) :
    k ∉ ((a.order t).map fun k => (k, ref k)).map Prod.fst := by
  rwa [List.map_map, Function.comp_def, List.map_id']

theorem get_absent (h : Models cache ref a hand held) (hk : k ∉ a.order t) :
    dqhtGet (cache.table t) k = none := (h.tables t).get_absent (h.notMem_keys hk)

theorem getFront (h : Models cache ref a hand held) (t : Table) :
    dqhtGetFront (cache.table t) = (a.order t).head?.map ref := by
  rw [(h.tables t).getFront, List.head?_map, Option.map_map]
  rfl

theorem count_eq (h : Models cache ref a hand held) (t : Table) :
    (cache.table t).ht.count = (a.order t).length := by
  rw [(h.tables t).count_eq, List.length_map]

/-- The keys of the tables have different objects. -/
theorem ref_ne (h : Models cache ref a hand held) (hk : (∃ t, k ∈ a.order t) ∨ k ∈ hand)
    (hj : (∃ t, j ∈ a.order t) ∨ j ∈ hand) (hne : j ≠ k) : ref j ≠ ref k := by
  intro href
  obtain ⟨n, hn⟩ := h.entries k hk
  obtain ⟨m, hm⟩ := h.entries j hj
  rw [href, hn, Option.some_inj] at hm
  exact hne (congrArg DLIRSEntry.key hm).symm

/-! ### Writing -/

theorem weaken (h : Models cache ref a hand held) (hsub : ∀ k ∈ G, k ∈ hand) :
    Models cache ref a G held :=
  { h with
    entries := fun k hk => h.entries k (hk.imp_right (hsub k))
    hand_held := fun k hk => h.hand_held k (hsub k hk) }

theorem withCounts (h : Models cache ref a hand held) (hirs lirs demoted nonResident : Nat) :
    Models { cache with
      hirsCount := hirs, lirsCount := lirs, demoted, nonResident } ref a hand held :=
  ⟨h.cacheSize, h.hirsLimit, h.lirsLimit, h.tables, h.entries, h.hand_held, h.counted, h.fresh,
    h.destroyed_nodup, h.destroyed_iff⟩

theorem withLimits (h : Models cache ref a hand held) (hirsLimit lirsLimit : Int) :
    Models { cache with hirsLimit, lirsLimit } ref { a with hirsLimit, lirsLimit } hand held :=
  ⟨h.cacheSize, rfl, rfl, h.tables, h.entries, h.hand_held, h.counted, h.fresh,
    h.destroyed_nodup, h.destroyed_iff⟩

theorem withDemoted (h : Models cache ref a hand held) (demoted : Nat) :
    Models cache ref { a with demoted } hand held :=
  ⟨h.cacheSize, h.hirsLimit, h.lirsLimit, h.tables, h.entries, h.hand_held, h.counted, h.fresh,
    h.destroyed_nodup, h.destroyed_iff⟩

/-- A table of the cache is replaced. -/
theorem setTable (h : Models cache ref a hand held) {l : List Key} {held' : Multiset Ref}
    {dqht : DequeueHashTable Key Ref} (hd : Represents dqht (l.map fun k => (k, ref k)))
    (hand_held : ∀ k ∈ G, ref k ∈ held')
    (known : ∀ k, k ∈ l ∨ k ∈ G → (∃ t, k ∈ a.order t) ∨ k ∈ hand)
    (holders : (a.setOrder t l).tableRefs ref + held' = a.tableRefs ref + held) :
    Models (cache.setTable t dqht) ref (a.setOrder t l) G held' := by
  have horder : ∀ t', (a.setOrder t l).order t' = if t' = t then l else a.order t' := by
    intro t'
    cases t <;> cases t' <;> rfl
  have htable : ∀ t', (cache.setTable t dqht).table t' =
      if t' = t then dqht else cache.table t' := by
    intro t'
    cases t <;> cases t' <;> rfl
  have hheap : (cache.setTable t dqht).heap = cache.heap := by cases t <;> rfl
  have hfresh : (cache.setTable t dqht).fresh = cache.fresh := by cases t <;> rfl
  have hdestroyed : (cache.setTable t dqht).destroyed = cache.destroyed := by cases t <;> rfl
  constructor
  · cases t <;> exact h.cacheSize
  · cases t <;> exact h.hirsLimit
  · cases t <;> exact h.lirsLimit
  · intro t'
    rw [htable, horder]
    split
    · exact hd
    · exact h.tables t'
  · intro k hk
    rw [hheap, Lirs.setOrder_info]
    refine h.entries k ?_
    rcases hk with ⟨t', hk⟩ | hk
    · rw [horder] at hk
      split at hk
      · exact known k (.inl hk)
      · exact .inl ⟨t', hk⟩
    · exact known k (.inr hk)
  · exact hand_held
  · rw [holders, show (cache.setTable t dqht).counter = cache.counter by
      funext r; rw [DLIRS.counter, DLIRS.counter, hheap]]
    exact h.counted
  · rw [hheap, hfresh]
    exact h.fresh
  · rw [hdestroyed]
    exact h.destroyed_nodup
  · rw [hdestroyed, hheap, hfresh]
    exact h.destroyed_iff

theorem counts_setTable (cache : DLIRS V) (t : Table) (dqht : DequeueHashTable Key Ref) :
    (cache.setTable t dqht).counts = cache.counts := by
  cases t <;> rfl

/-- Removing a key hands over its reference. -/
theorem remove_mem (h : Models cache ref a hand held) (hk : k ∈ a.order t) :
    ∃ cache', cache.remove t k = (0, some (ref k), cache') ∧ cache'.counts = cache.counts ∧
      Models cache' ref (a.setOrder t ((a.order t).erase k)) (k :: hand) (ref k ::ₘ held) := by
  obtain ⟨l1, l2, -, hsplit, herase⟩ := List.exists_erase_eq hk
  have hr := h.tables t
  rw [hsplit, List.map_append, List.map_cons] at hr
  obtain ⟨dqht, hremove, hd⟩ := hr.remove_mem
  rw [← List.map_append, ← herase] at hd
  refine ⟨cache.setTable t dqht, ?_, counts_setTable .., ?_⟩
  · simp only [DLIRS.remove, hremove]
  · refine h.setTable hd ?_ ?_ ?_
    · intro j hj
      rcases List.mem_cons.mp hj with rfl | hj
      · exact Multiset.mem_cons_self _ _
      · exact Multiset.mem_cons_of_mem (h.hand_held j hj)
    · rintro j (hj | hj)
      · exact .inl ⟨t, List.mem_of_mem_erase hj⟩
      · exact (List.mem_cons.mp hj).elim (fun hj => .inl ⟨t, hj ▸ hk⟩) .inr
    · have hperm : ((a.order t).map ref : Multiset Ref) =
          (((a.order t).erase k).map ref : Multiset Ref) + {ref k} := by
        rw [Multiset.coe_eq_coe.mpr ((List.perm_cons_erase hk).map ref), List.map_cons,
          ← Multiset.cons_coe, ← Multiset.singleton_add, add_comm]
      rw [Lirs.tableRefs_setOrder ref a t hperm, ← Multiset.singleton_add]
      abel

theorem remove_absent (h : Models cache ref a hand held) (hk : k ∉ a.order t) :
    cache.remove t k = (1, none, cache) := by
  have hremove := (h.tables t).remove_absent (h.notMem_keys hk)
  rw [DLIRS.remove, hremove]
  cases t <;> rfl

theorem popFront_cons (h : Models cache ref a hand held) (ht : a.order t = k :: rest) :
    ∃ cache', cache.popFront t = (some (ref k), cache') ∧ cache'.counts = cache.counts ∧
      Models cache' ref (a.setOrder t rest) (k :: hand) (ref k ::ₘ held) := by
  have hr := h.tables t
  rw [ht, List.map_cons] at hr
  obtain ⟨dqht, hpop, hd⟩ := hr.popFront
  refine ⟨cache.setTable t dqht, ?_, counts_setTable .., ?_⟩
  · simp only [DLIRS.popFront, hpop]
  · refine h.setTable hd ?_ ?_ ?_
    · intro j hj
      rcases List.mem_cons.mp hj with rfl | hj
      · exact Multiset.mem_cons_self _ _
      · exact Multiset.mem_cons_of_mem (h.hand_held j hj)
    · rintro j (hj | hj)
      · exact .inl ⟨t, by simp [ht, hj]⟩
      · exact (List.mem_cons.mp hj).elim (fun hj => .inl ⟨t, by simp [ht, hj]⟩) .inr
    · have hperm : ((a.order t).map ref : Multiset Ref) =
          (rest.map ref : Multiset Ref) + {ref k} := by
        rw [ht, List.map_cons, ← Multiset.cons_coe, ← Multiset.singleton_add, add_comm]
      rw [Lirs.tableRefs_setOrder ref a t hperm, ← Multiset.singleton_add]
      abel

theorem popFront_nil (h : Models cache ref a hand held) (ht : a.order t = []) :
    cache.popFront t = (none, cache) := by
  have hr := h.tables t
  rw [ht, List.map_nil] at hr
  rw [DLIRS.popFront, hr.popFront_nil]
  cases t <;> rfl

/-- Inserting an absent key stores its reference in the table. -/
theorem insert (h : Models cache ref a hand (ref k ::ₘ held)) (hk : k ∈ hand)
    (habsent : k ∉ a.order t) (hhand : ∀ j ∈ G, j ∈ hand ∧ ref j ∈ held) :
    ∃ cache', cache.insert t {} k (some (ref k)) = some (0, cache') ∧
      cache'.counts = cache.counts ∧
      Models cache' ref (a.setOrder t (a.order t ++ [k])) G held := by
  obtain ⟨i, hinsert, hcode, hover, hd⟩ := (h.tables t).insert (h.notMem_keys habsent) (ref k)
  refine ⟨cache.setTable t i.table, ?_, counts_setTable .., ?_⟩
  · rw [DLIRS.insert, hinsert, Option.map_some, hcode, hover]
    rfl
  · refine h.setTable (by simpa using hd) (fun j hj => (hhand j hj).2) ?_ ?_
    · rintro j (hj | hj)
      · rcases List.mem_append.mp hj with hj | hj
        · exact .inl ⟨t, hj⟩
        · exact .inr (List.mem_singleton.mp hj ▸ hk)
      · exact .inr (hhand j hj).1
    · have hperm : (((a.setOrder t (a.order t ++ [k])).order t).map ref : Multiset Ref) =
          ((a.order t).map ref : Multiset Ref) + {ref k} := by
        cases t <;> simp [Lirs.order, Lirs.setOrder, ← Multiset.coe_add]
      rw [Lirs.tableRefs_setOrder ref _ t hperm, ← Multiset.singleton_add]
      have hback : (a.setOrder t (a.order t ++ [k])).setOrder t (a.order t) = a := by
        cases t <;> rfl
      rw [hback]
      abel

theorem memory (h : Models cache ref a hand held) : cache.Memory (a.tableRefs ref + held) :=
  ⟨h.counted, h.fresh, h.destroyed_nodup, h.destroyed_iff⟩

/-- `dlirs_entry_destroy` of a held reference. -/
theorem destroy (h : Models cache ref a hand (r ::ₘ held))
    (hhand : ∀ k ∈ G, k ∈ hand ∧ ref k ∈ held) :
    (dlirsEntryDestroy cache (some r)).counts = cache.counts ∧
      Models (dlirsEntryDestroy cache (some r)) ref a G held := by
  have hmemory := h.memory
  rw [Multiset.add_cons] at hmemory
  obtain ⟨hmemory', e, he, hheap⟩ := hmemory.destroy
  have hsame : (dlirsEntryDestroy cache (some r)).counts = cache.counts ∧
      (dlirsEntryDestroy cache (some r)).cacheSize = cache.cacheSize ∧
      (dlirsEntryDestroy cache (some r)).hirsLimit = cache.hirsLimit ∧
      (dlirsEntryDestroy cache (some r)).lirsLimit = cache.lirsLimit := by
    simp only [dlirsEntryDestroy, he]
    split <;> exact ⟨rfl, rfl, rfl, rfl⟩
  refine ⟨hsame.1, hsame.2.1.trans h.cacheSize, hsame.2.2.1.trans h.hirsLimit,
    hsame.2.2.2.trans h.lirsLimit, fun t => DLIRS.table_destroy cache (some r) t ▸ h.tables t, ?_,
    fun k hk => (hhand k hk).2, hmemory'.counted, hmemory'.fresh, hmemory'.destroyed_nodup,
    hmemory'.destroyed_iff⟩
  intro k hk
  have hknown : ((∃ t, k ∈ a.order t) ∨ k ∈ hand) ∧ ref k ∈ a.tableRefs ref + held := by
    rcases hk with ⟨t, hk⟩ | hk
    · exact ⟨.inl ⟨t, hk⟩, Multiset.mem_add.mpr (.inl (Lirs.mem_tableRefs hk))⟩
    · exact ⟨.inr (hhand k hk).1, Multiset.mem_add.mpr (.inr (hhand k hk).2)⟩
  obtain ⟨n, hn⟩ := h.entries k hknown.1
  rcases eq_or_ne (ref k) r with rfl | hne
  · -- The object has another holder, so that it is still there.
    obtain ⟨f, hf⟩ := hmemory'.entry hknown.2
    rw [he, Option.some_inj] at hn
    subst hn
    rw [hheap, Function.update_self] at hf ⊢
    split at hf
    · cases hf
    · rename_i hmore
      rw [if_neg hmore]
      exact ⟨dec n, rfl⟩
  · exact ⟨n, by rw [hheap, Function.update_of_ne hne, hn]⟩

/-- Changing the object of a known key, other than its key and counter. -/
theorem modify (h : Models cache ref a hand held) (hk : (∃ t, k ∈ a.order t) ∨ k ∈ hand)
    {f : DLIRSEntry V → DLIRSEntry V} {g : Info V → Info V}
    (hf : ∀ i n, f (entryOf k i n) = entryOf k (g i) n) :
    Models (cache.modify (ref k) f) ref (a.setInfo k g) hand held := by
  obtain ⟨n, hn⟩ := h.entries k hk
  have hself : (cache.modify (ref k) f).heap (ref k) = some (entryOf k (g (a.info k)) n) := by
    simp [DLIRS.modify, hn, hf]
  have hother : ∀ r, r ≠ ref k → (cache.modify (ref k) f).heap r = cache.heap r := fun r hr => by
    simp [DLIRS.modify, Function.update_of_ne hr]
  have hcounter : (cache.modify (ref k) f).counter = cache.counter := by
    funext s
    rcases eq_or_ne s (ref k) with rfl | hne
    · rw [DLIRS.counter, DLIRS.counter, hself, hn]
      rfl
    · rw [DLIRS.counter, DLIRS.counter, hother s hne]
  have horder : (a.setInfo k g).order = a.order := by
    funext t
    cases t <;> rfl
  refine ⟨h.cacheSize, h.hirsLimit, h.lirsLimit, ?_, ?_, h.hand_held, hcounter ▸ h.counted, ?_,
    h.destroyed_nodup, ?_⟩
  · intro t
    rw [horder]
    exact h.tables t
  · intro j hj
    rw [horder] at hj
    rcases eq_or_ne j k with rfl | hne
    · exact ⟨n, by rw [hself, Lirs.setInfo_info, if_pos rfl]⟩
    · rw [hother _ (h.ref_ne hk hj hne), Lirs.setInfo_info_of_ne _ _ hne]
      exact h.entries j hj
  · intro s e he
    rcases eq_or_ne s (ref k) with rfl | hne
    · exact h.fresh _ _ hn
    · exact h.fresh s e (hother s hne ▸ he)
  · intro s
    rcases eq_or_ne s (ref k) with rfl | hne
    · rw [hself]
      have := h.destroyed_iff (ref k)
      rw [hn] at this
      exact this.trans (and_congr_right fun _ => by simp)
    · rw [hother s hne]
      exact h.destroyed_iff s

/-- One more reference to the object of a known key. -/
theorem referenceCopy (h : Models cache ref a hand held)
    (hk : (∃ t, k ∈ a.order t) ∨ k ∈ hand) :
    ∃ cache', dlirsEntryReferenceCopy cache (some (ref k)) = (some (ref k), cache') ∧
      cache'.counts = cache.counts ∧ Models cache' ref a hand (ref k ::ₘ held) := by
  obtain ⟨n, hn⟩ := h.entries k hk
  refine ⟨cache.modify (ref k) fun e => { e with referenceCounter := e.referenceCounter + 1 },
    by simp only [dlirsEntryReferenceCopy, hn], rfl, ?_⟩
  have hcounter : (cache.modify (ref k) fun e =>
      { e with referenceCounter := e.referenceCounter + 1 }).counter =
      Function.update cache.counter (ref k) (some (n + 1)) := by
    funext s
    rcases eq_or_ne s (ref k) with rfl | hne
    · simp [DLIRS.counter, DLIRS.modify, hn, entryOf]
    · simp [DLIRS.counter, DLIRS.modify, Function.update_of_ne hne]
  have hn' : cache.counter (ref k) = some n := by simp [DLIRS.counter, hn, entryOf]
  have hretain := h.counted.retain hn'
  rw [← Multiset.add_cons] at hretain
  refine ⟨h.cacheSize, h.hirsLimit, h.lirsLimit, h.tables, ?_,
    fun j hj => Multiset.mem_cons_of_mem (h.hand_held j hj), hcounter ▸ hretain, ?_,
    h.destroyed_nodup, ?_⟩
  · intro j hj
    rcases eq_or_ne (ref j) (ref k) with hjk | hne
    · obtain ⟨m, hm⟩ := h.entries j hj
      refine ⟨m + 1, ?_⟩
      simp only [DLIRS.modify, hjk, Function.update_self]
      rw [← hjk, hm]
      rfl
    · simp only [DLIRS.modify, Function.update_of_ne hne]
      exact h.entries j hj
  · intro s e he
    rcases eq_or_ne s (ref k) with rfl | hne
    · exact h.fresh _ _ hn
    · simp only [DLIRS.modify, Function.update_of_ne hne] at he
      exact h.fresh s e he
  · intro s
    rw [show (cache.modify (ref k) _).destroyed = cache.destroyed from rfl, h.destroyed_iff s]
    rcases eq_or_ne s (ref k) with rfl | hne
    · simp [DLIRS.modify, hn]
    · simp [DLIRS.modify, Function.update_of_ne hne]

/-- A new object for a key that no table has. -/
theorem create (h : Models cache ref a hand held) (hk : ∀ t, k ∉ a.order t) (hhand : k ∉ hand)
    (value : Option V) :
    ∃ cache', dlirsEntryCreate true cache k value = (some cache.fresh, cache') ∧
      cache'.counts = cache.counts ∧
      Models cache' (Function.update ref k cache.fresh)
        (a.setInfo k fun _ => { isLIR := false, isDemoted := false, inCache := true, value })
        (k :: hand) (cache.fresh ::ₘ held) := by
  refine ⟨_, rfl, rfl, ?_⟩
  have hnone : cache.heap cache.fresh = none := by
    cases he : cache.heap cache.fresh with
    | none => rfl
    | some e => exact absurd (h.fresh _ e he) (Nat.lt_irrefl _)
  have hne : ∀ t, ∀ j ∈ a.order t, j ≠ k := by
    rintro t j hj rfl
    exact hk t hj
  have href : ∀ t, ∀ j ∈ a.order t, Function.update ref k cache.fresh j = ref j := fun t j hj =>
    Function.update_of_ne (hne t j hj) _ _
  have horder : ∀ (t : Table) (f : Info V → Info V), (a.setInfo k f).order t = a.order t := by
    intro t f
    cases t <;> rfl
  have htable : ∀ f, (a.setInfo k f).tableRefs (Function.update ref k cache.fresh) =
      a.tableRefs ref := by
    intro f
    simp only [Lirs.tableRefs]
    congr 1
    · congr 1
      · exact congrArg _ (List.map_congr_left (href .lirs))
      · exact congrArg _ (List.map_congr_left (href .nonResidentHirs))
    · exact congrArg _ (List.map_congr_left (href .residentHirs))
  have hcreate := h.counted.create (r := cache.fresh) (by simp [DLIRS.counter, hnone])
  rw [← Multiset.add_cons] at hcreate
  constructor
  · exact h.cacheSize
  · exact h.hirsLimit
  · exact h.lirsLimit
  · intro t
    rw [horder, List.map_congr_left fun j hj => by rw [href t j hj]]
    exact h.tables t
  · intro j hj
    rcases eq_or_ne j k with rfl | hjk
    · refine ⟨1, ?_⟩
      simp only [Function.update_self, Lirs.setInfo_info, if_true]
      rfl
    · have hj' : (∃ t, j ∈ a.order t) ∨ j ∈ hand := by
        rcases hj with ⟨t, hj⟩ | hj
        · exact .inl ⟨t, horder t _ ▸ hj⟩
        · exact .inr ((List.mem_cons.mp hj).resolve_left hjk)
      obtain ⟨n, hn⟩ := h.entries j hj'
      refine ⟨n, ?_⟩
      have hlt := h.fresh _ _ hn
      rw [Function.update_of_ne hjk, Lirs.setInfo_info_of_ne _ _ hjk]
      simp only [Function.update_of_ne hlt.ne]
      exact hn
  · intro j hj
    rcases eq_or_ne j k with rfl | hjk
    · rw [Function.update_self]
      exact Multiset.mem_cons_self _ _
    · rw [Function.update_of_ne hjk]
      exact Multiset.mem_cons_of_mem (h.hand_held j ((List.mem_cons.mp hj).resolve_left hjk))
  · rw [htable]
    convert hcreate using 1
    funext s
    rcases eq_or_ne s cache.fresh with rfl | hs
    · simp [DLIRS.counter]
    · simp [DLIRS.counter, Function.update_of_ne hs]
  · intro s e he
    rcases eq_or_ne s cache.fresh with rfl | hs
    · exact Nat.lt_succ_self _
    · simp only [Function.update_of_ne hs] at he
      exact Nat.lt_succ_of_lt (h.fresh s e he)
  · exact h.destroyed_nodup
  · intro s
    rw [h.destroyed_iff s]
    rcases eq_or_ne s cache.fresh with rfl | hs
    · simp
    · simp only [Function.update_of_ne hs]
      constructor
      · exact fun hlt => ⟨Nat.lt_succ_of_lt hlt.1, hlt.2⟩
      · exact fun hle => ⟨Nat.lt_of_le_of_ne (Nat.le_of_lt_succ hle.1) hs, hle.2⟩

end Models

end SearchCache
