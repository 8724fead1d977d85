import SearchCache.Cache.HashTableOperations
import SearchCache.Lib.Runs

/-! The load of the hash table and the end of its probes, for keys that may compare in any way: runs
of insertions and deletions keep the table at most half full, whatever the allocations do, so that
probing comes to an empty slot. -/

namespace SearchCache

open Slots HashTable

variable {K V : Type} [TableKey K]

namespace HashTable

variable {ht ht' : HashTable K V} {writes : K → Prop}

/-- `count` is the number of occupied slots, and they are at most half of the slots. -/
def Loaded (ht : HashTable K V) : Prop :=
  ht.count = (occupied ht.items ht.size).card ∧ 2 * ht.count ≤ ht.size

/-- The probe of `ht_insert` ends at an empty slot or at an entry with the key. -/
def ProbeEnds (ht : HashTable K V) (key : K) : Prop :=
  ∃ index < ht.size,
    htInsertLoop ht key ht.size (TableKey.hash key % ht.size) = (index, none) ∧
        ht.items index = none ∨
      ∃ a e, htInsertLoop ht key ht.size (TableKey.hash key % ht.size) = (index, some a) ∧
        ht.items index = some a ∧ ht.entries a = some e ∧ TableKey.cmp key e.key = 0

/-- The entry `a` of `ht` is in `ht'` with its key, in its slot unless the array is a new one, and
with its value unless the call writes the values of the key. -/
def Keeps (writes : K → Prop) (ht ht' : HashTable K V) (a : Addr) : Prop :=
  ∀ i e, ht.items i = some a → ht.entries a = some e →
    ∃ j f, ht'.items j = some a ∧ ht'.entries a = some f ∧ f.key = e.key ∧
      (¬writes e.key → f.ptr = e.ptr) ∧ (ht'.size = ht.size → j = i)

/-! ### Probing -/

/-- The loop of `ht_insert` ends at an empty slot or at the key, or has passed occupied slots only. -/
theorem htInsertLoop_cases (h : ht.Shape) (key : K) {n index : Nat} (hindex : index < ht.size) :
    ∃ i < ht.size, htInsertLoop ht key n index = (i, none) ∧
        (ht.items i = none ∨ ∀ d < n, ∃ a, ht.items ((index + d) % ht.size) = some a) ∨
      ∃ a e, htInsertLoop ht key n index = (i, some a) ∧ ht.items i = some a ∧
        ht.entries a = some e ∧ TableKey.cmp key e.key = 0 := by
  induction n generalizing index with
  | zero => exact ⟨index, hindex, .inl ⟨rfl, .inr fun d hd => absurd hd (Nat.not_lt_zero d)⟩⟩
  | succ n ih =>
    cases hitem : ht.items index with
    | none => exact ⟨index, hindex, .inl ⟨by simp [htInsertLoop, hitem], .inl hitem⟩⟩
    | some a =>
      obtain ⟨e, he⟩ := h.live index a hitem
      by_cases hkey : TableKey.cmp key e.key = 0
      · exact ⟨index, hindex, .inr ⟨a, e, by simp [htInsertLoop, hitem, he, hkey], hitem, he, hkey⟩⟩
      have hnext : htInsertLoop ht key (n + 1) index =
          htInsertLoop ht key n ((index + 1) % ht.size) := by
        simp [htInsertLoop, hitem, he, hkey]
      rw [hnext]
      obtain ⟨i, hi, ⟨hloop, hstop⟩ | hfound⟩ := ih (Nat.mod_lt (index + 1) h.size_pos)
      · refine ⟨i, hi, .inl ⟨hloop, hstop.imp_right fun hfull d hd => ?_⟩⟩
        cases d with
        | zero => exact ⟨a, by rwa [Nat.add_zero, Nat.mod_eq_of_lt hindex]⟩
        | succ d =>
          rw [← step]
          exact hfull d (by omega)
      · exact ⟨i, hi, .inr hfound⟩

omit [TableKey K] in
theorem Shape.exists_empty (h : ht.Shape) : ∃ i < ht.size, ht.items i = none := by
  have hpos := h.size_pos
  have hload := h.load
  exact Slots.exists_empty (by rw [← h.count_eq]; omega)

theorem Shape.probeEnds (h : ht.Shape) (key : K) : ht.ProbeEnds key := by
  have hhome := Nat.mod_lt (TableKey.hash key) h.size_pos
  obtain ⟨i, hi, ⟨hloop, hstop⟩ | hfound⟩ := htInsertLoop_cases h key (n := ht.size) hhome
  · refine ⟨i, hi, .inl ⟨hloop, hstop.resolve_right fun hfull => ?_⟩⟩
    obtain ⟨j, hj, hempty⟩ := h.exists_empty
    obtain ⟨d, hd, hdj⟩ := exists_displacement (TableKey.hash key % ht.size) hj
    obtain ⟨a, ha⟩ := hfull d hd
    simp [hdj, hempty] at ha
  · exact ⟨i, hi, .inr hfound⟩

/-! ### Steps -/

omit [TableKey K] in
theorem Keeps.refl (ht : HashTable K V) (a : Addr) : Keeps writes ht ht a :=
  fun i e hi he => ⟨i, e, hi, he, rfl, fun _ => rfl, fun _ => rfl⟩

omit [TableKey K] in
/-- A step in a table that has a new array, or the same one. -/
theorem Keeps.trans {ht'' : HashTable K V} {a : Addr} (h : Keeps writes ht ht' a)
    (h' : Keeps writes ht' ht'' a) (hsize : ht''.size = ht'.size) : Keeps writes ht ht'' a := by
  intro i e hi he
  obtain ⟨j, f, hj, hf, hkey, hvalue, hslot⟩ := h i e hi he
  obtain ⟨k, g, hk, hg, hkey', hvalue', hslot'⟩ := h' j f hj hf
  refine ⟨k, g, hk, hg, hkey'.trans hkey, fun hother => ?_, fun heq => ?_⟩
  · exact (hvalue' (hkey ▸ hother)).trans (hvalue hother)
  · exact (hslot' hsize).trans (hslot (hsize.symm.trans heq))

/-- A resize returns.  It has made a new array or kept the old one, and in both cases kept the
entries. -/
theorem Shape.resize (h : ht.Shape) (ok : Alloc) :
    ∃ code ht', htResize ok ht = some (code, ht') ∧ ht'.Shape ∧ ht'.count = ht.count ∧
      (∀ writes a, Keeps writes ht ht' a) ∧ (code = 0 ∧ ht'.size = ht.size * 2 ∨
        code = -1 ∧ ht'.size = ht.size ∧ ht'.items = ht.items) := by
  have hpos := h.size_pos
  have hsmall : ¬ht.size * 2 < ht.size := by omega
  cases hok : ok.items with
  | false =>
    exact ⟨-1, ht, by rw [htResize, if_neg hsmall, if_pos hok], h, rfl, fun _ => Keeps.refl ht,
      .inr ⟨rfl, rfl, rfl⟩⟩
  | true =>
    obtain ⟨r, hr, ⟨hcode, hdone⟩ | ⟨hcode, -, hsame⟩⟩ := htRehash_spec h (List.range ht.size)
      (by simpa using List.nodup_range) (Rehashed.start ht.items ht.entries (ht.size * 2))
    · have hshape := Rehashed.shape h hdone
      refine ⟨0, _, by simp [htResize, hok, hr, hcode, hsmall], hshape, rfl,
        fun _ a i e hi he => ?_, .inl ⟨rfl, rfl⟩⟩
      obtain ⟨j, hj⟩ := (Rehashed.stored h hdone a).mpr ⟨i, hi⟩
      obtain ⟨k, hk⟩ := hdone.same a
      rw [he, Option.map_some] at hk
      refine ⟨j, _, hj, hk, rfl, fun _ => rfl, fun hsize => ?_⟩
      have hsize : ht.size * 2 = ht.size := hsize
      omega
    · refine ⟨-1, { ht with entries := r.entries }, by simp [htResize, hok, hr, hcode, hsmall],
        h.withEntries fun a => ?_, rfl, fun _ a i e hi he => ?_, .inr ⟨rfl, rfl, rfl⟩⟩
      · obtain ⟨k, hk⟩ := hsame a
        rw [hk, Option.isSome_map]
      · obtain ⟨k, hk⟩ := hsame a
        rw [he, Option.map_some] at hk
        exact ⟨i, _, hi, hk, rfl, fun _ => rfl, fun _ => rfl⟩

theorem Shape.insertSlot (h : ht.Shape) (room : 2 * (ht.count + 1) ≤ ht.size) (ok : Alloc) (key : K)
    (value : V) : (htInsertSlot ok ht key value).table.Shape ∧
      (htInsertSlot ok ht key value).table.size = ht.size ∧
      ∀ a, Keeps (fun k => TableKey.cmp key k = 0) ht (htInsertSlot ok ht key value).table a := by
  obtain ⟨index, hindex, ⟨hloop, hempty⟩ | ⟨a, e, hloop, -, he, hkey⟩⟩ := h.probeEnds key
  · simp only [htInsertSlot, hloop, update_none_of_empty hempty]
    split
    · exact ⟨h, rfl, Keeps.refl ht⟩
    · refine ⟨htCreateAt_shape h key value room hindex hempty, rfl, fun a i e hi he => ?_⟩
      have hne : i ≠ index := by
        rintro rfl
        simp [hempty] at hi
      have hold : a ≠ ht.fresh := fun heq => h.fresh_ne i (heq ▸ hi)
      exact ⟨i, e, (Function.update_of_ne hne _ _).trans hi,
        (Function.update_of_ne hold _ _).trans he, rfl, fun _ => rfl, fun _ => rfl⟩
  · rw [htInsertSlot, hloop]
    refine ⟨h.modify a _, rfl, fun b i f hi hf => ?_⟩
    rcases eq_or_ne b a with rfl | hne
    · obtain rfl := Option.some.inj (he.symm.trans hf)
      exact ⟨i, { e with ptr := value }, hi, (Entries.modify_self ..).trans (congrArg _ hf), rfl,
        fun hother => absurd hkey hother, fun _ => rfl⟩
    · exact ⟨i, f, hi, (Entries.modify_of_ne _ _ hne).trans hf, rfl, fun _ => rfl, fun _ => rfl⟩

theorem Shape.insert (h : ht.Shape) (ok : Alloc) (key : K) (value : V) :
    ∃ r, htInsert ok ht key (some value) = some r ∧ r.table.Shape ∧
      ∀ a, Keeps (fun k => TableKey.cmp key k = 0) ht r.table a := by
  have hload := h.load
  by_cases hfull : ht.size / 2 ≤ ht.count
  · obtain ⟨code, ht', hresize, hshape, hcount, hkeeps, ⟨rfl, hsize⟩ | ⟨rfl, -, -⟩⟩ := h.resize ok
    · have hpos := h.size_pos
      obtain ⟨hslot, hsame, hkept⟩ := hshape.insertSlot (by omega) ok key value
      exact ⟨_, by simp [htInsert, hfull, hresize], hslot,
        fun a => (hkeeps _ a).trans (hkept a) hsame⟩
    · exact ⟨⟨-1, ht', none, none⟩, by simp [htInsert, hfull, hresize], hshape, hkeeps _⟩
  · obtain ⟨hslot, -, hkept⟩ := h.insertSlot (by omega) ok key value
    exact ⟨_, by simp [htInsert, hfull], hslot, hkept⟩

omit [TableKey K] in
theorem Shape.deleteEntry (h : ht.Shape) (index : Nat) :
    (htDeleteEntry ht index).2.Shape ∧
      ∀ a, ht.items index ≠ some a → Keeps writes ht (htDeleteEntry ht index).2 a := by
  rw [htDeleteEntry]
  cases hslot : ht.items index with
  | none => exact ⟨h, fun a _ => Keeps.refl ht a⟩
  | some a =>
    refine ⟨htDeleteEntry_shape h hslot, fun b hb i e hi he => ?_⟩
    have hba : b ≠ a := fun heq => hb (congrArg some heq.symm)
    have hne : i ≠ index := by
      rintro rfl
      exact hb (hslot.symm.trans hi)
    exact ⟨i, e, (Function.update_of_ne hne _ _).trans hi, (Function.update_of_ne hba _ _).trans he,
      rfl, fun _ => rfl, fun _ => rfl⟩

end HashTable

/-! ### Runs -/

/-- A call that changes a table.  The index is one of the array. -/
inductive HtUpdate (K V : Type)
  | insert (key : K) (value : V) (ok : Alloc)
  | delete (key : K)
  | deleteEntry (index : Nat)

namespace HtUpdate

def run (ht : HashTable K V) : HtUpdate K V → Option (HashTable K V)
  | insert key value ok => (htInsert ok ht key (some value)).map Inserted.table
  | delete key => some (htDelete ht key).2
  | deleteEntry index => some (htDeleteEntry ht index).2

/-- The entry that the call deletes. -/
def removed (ht : HashTable K V) : HtUpdate K V → Option Addr
  | insert _ _ _ => none
  | delete key => htGet ht key
  | deleteEntry index => ht.items index

/-- The keys whose values the call may write. -/
def writes : HtUpdate K V → K → Prop
  | insert key _ _ => fun k => TableKey.cmp key k = 0
  | delete _ => fun _ => False
  | deleteEntry _ => fun _ => False

variable {ht : HashTable K V}

theorem shape_run (h : ht.Shape) (call : HtUpdate K V) :
    ∃ ht', call.run ht = some ht' ∧ ht'.Shape ∧
      ∀ a, call.removed ht ≠ some a → Keeps call.writes ht ht' a := by
  cases call with
  | insert key value ok =>
    obtain ⟨r, hr, hshape, hkeeps⟩ := h.insert ok key value
    exact ⟨r.table, by rw [run, hr]; rfl, hshape, fun a _ => hkeeps a⟩
  | delete key =>
    refine ⟨_, rfl, ?_⟩
    rw [htDelete, removed, htGet]
    cases hl : htLookup ht ht.comparator key with
    | none => exact ⟨h, fun a _ => Keeps.refl ht a⟩
    | some found =>
      obtain ⟨i, a⟩ := found
      have hslot := (htFind_some hl).1
      obtain ⟨hshape, hkeeps⟩ := h.deleteEntry i
      exact ⟨hshape, fun b hb => hkeeps b (hslot ▸ hb)⟩
  | deleteEntry index => exact ⟨_, rfl, h.deleteEntry index⟩

end HtUpdate

/-- After any run the table is at most half full, a resize returns, probes end at the key or at an
empty slot, before a resize and after it, and a call loses no entry but the one it deletes. -/
theorem htRun_loaded {size : Nat} (hsize : 1 ≤ size) (comparator : KeyComparator K V)
    (calls : List (HtUpdate K V)) :
    ∃ ht, Runs.run (fun ht (call : HtUpdate K V) => call.run ht) (htCreate size comparator) calls =
        some ht ∧ ht.Loaded ∧
      (∀ ok, ∃ code ht', htResize ok ht = some (code, ht') ∧ ∀ key, ht'.ProbeEnds key) ∧
      (∀ key, ht.ProbeEnds key) ∧
      ∀ call : HtUpdate K V, ∃ ht', call.run ht = some ht' ∧
        ∀ a, call.removed ht ≠ some a → Keeps call.writes ht ht' a := by
  have preserves : ∀ (ht : HashTable K V) (call : HtUpdate K V) ht', ht.Shape → True →
      call.run ht = some ht' → ht'.Shape := by
    intro ht call ht' h _ hrun
    obtain ⟨ht1, h1, hshape, -⟩ := HtUpdate.shape_run h call
    rwa [← Option.some.inj (h1.symm.trans hrun)]
  have returns : ∀ (ht : HashTable K V) (call : HtUpdate K V), ht.Shape → True →
      ∃ ht', call.run ht = some ht' :=
    fun ht call h _ => (HtUpdate.shape_run h call).imp fun _ h => h.1
  have start : (htCreate size comparator : HashTable K V).Shape := (htCreate_wf hsize comparator).toShape
  obtain ⟨ht, hrun⟩ := Runs.run_returns preserves returns start (Runs.regular_true _)
  have h : ht.Shape := Runs.run_preserves preserves start (Runs.regular_true _) hrun
  refine ⟨ht, hrun, ⟨h.count_eq, h.load⟩, fun ok => ?_, h.probeEnds, fun call => ?_⟩
  · obtain ⟨code, ht', hresize, hshape, -⟩ := h.resize ok
    exact ⟨code, ht', hresize, hshape.probeEnds⟩
  · obtain ⟨ht', hcall, -, hkeeps⟩ := HtUpdate.shape_run h call
    exact ⟨ht', hcall, hkeeps⟩

theorem htRun_loaded_odd : ∃ ht, Runs.run (fun ht (call : HtUpdate Key Nat) => call.run ht)
      (htCreate 3 defaultComparator) [.insert keyA 1 {}, .insert keyB 2 ⟨false, true⟩, .deleteEntry 0] =
        some ht ∧ ht.Loaded ∧
      (∀ ok, ∃ code ht', htResize ok ht = some (code, ht') ∧ ∀ key, ht'.ProbeEnds key) ∧
      (∀ key, ht.ProbeEnds key) ∧
      ∀ call : HtUpdate Key Nat, ∃ ht', call.run ht = some ht' ∧
        ∀ a, call.removed ht ≠ some a → Keeps call.writes ht ht' a :=
  htRun_loaded (by decide) defaultComparator _

/-! ### Lookups after a resize -/

end SearchCache
