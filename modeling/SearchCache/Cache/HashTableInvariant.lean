import SearchCache.Cache.HashTable
import SearchCache.Lib.Slots
import Mathlib.Tactic.Linarith

/-! The invariant of the hash table and what its operations do to it.  A resize places every entry
where probing from its hash reaches it; a deletion may break that, so the invariant does not ask
for it, and an insertion is described where the key is absent or reached. -/

namespace SearchCache

open Slots

variable {K V : Type}

theorem Entries.modify_self (entries : Entries K V) (a : Addr)
    (f : DQHTEntry K V → DQHTEntry K V) : entries.modify a f a = (entries a).map f := by
  simp [Entries.modify]

theorem Entries.modify_of_ne (entries : Entries K V) {a b : Addr}
    (f : DQHTEntry K V → DQHTEntry K V) (h : b ≠ a) : entries.modify a f b = entries b := by
  simp [Entries.modify, h]

namespace HashTable

/-- The slots hold the addresses of the live entries, each once, and are at most half full. -/
structure Shape (ht : HashTable K V) : Prop where
  size_pos : 0 < ht.size
  bound : ∀ i a, ht.items i = some a → i < ht.size
  live : ∀ i a, ht.items i = some a → ∃ e, ht.entries a = some e
  inj : Injective ht.items
  placed : ∀ a e, ht.entries a = some e → ∃ i, ht.items i = some a
  fresh : ∀ a e, ht.entries a = some e → a < ht.fresh
  count_eq : ht.count = (occupied ht.items ht.size).card
  load : 2 * ht.count ≤ ht.size

/-- The `index` of an entry is its slot. -/
def Indexed (ht : HashTable K V) : Prop :=
  ∀ i a e, ht.items i = some a → ht.entries a = some e → e.index = i

/-- No two entries have one key. -/
def Distinct (ht : HashTable K V) : Prop :=
  ∀ a b e f, ht.entries a = some e → ht.entries b = some f → e.key = f.key → a = b

/-- No two keys compare equal. -/
def Separated [TableKey K] (ht : HashTable K V) : Prop :=
  ∀ a b e f, ht.entries a = some e → ht.entries b = some f → TableKey.cmp e.key f.key = 0 → a = b

/-- Probing from the hash of each key reaches its entry. -/
def Reaching [TableKey K] (ht : HashTable K V) : Prop :=
  ∀ i a e, ht.items i = some a → ht.entries a = some e →
    Reach ht.items ht.size (TableKey.hash e.key % ht.size) i

structure WF (ht : HashTable K V) : Prop extends Shape ht where
  indexed : ht.Indexed
  distinct : ht.Distinct

theorem WF.separated [TableKey K] [LawfulTableKey K] {ht : HashTable K V} (h : ht.WF) :
    ht.Separated := fun a b e f he hf hcmp =>
  h.distinct a b e f he hf ((LawfulTableKey.cmp_eq_zero _ _).mp hcmp)

/-- The entry with key `key` and its address. -/
def Has (ht : HashTable K V) (key : K) (a : Addr) (e : DQHTEntry K V) : Prop :=
  ht.entries a = some e ∧ e.key = key

theorem WF.has_unique {ht : HashTable K V} (h : ht.WF) {key : K} {a b : Addr}
    {e f : DQHTEntry K V} (ha : ht.Has key a e) (hb : ht.Has key b f) : a = b ∧ e = f := by
  have hab := h.distinct a b e f ha.1 hb.1 (ha.2.trans hb.2.symm)
  subst hab
  exact ⟨rfl, Option.some.inj (ha.1.symm.trans hb.1)⟩

theorem foreign_of_absent [TableKey K] [LawfulTableKey K] {ht : HashTable K V} {key : K}
    (absent : ∀ a e, ¬ht.Has key a e) {a : Addr} {e : DQHTEntry K V}
    (he : ht.entries a = some e) : TableKey.cmp key e.key ≠ 0 := fun hcmp =>
  absent a e ⟨he, ((LawfulTableKey.cmp_eq_zero _ _).mp hcmp).symm⟩

theorem WF.only [TableKey K] [LawfulTableKey K] {ht : HashTable K V} (h : ht.WF) {key : K}
    {a b : Addr} {e f : DQHTEntry K V} (has : ht.Has key a e) (hf : ht.entries b = some f)
    (hcmp : TableKey.cmp key f.key = 0) : b = a :=
  (h.has_unique ⟨hf, ((LawfulTableKey.cmp_eq_zero _ _).mp hcmp).symm⟩ has).1

theorem WF.slot {ht : HashTable K V} (h : ht.WF) {a : Addr} {e : DQHTEntry K V}
    (ha : ht.entries a = some e) : ht.items e.index = some a := by
  obtain ⟨i, hi⟩ := h.placed a e ha
  rw [h.indexed i a e hi ha]
  exact hi

end HashTable

open HashTable

/-- A table that `ht_create` makes. -/
theorem htCreate_wf {size : Nat} (hsize : 0 < size) (comparator : KeyComparator K V) :
    (htCreate size comparator).WF where
  size_pos := hsize
  bound := by simp [htCreate]
  live := by simp [htCreate]
  inj := by simp [htCreate, Injective]
  placed := by simp [htCreate]
  fresh := by simp [htCreate]
  count_eq := by simp [htCreate, occupied_none]
  load := by simp [htCreate]
  indexed := by simp [htCreate, Indexed]
  distinct := by simp [htCreate, Distinct]

/-! ### The probing loops -/

/-- The scan returns a slot whose entry the comparator accepts. -/
theorem htFind_some {ht : HashTable K V} {comparator : KeyComparator K V} {key : K}
    {n index i : Nat} {a : Addr} (h : htFind ht comparator key n index = some (i, a)) :
    ht.items i = some a ∧ ∃ e, ht.entries a = some e ∧ comparator key e.key e = 0 := by
  induction n generalizing index with
  | zero => simp [htFind] at h
  | succ n ih =>
    rw [htFind] at h
    split at h
    · exact ih h
    · rename_i b hb
      split at h
      · rename_i e he
        split at h
        · rename_i hkey
          cases h
          exact ⟨hb, e, he, hkey⟩
        · exact ih h
      · exact ih h

/-- A scan that returns nothing has passed entries that the comparator does not accept. -/
theorem htFind_none {ht : HashTable K V} {comparator : KeyComparator K V} {key : K}
    {n index : Nat} (hindex : index < ht.size) (h : htFind ht comparator key n index = none)
    {d : Nat} (hd : d < n) {a : Addr} {e : DQHTEntry K V}
    (ha : ht.items ((index + d) % ht.size) = some a) (he : ht.entries a = some e) :
    comparator key e.key e ≠ 0 := by
  induction n generalizing index d with
  | zero => omega
  | succ n ih =>
    rw [htFind] at h
    have hlt : (index + 1) % ht.size < ht.size := Nat.mod_lt _ (by omega)
    cases d with
    | zero =>
      rw [Nat.add_zero, Nat.mod_eq_of_lt hindex] at ha
      simp only [ha, he] at h
      split at h
      · simp at h
      · assumption
    | succ d =>
      refine ih hlt ?_ (d := d) (by omega) (by rw [step]; exact ha)
      split at h
      · exact h
      · split at h
        · split at h
          · simp at h
          · exact h
        · exact h

variable [TableKey K]

/-- Slot `i` holds an entry whose key is not `key`. -/
def Foreign (items : Nat → Option Addr) (entries : Entries K V) (key : K) (i : Nat) : Prop :=
  ∃ a e, items i = some a ∧ entries a = some e ∧ TableKey.cmp key e.key ≠ 0

theorem htResizeInsert_eq {items : Nat → Option Addr} {entries : Entries K V} {size : Nat}
    {a : Addr} {key : K} {d n index : Nat} (hn : d < n) (hindex : index < size)
    (hforeign : ∀ c < d, Foreign items entries key ((index + c) % size))
    (hempty : items ((index + d) % size) = none) :
    htResizeInsert items entries size a key n index = some {
      code := 0
      items := Function.update items ((index + d) % size) (some a)
      entries := entries.modify a fun e => { e with index := (index + d) % size } } := by
  induction d generalizing n index with
  | zero =>
    obtain ⟨m, rfl⟩ : ∃ m, n = m + 1 := ⟨n - 1, by omega⟩
    have h0 : (index + 0) % size = index := Nat.mod_eq_of_lt hindex
    rw [h0] at hempty ⊢
    simp [htResizeInsert, hempty]
  | succ d ih =>
    obtain ⟨m, rfl⟩ : ∃ m, n = m + 1 := ⟨n - 1, by omega⟩
    obtain ⟨b, e, hb, he, hkey⟩ := hforeign 0 (by omega)
    rw [Nat.add_zero, Nat.mod_eq_of_lt hindex] at hb
    have hstep := @ih m ((index + 1) % size) (by omega)
      (Nat.mod_lt _ (by omega)) (fun c hc => by rw [step]; exact hforeign (c + 1) (by omega))
      (by rw [step]; exact hempty)
    rw [step] at hstep
    simp [htResizeInsert, hb, he, hkey, hstep]

/-- The probe for an entry that meets a key, or passes other keys only. -/
theorem htResizeInsert_cases {items : Nat → Option Addr} {entries : Entries K V} {size : Nat}
    (a : Addr) (key : K) {d n index : Nat} (hn : d < n) (hindex : index < size)
    (hfull : ∀ c < d, ∃ b e, items ((index + c) % size) = some b ∧ entries b = some e) :
    (∀ c < d, Foreign items entries key ((index + c) % size)) ∨
      htResizeInsert items entries size a key n index = some { code := -1, items, entries } ∧
        ∃ i b e, items i = some b ∧ entries b = some e ∧ TableKey.cmp key e.key = 0 := by
  induction d generalizing n index with
  | zero => exact .inl fun c hc => absurd hc (Nat.not_lt_zero c)
  | succ d ih =>
    obtain ⟨m, rfl⟩ : ∃ m, n = m + 1 := ⟨n - 1, by omega⟩
    obtain ⟨b, e, hb, he⟩ := hfull 0 (by omega)
    rw [Nat.add_zero, Nat.mod_eq_of_lt hindex] at hb
    by_cases hkey : TableKey.cmp key e.key = 0
    · exact .inr ⟨by simp [htResizeInsert, hb, he, hkey], index, b, e, hb, he, hkey⟩
    have hstep := @ih m ((index + 1) % size) (by omega) (Nat.mod_lt _ (by omega)) fun c hc => by
      rw [step]
      exact hfull (c + 1) (by omega)
    rcases hstep with hforeign | ⟨hloop, hmeets⟩
    · refine .inl fun c hc => ?_
      cases c with
      | zero =>
        rw [Nat.add_zero, Nat.mod_eq_of_lt hindex]
        exact ⟨b, e, hb, he, hkey⟩
      | succ c =>
        have hc := hforeign c (by omega)
        rwa [step] at hc
    · exact .inr ⟨by simp [htResizeInsert, hb, he, hkey, hloop], hmeets⟩

theorem htInsertLoop_empty {ht : HashTable K V} {key : K} {d n index : Nat} (hn : d < n)
    (hindex : index < ht.size)
    (hforeign : ∀ c < d, Foreign ht.items ht.entries key ((index + c) % ht.size))
    (hempty : ht.items ((index + d) % ht.size) = none) :
    htInsertLoop ht key n index = ((index + d) % ht.size, none) := by
  induction d generalizing n index with
  | zero =>
    obtain ⟨m, rfl⟩ : ∃ m, n = m + 1 := ⟨n - 1, by omega⟩
    have h0 : (index + 0) % ht.size = index := Nat.mod_eq_of_lt hindex
    rw [h0] at hempty ⊢
    simp [htInsertLoop, hempty]
  | succ d ih =>
    obtain ⟨m, rfl⟩ : ∃ m, n = m + 1 := ⟨n - 1, by omega⟩
    obtain ⟨b, e, hb, he, hkey⟩ := hforeign 0 (by omega)
    rw [Nat.add_zero, Nat.mod_eq_of_lt hindex] at hb
    have hstep := @ih m ((index + 1) % ht.size) (by omega)
      (Nat.mod_lt _ (by omega)) (fun c hc => by rw [step]; exact hforeign (c + 1) (by omega))
      (by rw [step]; exact hempty)
    rw [step] at hstep
    simp [htInsertLoop, hb, he, hkey, hstep]

theorem htInsertLoop_found {ht : HashTable K V} {key : K} {d n index : Nat} {a : Addr}
    {e : DQHTEntry K V} (hn : d < n) (hindex : index < ht.size)
    (hforeign : ∀ c < d, Foreign ht.items ht.entries key ((index + c) % ht.size))
    (ha : ht.items ((index + d) % ht.size) = some a) (he : ht.entries a = some e)
    (hkey : TableKey.cmp key e.key = 0) :
    htInsertLoop ht key n index = ((index + d) % ht.size, some a) := by
  induction d generalizing n index with
  | zero =>
    obtain ⟨m, rfl⟩ : ∃ m, n = m + 1 := ⟨n - 1, by omega⟩
    have h0 : (index + 0) % ht.size = index := Nat.mod_eq_of_lt hindex
    rw [h0] at ha ⊢
    simp [htInsertLoop, ha, he, hkey]
  | succ d ih =>
    obtain ⟨m, rfl⟩ : ∃ m, n = m + 1 := ⟨n - 1, by omega⟩
    obtain ⟨b, f, hb, hf, hne⟩ := hforeign 0 (by omega)
    rw [Nat.add_zero, Nat.mod_eq_of_lt hindex] at hb
    have hstep := @ih m ((index + 1) % ht.size) (by omega)
      (Nat.mod_lt _ (by omega)) (fun c hc => by rw [step]; exact hforeign (c + 1) (by omega))
      (by rw [step]; exact ha)
    rw [step] at hstep
    simp [htInsertLoop, hb, hf, hne, hstep]

/-! ### Lookup -/

/-- The comparator accepts equal keys and no others. -/
def Exact (comparator : KeyComparator K V) : Prop :=
  ∀ key1 key2 e, comparator key1 key2 e = 0 ↔ key1 = key2

section Lookup

variable {ht : HashTable K V} {comparator : KeyComparator K V}

theorem exact_default [LawfulTableKey K] : Exact (defaultComparator : KeyComparator K V) := by
  intro key1 key2 e
  simpa [defaultComparator] using LawfulTableKey.cmp_eq_zero key1 key2

/-- A lookup finds the only entry that the comparator accepts, at its slot. -/
theorem htLookup_of_only (h : ht.Shape) {key : K} {i : Nat} {a : Addr} {e : DQHTEntry K V}
    (hslot : ht.items i = some a) (he : ht.entries a = some e) (accepts : comparator key e.key e = 0)
    (only : ∀ b f, ht.entries b = some f → comparator key f.key f = 0 → b = a) :
    htLookup ht comparator key = some (i, a) := by
  cases hl : htLookup ht comparator key with
  | none =>
    have hhome := Nat.mod_lt (TableKey.hash key) h.size_pos
    obtain ⟨d, hd, hdi⟩ := exists_displacement (TableKey.hash key % ht.size) (h.bound _ a hslot)
    exact absurd accepts (htFind_none hhome hl hd (by rw [hdi]; exact hslot) he)
  | some found =>
    obtain ⟨j, b⟩ := found
    obtain ⟨hj, f, hf, hfkey⟩ := htFind_some hl
    obtain rfl := only b f hf hfkey
    rw [h.inj _ j b hslot hj]

theorem htLookup_of_none {key : K}
    (rejects : ∀ a e, ht.entries a = some e → comparator key e.key e ≠ 0) :
    htLookup ht comparator key = none := by
  cases hl : htLookup ht comparator key with
  | none => rfl
  | some found =>
    obtain ⟨-, e, he, hkey⟩ := htFind_some hl
    exact absurd hkey (rejects _ e he)

/-- A lookup finds the entry with the key, at its slot. -/
theorem htLookup_eq_some (h : ht.WF) (hc : Exact comparator) {key : K} {i : Nat} {a : Addr} :
    htLookup ht comparator key = some (i, a) ↔ ∃ e, ht.Has key a e ∧ e.index = i := by
  constructor
  · intro hl
    obtain ⟨hi, e, he, hkey⟩ := htFind_some hl
    exact ⟨e, ⟨he, ((hc key e.key e).mp hkey).symm⟩, h.indexed i a e hi he⟩
  · rintro ⟨e, ⟨he, hkey⟩, rfl⟩
    refine htLookup_of_only h.toShape (h.slot he) he ((hc key e.key e).mpr hkey.symm) fun b f hf hfkey => ?_
    exact (h.has_unique ⟨hf, ((hc key f.key f).mp hfkey).symm⟩ ⟨he, hkey⟩).1

theorem htLookup_eq_none (h : ht.WF) (hc : Exact comparator) {key : K} :
    htLookup ht comparator key = none ↔ ∀ a e, ¬ht.Has key a e := by
  constructor
  · intro hl a e he
    have := (htLookup_eq_some h hc).mpr ⟨e, he, rfl⟩
    simp [hl] at this
  · intro habsent
    cases hl : htLookup ht comparator key with
    | none => rfl
    | some found =>
      obtain ⟨e, he, -⟩ := (htLookup_eq_some h hc).mp hl
      exact absurd he (habsent _ e)

theorem htGet_eq_some (h : ht.Shape) (distinct : ht.Distinct) (hc : Exact ht.comparator) {key : K}
    {a : Addr} : htGet ht key = some a ↔ ∃ e, ht.Has key a e := by
  constructor
  · intro hg
    obtain ⟨⟨i, b⟩, hl, rfl⟩ := Option.map_eq_some_iff.mp hg
    obtain ⟨-, e, he, hkey⟩ := htFind_some hl
    exact ⟨e, he, ((hc key e.key e).mp hkey).symm⟩
  · rintro ⟨e, he, hkey⟩
    obtain ⟨i, hi⟩ := h.placed a e he
    have honly : ∀ b f, ht.entries b = some f → ht.comparator key f.key f = 0 → b = a :=
      fun b f hf hfkey => distinct b a f e hf he (((hc key f.key f).mp hfkey).symm.trans hkey.symm)
    rw [htGet, htLookup_of_only h hi he ((hc key e.key e).mpr hkey.symm) honly]
    rfl

theorem htGet_eq_none (h : ht.WF) (hc : Exact ht.comparator) {key : K} :
    htGet ht key = none ↔ ∀ a e, ¬ht.Has key a e := by
  rw [htGet, Option.map_eq_none_iff, htLookup_eq_none h hc]

end Lookup

end SearchCache
