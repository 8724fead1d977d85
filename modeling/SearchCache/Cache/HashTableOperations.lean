import SearchCache.Cache.HashTableInvariant

/-! What resizing, insertion and deletion do to a well-formed hash table. -/

namespace SearchCache

open Slots HashTable

variable {K V : Type} [TableKey K]

/-! ### Resizing -/

/-- The state of `ht_resize` after it has moved the entries of the slots `done` of the array `old`:
each stands at the index it carries, where probing from its hash reaches it. -/
structure Rehashed (old : Nat → Option Addr) (before : Entries K V) (size : Nat) (done : List Nat)
    (items : Nat → Option Addr) (entries : Entries K V) : Prop where
  bound : ∀ i a, items i = some a → i < size
  inj : Injective items
  moved : ∀ a, (∃ i, items i = some a) ↔ ∃ j ∈ done, old j = some a
  index : ∀ i a e, items i = some a → entries a = some e → e.index = i
  same : ∀ a, ∃ i, entries a = (before a).map fun e => { e with index := i }
  reach : ∀ i a e, items i = some a → entries a = some e →
    Reach items size (TableKey.hash e.key % size) i

theorem Rehashed.start (old : Nat → Option Addr) (before : Entries K V) (size : Nat) :
    Rehashed old before size [] (fun _ => none) before where
  bound := by simp
  inj := by simp [Injective]
  moved := by simp
  index := by simp
  same a := by
    cases h : before a with
    | none => exact ⟨0, rfl⟩
    | some e => exact ⟨e.index, rfl⟩
  reach := by simp

/-- An entry in mid-rehash is the old one with another index. -/
theorem Rehashed.of_entry {old : Nat → Option Addr} {before : Entries K V} {size : Nat}
    {done : List Nat} {items : Nat → Option Addr} {entries : Entries K V}
    (h : Rehashed old before size done items entries) {a : Addr} {e : DQHTEntry K V}
    (he : entries a = some e) : ∃ f, before a = some f ∧ e = { f with index := e.index } := by
  obtain ⟨i, hi⟩ := h.same a
  rw [he] at hi
  obtain ⟨f, hf, rfl⟩ := Option.map_eq_some_iff.mp hi.symm
  exact ⟨f, hf, rfl⟩

section Rehash

variable {ht : HashTable K V} {done : List Nat} {items : Nat → Option Addr} {entries : Entries K V}

/-- The new array has an empty slot for one more entry. -/
theorem Rehashed.room (shape : ht.Shape)
    (h : Rehashed ht.items ht.entries (ht.size * 2) done items entries) :
    ∃ j < ht.size * 2, items j = none := by
  have hpos := shape.size_pos
  have hle : (occupied items (ht.size * 2)).card ≤ (occupied ht.items ht.size).card :=
    card_occupied_le_of_subset h.inj shape.bound fun j b hj => by
      obtain ⟨k, -, hk⟩ := (h.moved b).mp ⟨j, hj⟩
      exact ⟨k, hk⟩
  have := card_occupied_le ht.items ht.size
  exact exists_empty (by omega)

theorem Rehashed.not_moved (shape : ht.Shape)
    (h : Rehashed ht.items ht.entries (ht.size * 2) done items entries) {i : Nat} {a : Addr}
    (hi : ht.items i = some a) (hdone : i ∉ done) : ∀ j, items j ≠ some a := by
  intro j hj
  obtain ⟨k, hk, hka⟩ := (h.moved a).mp ⟨j, hj⟩
  exact hdone (shape.inj k i a hka hi ▸ hk)

theorem Rehashed.live (shape : ht.Shape)
    (h : Rehashed ht.items ht.entries (ht.size * 2) done items entries) {i : Nat} {a : Addr}
    (hi : items i = some a) : ∃ e, entries a = some e := by
  obtain ⟨k, -, hk⟩ := (h.moved a).mp ⟨i, hi⟩
  obtain ⟨e, he⟩ := shape.live k a hk
  obtain ⟨j, hj⟩ := h.same a
  exact ⟨_, hj.trans (congrArg _ he)⟩

/-- One more entry in the first empty slot from its hash. -/
theorem Rehashed.place (h : Rehashed ht.items ht.entries (ht.size * 2) done items entries) {i d : Nat}
    {a : Addr} (hi : ht.items i = some a) (hnew : ∀ j, items j ≠ some a) {e : DQHTEntry K V}
    (he : entries a = some e) {slot : Nat} (hd : d < ht.size * 2)
    (hslot : (TableKey.hash e.key % (ht.size * 2) + d) % (ht.size * 2) = slot)
    (hempty : items slot = none)
    (hfull : ∀ c < d, ∃ b,
      items ((TableKey.hash e.key % (ht.size * 2) + c) % (ht.size * 2)) = some b) :
    Rehashed ht.items ht.entries (ht.size * 2) (done ++ [i]) (Function.update items slot (some a))
      (entries.modify a fun e => { e with index := slot }) := by
  have hslotlt : slot < ht.size * 2 := hslot ▸ Nat.mod_lt _ (by omega)
  obtain ⟨f, hf, hef⟩ := h.of_entry he
  constructor
  · intro j b hj
    rcases eq_or_ne j slot with rfl | hne
    · exact hslotlt
    · rw [Function.update_of_ne hne] at hj
      exact h.bound j b hj
  · exact h.inj.update hnew
  · intro b
    constructor
    · rintro ⟨j, hj⟩
      rcases eq_or_ne j slot with rfl | hne
      · rw [Function.update_self, Option.some.injEq] at hj
        exact ⟨i, by simp, hj ▸ hi⟩
      · rw [Function.update_of_ne hne] at hj
        obtain ⟨k, hk, hkb⟩ := (h.moved b).mp ⟨j, hj⟩
        exact ⟨k, by simp [hk], hkb⟩
    · rintro ⟨k, hk, hkb⟩
      rcases List.mem_append.mp hk with hk | hk
      · obtain ⟨j, hj⟩ := (h.moved b).mpr ⟨k, hk, hkb⟩
        refine ⟨j, ?_⟩
        rw [Function.update_of_ne (by rintro rfl; simp [hempty] at hj), hj]
      · obtain rfl := List.mem_singleton.mp hk
        exact ⟨slot, by rw [Function.update_self, ← hkb, hi]⟩
  · intro j b g hj hg
    rcases eq_or_ne j slot with rfl | hne
    · rw [Function.update_self, Option.some.injEq] at hj
      subst hj
      rw [Entries.modify_self, he] at hg
      cases hg
      rfl
    · rw [Function.update_of_ne hne] at hj
      rw [Entries.modify_of_ne _ _ (by rintro rfl; exact hnew j hj)] at hg
      exact h.index j b g hj hg
  · intro b
    rcases eq_or_ne b a with rfl | hne
    · refine ⟨slot, ?_⟩
      rw [Entries.modify_self, he, hf, Option.map_some, Option.map_some, hef]
    · rw [Entries.modify_of_ne _ _ hne]
      exact h.same b
  · intro j b g hj hg
    rcases eq_or_ne j slot with rfl | hne
    · rw [Function.update_self, Option.some.injEq] at hj
      subst hj
      rw [Entries.modify_self, he] at hg
      cases hg
      refine Reach.update ⟨d, hd, hslot, hfull⟩ _ _
    · rw [Function.update_of_ne hne] at hj
      rw [Entries.modify_of_ne _ _ (by rintro rfl; exact hnew j hj)] at hg
      exact (h.reach j b g hj hg).update _ _

/-- `ht_resize_insert` moves one more entry, unless it meets its key. -/
theorem Rehashed.insert (shape : ht.Shape)
    (h : Rehashed ht.items ht.entries (ht.size * 2) done items entries) {i : Nat} {a : Addr}
    (hi : ht.items i = some a) (hdone : i ∉ done) {e : DQHTEntry K V} (he : entries a = some e) :
    ∃ r, htResizeInsert items entries (ht.size * 2) a e.key (ht.size * 2)
        (TableKey.hash e.key % (ht.size * 2)) = some r ∧
      (r.code = 0 ∧ Rehashed ht.items ht.entries (ht.size * 2) (done ++ [i]) r.items r.entries ∨
        r.code = -1 ∧ r.entries = entries ∧ ¬ht.Separated) := by
  have hnew := h.not_moved shape hi hdone
  obtain ⟨d, hd, hempty, hfull⟩ :=
    exists_first_empty (TableKey.hash e.key % (ht.size * 2)) (h.room shape)
  have hhome : TableKey.hash e.key % (ht.size * 2) < ht.size * 2 := Nat.mod_lt _ (by omega)
  rcases htResizeInsert_cases a e.key hd hhome fun c hc => by
    obtain ⟨b, hb⟩ := hfull c hc
    obtain ⟨f, hf⟩ := h.live shape hb
    exact ⟨b, f, hb, hf⟩ with hforeign | ⟨hmeets, j, b, g', hb, hg', hkey⟩
  · exact ⟨_, htResizeInsert_eq hd hhome hforeign hempty, .inl ⟨rfl,
      h.place hi hnew he hd rfl hempty hfull⟩⟩
  · refine ⟨_, hmeets, .inr ⟨rfl, rfl, fun separated => ?_⟩⟩
    obtain ⟨f, hf, hef⟩ := h.of_entry he
    obtain ⟨g, hg, hgg⟩ := h.of_entry hg'
    rw [hef, hgg] at hkey
    exact hnew j (separated a b f g hf hg hkey ▸ hb)

/-- The loop of `ht_resize` moves the entries of the remaining slots, unless it meets a key twice. -/
theorem htRehash_spec (shape : ht.Shape) (slots : List Nat) (nodup : (done ++ slots).Nodup)
    (h : Rehashed ht.items ht.entries (ht.size * 2) done items entries) :
    ∃ r, htRehash ht.items (ht.size * 2) slots items entries = some r ∧
      (r.code = 0 ∧ Rehashed ht.items ht.entries (ht.size * 2) (done ++ slots) r.items r.entries ∨
        r.code = -1 ∧ ¬ht.Separated ∧
          ∀ a, ∃ i, r.entries a = (ht.entries a).map fun e => { e with index := i }) := by
  induction slots generalizing done items entries with
  | nil => exact ⟨_, rfl, .inl ⟨rfl, by simpa using h⟩⟩
  | cons i slots ih =>
    rw [htRehash]
    cases hi : ht.items i with
    | none =>
      have hskip : Rehashed ht.items ht.entries (ht.size * 2) (done ++ [i]) items entries :=
        { h with
          moved := fun a => by
            rw [h.moved a]
            constructor
            · rintro ⟨j, hj, hja⟩
              exact ⟨j, by simp [hj], hja⟩
            · rintro ⟨j, hj, hja⟩
              rcases List.mem_append.mp hj with hj | hj
              · exact ⟨j, hj, hja⟩
              · simp [List.mem_singleton.mp hj, hi] at hja }
      obtain ⟨r, hr, hcases⟩ := ih (by simpa using nodup) hskip
      exact ⟨r, hr, by simpa using hcases⟩
    | some a =>
      have hnotdone : i ∉ done := by
        intro hmem
        rw [List.nodup_append] at nodup
        exact nodup.2.2 i hmem i (by simp) rfl
      obtain ⟨f, hf⟩ := shape.live i a hi
      obtain ⟨j, hj⟩ := h.same a
      rw [hf, Option.map_some] at hj
      obtain ⟨r, hr, ⟨hcode, hstep⟩ | ⟨hcode, hentries, hmeets⟩⟩ := h.insert shape hi hnotdone hj
      · obtain ⟨r', hr', hcases⟩ := ih (by simpa using nodup) hstep
        refine ⟨r', ?_, by simpa using hcases⟩
        simp only [hj, hr, hcode, ne_eq, not_true_eq_false, ↓reduceIte, hr']
      · refine ⟨{ r with code := -1 }, ?_, .inr ⟨rfl, hmeets, fun b => hentries ▸ h.same b⟩⟩
        simp [hj, hr, hcode]

/-- The new array has the entries of the old one. -/
theorem Rehashed.stored (shape : ht.Shape)
    (h : Rehashed ht.items ht.entries (ht.size * 2) (List.range ht.size) items entries) (a : Addr) :
    (∃ i, items i = some a) ↔ ∃ i, ht.items i = some a := by
  rw [h.moved a]
  constructor
  · rintro ⟨j, -, hj⟩
    exact ⟨j, hj⟩
  · rintro ⟨j, hj⟩
    exact ⟨j, by simpa using shape.bound j a hj, hj⟩

theorem Rehashed.shape (shape : ht.Shape)
    (h : Rehashed ht.items ht.entries (ht.size * 2) (List.range ht.size) items entries) :
    Shape { ht with items, entries, size := ht.size * 2 } := by
  have hpos := shape.size_pos
  have hload := shape.load
  have hcount : (occupied items (ht.size * 2)).card = (occupied ht.items ht.size).card := by
    apply Nat.le_antisymm
    · exact card_occupied_le_of_subset h.inj shape.bound fun i a hi => (h.stored shape a).mp ⟨i, hi⟩
    · exact card_occupied_le_of_subset shape.inj h.bound fun i a hi => (h.stored shape a).mpr ⟨i, hi⟩
  constructor
  · show 0 < ht.size * 2
    omega
  · exact h.bound
  · exact fun i a hi => h.live shape hi
  · exact h.inj
  · intro a e he
    obtain ⟨f, hf, -⟩ := h.of_entry he
    exact (h.stored shape a).mpr (shape.placed a f hf)
  · intro a e he
    obtain ⟨f, hf, -⟩ := h.of_entry he
    exact shape.fresh a f hf
  · show ht.count = _
    rw [hcount, shape.count_eq]
  · show 2 * ht.count ≤ ht.size * 2
    omega

/-- `ht'` is `ht` with its entries in other slots. -/
structure Moved (ht ht' : HashTable K V) : Prop where
  wf : ht'.WF
  count_eq : ht'.count = ht.count
  comparator_eq : ht'.comparator = ht.comparator
  fresh_eq : ht'.fresh = ht.fresh
  same : ∀ a, ∃ i, ht'.entries a = (ht.entries a).map fun e => { e with index := i }

/-- What `ht_resize` makes of `ht`: a table of twice the size with the same entries, each reached
by probing from its hash. -/
structure Resized (ht ht' : HashTable K V) : Prop extends Moved ht ht' where
  size_eq : ht'.size = ht.size * 2
  reach : ht'.Reaching

theorem htResize_spec (ok : Alloc) (hok : ok.items = true) (shape : ht.Shape)
    (distinct : ht.Distinct) (separated : ht.Separated) :
    ∃ ht', htResize ok ht = some (0, ht') ∧ Resized ht ht' := by
  obtain ⟨r, hr, hcases⟩ := htRehash_spec shape (List.range ht.size)
    (by simpa using List.nodup_range) (Rehashed.start ht.items ht.entries (ht.size * 2))
  obtain ⟨hcode, h⟩ := hcases.resolve_right fun hmeets => hmeets.2.1 separated
  refine ⟨{ ht with items := r.items, entries := r.entries, size := ht.size * 2 }, ?_, ?_⟩
  · simp [htResize, hok, hr, hcode]
    omega
  · refine ⟨⟨⟨Rehashed.shape shape h, h.index, ?_⟩, rfl, rfl, rfl, h.same⟩, rfl, h.reach⟩
    intro a b e f he hf hkey
    obtain ⟨e', he', hee⟩ := h.of_entry he
    obtain ⟨f', hf', hff⟩ := h.of_entry hf
    rw [hee, hff] at hkey
    exact distinct a b e' f' he' hf' hkey

end Rehash

omit [TableKey K] in
theorem Moved.refl {ht : HashTable K V} (h : ht.WF) : Moved ht ht :=
  ⟨h, rfl, rfl, rfl, fun a => by
    cases he : ht.entries a with
    | none => exact ⟨0, rfl⟩
    | some e => exact ⟨e.index, rfl⟩⟩

omit [TableKey K] in
/-- An entry of a table after its entries moved, seen from the table before. -/
theorem Moved.of_entry {ht ht' : HashTable K V} (h : Moved ht ht') {a : Addr}
    {e : DQHTEntry K V} (he : ht'.entries a = some e) :
    ∃ f, ht.entries a = some f ∧ e = { f with index := e.index } := by
  obtain ⟨i, hi⟩ := h.same a
  rw [he] at hi
  obtain ⟨f, hf, rfl⟩ := Option.map_eq_some_iff.mp hi.symm
  exact ⟨f, hf, rfl⟩

omit [TableKey K] in
theorem Moved.absent {ht ht' : HashTable K V} (h : Moved ht ht') {key : K}
    (absent : ∀ a e, ¬ht.Has key a e) : ∀ a e, ¬ht'.Has key a e := by
  rintro a e ⟨he, hkey⟩
  obtain ⟨f, hf, hef⟩ := h.of_entry he
  exact absent a f ⟨hf, by rw [← hkey, hef]⟩

theorem Moved.separated {ht ht' : HashTable K V} (h : Moved ht ht') (separated : ht.Separated) :
    ht'.Separated := by
  intro a b e f he hf hcmp
  obtain ⟨e', he', hee⟩ := h.of_entry he
  obtain ⟨f', hf', hff⟩ := h.of_entry hf
  rw [hee, hff] at hcmp
  exact separated a b e' f' he' hf' hcmp

/-! ### Insertion -/

omit [TableKey K] in
/-- Other entries at the same addresses. -/
theorem HashTable.Shape.withEntries {ht : HashTable K V} (h : ht.Shape) {entries : Entries K V}
    (same : ∀ a, (entries a).isSome = (ht.entries a).isSome) : Shape { ht with entries } := by
  have back : ∀ a e, entries a = some e → ∃ f, ht.entries a = some f := by
    intro a e he
    exact Option.isSome_iff_exists.mp ((same a).symm.trans (he ▸ rfl))
  constructor
  · exact h.size_pos
  · exact h.bound
  · intro i a hi
    obtain ⟨e, he⟩ := h.live i a hi
    exact Option.isSome_iff_exists.mp ((same a).trans (he ▸ rfl))
  · exact h.inj
  · intro a e he
    obtain ⟨f, hf⟩ := back a e he
    exact h.placed a f hf
  · intro a e he
    obtain ⟨f, hf⟩ := back a e he
    exact h.fresh a f hf
  · exact h.count_eq
  · exact h.load

omit [TableKey K] in
/-- Entries that keep their keys and indices keep a table well formed. -/
theorem HashTable.WF.withEntries {ht : HashTable K V} (h : ht.WF) {entries : Entries K V}
    (same : ∀ a, (entries a).map (fun e => (e.key, e.index)) =
      (ht.entries a).map fun e => (e.key, e.index)) : WF { ht with entries } := by
  have back : ∀ a e, entries a = some e →
      ∃ f, ht.entries a = some f ∧ f.key = e.key ∧ f.index = e.index := by
    intro a e he
    have hs := same a
    rw [he, Option.map_some] at hs
    obtain ⟨f, hf, hfe⟩ := Option.map_eq_some_iff.mp hs.symm
    exact ⟨f, hf, by simpa using hfe⟩
  refine ⟨h.toShape.withEntries fun a => ?_, ?_, ?_⟩
  · simpa using congrArg Option.isSome (same a)
  · intro i a e hi he
    obtain ⟨f, hf, -, hidx⟩ := back a e he
    rw [← hidx]
    exact h.indexed i a f hi hf
  · intro a b e f he hf hkey
    obtain ⟨e', he', hke, -⟩ := back a e he
    obtain ⟨f', hf', hkf, -⟩ := back b f hf
    exact h.distinct a b e' f' he' hf' (by rw [hke, hkf, hkey])

omit [TableKey K] in
theorem HashTable.Shape.modify {ht : HashTable K V} (h : ht.Shape) (a : Addr)
    (f : DQHTEntry K V → DQHTEntry K V) : Shape { ht with entries := ht.entries.modify a f } := by
  refine h.withEntries fun b => ?_
  rcases eq_or_ne b a with rfl | hne
  · rw [Entries.modify_self, Option.isSome_map]
  · rw [Entries.modify_of_ne _ _ hne]

omit [TableKey K] in
theorem HashTable.WF.modify {ht : HashTable K V} (h : ht.WF) (a : Addr)
    {f : DQHTEntry K V → DQHTEntry K V} (key : ∀ e, (f e).key = e.key)
    (index : ∀ e, (f e).index = e.index) : WF { ht with entries := ht.entries.modify a f } := by
  refine h.withEntries fun b => ?_
  rcases eq_or_ne b a with rfl | hne
  · rw [Entries.modify_self]
    cases ht.entries b <;> simp [key, index]
  · rw [Entries.modify_of_ne _ _ hne]

omit [TableKey K] in
theorem HashTable.Shape.fresh_ne {ht : HashTable K V} (h : ht.Shape) (j : Nat) :
    ht.items j ≠ some ht.fresh := by
  intro hj
  obtain ⟨e, he⟩ := h.live j _ hj
  exact Nat.lt_irrefl _ (h.fresh _ e he)

omit [TableKey K] in
/-- The entries after an insertion: the new one, and the old ones. -/
theorem htCreateAt_entry {ht : HashTable K V} {index : Nat} {key : K} {value : V} {a : Addr}
    {e : DQHTEntry K V} (he : (htCreateAt ht index key value).entries a = some e) :
    (a = ht.fresh ∧ e = { dqhtentryCreate key value with index }) ∨
      (a ≠ ht.fresh ∧ ht.entries a = some e) := by
  simp only [htCreateAt, Function.update_apply] at he
  split at he
  · exact .inl ⟨by assumption, (Option.some.inj he).symm⟩
  · exact .inr ⟨by assumption, he⟩

omit [TableKey K] in
/-- A new entry in an empty slot. -/
theorem htCreateAt_shape {ht : HashTable K V} (h : ht.Shape) {index : Nat} (key : K) (value : V)
    (room : 2 * (ht.count + 1) ≤ ht.size) (hindex : index < ht.size)
    (empty : ht.items index = none) : (htCreateAt ht index key value).Shape := by
  constructor
  · exact h.size_pos
  · intro i a hi
    simp only [htCreateAt, Function.update_apply] at hi
    split at hi
    · subst i
      exact hindex
    · exact h.bound i a hi
  · intro i a hi
    simp only [htCreateAt, Function.update_apply] at hi ⊢
    split at hi
    · simp [← Option.some.inj hi]
    · split
      · exact ⟨_, rfl⟩
      · exact h.live i a hi
  · exact h.inj.update h.fresh_ne
  · intro a e he
    rcases htCreateAt_entry he with ⟨rfl, -⟩ | ⟨-, he⟩
    · exact ⟨index, Function.update_self ..⟩
    · obtain ⟨i, hi⟩ := h.placed a e he
      have hne : i ≠ index := by
        rintro rfl
        simp [empty] at hi
      exact ⟨i, (Function.update_of_ne hne _ _).trans hi⟩
  · intro a e he
    show a < ht.fresh + 1
    rcases htCreateAt_entry he with ⟨rfl, -⟩ | ⟨-, he⟩
    · exact Nat.lt_succ_self _
    · exact Nat.lt_succ_of_lt (h.fresh a e he)
  · simp only [htCreateAt]
    rw [card_occupied_insert _ hindex empty, h.count_eq]
  · exact room

omit [TableKey K] in
/-- A new entry with an absent key, in an empty slot. -/
theorem htCreateAt_wf {ht : HashTable K V} (h : ht.WF) {index : Nat} {key : K} (value : V)
    (room : 2 * (ht.count + 1) ≤ ht.size) (hindex : index < ht.size)
    (empty : ht.items index = none) (absent : ∀ a e, ¬ht.Has key a e) :
    (htCreateAt ht index key value).WF := by
  refine ⟨htCreateAt_shape h.toShape key value room hindex empty, ?_, ?_⟩
  · intro i a e hi he
    simp only [htCreateAt, Function.update_apply] at hi
    rcases htCreateAt_entry he with ⟨rfl, rfl⟩ | ⟨hne, he⟩
    · split at hi
      · exact Eq.symm (by assumption)
      · exact absurd hi (h.fresh_ne i)
    · split at hi
      · exact absurd (Option.some.inj hi).symm hne
      · exact h.indexed i a e hi he
  · intro a b e f he hf hkey
    rcases htCreateAt_entry he with ⟨rfl, rfl⟩ | ⟨hane, he⟩ <;>
      rcases htCreateAt_entry hf with ⟨rfl, rfl⟩ | ⟨hbne, hf⟩
    · rfl
    · exact absurd ⟨hf, hkey.symm⟩ (absent b f)
    · exact absurd ⟨he, hkey⟩ (absent a e)
    · exact h.distinct a b e f he hf hkey

/-- A new entry where probing from its hash stops. -/
theorem htCreateAt_reaching {ht : HashTable K V} (h : ht.WF) (reaching : ht.Reaching) {index : Nat}
    {key : K} (value : V)
    (reach : Reach ht.items ht.size (TableKey.hash key % ht.size) index) :
    (htCreateAt ht index key value).Reaching := by
  intro i a e hi he
  simp only [htCreateAt, Function.update_apply] at hi he
  split at hi
  · cases Option.some.inj hi
    rw [if_pos rfl, Option.some_inj] at he
    subst he
    rename_i hindex
    exact hindex ▸ reach.update _ _
  · rw [if_neg (by rintro rfl; exact h.fresh_ne i hi)] at he
    exact (reaching i a e hi he).update _ _

section Insert

variable {ht : HashTable K V} {key : K}

/-- `ht_insert` of a value, in the table as it is or resized, where there is room for one more. -/
theorem htInsert_eq (ok : Alloc) (h : ht.WF) (separated : ht.Separated)
    (hok : ht.size / 2 ≤ ht.count → ok.items = true) (key : K) (value : V) :
    ∃ ht', htInsert ok ht key (some value) = some (htInsertSlot ok ht' key value) ∧
      Moved ht ht' ∧ 2 * (ht'.count + 1) ≤ ht'.size ∧
      ((ht' = ht ∧ ht.count < ht.size / 2) ∨ Resized ht ht') := by
  have hload := h.load
  have hpos := h.size_pos
  by_cases hfull : ht.size / 2 ≤ ht.count
  · obtain ⟨ht', hr, hresized⟩ := htResize_spec ok (hok hfull) h.toShape h.distinct separated
    refine ⟨ht', ?_, hresized.toMoved, ?_, .inr hresized⟩
    · simp [htInsert, hfull, hr]
    · rw [hresized.count_eq, hresized.size_eq]
      omega
  · refine ⟨ht, ?_, Moved.refl h, by omega, .inl ⟨rfl, by omega⟩⟩
    simp [htInsert, hfull]

/-- The end of `ht_insert` where probing from the hash of the key meets no equal key before the first
empty slot. -/
theorem htInsertSlot_stops (ok : Alloc) (h : ht.Shape) (key : K) (value : V) (room : ht.count < ht.size)
    (foreign : ∀ i a e, ht.items i = some a → ht.entries a = some e →
      Reach ht.items ht.size (TableKey.hash key % ht.size) i → TableKey.cmp key e.key ≠ 0) :
    ∃ index < ht.size, ht.items index = none ∧
      Reach ht.items ht.size (TableKey.hash key % ht.size) index ∧ htInsertSlot ok ht key value =
      if ok.entry = false then
        { code := -1, table := ht, entryAtIndex := none, overridden := none }
      else {
        code := 0, table := htCreateAt ht index key value, entryAtIndex := some ht.fresh
        overridden := none } := by
  have hempty : ∃ i < ht.size, ht.items i = none := exists_empty (by rw [← h.count_eq]; omega)
  have hhome := Nat.mod_lt (TableKey.hash key) h.size_pos
  obtain ⟨d, hd, hnone, hfull⟩ := exists_first_empty (TableKey.hash key % ht.size) hempty
  have hforeign : ∀ c < d, Foreign ht.items ht.entries key
      ((TableKey.hash key % ht.size + c) % ht.size) := by
    intro c hc
    obtain ⟨a, ha⟩ := hfull c hc
    obtain ⟨e, he⟩ := h.live _ a ha
    exact ⟨a, e, ha, he, foreign _ a e ha he
      ⟨c, by omega, rfl, fun c' hc' => hfull c' (by omega)⟩⟩
  refine ⟨_, Nat.mod_lt _ h.size_pos, hnone, ⟨d, hd, rfl, hfull⟩, ?_⟩
  simp only [htInsertSlot, htInsertLoop_empty hd hhome hforeign hnone, update_none_of_empty hnone]

/-- The end of `ht_insert` for an absent key. -/
theorem htInsertSlot_absent (ok : Alloc) (hok : ok.entry = true) (h : ht.WF) (value : V)
    (room : 2 * (ht.count + 1) ≤ ht.size) (absent : ∀ a e, ¬ht.Has key a e)
    (foreign : ∀ a e, ht.entries a = some e → TableKey.cmp key e.key ≠ 0) :
    ∃ index, (htCreateAt ht index key value).WF ∧
      Reach ht.items ht.size (TableKey.hash key % ht.size) index ∧ htInsertSlot ok ht key value = {
        code := 0, table := htCreateAt ht index key value, entryAtIndex := some ht.fresh
        overridden := none } := by
  obtain ⟨index, hindex, hnone, hreach, heq⟩ := htInsertSlot_stops ok h.toShape key value (by omega)
    fun _ a e _ he _ => foreign a e he
  refine ⟨index, htCreateAt_wf h value room hindex hnone absent, hreach, ?_⟩
  rw [heq, if_neg (by simp [hok])]

/-- The end of `ht_insert` where probing from the hash of the key reaches the only entry whose key
compares equal. -/
theorem htInsertSlot_reached (ok : Alloc) (h : ht.WF) (value : V) {a : Addr}
    {e : DQHTEntry K V} (he : ht.entries a = some e) (equal : TableKey.cmp key e.key = 0)
    (only : ∀ b f, ht.entries b = some f → TableKey.cmp key f.key = 0 → b = a)
    (reach : Reach ht.items ht.size (TableKey.hash key % ht.size) e.index) :
    htInsertSlot ok ht key value = {
      code := 1
      table := { ht with entries := ht.entries.modify a fun e => { e with ptr := value } }
      entryAtIndex := some a
      overridden := some e.ptr } := by
  have hhome := Nat.mod_lt (TableKey.hash key) h.size_pos
  obtain ⟨d, hd, hslot, hfull⟩ := reach
  have hforeign : ∀ c < d, Foreign ht.items ht.entries key
      ((TableKey.hash key % ht.size + c) % ht.size) := by
    intro c hc
    obtain ⟨b, hb⟩ := hfull c hc
    obtain ⟨f, hf⟩ := h.live _ b hb
    refine ⟨b, f, hb, hf, fun hk => ?_⟩
    obtain rfl := only b f hf hk
    have hsame := hslot.trans (h.inj _ _ b (h.slot he) hb)
    have := displacement_unique hd (by omega) hsame
    omega
  have ha : ht.items ((TableKey.hash key % ht.size + d) % ht.size) = some a := by
    rw [hslot]
    exact h.slot he
  have hloop := htInsertLoop_found hd hhome hforeign ha he equal
  simp [htInsertSlot, hloop, he]

end Insert

/-! ### Deletion -/

omit [TableKey K] in
theorem clear_item {ht : HashTable K V} {index i : Nat} {b : Addr}
    (hi : Function.update ht.items index none i = some b) : i ≠ index ∧ ht.items i = some b := by
  rw [Function.update_apply] at hi
  split at hi
  · simp at hi
  · exact ⟨by assumption, hi⟩

omit [TableKey K] in
theorem clear_entry {ht : HashTable K V} {a b : Addr} {f : DQHTEntry K V}
    (hf : Function.update ht.entries a none b = some f) : b ≠ a ∧ ht.entries b = some f := by
  rw [Function.update_apply] at hf
  split at hf
  · simp at hf
  · exact ⟨by assumption, hf⟩

omit [TableKey K] in
theorem htDeleteEntry_shape {ht : HashTable K V} (h : ht.Shape) {index : Nat} {a : Addr}
    (hslot : ht.items index = some a) :
    Shape { ht with
      count := ht.count - 1
      items := Function.update ht.items index none
      entries := Function.update ht.entries a none } := by
  constructor
  · exact h.size_pos
  · exact fun i b hi => h.bound i b (clear_item hi).2
  · intro i b hi
    obtain ⟨hne, hi⟩ := clear_item hi
    obtain ⟨f, hf⟩ := h.live i b hi
    have hba : b ≠ a := fun hba => hne (h.inj i index a (hba ▸ hi) hslot)
    exact ⟨f, (Function.update_of_ne hba _ _).trans hf⟩
  · exact h.inj.clear _
  · intro b f hf
    obtain ⟨hne, hf⟩ := clear_entry hf
    obtain ⟨i, hi⟩ := h.placed b f hf
    have hii : i ≠ index := by
      rintro rfl
      exact hne (Option.some.inj (hi.symm.trans hslot))
    exact ⟨i, (Function.update_of_ne hii _ _).trans hi⟩
  · exact fun b f hf => h.fresh b f (clear_entry hf).2
  · show ht.count - 1 = (occupied (Function.update ht.items index none) ht.size).card
    rw [card_occupied_clear (h.bound _ a hslot) hslot, h.count_eq]
  · have := h.load
    show 2 * (ht.count - 1) ≤ ht.size
    omega

omit [TableKey K] in
theorem htDeleteEntry_wf {ht : HashTable K V} (h : ht.WF) {a : Addr} {e : DQHTEntry K V}
    (he : ht.entries a = some e) :
    htDeleteEntry ht e.index = (some e.ptr, { ht with
        count := ht.count - 1
        items := Function.update ht.items e.index none
        entries := Function.update ht.entries a none }) ∧ (htDeleteEntry ht e.index).2.WF := by
  have hslot := h.slot he
  have heq : htDeleteEntry ht e.index = (some e.ptr, { ht with
      count := ht.count - 1
      items := Function.update ht.items e.index none
      entries := Function.update ht.entries a none }) := by
    simp [htDeleteEntry, hslot, he]
  refine ⟨heq, ?_⟩
  rw [heq]
  refine ⟨htDeleteEntry_shape h.toShape hslot, ?_, ?_⟩
  · exact fun i b f hi hf => h.indexed i b f (clear_item hi).2 (clear_entry hf).2
  · exact fun b c f g hf hg => h.distinct b c f g (clear_entry hf).2 (clear_entry hg).2

end SearchCache
