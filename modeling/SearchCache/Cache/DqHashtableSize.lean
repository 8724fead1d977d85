import SearchCache.Cache.DqHashtable

/-! How long the slot arrays get.  Only an insertion into a table that is half full makes a new array,
of twice the length, so that an array which starts within a bound stays within it as long as four
times the number of entries does. -/

namespace SearchCache

variable {K V : Type} {n : Nat}

/-- The array has `n` slots at most, and one entry more would not make it longer than that. -/
structure HashTable.Fits (ht : HashTable K V) (n : Nat) : Prop where
  size_le : ht.size ≤ n
  room : 4 * ht.count + 2 ≤ n

/-- The same array with no more entries. -/
structure DequeueHashTable.Thinned (dqht dqht' : DequeueHashTable K V) : Prop where
  size : dqht'.ht.size = dqht.ht.size
  count : dqht'.ht.count ≤ dqht.ht.count

namespace DequeueHashTable.Thinned

variable {d d' d'' : DequeueHashTable K V}

theorem refl (d : DequeueHashTable K V) : Thinned d d := ⟨rfl, Nat.le_refl _⟩

theorem of_eq (h : d' = d) : Thinned d d' := h ▸ refl d

theorem trans (h : Thinned d d') (h' : Thinned d' d'') : Thinned d d'' :=
  ⟨h'.size.trans h.size, h'.count.trans h.count⟩

theorem fits (h : Thinned d d') (hfits : d.ht.Fits n) : d'.ht.Fits n :=
  ⟨h.size ▸ hfits.size_le, by
    have := hfits.room
    have := h.count
    omega⟩

end DequeueHashTable.Thinned

/-! ### The hash table -/

section Keys

variable [TableKey K] {ht : HashTable K V} {dqht : DequeueHashTable K V} {ok : Alloc} {key : K}

theorem htResize_size {code : Int} {ht' : HashTable K V} (h : htResize ok ht = some (code, ht')) :
    ht'.size ≤ ht.size * 2 := by
  unfold htResize at h
  dsimp only at h
  split at h
  · cases h
    omega
  · split at h
    · cases h
      omega
    · split at h
      · simp at h
      · split at h
        · cases h
          show ht.size ≤ _
          omega
        · cases h
          exact Nat.le_refl _

theorem htInsertSlot_size (ok : Alloc) (ht : HashTable K V) (key : K) (value : V) :
    (htInsertSlot ok ht key value).table.size = ht.size := by
  unfold htInsertSlot
  split
  · rfl
  · split <;> rfl

theorem htInsert_size (hfits : ht.Fits n) {value : Option V} {r : Inserted K V}
    (h : htInsert ok ht key value = some r) : r.table.size ≤ n := by
  have hroom := hfits.room
  unfold htInsert at h
  dsimp only at h
  split at h
  · cases h
    exact hfits.size_le
  · split at h
    · rename_i hhalf
      split at h
      · simp at h
      · rename_i code ht' hresize
        -- the old array was at most twice as long as the number of entries, and one slot
        have hgrown := htResize_size hresize
        have hle : ht'.size ≤ n := by omega
        split at h <;> cases h
        · exact hle
        · rwa [htInsertSlot_size]
    · cases h
      rw [htInsertSlot_size]
      exact hfits.size_le

end Keys

theorem htDeleteEntry_size (ht : HashTable K V) (index : Nat) :
    (htDeleteEntry ht index).2.size = ht.size := by
  unfold htDeleteEntry
  split <;> rfl

theorem htDeleteEntry_count (ht : HashTable K V) (index : Nat) :
    (htDeleteEntry ht index).2.count ≤ ht.count := by
  unfold htDeleteEntry
  split
  · exact Nat.le_refl _
  · exact Nat.sub_le ..

/-! ### The deque -/

section Links

variable (dqht : DequeueHashTable K V) (entry : Addr)

theorem dqhtUnlink_thinned : dqht.Thinned (dqhtUnlink dqht entry) := by
  unfold dqhtUnlink
  dsimp only
  split <;> split <;> exact ⟨rfl, Nat.le_refl _⟩

theorem dqhtLinkLast_size : (dqhtLinkLast dqht entry).ht.size = dqht.ht.size := by
  unfold dqhtLinkLast
  dsimp only
  split <;> rfl

theorem deleteEntry_thinned (index : Nat) :
    dqht.Thinned { dqht with ht := (htDeleteEntry dqht.ht index).2 } :=
  ⟨htDeleteEntry_size .., htDeleteEntry_count ..⟩

theorem dqhtPopFront_thinned : dqht.Thinned (dqhtPopFront dqht).2 := by
  unfold dqhtPopFront dqhtPop
  split
  · exact .refl dqht
  · dsimp only
    split
    · exact dqhtUnlink_thinned ..
    · exact (dqhtUnlink_thinned ..).trans (deleteEntry_thinned ..)

end Links

section Keys

variable [TableKey K] {dqht : DequeueHashTable K V} {ok : Alloc} {key : K}

theorem dqhtRemove_thinned (dqht : DequeueHashTable K V) (key : K) :
    dqht.Thinned (dqhtRemove dqht key).2.2 := by
  unfold dqhtRemove
  split
  · exact .refl dqht
  · exact (dqhtUnlink_thinned ..).trans (deleteEntry_thinned ..)

theorem dqhtInsert_size (hfits : dqht.ht.Fits n) {value : Option V} {r : DqhtInserted K V}
    (h : dqhtInsert ok dqht key value = some r) : r.table.ht.size ≤ n := by
  obtain ⟨i, hi, h⟩ := Option.bind_eq_some_iff.mp h
  have hsize := htInsert_size hfits hi
  dsimp only at h
  split at h
  · cases h
    exact hsize
  · split at h
    · cases h
      exact hsize
    · obtain ⟨-, -, rfl⟩ := Option.map_eq_some_iff.mp h
      rw [dqhtLinkLast_size]
      split
      · rwa [(dqhtUnlink_thinned ..).size]
      · exact hsize

end Keys

end SearchCache
