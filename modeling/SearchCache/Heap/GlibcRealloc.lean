import SearchCache.Heap.GlibcRuns

/-! What the callers of `gca_realloc` get: the contents of the old block where it succeeds, and the
old heap where it fails, unless the block has taken in the free block after it by then. -/

namespace Gca

open Memory Htfh Chunks Linked

variable {l before after : List Chunk} {top size : Nat} {fl : List Nat} {a a' : GlibcAllocator}
  {c : Chunk}

/-! ### Success -/

/-- The used chunk `d` has taken the place of `c`, for a request of `size` bytes. -/
structure Moved (l : List Chunk) (c : Chunk) (size : Nat) (d : Chunk) (a a' : GlibcAllocator)
    (l' : List Chunk) : Prop where
  live : d ∈ Used l'
  large : size ≤ d.size
  contents : ∀ i < min c.size size, a'.mem.byte (d.addr + 16 + i) = a.mem.byte (c.addr + 16 + i)
  gone : d.addr ≠ c.addr → ∀ e ∈ Used l', e.addr ≠ c.addr
  others : ∀ e ∈ Used l, e ≠ c → e ∈ Used l' ∧
    ∀ x, e.addr + 16 ≤ x → x < e.stop 16 → a'.mem.byte x = a.mem.byte x

theorem Resized.moved {d : Chunk} {l' : List Chunk} {top' : Nat} {fl' : List Nat}
    (h : Resized before c after c.size size d a a' l' top' fl')
    (hold : Whole (before ++ c :: after) top fl a) : Moved (before ++ c :: after) c size d a a' l' where
  live := h.used ▸ Set.mem_insert _ _
  large := h.large
  contents i hi := h.contents i (by omega) (by omega)
  gone hne e he := by
    rw [h.used] at he
    rcases Set.mem_insert_iff.mp he with rfl | he
    · exact hne
    · exact hold.apart_used e he
  others e he hne := by
    have hmem : e ∈ Used (before ++ after) := by
      rw [used_others hold.tagged.tiles (by omega)]
      exact ⟨he, hne⟩
    exact ⟨h.used ▸ Set.mem_insert_of_mem _ hmem, fun x => h.kept.byte e hmem.1 hmem.2 x⟩

/-- The allocator after the first request for 100 bytes. -/
theorem exists_reserved {heapSize : Nat} (h : Mapped heapSize 4096) :
    ∃ a before c after top fl, gcaMalloc 100 (gcaCreate heapSize 4096 Client.zeroed).2 =
        some (some (c.addr + 16), a) ∧ Whole (before ++ c :: after) top fl a ∧
      a.heapSize = heapSize ∧ c.used ∧ 100 ≤ c.size := by
  obtain ⟨a0, heq, hwhole, hsize, -⟩ := gcaCreate_spec h Client.zeroed
  obtain ⟨r, a, hmalloc, hreq, hrefused⟩ :=
    hwhole.malloc 100 (by decide) (.inl (by decide))
  have hserved : r ≠ none := by
    rw [Ne, hrefused (by decide) (by decide) (hsize.trans_lt h.small)]
    rintro ⟨hall, -⟩
    exact absurd (hall (bottomChunk 4096) (by simp) rfl) (by decide)
  rcases hreq with ⟨rfl, -⟩ | ⟨c, l, top, fl, rfl, h1⟩
  · exact absurd rfl hserved
  obtain ⟨hc, hused⟩ : c ∈ Used l := h1.used ▸ Set.mem_insert _ _
  obtain ⟨before, after, rfl⟩ := List.append_of_mem hc
  rw [heq]
  exact ⟨a, before, c, after, top, fl, hmalloc, h1.whole, h1.kept.heapSize.trans hsize, hused, h1.large⟩

/-- The blocks, the list of the free ones and the break are as they were, and so are the requests
that succeed. -/
structure Unchanged (l : List Chunk) (top : Nat) (fl : List Nat) (a a' : GlibcAllocator) : Prop where
  whole : ∃ fl', Whole l top fl' a' ∧ ∀ x, x ∈ fl' ↔ x ∈ fl
  brk : a'.currentBrk = a.currentBrk
  serves : ∀ n ≤ a.heapSize, (∃ p b, gcaMalloc n a = some (some p, b)) →
    ∃ p b, gcaMalloc n a' = some (some p, b)

theorem Whole.freeList_mem (h : Whole l top fl a) {fl' : List Nat} (h' : Whole l top fl' a') {x : Nat}
    (hx : x ∈ fl) : x ∈ fl' := by
  obtain ⟨c, hc, rfl, hfree⟩ := h.listed.free x hx
  exact h'.complete c hc hfree

/-- Requests on two heaps of the same blocks. -/
theorem Whole.serves {fl' : List Nat} (h : Whole l top fl a) (h' : Whole l top fl' a')
    (hsmall : a.heapSize < 2 ^ 63) (hheap : a'.heap = a.heap) (hsize : a'.heapSize = a.heapSize)
    {n : Nat} (hn : n ≤ a.heapSize) (hserves : ∃ p b, gcaMalloc n a = some (some p, b)) :
    ∃ p b, gcaMalloc n a' = some (some p, b) := by
  obtain ⟨p, b, hp⟩ := hserves
  obtain ⟨r, b1, heq, hreq, hrefused⟩ := h.malloc n (by omega) (.inl (by omega))
  obtain ⟨r', b2, heq', -, hrefused'⟩ := h'.malloc n (by omega) (.inl (by omega))
  obtain ⟨rfl, rfl⟩ := Prod.mk.inj (Option.some.inj (hp.symm.trans heq))
  have hpos : 0 < n := by
    rcases Nat.eq_zero_or_pos n with rfl | hpos
    · rw [gcaMalloc, if_pos (.inr rfl)] at hp
      simp at hp
    · exact hpos
  have hnot := mt (hrefused hpos (by omega) hsmall).mpr (Option.some_ne_none p)
  have hsame : Refused l top (gcaRoundUp n gcaDataAlign) a' ↔
      Refused l top (gcaRoundUp n gcaDataAlign) a := by
    rw [Refused, Refused, Full, Full, hheap, hsize]
  obtain ⟨p', hp'⟩ := Option.ne_none_iff_exists'.mp
    (mt ((hrefused' hpos (by omega) (hsize.trans_lt hsmall)).mp.comp id) (hsame.not.mpr hnot))
  exact ⟨p', b2, by rw [heq', hp']⟩

/-- A block that has taken in the next one is not the old one. -/
theorem Whole.not_joined {fl' : List Nat} (h : Whole (before ++ c :: after) top fl a)
    (hjoins : joins after) : ¬ Whole (before ++ joinNext 16 c after) top fl' a := by
  intro h'
  rw [joinNext_eq] at h'
  have hold := h.tagged.head c (by simp)
  have hnew := h'.tagged.head { c with size := joinSize 16 c after } (by simp)
  have hsize : c.size = joinSize 16 c after := congrArg Tag.size (hold.symm.trans hnew)
  cases after with
  | nil => simp [joins] at hjoins
  | cons d after =>
    have hd : ¬ d.used := by simpa [joins] using hjoins
    rw [joinSize, if_neg hd] at hsize
    omega

theorem joinNext_of_not_joins (h : ¬ joins after) : joinNext 16 c after = c :: after := by
  cases after with
  | nil => rfl
  | cons d after =>
    have hd : d.used := by simpa [joins] using h
    rw [joinNext, if_pos hd]

end Gca
