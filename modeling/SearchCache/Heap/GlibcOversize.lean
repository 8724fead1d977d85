import SearchCache.Heap.GlibcRealloc
import SearchCache.Heap.LockBalance

/-! Requests larger than the heap.  Where rounding does not wrap they are refused; where the number of
pages wraps to 0, the sentinel itself is taken for a new block and its address is returned. -/

namespace Gca

open Memory Htfh Chunks Linked

variable {l before after : List Chunk} {top size n : Nat} {fl : List Nat} {a b : GlibcAllocator}
  {c : Chunk}

/-- The call returns NULL, the live blocks keep their addresses and contents and do not shrink, and
the heap is well formed after it. -/
def Rejected (l : List Chunk) (a : GlibcAllocator) (o : Option (Option Nat × GlibcAllocator)) : Prop :=
  ∃ a' l' top' fl', o = some (none, a') ∧ Whole l' top' fl' a' ∧ Grows l l' ∧ Kept l a a'

theorem Rejected.not_some {p : Nat} : ¬ Rejected l a (some (some p, b)) := by
  rintro ⟨a', -, -, -, heq, -⟩
  simp at heq

/-! ### Sizes that do not wrap -/

theorem Whole.size_lt (h : Whole l top fl a) (hc : c ∈ l) : c.size < a.heapSize := by
  have hbound := h.tagged.lt hc
  have hbrk := h.tagged.brk
  have hwithin := h.tagged.within
  simp only [Chunk.stop] at hbound
  omega

theorem Requested.rejected {a' : GlibcAllocator} {r : Option Nat} (h : Whole l top fl a)
    (hreq : Requested l size a r a') (hsize : a.heapSize < size) : Rejected l a (some (r, a')) := by
  rcases hreq with ⟨rfl, hsame, hmutex⟩ | ⟨d, l', top', fl', -, h1⟩
  · exact ⟨a', l, top, fl, rfl, h.sameHeap hsame, Grows.refl l, hsame.kept hmutex l⟩
  · have hd : d ∈ Used l' := h1.used ▸ Set.mem_insert _ _
    have hlt := h1.whole.size_lt hd.1
    have hlarge := h1.large
    have hheap := h1.kept.heapSize
    omega

theorem ResizeOutcome.rejected {a' : GlibcAllocator} {r : Option Nat} (hused : c.used)
    (hout : ResizeOutcome before c after top size a r a') (hsize : a.heapSize < size) :
    Rejected (before ++ c :: after) a (some (r, a')) := by
  rcases hout with ⟨rfl, fl', h1, hkept⟩ | ⟨d, l', top', fl', -, h1⟩
  · refine ⟨a', _, top, fl', rfl, h1, ?_, hkept⟩
    rw [joinNext_eq]
    exact grows_mid rfl hused le_joinSize used_joinRest.ge
  · have hd : d ∈ Used l' := h1.used ▸ Set.mem_insert _ _
    have hlt := h1.whole.size_lt hd.1
    have hlarge := h1.large
    have hheap := h1.kept.heapSize
    omega

/-! ### Sizes that wrap -/

theorem unlockReturning_some (h : b.mutex = n + 1) (p : Nat) :
    ∃ b', unlockReturning (some p) b = (some p, b') := ⟨_, unlockReturning_eq h (some p)⟩

theorem gcaTake_some (h : b.mutex = n + 1) (header alignedSize : Nat) :
    ∃ p b', gcaTake header alignedSize b = (some p, b') := by
  rw [gcaTake]
  split
  rename_i heq
  have h1 := (locked_gcaSplitBlock h _ _).of_eq heq
  obtain ⟨b', hb'⟩ := unlockReturning_some (mutex_gcaMark (mutex_gcaRemoveFreeList h1 _) _ _)
    (gcaHeaderToData header)
  exact ⟨_, b', hb'⟩

theorem reallocCut_some (h : b.mutex = n + 1) (ptr alignedSize : Nat) :
    ∃ p b', reallocCut ptr alignedSize b = (some p, b') := by
  obtain ⟨b', hb'⟩ := unlockReturning_some (locked_gcaSplitBlock h (gcaDataToHeader ptr) alignedSize) ptr
  exact ⟨ptr, b', hb'⟩

/-- A heap that does not grow is as it was; it always grows by no pages. -/
theorem Tagged.sbrkNewBlock_cases (h : Tagged l top b) (s : Nat) :
    gcaPageSize s ≠ 0 ∧ gcaSbrkNewBlock s b = (none, b) ∨
      ∃ header b', gcaSbrkNewBlock s b = (some header, b') := by
  have hlt : gcaPageSize s < 2 ^ 64 := by
    rw [gcaPageSize_eq]
    omega
  rw [gcaSbrkNewBlock]
  generalize gcaPageSize s = p at hlt ⊢
  rcases h.handledSbrk hlt with ⟨heq, hp, -⟩ | ⟨-, heq⟩
  · exact .inl ⟨hp, by rw [heq, gcaGrown]⟩
  · rw [heq, gcaGrown]
    exact .inr ⟨_, _, rfl⟩

theorem Whole.malloc_wraps (h : Whole l top fl a) (hlow : 2 ^ 64 - 4112 < size)
    (hhigh : size ≤ 2 ^ 64 - 16) : ∃ p a', gcaMalloc size a = some (some p, a') := by
  have hpos := h.tagged.pos
  have hlock := h.sameHeap (sameHeap_lock a)
  have hwrap : ∀ s, s = (size + 15) % 2 ^ 64 / 16 * 16 → s ≠ 0 ∧ gcaPageSize s = 0 := by
    rintro s rfl
    rw [gcaPageSize_eq]
    omega
  rw [gcaMalloc, if_neg (by omega), gcaRoundUp_align]
  obtain ⟨hs, hpage⟩ := hwrap _ rfl
  generalize (size + 15) % 2 ^ 64 / 16 * 16 = s at hs hpage ⊢
  dsimp only
  rw [if_neg hs]
  rcases hlock.toRep.findFreeBlock s with ⟨c, -, -, -, hfind⟩ | ⟨-, hfind⟩
  · obtain ⟨p, a', htake⟩ := gcaTake_some (locked_lock (a := a) rfl) c.addr s
    exact ⟨p, a', by rw [hfind, Option.map_some, gcaMallocFound, htake]⟩
  · obtain ⟨header, a1, hgrow⟩ := (hlock.tagged.sbrkNewBlock_cases s).resolve_left fun hp => hp.1 hpage
    have h1 : a1.mutex = a.mutex + 1 := (locked_gcaSbrkNewBlock (locked_lock (a := a) rfl) s).of_eq hgrow
    obtain ⟨p, a', htake⟩ := gcaTake_some h1 header s
    exact ⟨p, a', by rw [hfind, Option.map_some, gcaMallocFound, hgrow, gcaTakeNew, htake]⟩

theorem Whole.calloc_wraps (h : Whole l top fl a) {num : Nat} (hlow : 2 ^ 64 - 4112 < num * size)
    (hhigh : num * size ≤ 2 ^ 64 - 16) : ∃ p a', gcaCalloc num size a = some (some p, a') := by
  have hpos := h.tagged.pos
  have hsize : 0 < size := Nat.pos_of_ne_zero fun hzero => by simp [hzero] at hlow
  have hnum : 0 < num := Nat.pos_of_ne_zero fun hzero => by simp [hzero] at hlow
  have hle : num ≤ sizeMax / size :=
    (Nat.le_div_iff_mul_le hsize).mpr (by simp only [sizeMax]; omega)
  rw [gcaCalloc, if_neg (by omega), Nat.mod_eq_of_lt (by omega)]
  obtain ⟨p, a1, hmalloc⟩ := (h.sameHeap (sameHeap_lock a)).malloc_wraps hlow hhigh
  have h1 : a1.mutex = a.mutex + 1 := locked_gcaMalloc _ (locked_lock (a := a) rfl) _ hmalloc
  obtain ⟨a', ha'⟩ := unlockReturning_some (b := setMem (fun m => fill m p 0 (num * size)) a1) h1 p
  exact ⟨p, a', by rw [hmalloc, Option.map_some, gcaZeroed, ha']⟩

theorem Whole.reallocMove_wraps (h : Whole l top fl b) (hmutex : b.mutex = n + 1)
    (hlow : 2 ^ 64 - 4112 < size) (hhigh : size ≤ 2 ^ 64 - 16) (ptr origSize : Nat) :
    ∃ p b', reallocMove ptr origSize size b = some (some p, b') := by
  obtain ⟨p, b1, hmalloc⟩ := h.malloc_wraps hlow hhigh
  have h1 : b1.mutex = n + 1 := locked_gcaMalloc _ hmutex _ hmalloc
  have h2 := locked_gcaFree (a := setMem (fun m => copy m p ptr origSize) b1) ptr h1
  obtain ⟨b', hb'⟩ := unlockReturning_some h2 p
  exact ⟨p, b', by rw [reallocMove, hmalloc, Option.map_some, gcaMoved, hb']⟩

theorem Whole.reallocExtend_wraps (h : Whole l top fl b) (hmutex : b.mutex = n + 1)
    (hlow : 2 ^ 64 - 4112 < size) (hhigh : size ≤ 2 ^ 64 - 16) (ptr alignedSize origSize : Nat) :
    ∃ p b', reallocExtend ptr alignedSize origSize size b = some (some p, b') := by
  have hmove := h.reallocMove_wraps hmutex hlow hhigh ptr origSize
  rw [reallocExtend]
  split
  · rcases h.tagged.sbrkNewBlock_cases
      (sub64 alignedSize (gcaSize .curr b.mem (gcaDataToHeader ptr))) with ⟨-, heq⟩ | ⟨header, b1, heq⟩
    · rw [heq, reallocGrown]
      exact hmove
    · have h1 := (locked_gcaSbrkNewBlock hmutex _).of_eq heq
      obtain ⟨p, b', hcut⟩ := reallocCut_some (locked_gcaCoalesceNext h1 (gcaDataToHeader ptr)) ptr
        alignedSize
      exact ⟨p, b', by rw [heq, reallocGrown, hcut]⟩
  · exact hmove

theorem Whole.realloc_wraps (h : Whole (before ++ c :: after) top fl a) (hlow : 2 ^ 64 - 4112 < size)
    (hlt : size < 2 ^ 64) : ∃ p a', gcaRealloc (c.addr + 16) size a = some (some p, a') := by
  have hpos := h.tagged.pos
  have hlock := h.sameHeap (sameHeap_lock a)
  have h1 := locked_lock (a := a) rfl
  rw [gcaRealloc_eq (by omega) (by omega) (by omega), reallocBlock]
  split
  · obtain ⟨p, b, hcut⟩ := reallocCut_some h1 (c.addr + 16) (gcaRoundUp size gcaDataAlign)
    exact ⟨p, b, congrArg some hcut⟩
  · rename_i hfits
    have hhigh : size ≤ 2 ^ 64 - 16 := by
      rw [gcaRoundUp_align] at hfits
      omega
    rw [gcaDataToHeader_eq hlock.tagged (c := c) (by simp)]
    obtain ⟨b, fl', hnext, h2, -⟩ := hlock.coalesceNext
    have h3 := (locked_gcaCoalesceNext h1 _).of_eq hnext
    rw [hnext, reallocJoined]
    split
    · obtain ⟨p, b', hcut⟩ := reallocCut_some h3 (c.addr + 16) (gcaRoundUp size gcaDataAlign)
      exact ⟨p, b', congrArg some hcut⟩
    · exact h2.reallocExtend_wraps h3 hlow hhigh _ _ _

/-! ### Oversized requests -/

/-- Which requests for more than the heap has are refused, and leave the heap well formed. -/
theorem oversized_rejected_iff (h : Whole l top fl a) :
    (∀ size, a.heapSize < size → size < 2 ^ 64 → (Rejected l a (gcaMalloc size a) ↔ Rounds size)) ∧
      (∀ num size, a.heapSize < num * size →
        (Rejected l a (gcaCalloc num size a) ↔ 2 ^ 64 ≤ num * size ∨ Rounds (num * size))) ∧
      ∀ c ∈ Used l, ∀ size, a.heapSize < size → size < 2 ^ 64 →
        (Rejected l a (gcaRealloc (c.addr + 16) size a) ↔ size ≤ 2 ^ 64 - 4112) := by
  refine ⟨fun size hsize hlt => ?_, fun num size hsize => ?_, fun c hc size hsize hlt => ?_⟩
  · constructor
    · intro hrejected
      by_contra hwraps
      rw [Rounds] at hwraps
      obtain ⟨p, a', heq⟩ := h.malloc_wraps (by omega : 2 ^ 64 - 4112 < size) (by omega)
      exact Rejected.not_some (heq ▸ hrejected)
    · intro hrounds
      obtain ⟨r, a', heq, hreq, -⟩ := h.malloc size hlt hrounds
      exact heq ▸ hreq.rejected h hsize
  · constructor
    · intro hrejected
      by_contra hwraps
      rw [Rounds] at hwraps
      obtain ⟨p, a', heq⟩ := h.calloc_wraps (by omega : 2 ^ 64 - 4112 < num * size) (by omega)
      exact Rejected.not_some (heq ▸ hrejected)
    · intro hrounds
      obtain ⟨r, a', heq, hreq⟩ := h.calloc num size hrounds
      exact heq ▸ hreq.rejected h hsize
  · obtain ⟨before, after, rfl⟩ := List.append_of_mem hc.1
    constructor
    · intro hrejected
      by_contra hwraps
      obtain ⟨p, a', heq⟩ := h.realloc_wraps (by omega) hlt
      exact Rejected.not_some (heq ▸ hrejected)
    · intro hle
      obtain ⟨r, a', heq, -, hout, -⟩ := h.realloc size hc.2 (by omega) hle
      exact heq ▸ hout.rejected hc.2 hsize

/-- The new heap of two pages. -/
theorem oversized_rejected_pages : ∃ a l top fl, gcaCreate 8192 4096 Client.zeroed = (true, a) ∧
    Whole l top fl a ∧ Rejected l a (gcaMalloc 8193 a) ∧ Rejected l a (gcaCalloc 2 (2 ^ 63) a) := by
  obtain ⟨a, heq, h, hsize, -⟩ := gcaCreate_spec Client.mapped_pages Client.zeroed
  have hrejected := oversized_rejected_iff h
  refine ⟨a, _, _, _, heq, h, ?_, ?_⟩
  · exact (hrejected.1 8193 (by omega) (by decide)).mpr (.inl (by decide))
  · exact (hrejected.2.1 2 (2 ^ 63) (by omega)).mpr (.inl (by decide))

theorem exists_oversized_not_rejected : ¬ ∀ (l : List Chunk) (top : Nat) (fl : List Nat)
    (a : GlibcAllocator) (size : Nat), Whole l top fl a → a.heapSize < size → size < 2 ^ 64 →
    Rejected l a (gcaMalloc size a) := by
  intro hall
  obtain ⟨a, -, h, hsize, -⟩ := gcaCreate_spec Client.mapped_pages Client.zeroed
  obtain ⟨p, a', heq⟩ := h.malloc_wraps (show 2 ^ 64 - 4112 < 2 ^ 64 - 16 by decide) (by decide)
  have hrejected := hall _ _ _ a (2 ^ 64 - 16) h (by omega) (by decide)
  exact Rejected.not_some (heq ▸ hrejected)

end Gca
