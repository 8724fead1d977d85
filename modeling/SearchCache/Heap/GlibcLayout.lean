import SearchCache.Heap.GlibcContents

/-! What the live blocks of the second allocator determine: how the region is cut into blocks, and
which requests it can meet.  There is no memory of the calls that led there. -/

namespace Gca

open Memory Htfh Chunks Linked

/-! ### The region -/

/-- The region is the same one, and has a block if it had one. -/
structure Stays (a a' : GlibcAllocator) : Prop where
  heap : a'.heap = a.heap
  heapSize : a'.heapSize = a.heapSize
  cut : a.heap + 16 < a.currentBrk → a'.heap + 16 < a'.currentBrk

section Stays

variable {a a' a'' : GlibcAllocator} {l l' before after : List Chunk} {top top' size m : Nat}
  {fl fl' : List Nat} {c d : Chunk} {r : Option Nat}

theorem Stays.refl (a : GlibcAllocator) : Stays a a := ⟨rfl, rfl, id⟩

theorem Stays.trans (h : Stays a a') (h' : Stays a' a'') : Stays a a'' :=
  ⟨h'.heap.trans h.heap, h'.heapSize.trans h.heapSize, fun hcut => h'.cut (h.cut hcut)⟩

theorem SameHeap.stays (h : SameHeap a a') : Stays a a' :=
  ⟨h.heap, h.heapSize, fun hcut => by rw [h.heap, h.currentBrk]; exact hcut⟩

/-- There is a chunk below the break. -/
theorem Tagged.cut (h : Tagged l top a) (hc : c ∈ l) : a.heap + 16 < a.currentBrk := by
  have hbounds := h.tiles.bounds hc
  simp only [Chunk.stop] at hbounds
  rw [h.brk]
  omega

theorem Tagged.ne_nil (h : Tagged l top a) (hcut : a.heap + 16 < a.currentBrk) : l ≠ [] := by
  rintro rfl
  have htop : a.heap = top := h.tiles
  have hbrk := h.brk
  omega

theorem Kept.stays (h : Kept l' a a') (htagged : Tagged l top a') (hc : c ∈ l) : Stays a a' :=
  ⟨h.heap, h.heapSize, fun _ => htagged.cut hc⟩

theorem Requested.stays (h : Requested l size a r a') : Stays a a' := by
  rcases h with ⟨-, hsame, -⟩ | ⟨c, l', top', fl', -, h1⟩
  · exact hsame.stays
  · have hc : c ∈ Used l' := h1.used ▸ Set.mem_insert _ _
    exact h1.kept.stays h1.whole.tagged hc.1

theorem ResizeOutcome.stays (h : ResizeOutcome before c after top size a r a') : Stays a a' := by
  rcases h with ⟨-, fl', h1, hkept⟩ | ⟨d, l', top', fl', -, h1⟩
  · rw [joinNext_eq] at h1
    exact hkept.stays (c := { c with size := joinSize 16 c after }) h1.tagged (by simp)
  · have hd : d ∈ Used l' := h1.used ▸ Set.mem_insert _ _
    exact h1.kept.stays h1.whole.tagged hd.1

end Stays

namespace Client

variable {s s' : Client} {l l' : List Chunk} {top top' : Nat} {fl fl' : List Nat}
  {a a' : GlibcAllocator}

theorem returned_alloc (s : Client) (n : Nat) (r : Option Nat) (a : GlibcAllocator) :
    (s.returned n (r, a)).alloc = a := by
  cases r <;> rfl

theorem resized_alloc (s : Client) (ptr n : Nat) (r : Option Nat) (a : GlibcAllocator) :
    (s.resized ptr n (r, a)).alloc = a := by
  cases r <;> rfl

theorem Holds.resize_stays (h : s.Holds l top fl) {ptr size : Nat} (hle : size ≤ s.alloc.heapSize)
    (hptr : ptr = 0 ∨ ∃ n, (ptr, n) ∈ s.live) :
    ∃ r a', gcaRealloc ptr size s.alloc = some (r, a') ∧ Stays s.alloc a' := by
  by_cases hzero : size = 0
  · exact ⟨none, s.alloc, if_pos (.inr hzero), Stays.refl _⟩
  rcases hptr with rfl | hptr
  · obtain ⟨r, a', heq, hreq⟩ := h.reallocNull hzero hle
    exact ⟨r, a', heq, hreq.stays⟩
  · obtain ⟨before, c, after, rfl, hused, rfl⟩ := h.exists_chunk hptr
    obtain ⟨r, a', heq, -, hout, -⟩ := h.whole.realloc size hused hzero (rounds_of_le h hle)
    exact ⟨r, a', heq, hout.stays⟩

theorem Holds.step_stays (h : s.Holds l top fl) {c : Call} (legal : s.Legal c)
    (hstep : s.step c = some s') : Stays s.alloc s'.alloc := by
  cases c with
  | malloc size =>
    have hrounds := rounds_of_le h legal
    obtain ⟨r, a', heq, hreq, -⟩ := h.whole.malloc size (by omega) (.inl hrounds)
    rw [Client.step, heq] at hstep
    obtain rfl := Option.some.inj hstep
    rw [returned_alloc]
    exact hreq.stays
  | calloc num size =>
    obtain ⟨r, a', heq, hreq⟩ := h.whole.calloc num size (.inr (.inl (rounds_of_le h legal)))
    rw [Client.step, heq] at hstep
    obtain rfl := Option.some.inj hstep
    rw [returned_alloc]
    exact hreq.stays
  | realloc ptr size =>
    obtain ⟨r, a', heq, hstays⟩ := h.resize_stays legal.1 legal.2
    rw [Client.step, heq] at hstep
    obtain rfl := Option.some.inj hstep
    rw [resized_alloc]
    exact hstays
  | free ptr =>
    obtain ⟨before, c, after, rfl, hused, rfl⟩ := h.exists_chunk legal
    obtain ⟨a', l', fl', heq, h1, hkept, -, -⟩ := h.whole.free hused
    rw [Client.step, heq] at hstep
    obtain rfl := Option.some.inj hstep
    refine ⟨hkept.heap, hkept.heapSize, fun hcut => ?_⟩
    -- freeing moves no break
    show a'.heap + 16 < a'.currentBrk
    rw [h1.tagged.brk, hkept.heap, ← h.whole.tagged.brk]
    exact hcut
  | write x v =>
    obtain rfl := Option.some.inj hstep
    exact ⟨rfl, rfl, id⟩

/-- The heap is in order, in the region it was created in. -/
def Placed (heapSize heap : Nat) (s : Client) : Prop :=
  s.Sound ∧ s.alloc.heap = heap ∧ s.alloc.heapSize = heapSize ∧ heap + 16 < s.alloc.currentBrk

variable {heapSize heapSize' heap : Nat} {calls calls' : List Call}

theorem placed_start (h : Mapped heapSize heap) (a : GlibcAllocator) :
    Placed heapSize heap (start heapSize heap a) := by
  obtain ⟨a', heq, hwhole, hsize, hheap⟩ := gcaCreate_spec h a
  refine ⟨sound_start h a, ?_⟩
  rw [start, heq]
  exact ⟨hheap, hsize, hheap ▸ hwhole.tagged.cut (List.mem_singleton_self _)⟩

theorem Placed.step {c : Call} (h : Placed heapSize heap s) (legal : s.Legal c) :
    ∃ s', s.step c = some s' ∧ Placed heapSize heap s' := by
  obtain ⟨⟨l, top, fl, hs⟩, hheap, hsize, hcut⟩ := h
  obtain ⟨s', hstep, hsound⟩ := hs.step legal
  have hstays := hs.step_stays legal hstep
  have hheap' := hstays.heap.trans hheap
  refine ⟨s', hstep, hsound, hheap', hstays.heapSize.trans hsize, ?_⟩
  rw [← hheap']
  exact hstays.cut (by omega)

theorem run_placed (h : Mapped heapSize heap) (regular : (start heapSize heap a).Regular calls) :
    ∃ s l top fl, (start heapSize heap a).run calls = some s ∧ s.Holds l top fl ∧
      s.alloc.heap = heap ∧ s.alloc.heapSize = heapSize ∧ l ≠ [] := by
  have preserves : ∀ (s : Client) (c : Call) (s' : Client), Placed heapSize heap s → s.Legal c →
      s.step c = some s' → Placed heapSize heap s' := by
    intro s c s' hs legal hstep
    obtain ⟨s1, heq, hplaced⟩ := hs.step legal
    obtain rfl := Option.some.inj (hstep.symm.trans heq)
    exact hplaced
  have returns : ∀ (s : Client) (c : Call), Placed heapSize heap s → s.Legal c →
      ∃ s', s.step c = some s' := by
    intro s c hs legal
    obtain ⟨s', heq, -⟩ := hs.step legal
    exact ⟨s', heq⟩
  obtain ⟨s, hrun⟩ := Runs.run_returns preserves returns (placed_start h a) regular
  have hplaced : Placed heapSize heap s :=
    Runs.run_preserves preserves (placed_start h a) regular hrun
  obtain ⟨⟨l, top, fl, hs⟩, hheap, hsize, hcut⟩ := hplaced
  exact ⟨s, l, top, fl, hrun, hs, hheap, hsize, hs.whole.tagged.ne_nil (by omega)⟩

/-! ### What the live blocks determine -/

/-- The same live pointers, to blocks of the same sizes. -/
def SameBlocks (s s' : Client) : Prop :=
  (∀ p, (∃ n, (p, n) ∈ s.live) ↔ ∃ n, (p, n) ∈ s'.live) ∧
    ∀ p n, (p, n) ∈ s.live → s.blockSize p = s'.blockSize p

theorem SameBlocks.symm (h : SameBlocks s s') : SameBlocks s' s := by
  refine ⟨fun p => (h.1 p).symm, fun p n hp => ?_⟩
  obtain ⟨n', hp'⟩ := (h.1 p).mpr ⟨n, hp⟩
  exact (h.2 p n' hp').symm

theorem Holds.used_subset (hs : s.Holds l top fl) (hs' : s'.Holds l' top' fl')
    (h : SameBlocks s s') : Used l ⊆ Used l' := by
  intro c hc
  obtain ⟨n, hn⟩ := (hs.owned.mem_iff (c.addr + 16)).mpr ⟨c, hc, rfl⟩
  obtain ⟨d, hd, haddr⟩ := (hs'.owned.mem_iff (c.addr + 16)).mp ((h.1 _).mp ⟨n, hn⟩)
  have hsize := h.2 _ n hn
  obtain ⟨before, after, rfl⟩ := List.append_of_mem hc.1
  obtain ⟨before', after', rfl⟩ := List.append_of_mem hd.1
  rw [hs.blockSize_eq, haddr, hs'.blockSize_eq] at hsize
  have hcd : c = d := by
    obtain ⟨x, m, u⟩ := c
    obtain ⟨x', m', u'⟩ := d
    have hused : u = u' := hc.2.trans hd.2.symm
    simp only [Chunk.mk.injEq]
    dsimp only at haddr hsize
    exact ⟨by omega, hsize, hused⟩
  exact hcd ▸ hd

theorem Holds.chunks_eq (hs : s.Holds l top fl) (hs' : s'.Holds l' top' fl')
    (hheap : s.alloc.heap = s'.alloc.heap) (hbrk : s.alloc.currentBrk = s'.alloc.currentBrk)
    (h : SameBlocks s s') : l = l' := by
  have htop : top = top' := by
    have h1 := hs.whole.tagged.brk
    have h2 := hs'.whole.tagged.brk
    omega
  have htiles := hs'.whole.tagged.tiles
  rw [← hheap, ← htop] at htiles
  exact hs.whole.tagged.tiles.unique htiles (by omega) hs.coalesced hs'.coalesced
    ((hs.used_subset hs' h).antisymm (hs'.used_subset hs h.symm))

/-- Two runs that leave the same live blocks and the same break leave the same blocks, used and free,
and the same free list but for its order. -/
theorem runs_layout (h : Mapped heapSize heap) (h' : Mapped heapSize' heap)
    (regular : (start heapSize heap a).Regular calls)
    (regular' : (start heapSize' heap a').Regular calls') : ∃ s s',
      (start heapSize heap a).run calls = some s ∧ (start heapSize' heap a').run calls' = some s' ∧
      (s.alloc.currentBrk = s'.alloc.currentBrk → SameBlocks s s' →
        ∃ blocks fl fl', s.InOrder blocks fl ∧ s'.InOrder blocks fl' ∧ fl.Perm fl' ∧
          ∀ h ∈ blocks, gcaSize .curr s.alloc.mem h = gcaSize .curr s'.alloc.mem h ∧
            gcaUsed .curr s.alloc.mem h = gcaUsed .curr s'.alloc.mem h) := by
  obtain ⟨s, l, top, fl, hrun, hs, hheap, -, -⟩ := run_placed h regular
  obtain ⟨s', l', top', fl', hrun', hs', hheap', -, -⟩ := run_placed h' regular'
  refine ⟨s, s', hrun, hrun', fun hbrk hsame => ?_⟩
  obtain rfl := hs.chunks_eq hs' (hheap.trans hheap'.symm) hbrk hsame
  refine ⟨_, fl, fl', hs.inOrder, hs'.inOrder, ?_, ?_⟩
  · refine (List.perm_ext_iff_of_nodup hs.inOrder.nodup hs'.inOrder.nodup).mpr fun x => ?_
    constructor
    · intro hx
      obtain ⟨c, hc, rfl, hfree⟩ := hs.whole.listed.free x hx
      exact hs'.whole.complete c hc hfree
    · intro hx
      obtain ⟨c, hc, rfl, hfree⟩ := hs'.whole.listed.free x hx
      exact hs.whole.complete c hc hfree
  · rw [List.forall_mem_map]
    intro c hc
    rw [hs.whole.tagged.size_curr hc, hs'.whole.tagged.size_curr hc, hs.whole.tagged.used_curr hc,
      hs'.whole.tagged.used_curr hc]
    exact ⟨rfl, rfl⟩

/-- The second of two blocks, after a third one or not. -/
theorem runs_layout_two : ∃ s s' blocks fl fl',
    (start 8192 4096 zeroed).run [.malloc 100, .malloc 50, .free 4112] = some s ∧
    (start 8192 4096 zeroed).run [.malloc 100, .malloc 50, .malloc 20, .free 4320, .free 4112] =
      some s' ∧ s.InOrder blocks fl ∧ s'.InOrder blocks fl' ∧ fl.Perm fl' ∧
    ∀ h ∈ blocks, gcaSize .curr s.alloc.mem h = gcaSize .curr s'.alloc.mem h ∧
      gcaUsed .curr s.alloc.mem h = gcaUsed .curr s'.alloc.mem h := by
  have regular : (start 8192 4096 zeroed).Regular [.malloc 100, .malloc 50, .free 4112] := by
    unfold Regular
    decide +kernel
  have regular' : (start 8192 4096 zeroed).Regular
      [.malloc 100, .malloc 50, .malloc 20, .free 4320, .free 4112] := by
    unfold Regular
    decide +kernel
  obtain ⟨s, s', hrun, hrun', hlayout⟩ := runs_layout mapped_pages mapped_pages regular regular'
  have hs : ((start 8192 4096 zeroed).run [.malloc 100, .malloc 50, .free 4112]).map
      (fun s => (s.live, s.alloc.currentBrk, s.blockSize 4240)) = some ([(4240, 50)], 8192, 64) := by
    decide +kernel
  have hs' : ((start 8192 4096 zeroed).run
      [.malloc 100, .malloc 50, .malloc 20, .free 4320, .free 4112]).map
      (fun s => (s.live, s.alloc.currentBrk, s.blockSize 4240)) = some ([(4240, 50)], 8192, 64) := by
    decide +kernel
  rw [hrun] at hs
  rw [hrun'] at hs'
  simp only [Option.map_some, Option.some.injEq, Prod.mk.injEq] at hs hs'
  obtain ⟨hlive, hbrk, hsize⟩ := hs
  obtain ⟨hlive', hbrk', hsize'⟩ := hs'
  obtain ⟨blocks, fl, fl', horder⟩ := hlayout (hbrk.trans hbrk'.symm)
    ⟨fun p => by rw [hlive, hlive'], fun p n hp => by
      rw [hlive, List.mem_singleton, Prod.mk.injEq] at hp
      rw [hp.1, hsize, hsize']⟩
  exact ⟨s, s', blocks, fl, fl', hrun, hrun', horder⟩

/-! ### Which requests are met -/

theorem Holds.free_iff (h : s.Holds l top fl) {n : Nat} :
    (∀ c ∈ l, c.used = false → c.size < n) ↔ ∀ x ∈ l.map Chunk.addr,
      gcaUsed .curr s.alloc.mem x = 0 → gcaSize .curr s.alloc.mem x < n := by
  rw [List.forall_mem_map]
  refine forall₂_congr fun c hc => ?_
  rw [h.whole.tagged.used_curr hc, h.whole.tagged.size_curr hc]
  cases c.used <;> simp

theorem Holds.used_empty (h : s.Holds l top fl) (hlive : s.live = []) : Used l = ∅ := by
  refine Set.eq_empty_iff_forall_notMem.mpr fun c hc => ?_
  obtain ⟨n, hn⟩ := (h.owned.mem_iff (c.addr + 16)).mpr ⟨c, hc, rfl⟩
  simp [hlive] at hn

/-- A request that a free block is large enough for is met. -/
theorem Holds.grants (h : s.Holds l top fl) {c : Chunk} (hc : c ∈ l) (hfree : c.used = false)
    {size : Nat} (hpos : 0 < size) (hle : size ≤ c.size) :
    ∃ ptr a', gcaMalloc size s.alloc = some (some ptr, a') := by
  have htagged := h.whole.tagged
  have hbound : size ≤ 2 ^ 64 - 4112 := by
    obtain ⟨hlow, hstop⟩ := htagged.tiles.bounds hc
    have hbrk := htagged.brk
    have hwithin := htagged.within
    have hroom := htagged.room
    have hsmall := h.small
    simp only [Chunk.stop] at hstop
    omega
  obtain ⟨r, a', heq, -, hiff⟩ := h.whole.malloc size (by omega) (.inl hbound)
  cases r with
  | some ptr => exact ⟨ptr, a', heq⟩
  | none =>
    have hlt := ((hiff hpos hbound h.small).mp rfl).1 c hc hfree
    have hdvd := (htagged.sized c hc).2
    rw [gcaRoundUp_align] at hlt
    omega

/-- When everything has been freed, one free block takes up the region up to the break, and every
request that it is large enough for is met. -/
theorem run_freed (h : Mapped heapSize heap) (regular : (start heapSize heap a).Regular calls) :
    ∃ s, (start heapSize heap a).run calls = some s ∧ (s.live = [] →
      s.InOrder [heap] [heap] ∧
      heap + gcaInfoSize + gcaSize .curr s.alloc.mem heap = gcaDataToHeader s.alloc.currentBrk ∧
      ∀ size, 0 < size → size ≤ gcaSize .curr s.alloc.mem heap →
        ∃ ptr a', gcaMalloc size s.alloc = some (some ptr, a')) := by
  obtain ⟨s, l, top, fl, hrun, hs, rfl, -, hne⟩ := run_placed h regular
  refine ⟨s, hrun, fun hlive => ?_⟩
  obtain ⟨m, rfl, htop⟩ :=
    hs.whole.tagged.tiles.eq_singleton hs.coalesced (hs.used_empty hlive) hne
  have horder : s.InOrder [s.alloc.heap] fl := hs.inOrder
  have hfl : fl = [s.alloc.heap] := by
    refine List.perm_singleton.mp <|
      (List.perm_ext_iff_of_nodup horder.nodup (by simp)).mpr fun x => ?_
    constructor
    · intro hx
      obtain ⟨c, hc, rfl, -⟩ := hs.whole.listed.free x hx
      rw [List.mem_singleton.mp hc]
      exact List.mem_singleton_self _
    · intro hx
      rw [List.mem_singleton.mp hx]
      exact hs.whole.complete _ (List.mem_singleton_self _) rfl
  have hsize : gcaSize .curr s.alloc.mem s.alloc.heap = m :=
    hs.whole.tagged.size_curr (c := ⟨s.alloc.heap, m, false⟩) (List.mem_singleton_self _)
  refine ⟨hfl ▸ horder, ?_, fun size hpos hle => ?_⟩
  · have hwalk : gcaNext s.alloc.mem s.alloc.heap = gcaDataToHeader s.alloc.currentBrk :=
      horder.walk.2
    rw [← hwalk, horder.tiles _ (List.mem_singleton_self _)]
  · rw [hsize] at hle
    exact hs.grants (c := ⟨s.alloc.heap, m, false⟩) (List.mem_singleton_self _) rfl hpos hle

theorem run_freed_two : ∃ s,
    (start 8192 4096 zeroed).run [.malloc 100, .malloc 4000, .free 4112, .free 4240] = some s ∧
    s.InOrder [4096] [4096] ∧
    4096 + gcaInfoSize + gcaSize .curr s.alloc.mem 4096 = gcaDataToHeader s.alloc.currentBrk ∧
    ∀ size, 0 < size → size ≤ gcaSize .curr s.alloc.mem 4096 →
      ∃ ptr a', gcaMalloc size s.alloc = some (some ptr, a') := by
  have regular : (start 8192 4096 zeroed).Regular
      [.malloc 100, .malloc 4000, .free 4112, .free 4240] := by
    unfold Regular
    decide +kernel
  obtain ⟨s, hrun, hfreed⟩ := run_freed mapped_pages regular
  have hlive : ((start 8192 4096 zeroed).run
      [.malloc 100, .malloc 4000, .free 4112, .free 4240]).map Client.live = some [] := by
    decide +kernel
  rw [hrun] at hlive
  exact ⟨s, hrun, hfreed (Option.some.inj hlive)⟩

end Client

end Gca
