import SearchCache.Heap.HtfhRuns

/-! The blocks that `block_next` leads to from the first header of a pool, and the free lists that
hold the free ones of them. -/

namespace Htfh

open Memory

/-- `c` is the block after `b`. -/
def Adjacent (a : Allocator) (b c : Nat) : Prop := (blockNext b a).1 = some c

/-- A header that walking a pool comes to. -/
def PhysicalBlock (pools : List Pool) (a : Allocator) (b : Nat) : Prop :=
  ∃ P ∈ pools, Relation.ReflTransGen (Adjacent a) P.first b

/-- What holds of a block and the one after it. -/
structure Neighbours (a : Allocator) (b c : Nat) : Prop where
  adjacent : Adjacent a b c
  tiles : c = b + 8 + blockSize a.mem b
  aligned : blockSize a.mem b % alignSize = 0
  size_ge : blockSizeMin ≤ blockSize a.mem b
  prevFree : blockIsPrevFree a.mem c = blockIsFree a.mem b
  backLink : blockIsFree a.mem b = true → prevPhysBlock a.mem c = b
  coalesced : ¬(blockIsFree a.mem b = true ∧ blockIsFree a.mem c = true)

/-- The blocks `l` fill the pool up to its sentinel. -/
structure PoolTiled (a : Allocator) (P : Pool) (l : List Nat) : Prop where
  first : (l ++ [P.last]).head? = some P.first
  chain : (l ++ [P.last]).IsChain (Neighbours a)
  first_prevUsed : blockIsPrevFree a.mem P.first = false
  last_size : blockSize a.mem P.last = 0
  last_used : blockIsFree a.mem P.last = false
  last_next : (blockNext P.last a).1 = none

section Physical

variable {pools : List Pool} {L : Layout} {cls : Classes} {a : Allocator} {b c : Nat} {x : Block}

/-- Memory leads to the blocks of the layout. -/
theorem physicalBlock_iff (h : Rep pools L cls a) : PhysicalBlock pools a b ↔ ∃ x, L b = some x := by
  constructor
  · rintro ⟨P, hP, hpath⟩
    induction hpath with
    | refl =>
      obtain ⟨x, hx, -⟩ := h.tiling.first P hP
      exact ⟨x, hx⟩
    | @tail c d _ hcd ih =>
      obtain ⟨x, hx⟩ := ih
      by_cases hsize : x.size = 0
      · rw [Adjacent, h.blockNext_sentinel hx (by simp) hsize] at hcd
        simp at hcd
      · rw [Adjacent, h.blockNext_eq hx (by simp) hsize] at hcd
        obtain rfl := Option.some.inj hcd
        obtain ⟨y, hy, -⟩ := h.tiling.next c x hx hsize
        exact ⟨y, hy⟩
  · induction b using Nat.strong_induction_on with
    | _ b ih =>
      rintro ⟨y, hy⟩
      rcases h.tiling.exists_prev hy with ⟨P, hP, rfl⟩ | ⟨c, x, hc, hsize, rfl⟩
      · exact ⟨P, hP, .refl⟩
      · obtain ⟨P, hP, hpath⟩ := ih c (by omega) ⟨x, hc⟩
        exact ⟨P, hP, hpath.tail (by rw [Adjacent, h.blockNext_eq hc (by simp) hsize])⟩

theorem neighbours (h : Rep pools L cls a) (hc : Coalesced L) (hb : L b = some x)
    (hsize : x.size ≠ 0) : Neighbours a b (b + 8 + x.size) := by
  obtain ⟨y, hy, hprev⟩ := h.tiling.next b x hb hsize
  have hmin := h.tiling.size_ge hb hsize
  have hbsize := h.blockSize_eq hb (by simp)
  have hbfree := h.blockIsFree_eq hb (by simp)
  refine ⟨by rw [Adjacent, h.blockNext_eq hb (by simp) hsize], by rw [hbsize], by rw [hbsize, hmin.1],
    by rw [hbsize]; exact hmin.2, ?_, fun hfree => ?_, ?_⟩
  · rw [h.blockIsPrevFree_eq hy (by simp), hbfree, hprev]
  · rw [hbfree] at hfree
    exact h.prevPhysBlock_eq hb hfree (by simp)
  · rw [hbfree, h.blockIsFree_eq hy (by simp)]
    rintro ⟨hxfree, hyfree⟩
    exact hc b x y hb hy hxfree hyfree

/-- From a block of a pool the blocks lead to the sentinel. -/
theorem exists_walk (h : Rep pools L cls a) (hc : Coalesced L) {P : Pool} (hP : P ∈ pools) (n : Nat) :
    ∀ b x, L b = some x → P.first ≤ b → b ≤ P.last → P.last - b ≤ n →
      ∃ l, (l ++ [P.last]).head? = some b ∧ (l ++ [P.last]).IsChain (Neighbours a) := by
  induction n with
  | zero =>
    intro b x hb hfirst hlast hn
    obtain rfl : b = P.last := by omega
    exact ⟨[], rfl, List.isChain_singleton _⟩
  | succ n ih =>
    intro b x hb hfirst hlast hn
    rcases Nat.eq_or_lt_of_le hlast with rfl | hlt
    · exact ⟨[], rfl, List.isChain_singleton _⟩
    · have hsize := h.tiling.size_ne_zero_of_lt hP hb hfirst hlt
      obtain ⟨y, hy, -⟩ := h.tiling.next b x hb hsize
      obtain ⟨z, hz, -⟩ := h.tiling.last P hP
      have hle := h.tiling.apart b P.last x z hb hz hlt
      obtain ⟨l, hhead, hchain⟩ := ih _ y hy (by omega) hle (by omega)
      refine ⟨b :: l, rfl, ?_⟩
      rw [List.cons_append, List.isChain_cons]
      refine ⟨fun c hc' => ?_, hchain⟩
      rw [hhead] at hc'
      obtain rfl := Option.some.inj hc'
      exact neighbours h hc hb hsize

theorem exists_poolTiled (h : Rep pools L cls a) (hc : Coalesced L) {P : Pool} (hP : P ∈ pools) :
    ∃ l, PoolTiled a P l := by
  obtain ⟨x, hx, hprev⟩ := h.tiling.first P hP
  obtain ⟨y, hy, hsize⟩ := h.tiling.last P hP
  have hlast := (h.tiling.fits P hP).last_eq
  obtain ⟨l, hhead, hchain⟩ := exists_walk h hc hP _ _ x hx (Nat.le_refl _) (by omega) (Nat.le_refl _)
  refine ⟨l, hhead, hchain, by rw [h.blockIsPrevFree_eq hx (by simp), hprev],
    by rw [h.blockSize_eq hy (by simp), hsize], ?_, h.blockNext_sentinel hy (by simp) hsize⟩
  rw [h.blockIsFree_eq hy (by simp)]
  cases hfree : y.free
  · rfl
  · exact (h.tiling.size_ne_zero hy hfree hsize).elim

end Physical

namespace Client

variable {s : Client} {L : Layout} {a : Allocator} {calls : List Call}

/-- The pools are tiled, and the used blocks but for the sentinels are those of the live pointers. -/
def HeapTiled (s : Client) : Prop :=
  (∀ P ∈ s.pools, ∃ l, PoolTiled s.alloc P l) ∧
    ∀ p, (∃ n, (p, n) ∈ s.live) ↔ ∃ b, PhysicalBlock s.pools s.alloc b ∧
      blockIsFree s.alloc.mem b = false ∧ blockSize s.alloc.mem b ≠ 0 ∧ p = blockToPtr b

theorem Holds.heapTiled (h : s.Holds L) : s.HeapTiled := by
  refine ⟨fun P hP => exists_poolTiled h.rep h.coalesced hP, fun p => (h.live p).trans ?_⟩
  constructor
  · rintro ⟨b, t, hused, ht, rfl⟩
    obtain ⟨x, hb, hx, rfl⟩ := Layout.used_eq_some.mp hused
    exact ⟨b, (physicalBlock_iff h.rep).mpr ⟨x, hb⟩, by rw [h.rep.blockIsFree_eq hb (by simp), hx],
      by rwa [h.rep.blockSize_eq hb (by simp)], (h.rep.blockToPtr_eq hb ht).symm⟩
  · rintro ⟨b, hphysical, hfree, hsize, rfl⟩
    obtain ⟨x, hb⟩ := (physicalBlock_iff h.rep).mp hphysical
    rw [h.rep.blockIsFree_eq hb (by simp)] at hfree
    rw [h.rep.blockSize_eq hb (by simp)] at hsize
    exact ⟨b, x.size, Layout.used_eq_some.mpr ⟨x, hb, hfree, rfl⟩, hsize, h.rep.blockToPtr_eq hb hsize⟩

/-- A list of the index holds the free blocks of its class, and the bitmaps tell which lists are not
empty. -/
structure IndexExact (s : Client) : Prop where
  list : ∀ fl < flIndexCount, ∀ sl < slIndexCount, ∃ l,
    FreeList s.alloc.mem s.alloc.controller.blockNull (s.alloc.controller.blocks fl sl) l ∧
    l.Nodup ∧ (∀ b, b ∈ l ↔ PhysicalBlock s.pools s.alloc b ∧ blockIsFree s.alloc.mem b = true ∧
      mappingInsert (blockSize s.alloc.mem b) = (fl, sl)) ∧
    ((s.alloc.controller.slBitmap fl).getLsbD sl = true ↔ l ≠ [])
  flBit : ∀ fl < flIndexCount,
    (s.alloc.controller.flBitmap.getLsbD fl = true ↔ s.alloc.controller.slBitmap fl ≠ 0)
  listed : ∀ b, PhysicalBlock s.pools s.alloc b → blockIsFree s.alloc.mem b = true →
    (mappingInsert (blockSize s.alloc.mem b)).1 < flIndexCount ∧
      (mappingInsert (blockSize s.alloc.mem b)).2 < slIndexCount

theorem classOf_eq_some {k : Nat × Nat} {b : Nat} : L.classOf b = some k ↔
    ∃ x, L b = some x ∧ x.free = true ∧ mappingInsert x.size = k := by
  refine ⟨listedIn_classOf L b k, ?_⟩
  rintro ⟨x, hx, hfree, rfl⟩
  rw [classOf_of_eq hx, if_pos hfree]

theorem Holds.indexExact (h : s.Holds L) : s.IndexExact where
  list fl _ sl _ := by
    obtain ⟨l, hl, hmem⟩ := h.rep.index.list fl sl
    refine ⟨l, hl, hl.nodup, fun b => ?_, ?_⟩
    · rw [hmem b, classOf_eq_some, physicalBlock_iff h.rep]
      constructor
      · rintro ⟨x, hx, hfree, hclass⟩
        exact ⟨⟨x, hx⟩, by rw [h.rep.blockIsFree_eq hx (by simp), hfree],
          by rw [h.rep.blockSize_eq hx (by simp), hclass]⟩
      · rintro ⟨⟨x, hx⟩, hfree, hclass⟩
        rw [h.rep.blockIsFree_eq hx (by simp)] at hfree
        rw [h.rep.blockSize_eq hx (by simp)] at hclass
        exact ⟨x, hx, hfree, hclass⟩
    · rw [h.rep.index.slBit fl sl]
      constructor
      · rintro ⟨b, hb⟩
        exact List.ne_nil_of_mem ((hmem b).mpr hb)
      · intro hne
        obtain ⟨b, hb⟩ := List.exists_mem_of_ne_nil l hne
        exact ⟨b, (hmem b).mp hb⟩
  flBit fl _ := h.rep.index.flBit fl
  listed b hphysical _ := by
    obtain ⟨x, hx⟩ := (physicalBlock_iff h.rep).mp hphysical
    rw [h.rep.blockSize_eq hx (by simp)]
    exact mappingInsert_lt (h.rep.tiling.bounds hx).2.2.2

/-- The heap stays tiled in every run without an oversized `calloc`. -/
theorem run_heapTiled (hroom : Room a) (regular : Regular CallFits (start a) calls) :
    ∃ s, (start a).run calls = some s ∧ s.HeapTiled := by
  obtain ⟨s, hrun⟩ := (start a).run_returns calls
  obtain ⟨L, h⟩ := Sound.run (fun _ _ fits => fits) hroom regular hrun
  exact ⟨s, hrun, h.heapTiled⟩

/-- A pool, two requests, and the first block is freed. -/
theorem regular_free : Regular CallFits (start zeroed)
    [.addPool 16384 1024, .request (.calloc 3 5), .request (.memalign 64 100), .free 16392] := by
  refine regular_cons.mpr ⟨⟨given_zeroed, trivial⟩, regular_cons.mpr ⟨⟨?_, .inl ?_⟩,
    regular_cons.mpr ⟨⟨?_, trivial⟩, regular_cons.mpr ⟨⟨⟨15, ?_⟩, trivial⟩, trivial⟩⟩⟩⟩
  · exact ⟨by decide, by decide⟩
  · decide
  · exact ⟨by decide, by decide⟩
  · decide +kernel

theorem run_heapTiled_free : ∃ s, (start zeroed).run [.addPool 16384 1024, .request (.calloc 3 5),
    .request (.memalign 64 100), .free 16392] = some s ∧ s.HeapTiled :=
  run_heapTiled room_zeroed regular_free

/-- So does the index. -/
theorem run_indexExact (hroom : Room a) (regular : Regular CallFits (start a) calls) :
    ∃ s, (start a).run calls = some s ∧ s.IndexExact := by
  obtain ⟨s, hrun⟩ := (start a).run_returns calls
  obtain ⟨L, h⟩ := Sound.run (fun _ _ fits => fits) hroom regular hrun
  exact ⟨s, hrun, h.indexExact⟩

theorem run_indexExact_free : ∃ s, (start zeroed).run [.addPool 16384 1024, .request (.calloc 3 5),
    .request (.memalign 64 100), .free 16392] = some s ∧ s.IndexExact :=
  run_indexExact room_zeroed regular_free

/-- The state after a `calloc` of as many bytes as the address space has, but one. -/
def overrun : Client :=
  ((start zeroed).step (.addPool 16384 1024)).step (.request (.calloc 1 (2 ^ 64 - 1)))

theorem regular_overrun : Regular (fun _ _ => True) (start zeroed)
    [.addPool 16384 1024, .request (.calloc 1 (2 ^ 64 - 1))] :=
  regular_cons.mpr ⟨⟨given_zeroed, trivial⟩, regular_cons.mpr
    ⟨⟨⟨by decide, by decide⟩, trivial⟩, trivial⟩⟩

/-- Clearing the block clears the header after it, and the walk ends there. -/
theorem run_not_heapTiled : Room zeroed ∧ Regular (fun _ _ => True) (start zeroed)
    [.addPool 16384 1024, .request (.calloc 1 (2 ^ 64 - 1))] ∧
    ¬∃ s, (start zeroed).run [.addPool 16384 1024, .request (.calloc 1 (2 ^ 64 - 1))] = some s ∧
      s.HeapTiled := by
  refine ⟨room_zeroed, regular_overrun, ?_⟩
  rintro ⟨s, hrun, htiled, -⟩
  obtain rfl : overrun = s := Option.some.inj hrun
  have hpool : (⟨16384, 1008⟩ : Pool) ∈ overrun.pools := by decide +kernel
  have hnext : (blockNext 16376 overrun.alloc).1 = some 16408 := by decide +kernel
  have hend : (blockNext 16408 overrun.alloc).1 = none := by decide +kernel
  obtain ⟨l, hfirst, hchain, -⟩ := htiled _ hpool
  rcases l with _ | ⟨b, l⟩
  · simp [Pool.last, Pool.first] at hfirst
  obtain rfl : b = 16376 := by simpa [Pool.first] using hfirst
  rw [List.cons_append, List.isChain_cons] at hchain
  rcases l with _ | ⟨c, l⟩
  · have := (hchain.1 17392 rfl).adjacent
    simp [Adjacent, hnext] at this
  · have hc := (hchain.1 c rfl).adjacent
    rw [Adjacent, hnext] at hc
    obtain rfl := Option.some.inj hc
    have hrest := hchain.2
    rw [List.cons_append, List.isChain_cons] at hrest
    obtain ⟨d, hd⟩ : ∃ d, (l ++ [(⟨16384, 1008⟩ : Pool).last]).head? = some d := by
      cases l <;> simp
    have := (hrest.1 d hd).adjacent
    simp [Adjacent, hend] at this

/-- The block after it stays in its list although its header says that it is used. -/
theorem run_not_indexExact : Room zeroed ∧ Regular (fun _ _ => True) (start zeroed)
    [.addPool 16384 1024, .request (.calloc 1 (2 ^ 64 - 1))] ∧
    ¬∃ s, (start zeroed).run [.addPool 16384 1024, .request (.calloc 1 (2 ^ 64 - 1))] = some s ∧
      s.IndexExact := by
  refine ⟨room_zeroed, regular_overrun, ?_⟩
  rintro ⟨s, hrun, hindex⟩
  obtain rfl : overrun = s := Option.some.inj hrun
  have hhead : overrun.alloc.controller.blocks 3 29 = 16408 := by decide +kernel
  have hnull : overrun.alloc.controller.blockNull = 4096 := by decide +kernel
  have hused : blockIsFree overrun.alloc.mem 16408 = false := by decide +kernel
  obtain ⟨l, hl, -, hmem, -⟩ := hindex.list 3 (by decide) 29 (by decide)
  rw [hhead, hnull] at hl
  rcases l with _ | ⟨b, l⟩
  · exact absurd hl.head_eq (by decide)
  · obtain rfl : 16408 = b := link_eq_some hl.head_eq
    have := ((hmem 16408).mp (by simp)).2.1
    simp [hused] at this

end Client
end Htfh
