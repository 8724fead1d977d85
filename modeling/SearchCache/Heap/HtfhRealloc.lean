import SearchCache.Heap.HtfhUndo

/-! `htfh_realloc` of a live pointer.  Where the block has to move, it does; where it could stay in
place, the function returns the null pointer, and has by then joined the block with the next one if
it was to grow. -/

namespace Htfh

open Memory

/-- The header after that of a pointer's block. -/
def nextBlock (a : Allocator) (ptr : Nat) : Nat := (blockNext (blockFromPtr ptr) a).1.getD 0

/-- The size that a request is rounded to. -/
def adjusted (a : Allocator) (s : Nat) : Nat := (adjustRequestSize s alignSize a).1

/-- The pointer's block is too small, but is not together with the free block after it. -/
def CanGrow (a : Allocator) (ptr s : Nat) : Prop :=
  blockSize a.mem (blockFromPtr ptr) < adjusted a s ∧
    blockIsFree a.mem (nextBlock a ptr) = true ∧
    adjusted a s ≤ blockSize a.mem (blockFromPtr ptr) + blockSize a.mem (nextBlock a ptr) +
      blockHeaderOverhead

/-- The pointer's block need not move. -/
def InPlace (a : Allocator) (ptr s : Nat) : Prop :=
  adjusted a s ≤ blockSize a.mem (blockFromPtr ptr) ∨ CanGrow a ptr s

section Branches

variable {pools : List Pool} {L : Layout} {a : Allocator} {b s : Nat} {x y : Block}

theorem adjusted_eq (a : Allocator) (s : Nat) : adjusted a s = adjustedSize s := by
  rw [adjusted, adjustRequestSize_alignSize]

theorem nextBlock_eq (h : Rep pools L L.classOf a) (hb : L b = some x) (hsize : x.size ≠ 0) :
    nextBlock a (b + 16) = b + 8 + x.size := by
  rw [nextBlock, h.blockFromPtr_eq hb, h.blockNext_eq hb (by simp) hsize]
  rfl

theorem canGrow_iff (h : Rep pools L L.classOf a) (hb : L b = some x) (hsize : x.size ≠ 0)
    (hy : L (b + 8 + x.size) = some y) : CanGrow a (b + 16) s ↔
      x.size < adjustedSize s ∧ y.free = true ∧ adjustedSize s ≤ x.size + y.size + 8 := by
  rw [CanGrow, adjusted_eq, nextBlock_eq h hb hsize, h.blockFromPtr_eq hb,
    h.blockSize_eq hb (by simp), h.blockSize_eq hy (by simp), h.blockIsFree_eq hy (by simp)]

/-- The three ways on from the checks. -/
theorem htfhRealloc_eq (h : Rep pools L L.classOf a) (hb : L b = some x) (hx : x.free = false)
    (hsize : x.size ≠ 0) (hy : L (b + 8 + x.size) = some y) (hs : s ≠ 0) :
    htfhRealloc (b + 16) s a =
      if x.size < adjustedSize s ∧ (!y.free ∨ x.size + y.size + 8 < adjustedSize s) then
        reallocMove (b + 16) x.size s (htfhLockLock a)
      else if x.size < adjustedSize s then reallocGrow (b + 16) (adjustedSize s) (htfhLockLock a)
      else reallocTrim (b + 16) (adjustedSize s) (htfhLockLock a) := by
  have h0 := rep_lock h
  have hxlt := (h.tiling.bounds hb).2.2.2
  have hylt := (h.tiling.bounds hy).2.2.2
  have hcombined : add64 (add64 x.size y.size) blockHeaderOverhead = x.size + y.size + 8 := by
    simp only [add64, blockHeaderOverhead]
    omega
  rw [htfhRealloc]
  simp only [show ¬(b + 16 ≠ 0 ∧ s = 0) from fun hand => hs hand.2, if_false]
  rw [if_neg (by simp), if_neg (by omega), reallocBlock, h.blockFromPtr_eq hb,
    h0.blockNext_eq hb (by simp) hsize]
  simp only [Option.getD_some, h0.blockSize_eq hb (by simp), h0.blockSize_eq hy (by simp),
    h0.blockIsFree_eq hb (by simp), h0.blockIsFree_eq hy (by simp), adjustRequestSize_alignSize, hx,
    hcombined, Bool.false_eq_true, if_false]

/-- Trimming a used block fails. -/
theorem reallocTrim_eq (h : Rep pools L L.classOf a) (hb : L b = some x) (hx : x.free = false)
    (n : Nat) : ∃ a', reallocTrim (b + 16) n (htfhLockLock a) = (none, a') ∧ SameHeap a a' := by
  have htrim : controllerBlockTrimUsed (blockFromPtr (b + 16)) n (htfhLockLock a) =
      (-1, setAllocErrno .blockNotFree (htfhLockLock a)) := by
    rw [h.blockFromPtr_eq hb, controllerBlockTrimUsed, (rep_lock h).blockIsFree_eq hb (by simp), hx]
    exact if_pos rfl
  have hlock : htfhLockUnlock (setAllocErrno .blockNotFree (htfhLockLock a)) =
      (0, { setAllocErrno .blockNotFree (htfhLockLock a) with mutex := a.mutex }) :=
    htfhLockUnlock_eq rfl
  refine ⟨{ setAllocErrno .blockNotFree (htfhLockLock a) with mutex := a.mutex }, ?_, rfl, rfl, rfl⟩
  rw [reallocTrim, htrim]
  dsimp only
  rw [if_pos (by decide), hlock]

theorem htfhLockUnlock_mem (a : Allocator) : (htfhLockUnlock a).2.mem = a.mem := by
  unfold htfhLockUnlock
  split <;> rfl

/-- The block takes in the next one before the function fails. -/
theorem reallocGrow_eq (h : Rep pools L L.classOf a) (hb : L b = some x) (hsize : x.size ≠ 0)
    (hy : L (b + 8 + x.size) = some y) (hyfree : y.free = true) (n : Nat) :
    (reallocGrow (b + 16) n (htfhLockLock a)).1 = none ∧
      size (reallocGrow (b + 16) n (htfhLockLock a)).2.mem b =
        header (x.size + 8 + y.size) x.free x.prevFree := by
  have h0 := rep_lock h
  have hxlt := (h.tiling.bounds hb).2.2.2
  have hylt := h.tiling.bounds hy
  have hmin := h.tiling.size_ge hb hsize
  have hymin := h.tiling.size_ge hy (h.tiling.size_ne_zero hy hyfree)
  have hbpos := (h.tiling.bounds hb).1
  obtain ⟨a1, hremove, -, h1, -⟩ := RepBut.blockRemove h0 hy (by simp)
    (by rw [classOf_of_eq hy, hyfree]; simp)
  have hword : add64 (size a1.mem b) (add64 (blockSize a1.mem (b + 8 + x.size))
      blockHeaderOverhead) = header (x.size + 8 + y.size) x.free x.prevFree := by
    rw [h1.header b x hb (by simp), h1.blockSize_eq hy (by simp)]
    have hflags := @flags_lt x.free x.prevFree
    simp only [add64, header, blockHeaderOverhead]
    omega
  have hlt : header (x.size + 8 + y.size) x.free x.prevFree < 2 ^ 64 := by
    have hflags := @flags_lt x.free x.prevFree
    simp only [header]
    omega
  have hnew : size (setSize b (header (x.size + 8 + y.size) x.free x.prevFree) a1.mem) b =
      header (x.size + 8 + y.size) x.free x.prevFree := size_setSize_same hlt
  have hnext := blockNext_of_size
    (a := setMem (setSize b (header (x.size + 8 + y.size) x.free x.prevFree)) a1)
    (Htfh.blockSize_eq hnew (by omega) (by omega)) (by omega) (by omega)
  have habsorb : blockAbsorb b (b + 8 + x.size) a1 = (some b,
      setMem (setPrevPhysBlock (b + 8 + (x.size + 8 + y.size)) b)
        (setMem (setSize b (header (x.size + 8 + y.size) x.free x.prevFree)) a1)) := by
    rw [blockAbsorb, h1.blockIsLast_eq hb (by simp), decide_eq_false hsize]
    simp only [Bool.false_eq_true, if_false]
    rw [hword, blockLinkNext, hnext]
  have hmerge : controllerBlockMergeNext (blockFromPtr (b + 16)) (htfhLockLock a) = (some b,
      setMem (setPrevPhysBlock (b + 8 + (x.size + 8 + y.size)) b)
        (setMem (setSize b (header (x.size + 8 + y.size) x.free x.prevFree)) a1)) := by
    rw [h.blockFromPtr_eq hb, controllerBlockMergeNext, h0.blockNext_eq hb (by simp) hsize]
    simp only [h0.blockIsFree_eq hy (by simp), hyfree, h0.blockIsLast_eq hb (by simp),
      decide_eq_false hsize, hremove, habsorb, Bool.not_true, Bool.false_eq_true, if_false,
      ne_eq, not_true_eq_false]
  have hgrow : reallocGrow (b + 16) n (htfhLockLock a) = (none, (htfhLockUnlock
      (setMem (setPrevPhysBlock (b + 8 + (x.size + 8 + y.size)) b)
        (setMem (setSize b (header (x.size + 8 + y.size) x.free x.prevFree)) a1))).2) := by
    rw [reallocGrow, hmerge]
    dsimp only [Option.getD_some]
    rw [if_pos (by omega)]
  rw [hgrow]
  refine ⟨rfl, ?_⟩
  dsimp only
  rw [htfhLockUnlock_mem]
  exact (read64_write64_of_disjoint (by omega)).trans hnew

theorem reallocMove_eq {a1 a2 : Allocator} {ptr p cursize : Nat} (hmalloc : htfhMalloc s a = (some p, a1))
    (hfree : htfhFree ptr (setMem (fun m => copy m p ptr (min cursize s)) a1) = (0, a2)) :
    reallocMove ptr cursize s a = unlockReturning (some p) a2 := by
  rw [reallocMove, hmalloc]
  dsimp only
  rw [hfree]
  exact if_neg (not_not_intro rfl)

/-- What moving a block leaves behind. -/
structure Moved (pools : List Pool) (L L' : Layout) (b c t n : Nat) (a a' : Allocator) : Prop where
  rep : Rep pools L' L'.classOf a'
  coalesced : Coalesced L'
  used : L'.used = Function.update (Function.update L.used c (some t)) b none
  fresh : L.used c = none
  size_ne_zero : t ≠ 0
  keeps : RepBut.Keeps (Function.update L.used b none) a.mem a'.mem
  contents : ∀ i < n, a'.mem.byte (c + 16 + i) = a.mem.byte (b + 16 + i)

theorem reallocMove_spec (h : Rep pools L L.classOf a) (hc : Coalesced L) (hb : L b = some x)
    (hx : x.free = false) (hsize : x.size ≠ 0) (hlt : x.size < adjustedSize s) :
    (∃ a', reallocMove (b + 16) x.size s (htfhLockLock a) = (none, a') ∧ SameHeap a a' ∧
        (htfhMalloc s (htfhLockLock a)).1 = none) ∨
      ∃ c t a' L', reallocMove (b + 16) x.size s (htfhLockLock a) = (some (c + 16), a') ∧
        Moved pools L L' b c t (min x.size s) a a' ∧ adjustedSize s ≤ t := by
  have hbused : L.used b = some x.size := Layout.used_eq_some.mpr ⟨x, hb, hx, rfl⟩
  rcases htfhMalloc_spec (rep_lock h) hc s with ⟨a1, heq, hsame⟩ | ⟨c, t, a1, L1, heq, halloc, -, hle, -⟩
  · refine .inl ⟨{ a1 with mutex := a.mutex }, ?_, ⟨hsame.mem, hsame.controller, rfl⟩, by rw [heq]⟩
    rw [reallocMove, heq]
    exact unlockReturning_eq (n := a.mutex) hsame.mutex _
  · have hcopy := halloc.overwrite (f := fun m => copy m (c + 16) (b + 16) (min x.size s))
      fun w hw => by
        simp only [copy]
        rw [if_neg (by omega)]
    have hcb : b ≠ c := by
      rintro rfl
      simp [halloc.fresh] at hbused
    have hbused1 : L1.used b = some x.size := by
      rw [halloc.used, Function.update_of_ne hcb, hbused]
    obtain ⟨x1, hb1, hx1, hsize1⟩ := Layout.used_eq_some.mp hbused1
    obtain ⟨a3, L3, heq3, hframe3, hrep3, hc3, hused3, -⟩ :=
      htfhFree_spec hcopy.rep hcopy.coalesced hb1 hx1 (by omega)
    have hmutex : a3.mutex = a.mutex + 1 := hframe3.mutex.trans hcopy.frame.mutex
    refine .inr ⟨c, t, { a3 with mutex := a.mutex }, L3, ?_, ⟨hrep3.congr rfl rfl, hc3, ?_,
      halloc.fresh, halloc.size_ne_zero, ?_, fun i hi => ?_⟩, hle⟩
    · rw [reallocMove_eq heq heq3]
      exact unlockReturning_eq (n := a.mutex) hmutex _
    · rw [hused3, halloc.used]
    · intro u v hu w hw hwlt
      have hub : u ≠ b := by
        rintro rfl
        simp at hu
      rw [Function.update_of_ne hub] at hu
      refine (hframe3.keeps u v ?_ w hw hwlt).trans (hcopy.frame.keeps u v hu w hw hwlt)
      have huc : u ≠ c := by
        rintro rfl
        simp [halloc.fresh] at hu
      rw [hused3, Function.update_of_ne hub, halloc.used, Function.update_of_ne huc, hu]
    · have hct : L3.used c = some t := by
        rw [hused3, Function.update_of_ne hcb.symm, halloc.used, Function.update_self]
      have hcopied : (copy a1.mem (c + 16) (b + 16) (min x.size s)).byte (c + 16 + i) =
          a1.mem.byte (b + 16 + i) := by
        simp only [copy]
        rw [if_pos (by omega), Nat.add_sub_cancel_left]
      refine (hframe3.keeps c t hct _ (by omega) (by omega)).trans (hcopied.trans ?_)
      exact halloc.frame.keeps b x.size hbused _ (by omega) (by omega)

end Branches

namespace Client

variable {s : Client} {L : Layout} {ptr n size : Nat}

/-- The state with another allocator. -/
def withAlloc (s : Client) (a : Allocator) : Client := { s with alloc := a }

/-- The state after `ptr` has become `p`. -/
def moved (s : Client) (ptr p size : Nat) (a : Allocator) : Client :=
  { s with alloc := a, live := (p, size) :: s.live.filter fun e => e.1 ≠ ptr }

/-- What holds of a live pointer before a reallocation. -/
theorem Holds.exists_next (h : s.Holds L) (hp : (ptr, n) ∈ s.live) :
    ∃ b x y, ptr = b + 16 ∧ L b = some x ∧ x.free = false ∧ x.size ≠ 0 ∧
      L (b + 8 + x.size) = some y := by
  obtain ⟨b, x, rfl, hb, hx, hsize, -⟩ := h.exists_used hp
  obtain ⟨y, hy, -⟩ := h.rep.tiling.next b x hb hsize
  exact ⟨b, x, y, rfl, hb, hx, hsize, hy⟩

/-- The three outcomes, by the two conditions. -/
theorem Holds.realloc_cases (h : s.Holds L) (hp : (ptr, n) ∈ s.live) (hsize : 0 < size) :
    (CanGrow s.alloc ptr size ∧ (htfhRealloc ptr size s.alloc).1 = none ∧
        Htfh.size (htfhRealloc ptr size s.alloc).2.mem (blockFromPtr ptr) ≠
          Htfh.size s.alloc.mem (blockFromPtr ptr)) ∨
      (¬CanGrow s.alloc ptr size ∧ ∃ a', htfhRealloc ptr size s.alloc = (none, a') ∧
        SameHeap s.alloc a' ∧
        (InPlace s.alloc ptr size ∨ (htfhMalloc size (htfhLockLock s.alloc)).1 = none)) ∨
      ¬InPlace s.alloc ptr size ∧ ∃ b x c t a' L', ptr = b + 16 ∧ L b = some x ∧
        x.free = false ∧ htfhRealloc ptr size s.alloc = (some (c + 16), a') ∧
        Moved s.pools L L' b c t (min x.size size) s.alloc a' ∧ adjustedSize size ≤ t := by
  obtain ⟨b, x, y, rfl, hb, hx, hxsize, hy⟩ := h.exists_next hp
  have heq := htfhRealloc_eq h.rep hb hx hxsize hy (show size ≠ 0 by omega)
  have hgrow := @canGrow_iff _ _ _ _ size _ _ h.rep hb hxsize hy
  have hplace : InPlace s.alloc (b + 16) size ↔ adjustedSize size ≤ x.size ∨
      CanGrow s.alloc (b + 16) size := by
    rw [InPlace, adjusted_eq, h.rep.blockFromPtr_eq hb, h.rep.blockSize_eq hb (by simp)]
  by_cases hle : adjustedSize size ≤ x.size
  · rw [if_neg (by omega), if_neg (by omega)] at heq
    obtain ⟨a', htrim, hsame⟩ := reallocTrim_eq h.rep hb hx (adjustedSize size)
    refine .inr (.inl ⟨?_, a', heq.trans htrim, hsame, .inl (hplace.mpr (.inl hle))⟩)
    rw [hgrow]
    omega
  · by_cases hmove : (!y.free) = true ∨ x.size + y.size + 8 < adjustedSize size
    · have hnot : ¬CanGrow s.alloc (b + 16) size := by
        rw [hgrow]
        rintro ⟨-, hfree, hroom⟩
        rcases hmove with hused | hsmall
        · simp [hfree] at hused
        · omega
      rw [if_pos ⟨by omega, hmove⟩] at heq
      rcases reallocMove_spec h.rep h.coalesced hb hx hxsize (show x.size < adjustedSize size by omega)
        with ⟨a', hnone, hsame, hmalloc⟩ | ⟨c, t, a', L', hsome, hmoved, hle'⟩
      · exact .inr (.inl ⟨hnot, a', heq.trans hnone, hsame, .inr hmalloc⟩)
      · refine .inr (.inr ⟨?_, b, x, c, t, a', L', rfl, hb, hx, heq.trans hsome, hmoved, hle'⟩)
        rw [hplace]
        exact not_or.mpr ⟨hle, hnot⟩
    · rw [if_neg (by tauto), if_pos (by omega)] at heq
      rw [not_or, Bool.not_eq_true, Bool.not_eq_false'] at hmove
      obtain ⟨hnone, hword⟩ := reallocGrow_eq h.rep hb hxsize hy hmove.1 (adjustedSize size)
      refine .inl ⟨hgrow.mpr ⟨by omega, hmove.1, by omega⟩, by rw [heq, hnone], ?_⟩
      rw [heq, h.rep.blockFromPtr_eq hb, hword, h.rep.header b x hb (by simp)]
      simp only [header]
      omega

/-- The heap and the buffer of `ptr` are as they were. -/
structure Untouched (s : Client) (ptr : Nat) (a' : Allocator) : Prop where
  physical : ∀ b, PhysicalBlock s.pools a' b ↔ PhysicalBlock s.pools s.alloc b
  header : ∀ b, PhysicalBlock s.pools s.alloc b → Htfh.size a'.mem b = Htfh.size s.alloc.mem b
  links : ∀ b, PhysicalBlock s.pools s.alloc b → blockIsFree s.alloc.mem b = true →
    nextFree a'.mem b = nextFree s.alloc.mem b ∧ prevFree a'.mem b = prevFree s.alloc.mem b
  index : a'.controller = s.alloc.controller
  contents : ∀ w, ptr ≤ w → w < ptr + blockSize s.alloc.mem (blockFromPtr ptr) →
    a'.mem.byte w = s.alloc.mem.byte w

theorem physicalBlock_congr {pools : List Pool} {a a' : Allocator} (h : a'.mem = a.mem) (b : Nat) :
    PhysicalBlock pools a' b ↔ PhysicalBlock pools a b := by
  have hadjacent : Adjacent a' = Adjacent a := by
    funext c d
    rw [Adjacent, Adjacent, blockNext, blockNext, h]
    split <;> rfl
  rw [PhysicalBlock, PhysicalBlock, hadjacent]

theorem untouched_of_sameHeap {a' : Allocator} (h : SameHeap s.alloc a') : s.Untouched ptr a' where
  physical := physicalBlock_congr h.mem
  header b _ := by rw [h.mem]
  links b _ _ := by rw [h.mem]; exact ⟨rfl, rfl⟩
  index := h.controller
  contents w _ _ := by rw [h.mem]

/-- A failing reallocation leaves everything as it was just when the block was not to grow in
place. -/
theorem realloc_failure_iff (h : s.Sound) (hp : (ptr, n) ∈ s.live) (hsize : 0 < size) :
    ((htfhRealloc ptr size s.alloc).1 = none →
        s.Untouched ptr (htfhRealloc ptr size s.alloc).2) ↔ ¬CanGrow s.alloc ptr size := by
  obtain ⟨L, h⟩ := h
  obtain ⟨b, x, -, hptr, hb, -⟩ := h.exists_next hp
  have hphysical : PhysicalBlock s.pools s.alloc (blockFromPtr ptr) := by
    rw [hptr, h.rep.blockFromPtr_eq hb]
    exact (physicalBlock_iff h.rep).mpr ⟨x, hb⟩
  rcases h.realloc_cases hp hsize with ⟨hgrow, hnone, hword⟩ | ⟨hnot, a', heq, hsame, -⟩ |
    ⟨hplace, b, x, c, t, a', L', rfl, -, -, heq, -, -⟩
  · refine ⟨fun huntouched => ?_, fun hnot => (hnot hgrow).elim⟩
    exact (hword ((huntouched hnone).header _ hphysical)).elim
  · refine ⟨fun _ => hnot, fun _ _ => ?_⟩
    rw [heq]
    exact untouched_of_sameHeap hsame
  · refine ⟨fun _ hgrow => hplace (.inr hgrow), fun _ hnone => ?_⟩
    rw [heq] at hnone
    simp at hnone

theorem regular_filled : Regular CallFits (start zeroed)
    [.addPool 16384 1024, .request (.malloc 100), .request (.memalign 64 100)] :=
  regular_cons.mpr ⟨⟨given_zeroed, trivial⟩, regular_cons.mpr
    ⟨⟨(by decide : 100 < 2 ^ 64), trivial⟩, regular_cons.mpr
      ⟨⟨⟨by decide, by decide⟩, trivial⟩, trivial⟩⟩⟩

theorem sound_filled : filled.Sound :=
  Sound.run (fun _ _ fits => fits) room_zeroed regular_filled rfl

theorem realloc_failure_iff_filled : ((htfhRealloc 16392 2000 filled.alloc).1 = none →
    filled.Untouched 16392 (htfhRealloc 16392 2000 filled.alloc).2) ↔
      ¬CanGrow filled.alloc 16392 2000 :=
  realloc_failure_iff (n := 100) sound_filled (by decide +kernel) (by decide)

/-- Growing the first block into the free space before the second one fails with the two joined. -/
theorem realloc_not_untouched : filled.Sound ∧ (16392, 100) ∈ filled.live ∧
    (htfhRealloc 16392 120 filled.alloc).1 = none ∧
    ¬filled.Untouched 16392 (htfhRealloc 16392 120 filled.alloc).2 := by
  refine ⟨sound_filled, by decide +kernel, by decide +kernel, fun huntouched => ?_⟩
  have hphysical : PhysicalBlock filled.pools filled.alloc 16376 :=
    ⟨⟨16384, 1008⟩, by decide +kernel, .refl⟩
  have hbefore : Htfh.size filled.alloc.mem 16376 = 100 := by decide +kernel
  have hafter : Htfh.size (htfhRealloc 16392 120 filled.alloc).2.mem 16376 = 176 := by
    decide +kernel
  have := huntouched.header _ hphysical
  rw [hbefore, hafter] at this
  exact absurd this (by decide)

/-- A block that need not move stays where it is, any other moves with its contents, and all other
live blocks stay as they are. -/
structure Contract (s : Client) (ptr size : Nat) : Prop where
  inPlace : InPlace s.alloc ptr size → ∃ a', htfhRealloc ptr size s.alloc = (some ptr, a') ∧
    adjusted s.alloc size ≤ blockSize a'.mem (blockFromPtr ptr) ∧
    blockCanSplit a'.mem (blockFromPtr ptr) (adjusted s.alloc size) = false ∧
    (s.withAlloc a').HeapTiled ∧ (s.withAlloc a').IndexExact
  moved : ¬InPlace s.alloc ptr size → (htfhMalloc size (htfhLockLock s.alloc)).1 ≠ none →
    ∃ p a', htfhRealloc ptr size s.alloc = (some p, a') ∧ (∀ n, (p, n) ∉ s.live) ∧
      adjusted s.alloc size ≤ blockSize a'.mem (blockFromPtr p) ∧
      (∀ i < min (blockSize s.alloc.mem (blockFromPtr ptr)) size,
        a'.mem.byte (p + i) = s.alloc.mem.byte (ptr + i)) ∧
      (s.moved ptr p size a').HeapTiled ∧ (s.moved ptr p size a').IndexExact
  others : ∀ q k, (q, k) ∈ s.live → q ≠ ptr →
    ∀ a', a' = (htfhRealloc ptr size s.alloc).2 →
      blockSize a'.mem (blockFromPtr q) = blockSize s.alloc.mem (blockFromPtr q) ∧
      blockIsFree a'.mem (blockFromPtr q) = false ∧
      ∀ w, q ≤ w → w < q + blockSize s.alloc.mem (blockFromPtr q) →
        a'.mem.byte w = s.alloc.mem.byte w

theorem Holds.moved (h : s.Holds L) {b c t k : Nat} {x : Block} {a' : Allocator} {L' : Layout}
    (hb : L b = some x) (hx : x.free = false)
    (hm : Moved s.pools L L' b c t k s.alloc a') :
    (s.moved (b + 16) (c + 16) size a').Holds L' := by
  have hbused : L.used b = some x.size := Layout.used_eq_some.mpr ⟨x, hb, hx, rfl⟩
  have hcb : c ≠ b := by
    rintro rfl
    simp [hm.fresh] at hbused
  refine ⟨hm.rep, hm.coalesced, fun p => ?_⟩
  rw [hm.used]
  constructor
  · rintro ⟨m, hmem⟩
    rcases List.mem_cons.mp hmem with hpair | hmem
    · refine ⟨c, t, ?_, hm.size_ne_zero, congrArg Prod.fst hpair⟩
      rw [Function.update_of_ne hcb, Function.update_self]
    · obtain ⟨hmem, hne⟩ := List.mem_filter.mp hmem
      obtain ⟨e, u, he, hu, rfl⟩ := (h.live p).mp ⟨m, hmem⟩
      have heb : e ≠ b := by
        rintro rfl
        simp at hne
      have hec : e ≠ c := by
        rintro rfl
        simp [hm.fresh] at he
      exact ⟨e, u, by rw [Function.update_of_ne heb, Function.update_of_ne hec, he], hu, rfl⟩
  · rintro ⟨e, u, he, hu, rfl⟩
    by_cases heb : e = b
    · simp [heb] at he
    · rw [Function.update_of_ne heb] at he
      by_cases hec : e = c
      · exact ⟨size, by rw [hec]; exact List.mem_cons_self⟩
      · rw [Function.update_of_ne hec] at he
        obtain ⟨m, hmem⟩ := (h.live (e + 16)).mpr ⟨e, u, he, hu, rfl⟩
        exact ⟨m, List.mem_cons_of_mem _ (List.mem_filter.mpr ⟨hmem, by simp [heb]⟩)⟩

/-- The other live blocks of a heap in which one block has moved. -/
theorem Holds.others_moved (h : s.Holds L) {b c t k : Nat} {a' : Allocator} {L' : Layout}
    (hm : Moved s.pools L L' b c t k s.alloc a') {q m : Nat} (hq : (q, m) ∈ s.live) (hne : q ≠ b + 16) :
    blockSize a'.mem (blockFromPtr q) = blockSize s.alloc.mem (blockFromPtr q) ∧
      blockIsFree a'.mem (blockFromPtr q) = false ∧
      ∀ w, q ≤ w → w < q + blockSize s.alloc.mem (blockFromPtr q) →
        a'.mem.byte w = s.alloc.mem.byte w := by
  obtain ⟨e, z, rfl, he, hz, hzsize, -⟩ := h.exists_used hq
  have heused : L.used e = some z.size := Layout.used_eq_some.mpr ⟨z, he, hz, rfl⟩
  have heb : e ≠ b := fun heb => hne (by rw [heb])
  have hec : e ≠ c := by
    rintro rfl
    simp [hm.fresh] at heused
  have heused' : L'.used e = some z.size := by
    rw [hm.used, Function.update_of_ne heb, Function.update_of_ne hec, heused]
  obtain ⟨z', he', hz', hzsize'⟩ := Layout.used_eq_some.mp heused'
  rw [h.rep.blockFromPtr_eq he, h.rep.blockSize_eq he (by simp), hm.rep.blockSize_eq he' (by simp),
    hm.rep.blockIsFree_eq he' (by simp)]
  refine ⟨hzsize', hz', fun w hw hlt => hm.keeps e z.size ?_ w hw hlt⟩
  rw [Function.update_of_ne heb, heused]

/-- The contract holds of just the reallocations that move the block. -/
theorem realloc_contract_iff (h : s.Sound) (hp : (ptr, n) ∈ s.live) (hsize : 0 < size) :
    s.Contract ptr size ↔ ¬InPlace s.alloc ptr size := by
  obtain ⟨L, h⟩ := h
  have hcases := h.realloc_cases hp hsize
  constructor
  · intro hcontract hplace
    obtain ⟨a1, heq1, -⟩ := hcontract.inPlace hplace
    rcases hcases with ⟨-, hnone, -⟩ | ⟨-, a', heq, -, -⟩ | ⟨hnot, -⟩
    · rw [heq1] at hnone
      simp at hnone
    · rw [heq1] at heq
      simp at heq
    · exact hnot hplace
  · intro hnot
    refine ⟨fun hplace => (hnot hplace).elim, fun _ hmalloc => ?_, fun q k hq hne a' ha' => ?_⟩
    · rcases hcases with ⟨hgrow, -⟩ | ⟨-, a', -, -, hplace | hnone⟩ |
        ⟨-, b, x, c, t, a', L', rfl, hb, hx, heq, hm, hle⟩
      · exact (hnot (.inr hgrow)).elim
      · exact (hnot hplace).elim
      · exact (hmalloc hnone).elim
      · have h' : (s.moved (b + 16) (c + 16) size a').Holds L' := h.moved hb hx hm
        have hct : L'.used c = some t := by
          have hcb : c ≠ b := by
            rintro rfl
            have := hm.fresh
            rw [Layout.used_of_eq hb, hx] at this
            simp at this
          rw [hm.used, Function.update_of_ne hcb, Function.update_self]
        obtain ⟨z, hz, -, hzsize⟩ := Layout.used_eq_some.mp hct
        refine ⟨c + 16, a', heq, fun m hmem => ?_, ?_, ?_, h'.heapTiled, h'.indexExact⟩
        · obtain ⟨e, u, he, -, heq'⟩ := (h.live (c + 16)).mp ⟨m, hmem⟩
          obtain rfl : c = e := by omega
          simp [hm.fresh] at he
        · rw [adjusted_eq, hm.rep.blockFromPtr_eq hz, hm.rep.blockSize_eq hz (by simp), hzsize]
          exact hle
        · rw [h.rep.blockFromPtr_eq hb, h.rep.blockSize_eq hb (by simp)]
          exact hm.contents
    · subst ha'
      rcases hcases with ⟨hgrow, -⟩ | ⟨-, a', heq, hsame, -⟩ |
        ⟨-, b, x, c, t, a', L', rfl, hb, hx, heq, hm, -⟩
      · exact (hnot (.inr hgrow)).elim
      · obtain ⟨e, z, rfl, he, hz, -, -⟩ := h.exists_used hq
        rw [heq]
        dsimp only
        rw [hsame.mem, h.rep.blockFromPtr_eq he, h.rep.blockIsFree_eq he (by simp)]
        exact ⟨rfl, hz, fun _ _ _ => rfl⟩
      · rw [heq]
        exact h.others_moved hm hq hne

theorem realloc_contract_iff_filled :
    filled.Contract 16392 2000 ↔ ¬InPlace filled.alloc 16392 2000 :=
  realloc_contract_iff (n := 100) sound_filled (by decide +kernel) (by decide)

/-- Shrinking the first block fails. -/
theorem realloc_not_contract : filled.Sound ∧ (16392, 100) ∈ filled.live ∧
    adjusted filled.alloc 50 ≠ 0 ∧ ¬filled.Contract 16392 50 := by
  refine ⟨sound_filled, by decide +kernel, by decide +kernel, fun hcontract => ?_⟩
  have hfits : adjusted filled.alloc 50 ≤ blockSize filled.alloc.mem (blockFromPtr 16392) := by
    decide +kernel
  have hnone : (htfhRealloc 16392 50 filled.alloc).1 = none := by decide +kernel
  obtain ⟨a', heq, -⟩ := hcontract.inPlace (.inl hfits)
  rw [heq] at hnone
  simp at hnone

end Client

end Htfh
