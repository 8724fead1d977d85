import SearchCache.Heap.HtfhSearch

/-! What `htfh_memalign` does with its alignment: the block that it looks for leaves room for a gap
before the first aligned address that a block fits before, but for one tight case and for the
alignments that `align_up` rejects or that wrap. -/

namespace Htfh

open Memory

section Gap

variable {ptr k : Nat} {a : Allocator}

/-- The gap is what the first aligned address leaves, or the second one. -/
theorem alignedWithGap_eq (hptr : ptr < 2 ^ 64) {v : Nat} {align : Nat} {a1 : Allocator}
    (h : alignPtr ptr align a = (v, a1)) (hle : ptr ≤ v) (hv : v < 2 ^ 64) :
    (alignedWithGap ptr align a).1 = if v - ptr ≠ 0 ∧ v - ptr < 32 then
      sub64 (alignPtr (add64 v (max (32 - (v - ptr)) align)) align a1).1 ptr else v - ptr := by
  have hgap : sub64 v ptr = v - ptr := by
    unfold sub64
    omega
  rw [alignedWithGap, h]
  dsimp only
  rw [hgap]
  by_cases hnear : v - ptr ≠ 0 ∧ v - ptr < 32
  · have hoffset : sub64 sizeofBlockHeader (v - ptr) = 32 - (v - ptr) := by
      simp only [sub64, sizeofBlockHeader]
      omega
    rw [if_pos hnear, if_pos hnear, hoffset]
  · rw [if_neg hnear, if_neg hnear]

/-- An alignment that every block has leaves no gap. -/
theorem alignedWithGap_small (hk : k ≤ 2) (hmod : ptr % 4 = 0) (hptr : ptr + 4 ≤ 2 ^ 64)
    (a : Allocator) : (alignedWithGap ptr (2 ^ k) a).1 = 0 := by
  have hpow : 2 ^ k ≤ 2 ^ 2 := Nat.pow_le_pow_right (by decide) hk
  obtain ⟨v, heq, hdvd, hv, hcase⟩ := alignPtr_two_pow (by omega : k < 64) (by omega : ptr < 2 ^ 64) a
  obtain ⟨hle, hlt⟩ := hcase.resolve_right (by omega)
  have hd : 2 ^ k ∣ v - ptr := Nat.dvd_sub hdvd
    (Nat.dvd_trans (Nat.pow_dvd_pow 2 hk) (Nat.dvd_of_mod_eq_zero hmod))
  have hzero : v - ptr = 0 := Nat.eq_zero_of_dvd_of_lt hd (by omega)
  rw [alignedWithGap_eq (by omega) heq hle hv, hzero]
  rfl

/-- The second aligned address: the one after the first, or the first one after 32 bytes. -/
theorem alignPtr_second {v gap : Nat} (hk : 3 ≤ k) (hk' : k < 64) (hdvd : 2 ^ k ∣ v)
    (hgap : 0 < gap ∧ gap < 32 ∧ gap < 2 ^ k) (hmod : gap % 4 = 0)
    (hend : v + 2 ^ k + (32 - gap) ≤ 2 ^ 64) (a : Allocator) :
    ∃ v', alignPtr (add64 v (max (32 - gap) (2 ^ k))) (2 ^ k) a = (v', a) ∧ 2 ^ k ∣ v' ∧
      v' = v + (if k ≤ 4 then 32 else 2 ^ k) := by
  have hpos : 0 < 2 ^ k := Nat.two_pow_pos k
  have hsum : add64 v (max (32 - gap) (2 ^ k)) = v + max (32 - gap) (2 ^ k) :=
    Nat.mod_eq_of_lt (by omega)
  obtain ⟨v', heq, hdvd', hv', hcase⟩ := alignPtr_two_pow hk'
    (show add64 v (max (32 - gap) (2 ^ k)) < 2 ^ 64 from Nat.mod_lt _ (by decide)) a
  refine ⟨v', heq, hdvd', ?_⟩
  rw [hsum] at hcase
  obtain ⟨q, rfl⟩ := hdvd
  obtain ⟨q', rfl⟩ := hdvd'
  rcases Nat.lt_or_ge k 5 with hsmall | hlarge
  · rw [if_pos (by omega)]
    obtain rfl | rfl : k = 3 ∨ k = 4 := by omega
    all_goals omega
  · have hpow : 2 ^ 5 ≤ 2 ^ k := Nat.pow_le_pow_right (by decide) hlarge
    have hmax : max (32 - gap) (2 ^ k) = 2 ^ k := by omega
    rw [if_neg (by omega)]
    rw [hmax] at hcase
    have hsplit : 2 ^ 64 = 2 ^ k * 2 ^ (64 - k) := by
      rw [← Nat.pow_add, show k + (64 - k) = 64 by omega]
    have hnext : 2 ^ k * (q + 1) = 2 ^ k * q + 2 ^ k := Nat.mul_succ _ _
    have hnext2 : 2 ^ k * (q + 2) = 2 ^ k * q + 2 ^ k + 2 ^ k := by
      rw [Nat.mul_succ, Nat.mul_succ]
    rcases hcase with ⟨hle, hlt⟩ | ⟨-, hwrap⟩
    · have h1 : q + 1 ≤ q' := Nat.le_of_mul_le_mul_left (by omega) hpos
      have h2 : q' < q + 2 := Nat.lt_of_mul_lt_mul_left (a := 2 ^ k) (by omega)
      rw [show q' = q + 1 by omega, hnext]
    · -- the address space ends at a multiple
      have h1 : 2 ^ (64 - k) < q + 2 := Nat.lt_of_mul_lt_mul_left (a := 2 ^ k) (by omega)
      have h2 : q + 1 < 2 ^ (64 - k) := Nat.lt_of_mul_lt_mul_left (a := 2 ^ k) (by omega)
      omega

/-- The gap before an aligned address is at most 28 bytes larger than the alignment. -/
theorem alignedWithGap_two_pow (hk : 3 ≤ k) (hk' : k < 64) (hmod : ptr % 4 = 0)
    (hend : ptr + 2 ^ k + 32 ≤ 2 ^ 64) (a : Allocator) :
    2 ^ k ∣ ptr + (alignedWithGap ptr (2 ^ k) a).1 ∧
      (alignedWithGap ptr (2 ^ k) a).1 ≤ 2 ^ k + 28 ∧
      (k = 3 → (alignedWithGap ptr (2 ^ k) a).1 = 0 ∨
        ptr % 8 = 4 ∧ (alignedWithGap ptr (2 ^ k) a).1 = 36) := by
  have hpos : 0 < 2 ^ k := Nat.two_pow_pos k
  have h8 : 8 ∣ 2 ^ k := Nat.pow_dvd_pow 2 hk
  obtain ⟨v, heq, hdvd, hv, hcase⟩ := alignPtr_two_pow hk' (by omega : ptr < 2 ^ 64) a
  obtain ⟨hle, hlt⟩ := hcase.resolve_right (by omega)
  have hv8 : 8 ∣ v := Nat.dvd_trans h8 hdvd
  rw [alignedWithGap_eq (by omega) heq hle hv]
  by_cases hnear : v - ptr ≠ 0 ∧ v - ptr < 32
  · rw [if_pos hnear]
    obtain ⟨v', heq', hdvd', hv'⟩ := alignPtr_second hk hk' hdvd
      (show 0 < v - ptr ∧ v - ptr < 32 ∧ v - ptr < 2 ^ k by omega) (by omega) (by omega) a
    rw [heq']
    dsimp only
    have hgap : sub64 v' ptr = v' - ptr := by
      unfold sub64
      split at hv' <;> omega
    rw [hgap]
    refine ⟨?_, ?_, ?_⟩
    · rwa [show ptr + (v' - ptr) = v' by omega]
    · split at hv'
      · obtain rfl | rfl : k = 3 ∨ k = 4 := by omega
        all_goals omega
      · omega
    · rintro rfl
      rw [if_pos (by decide)] at hv'
      exact .inr (by omega)
  · rw [if_neg hnear]
    refine ⟨?_, by omega, ?_⟩
    · rwa [show ptr + (v - ptr) = v by omega]
    · rintro rfl
      exact .inl (by omega)

/-- The largest power of two is a multiple of no other address than the middle one. -/
theorem alignedWithGap_last (hpos : 32 < ptr) (hend : ptr + 32 ≤ 2 ^ 64) (a : Allocator) :
    (alignedWithGap ptr (2 ^ 63) a).1 = if ptr = 2 ^ 63 then 0
      else if ptr + 32 ≤ 2 ^ 63 then 2 ^ 63 - ptr else 2 ^ 64 - ptr := by
  obtain ⟨v, heq, hdvd, hv, hcase⟩ := alignPtr_two_pow (by decide : 63 < 64) (by omega : ptr < 2 ^ 64) a
  obtain ⟨q, rfl⟩ := hdvd
  rcases hcase with ⟨hle, hlt⟩ | ⟨hzero, hwrap⟩
  · have hq : q = 1 := by omega
    subst hq
    rw [alignedWithGap_eq (by omega) heq hle hv]
    by_cases hnear : 2 ^ 63 * 1 - ptr ≠ 0 ∧ 2 ^ 63 * 1 - ptr < 32
    · have hsum : add64 (2 ^ 63 * 1) (max (32 - (2 ^ 63 * 1 - ptr)) (2 ^ 63)) = 0 := by
        unfold add64
        omega
      have hnull : (alignPtr 0 (2 ^ 63) a).1 = 0 := by
        rw [alignPtr, if_neg (by decide)]
        show add64 0 (sub64 (2 ^ 63) 1) &&& lnot (sub64 (2 ^ 63) 1) = 0
        decide
      rw [if_pos hnear, if_neg (by omega), if_neg (by omega), hsum, hnull]
      unfold sub64
      omega
    · rw [if_neg hnear]
      split
      · omega
      · rw [if_pos (by omega), Nat.mul_one]
  · rw [if_neg (by omega), if_neg (by omega)]
    rw [hzero] at heq
    have hgap : sub64 0 ptr = 2 ^ 64 - ptr := by
      unfold sub64
      omega
    rw [alignedWithGap, heq]
    dsimp only
    rw [hgap, if_neg (by simp only [sizeofBlockHeader]; omega)]

end Gap

section Sizes

variable {k : Nat} {a : Allocator}

/-- The size that is looked for leaves room for the alignment and a block. -/
theorem memalignSize_two_pow (hk : 3 ≤ k) (hk' : k ≤ 62) {adjust : Nat} (hne : adjust ≠ 0)
    (hlt : adjust < 2 ^ 30) (a : Allocator) : ∃ r, 2 ^ k ∣ r ∧ adjust + 2 ^ k + 32 ≤ r ∧
      (memalignSize (2 ^ k) adjust a).1 = if r < 2 ^ 30 then max r 24 else 0 := by
  have hpow : 2 ^ k ≤ 2 ^ 62 := Nat.pow_le_pow_right (by decide) hk'
  have hpow3 : 2 ^ 3 ≤ 2 ^ k := Nat.pow_le_pow_right (by decide) hk
  have hsum : add64 (add64 adjust (2 ^ k)) sizeofBlockHeader = adjust + 2 ^ k + 32 := by
    simp only [add64, sizeofBlockHeader]
    omega
  obtain ⟨r, heq, hdvd, -, hcase⟩ := alignPtr_two_pow (by omega : k < 64)
    (show adjust + 2 ^ k + 32 < 2 ^ 64 by omega) a
  obtain ⟨hle, -⟩ := hcase.resolve_right (by omega)
  refine ⟨r, hdvd, hle, ?_⟩
  rw [memalignSize, hsum, adjustRequestSize, if_neg (by omega), alignUp_eq_alignPtr, heq]
  dsimp only
  rw [if_pos ⟨hne, by dsimp only [alignSize]; omega⟩]

end Sizes

section CutOut

variable {L L' : Layout} {b gap adjust c t : Nat} {x : Block}

/-- The block of the request has the size that was asked for or all that is left. -/
theorem CutOut.size_eq (h : CutOut L b x gap adjust c t L') :
    t = adjust ∧ adjust + 32 ≤ x.size - (c - b) ∨ t = x.size - (c - b) := by
  obtain ⟨L1, y, L2, y', hcut, -, htrimmed, -, rfl⟩ := h
  have hy : y.size = x.size - (c - b) := by
    rcases hcut with ⟨-, -, rfl, hy, -⟩ | ⟨-, rfl, rfl, -⟩
    · rw [hy, Nat.add_sub_cancel_left]
    · rw [Nat.sub_self, Nat.sub_zero]
  rcases htrimmed with ⟨hsplit, -, rfl⟩ | ⟨-, -, rfl⟩
  · exact .inl ⟨rfl, by omega⟩
  · exact .inr hy

/-- The block starts where the found one does, or behind the gap, which stays a free block. -/
theorem CutOut.start_eq (h : CutOut L b x gap adjust c t L') (hb : L b = some x) :
    (c = b ∧ (gap = 0 ∨ ¬ gap + 32 ≤ x.size)) ∨
      (c = b + gap ∧ gap ≠ 0 ∧ gap + 32 ≤ x.size ∧ L' b = some { x with size := gap - 8 }) := by
  obtain ⟨L1, y, L2, y', hcut, hc, htrimmed, rfl, -⟩ := h
  rcases hcut with ⟨hgap, hsplit, rfl, -, rfl⟩ | ⟨hgap, rfl, -, -⟩
  · refine .inr ⟨rfl, hgap, hsplit, ?_⟩
    have hself : L.split b (gap - 8) b = some { x with size := gap - 8 } := split_self hb
    have hL2 : L2 b = some { x with size := gap - 8 } ∧ L2 (b + gap) = some y' := by
      rcases htrimmed with ⟨-, rfl, rfl⟩ | ⟨-, rfl, rfl⟩
      · exact ⟨by rw [split_of_ne hc (by omega) (by omega), hself], split_self hc⟩
      · exact ⟨hself, hc⟩
    rw [Layout.mark_eq hL2.2, if_neg (by omega), if_neg (by omega), hL2.1]
  · exact .inl ⟨rfl, hgap⟩

end CutOut

/-- The block that the search finds for an aligned request. -/
def MemalignFinds (align s : Nat) (a : Allocator) (b : Nat) : Prop :=
  ∃ a', controllerBlockFindFree (memalignSize align (adjustedSize s) (htfhLockLock a)).1
    (memalignSize align (adjustedSize s) (htfhLockLock a)).2 = (some b, a')

section Found

variable {pools : List Pool} {L : Layout} {a : Allocator} {align : Nat}

/-- An aligned request fails and leaves the heap as it is where nothing is found; else its block is
cut out of the one that is. -/
theorem htfhMemalign_cases (h : Rep pools L L.classOf a) (hc : Coalesced L)
    (halign : align < 2 ^ 64) (s : Nat) :
    ((∀ b, ¬ MemalignFinds align s a b) ∧ ∃ a', htfhMemalign align s a = (none, a') ∧
        a'.mem = a.mem ∧ a'.controller = a.controller) ∨
      ∃ b x c t a' L' a1, (∀ d, MemalignFinds align s a d ↔ d = b) ∧ L b = some x ∧
        x.free = true ∧ adjustedSize s ≠ 0 ∧
        (memalignSize align (adjustedSize s) (htfhLockLock a)).1 ≠ 0 ∧
        (memalignSize align (adjustedSize s) (htfhLockLock a)).1 ≤ x.size ∧
        htfhMemalign align s a = (some (c + 16), a') ∧ Rep pools L' L'.classOf a' ∧
        L'.used c = some t ∧ t ≠ 0 ∧
        CutOut L b x (alignedWithGap (b + 16) align a1).1 (adjustedSize s) c t L' := by
  obtain ⟨n, a0, hsizeeq, hsame0, hn⟩ : ∃ n a0,
      memalignSize align (adjustedSize s) (htfhLockLock a) = (n, a0) ∧
        SameHeap (htfhLockLock a) a0 ∧ (adjustedSize s = 0 → n = 0) := by
    refine ⟨_, _, rfl, adjustRequestSize_sameHeap .., fun hzero => ?_⟩
    rw [hzero]
    exact if_neg (by simp)
  have h0 := RepBut.sameHeap (rep_lock h) hsame0
  simp only [MemalignFinds, htfhMemalign, adjustRequestSize_alignSize, hsizeeq]
  rcases controllerBlockFindFree_spec h0 n with ⟨a1, heq, hsame⟩ |
    ⟨b, x, a1, heq, hframe1, h1, hle, hstays1⟩
  · rw [heq]
    exact .inl ⟨by simp, setAllocErrno .blockIsNull a1, rfl, hsame.mem.trans hsame0.mem,
      hsame.controller.trans hsame0.controller⟩
  · have hzero : n ≠ 0 := by
      rintro rfl
      rw [controllerBlockFindFree, if_pos rfl] at heq
      simp at heq
    have hne : adjustedSize s ≠ 0 := fun hadjust => hzero (hn hadjust)
    obtain ⟨c, t, a', L', heq', halloc, hcut⟩ := memalignBlock_spec h1
      ((Frame.ofSameHeap hsame0).trans hframe1)
      ((Stays.ofSameHeap hsame0).trans hstays1) hc halign hne
    rw [heq]
    refine .inr ⟨b, x, c, t, a', L', a1, fun d => ?_, h1.block, h1.free, hne, hzero, hle, heq',
      halloc.rep, by rw [halloc.used, Function.update_self], halloc.size_ne_zero, hcut⟩
    simp [eq_comm]

end Found

section Aligned

variable {L L' : Layout} {a a1 : Allocator} {b c k s t : Nat} {x : Block}

theorem memalignSize_small (hk : k ≤ 2) (adjust : Nat) (a : Allocator) :
    (memalignSize (2 ^ k) adjust a).1 = adjust := by
  have hpow : 2 ^ k ≤ 2 ^ 2 := Nat.pow_le_pow_right (by decide) hk
  rw [memalignSize]
  dsimp only
  rw [if_neg (by dsimp only [alignSize]; omega)]

/-- A block that is found for an alignment of at least eight has room for any gap, but for one of 64
bytes that is found for the smallest request. -/
theorem gap_fits (a a1 : Allocator) {adjust : Nat} (hk : 3 ≤ k) (hk' : k ≤ 62) (hadjust : adjust % 4 = 0)
    (hmin : 24 ≤ adjust) (hlt : adjust < 2 ^ 30) (hbmod : b % 4 = 0) (hxmod : x.size % 4 = 0)
    (hend : b + 16 + x.size ≤ 2 ^ 64) (hne : (memalignSize (2 ^ k) adjust a).1 ≠ 0)
    (hle : (memalignSize (2 ^ k) adjust a).1 ≤ x.size)
    (hloose : ¬ (k = 3 ∧ adjust = 24 ∧ x.size = 64 ∧ (b + 16) % 8 = 4)) :
    2 ^ k ∣ b + 16 + (alignedWithGap (b + 16) (2 ^ k) a1).1 ∧
      adjust + (alignedWithGap (b + 16) (2 ^ k) a1).1 ≤ x.size ∧
      ((alignedWithGap (b + 16) (2 ^ k) a1).1 ≠ 0 →
        (alignedWithGap (b + 16) (2 ^ k) a1).1 + 32 ≤ x.size) := by
  have hpow3 : 2 ^ 3 ≤ 2 ^ k := Nat.pow_le_pow_right (by decide) hk
  obtain ⟨r, hdvd, hr, hsize⟩ := memalignSize_two_pow hk hk' (by omega : adjust ≠ 0) hlt a
  have hrlt : r < 2 ^ 30 := by
    by_contra hge
    exact hne (hsize.trans (if_neg hge))
  rw [hsize, if_pos hrlt] at hle
  obtain ⟨hd, hgap, h3⟩ := alignedWithGap_two_pow hk (by omega)
    (show (b + 16) % 4 = 0 by omega) (by omega) a1
  refine ⟨hd, by omega, fun hgap0 => ?_⟩
  rcases Nat.lt_or_ge k 6 with hsmall | hlarge
  · obtain rfl | rfl | rfl : k = 3 ∨ k = 4 ∨ k = 5 := by omega
    · obtain ⟨hmod, hgap⟩ := (h3 rfl).resolve_left hgap0
      rw [hgap]
      by_cases hleast : adjust = 24
      · have hne64 : x.size ≠ 64 := fun h64 => hloose ⟨rfl, hleast, h64, hmod⟩
        omega
      · omega
    · omega
    · omega
  · have hpow6 : 2 ^ 6 ≤ 2 ^ k := Nat.pow_le_pow_right (by decide) hlarge
    have hpos : 0 < 2 ^ k := Nat.two_pow_pos k
    obtain ⟨q, rfl⟩ := hdvd
    have hq : 1 < q := by
      by_contra hq
      have := Nat.mul_le_mul_left (2 ^ k) (show q ≤ 1 by omega)
      omega
    have := Nat.mul_le_mul_left (2 ^ k) (show 2 ≤ q from hq)
    omega

end Aligned

namespace Client

variable {s : Client} {L : Layout} {align size : Nat}

/-- The block at `b` ends where the one at `c` starts and is in a free list. -/
structure GapReturned (pools : List Pool) (a : Allocator) (b c : Nat) : Prop where
  physical : PhysicalBlock pools a b
  free : blockIsFree a.mem b = true
  size_ge : blockSizeMin ≤ blockSize a.mem b
  adjacent : c = b + blockHeaderOverhead + blockSize a.mem b
  listed : ∃ l, FreeList a.mem a.controller.blockNull
    (a.controller.blocks (mappingInsert (blockSize a.mem b)).1 (mappingInsert (blockSize a.mem b)).2) l ∧
    b ∈ l

/-- A power of two gives an aligned block that is large enough, and what is left over before it goes
back into the lists; any other alignment is rejected. -/
structure MemalignHonours (s : Client) (align size : Nat) : Prop where
  aligned : ∀ k p a', align = 2 ^ k → htfhMemalign align size s.alloc = (some p, a') →
    align ∣ p ∧ size ≤ blockSize a'.mem (blockFromPtr p) ∧
      ∀ b, MemalignFinds align size s.alloc b → b ≠ blockFromPtr p →
        GapReturned s.pools a' b (blockFromPtr p)
  rejected : (∀ k, align ≠ 2 ^ k) → ∃ a', htfhMemalign align size s.alloc = (none, a') ∧
    a'.mem = s.alloc.mem ∧ a'.controller = s.alloc.controller

/-- What the block that is found must be like: the alignment is a power of two, the size rounds up
without wrapping, the least request for eight bytes of alignment does not get a block of 64 bytes
that is off by four, and the largest alignment has its one address inside of the block. -/
structure MemalignFits (align size : Nat) (a : Allocator) (b : Nat) : Prop where
  two_pow : ∃ k, align = 2 ^ k
  size_le : size ≤ 2 ^ 64 - 4
  loose : ¬ (align = 8 ∧ size ≤ 24 ∧ blockSize a.mem b = 64 ∧ blockToPtr b % 8 = 4)
  middle : align = 2 ^ 63 → blockToPtr b = 2 ^ 63 ∧ size ≤ blockSize a.mem b ∨
    blockToPtr b + 32 ≤ 2 ^ 63 ∧ 2 ^ 63 + max size 32 ≤ blockToPtr b + blockSize a.mem b

theorem gapReturned {pools : List Pool} {a : Allocator} {b gap : Nat} {x : Block}
    (h : Rep pools L L.classOf a) (hb : L b = some x) (hfree : x.free = true)
    (hsize : x.size = gap - 8) (hmin : 32 ≤ gap) : GapReturned pools a b (b + gap) := by
  have hbsize := h.blockSize_eq hb (by simp)
  obtain ⟨l, hl, hmem⟩ := h.index.list (mappingInsert x.size).1 (mappingInsert x.size).2
  refine ⟨(physicalBlock_iff h).mpr ⟨x, hb⟩, by rw [h.blockIsFree_eq hb (by simp), hfree], ?_, ?_, ?_⟩
  · rw [hbsize]
    dsimp only [blockSizeMin]
    omega
  · rw [hbsize]
    dsimp only [blockHeaderOverhead]
    omega
  · rw [hbsize]
    exact ⟨l, hl, (hmem b).mpr (classOf_eq_some.mpr ⟨x, hb, hfree, rfl⟩)⟩

theorem adjustedSize_eq_min (hsize : size ≤ 2 ^ 64 - 4) (hne : adjustedSize size ≠ 0) :
    adjustedSize size = 24 ↔ size ≤ 24 := by
  have hle := le_adjustedSize hsize hne
  refine ⟨fun heq => by omega, fun hsmall => ?_⟩
  unfold adjustedSize at *
  simp only [blockSizeMax, blockSizeMin] at *
  by_cases hzero : size = 0
  · rw [if_pos hzero] at hne
    exact (hne rfl).elim
  · rw [if_neg hzero, if_pos (by omega)]
    omega

section Cut

variable {L' : Layout} {a a1 : Allocator} {b c k t : Nat} {x : Block}

/-- The block that an aligned request for `size` bytes found, and the one that it returned. -/
structure MemalignCut (size align : Nat) (a a1 : Allocator) (b : Nat) (x : Block) (c t : Nat)
    (L L' : Layout) : Prop where
  block : L b = some x
  bounds : 24 ≤ b ∧ b % 4 = 0 ∧ b + 24 + x.size ≤ 2 ^ 64 ∧ x.size < 2 ^ 30
  size_ge : x.size % 4 = 0 ∧ 24 ≤ x.size
  adjust : adjustedSize size ≠ 0
  looked : (memalignSize align (adjustedSize size) (htfhLockLock a)).1 ≠ 0
  le : (memalignSize align (adjustedSize size) (htfhLockLock a)).1 ≤ x.size
  cut : CutOut L b x (alignedWithGap (b + 16) align a1).1 (adjustedSize size) c t L'

/-- With a block that fits the result is aligned and large enough. -/
theorem MemalignCut.honours (h : MemalignCut size (2 ^ k) a a1 b x c t L L') (hk : k < 64)
    (hsize : size ≤ 2 ^ 64 - 4)
    (hloose : ¬ (k = 3 ∧ size ≤ 24 ∧ x.size = 64 ∧ (b + 16) % 8 = 4))
    (hmiddle : k = 63 → b + 16 = 2 ^ 63 ∧ size ≤ x.size ∨
      b + 16 + 32 ≤ 2 ^ 63 ∧ 2 ^ 63 + max size 32 ≤ b + 16 + x.size) :
    2 ^ k ∣ c + 16 ∧ size ≤ t := by
  obtain ⟨hlow, hbmod, hend, hxlt⟩ := h.bounds
  have hxsize := h.size_ge
  obtain ⟨hmod, hmin, hlt⟩ := (adjustedSize_cases size).resolve_left h.adjust
  have hadjust := le_adjustedSize hsize h.adjust
  have ht := h.cut.size_eq
  have hle := h.le
  rcases Nat.lt_or_ge k 3 with hsmall | hlarge
  · -- every block is aligned
    have hgap := alignedWithGap_small (show k ≤ 2 by omega)
      (show (b + 16) % 4 = 0 by omega) (by omega) a1
    rw [memalignSize_small (show k ≤ 2 by omega)] at hle
    rcases h.cut.start_eq h.block with ⟨rfl, -⟩ | ⟨-, hne, -⟩
    · refine ⟨Nat.dvd_trans (Nat.pow_dvd_pow 2 (show k ≤ 2 by omega)) ?_, by omega⟩
      exact Nat.dvd_of_mod_eq_zero (by omega)
    · exact (hne hgap).elim
  rcases Nat.lt_or_ge k 63 with hk' | hk'
  · obtain ⟨hd, hroom, hfits⟩ := gap_fits (htfhLockLock a) a1 hlarge (by omega) hmod hmin hlt
      hbmod hxsize.1 (by omega) h.looked h.le (by rwa [adjustedSize_eq_min hsize h.adjust])
    rcases h.cut.start_eq h.block with ⟨rfl, hstart⟩ | ⟨rfl, hne, -, -⟩
    · have hgap : (alignedWithGap (c + 16) (2 ^ k) a1).1 = 0 := by
        by_contra hne
        exact hstart.resolve_left hne (hfits hne)
      rw [hgap] at hd
      exact ⟨hd, by omega⟩
    · exact ⟨by rwa [Nat.add_right_comm], by omega⟩
  · obtain rfl : k = 63 := by omega
    have hgap := alignedWithGap_last (show 32 < b + 16 by omega) (by omega) a1
    rcases hmiddle rfl with ⟨hptr, hfit⟩ | ⟨hbelow, habove⟩
    · rw [if_pos hptr] at hgap
      rcases h.cut.start_eq h.block with ⟨rfl, -⟩ | ⟨-, hne, -⟩
      · exact ⟨by rw [hptr], by omega⟩
      · exact (hne hgap).elim
    · rw [if_neg (by omega), if_pos hbelow] at hgap
      rcases h.cut.start_eq h.block with ⟨rfl, hstart⟩ | ⟨rfl, -, -, -⟩
      · omega
      · exact ⟨⟨1, by omega⟩, by omega⟩

/-- A result that is aligned and large enough came out of a block that fits. -/
theorem MemalignCut.fits (h : MemalignCut size (2 ^ k) a a1 b x c t L L')
    (hdvd : 2 ^ k ∣ c + 16) (hsize : size ≤ t) :
    size ≤ 2 ^ 64 - 4 ∧ ¬ (k = 3 ∧ size ≤ 24 ∧ x.size = 64 ∧ (b + 16) % 8 = 4) ∧
      (k = 63 → b + 16 = 2 ^ 63 ∧ size ≤ x.size ∨
        b + 16 + 32 ≤ 2 ^ 63 ∧ 2 ^ 63 + max size 32 ≤ b + 16 + x.size) := by
  obtain ⟨hlow, hbmod, hend, hxlt⟩ := h.bounds
  have hxsize := h.size_ge
  have ht := h.cut.size_eq
  refine ⟨by omega, ?_, ?_⟩
  · rintro ⟨rfl, -, hx, hmod⟩
    obtain ⟨-, -, h3⟩ := alignedWithGap_two_pow (show 3 ≤ 3 by decide) (by decide)
      (show (b + 16) % 4 = 0 by omega) (by omega) a1
    rcases h.cut.start_eq h.block with ⟨rfl, -⟩ | ⟨-, hne, hsplit, -⟩
    · omega
    · have := (h3 rfl).resolve_left hne
      omega
  · rintro rfl
    have hgap := alignedWithGap_last (show 32 < b + 16 by omega) (by omega) a1
    obtain ⟨q, hq⟩ := hdvd
    rcases h.cut.start_eq h.block with ⟨rfl, -⟩ | ⟨rfl, -, hsplit, -⟩
    · exact .inl (by omega)
    · split at hgap
      · omega
      · split at hgap
        · exact .inr (by omega)
        · omega

end Cut

/-- `htfh_memalign` honours alignment and size of just the requests whose block fits. -/
theorem memalign_honours_iff (h : s.Sound) (halign : align < 2 ^ 64) :
    s.MemalignHonours align size ↔
      ∀ b, MemalignFinds align size s.alloc b → MemalignFits align size s.alloc b := by
  obtain ⟨L, h⟩ := h
  rcases htfhMemalign_cases h.rep h.coalesced halign size with ⟨hnone, a', heq, hsame⟩ |
    ⟨b, x, c, t, a', L', a1, hfinds, hb, hfree, hadjust, hlooked, hle, heq, hrep, hused, ht, hcut⟩
  · refine ⟨fun _ b hb => (hnone b hb).elim, fun _ => ⟨fun k p a'' _ heq' => ?_, fun _ => ?_⟩⟩
    · simp [heq] at heq'
    · exact ⟨a', heq, hsame⟩
  · obtain ⟨y, hc, hyused, rfl⟩ := Layout.used_eq_some.mp hused
    have hbounds := h.rep.tiling.bounds hb
    have hx0 := h.rep.tiling.size_ne_zero hb hfree
    have hxsize := h.rep.tiling.size_ge hb hx0
    have hend := h.rep.tiling.end_le hb hx0
    have hptr : blockToPtr b = b + 16 := h.rep.blockToPtr_eq hb hx0
    have hbsize := h.rep.blockSize_eq hb (by simp)
    have hcptr := hrep.blockFromPtr_eq hc
    have hcsize := hrep.blockSize_eq hc (by simp)
    have hcutk : MemalignCut size align s.alloc a1 b x c y.size L L' :=
      ⟨hb, by omega, hxsize, hadjust, hlooked, hle, hcut⟩
    constructor
    · intro honours d hd
      obtain rfl := (hfinds d).mp hd
      by_cases hpow : ∃ k, align = 2 ^ k
      · obtain ⟨k, rfl⟩ := hpow
        obtain ⟨hdvd, hsize, -⟩ := honours.aligned k _ _ rfl heq
        rw [hcptr, hcsize] at hsize
        obtain ⟨hsize, hloose, hmiddle⟩ := hcutk.fits hdvd hsize
        refine ⟨⟨k, rfl⟩, hsize, ?_, fun hk => ?_⟩
        · rw [hbsize, hptr]
          rintro ⟨hk, hrest⟩
          exact hloose ⟨Nat.pow_right_injective (Nat.le_refl 2) (hk.trans rfl), hrest⟩
        · rw [hbsize, hptr]
          exact hmiddle (Nat.pow_right_injective (Nat.le_refl 2) hk)
      · obtain ⟨a'', heq', -⟩ := honours.rejected fun k hk => hpow ⟨k, hk⟩
        simp [heq] at heq'
    · intro hfits
      obtain ⟨⟨k, rfl⟩, hsize, hloose, hmiddle⟩ := hfits b ((hfinds b).mpr rfl)
      rw [hbsize, hptr] at hloose hmiddle
      refine ⟨fun _ p a'' _ heq' => ?_, fun hno => (hno k rfl).elim⟩
      obtain ⟨hp, rfl⟩ := Prod.mk.inj (heq.symm.trans heq')
      obtain rfl := Option.some.inj hp
      have hk : k < 64 := (Nat.pow_lt_pow_iff_right (by decide)).mp halign
      obtain ⟨hdvd, hle'⟩ := hcutk.honours hk hsize
        (fun htight => hloose ⟨by simp [htight.1], htight.2⟩) fun h63 => hmiddle (by rw [h63])
      rw [hcptr, hcsize]
      refine ⟨hdvd, hle', fun d hd hne => ?_⟩
      obtain rfl := (hfinds d).mp hd
      rcases hcut.start_eq hb with ⟨rfl, -⟩ | ⟨rfl, hgap, -, hgapped⟩
      · exact (hne rfl).elim
      · obtain ⟨gap, a2, hgapeq, -, hok⟩ := alignedWithGap_spec (show 32 < d + 16 by omega)
          (by omega) (by omega) halign a1
        rw [hgapeq] at hgap hgapped
        have hmin := (hok.zero_or.resolve_left hgap).1
        rw [hgapeq]
        exact gapReturned hrep hgapped hfree rfl hmin

/-- Three blocks, the second of which is freed: its payload of 64 bytes is off by four. -/
def tight : Client :=
  ((((start zeroed).step (.addPool 16384 1024)).step (.request (.malloc 28))).step
    (.request (.malloc 64))).step (.request (.malloc 100)) |>.step (.free 16428)

theorem sound_tight : tight.Sound := by
  have regular : Regular CallFits (start zeroed) [.addPool 16384 1024, .request (.malloc 28),
      .request (.malloc 64), .request (.malloc 100), .free 16428] := by
    refine regular_cons.mpr ⟨⟨given_zeroed, trivial⟩, regular_cons.mpr ⟨⟨?_, trivial⟩,
      regular_cons.mpr ⟨⟨?_, trivial⟩, regular_cons.mpr ⟨⟨?_, trivial⟩,
        regular_cons.mpr ⟨⟨⟨64, ?_⟩, trivial⟩, trivial⟩⟩⟩⟩⟩
    · exact (by decide : 28 < 2 ^ 64)
    · exact (by decide : 64 < 2 ^ 64)
    · exact (by decide : 100 < 2 ^ 64)
    · decide +kernel
  exact Sound.run (fun _ _ fits => fits) room_zeroed regular rfl

theorem memalign_honours_iff_tight : tight.MemalignHonours 64 100 ↔
    ∀ b, MemalignFinds 64 100 tight.alloc b → MemalignFits 64 100 tight.alloc b :=
  memalign_honours_iff sound_tight (by decide)

/-- An alignment of 24 is not rejected, and one of 8 not honoured. -/
theorem not_memalign_honours :
    tight.Sound ∧ ¬tight.MemalignHonours 24 100 ∧ ¬tight.MemalignHonours 8 24 := by
  refine ⟨sound_tight, fun honours => ?_, fun honours => ?_⟩
  · have hsome : (htfhMemalign 24 100 tight.alloc).1 = some 16428 := by decide +kernel
    obtain ⟨a', heq, -⟩ := honours.rejected fun k hk => by
      have h3 : 3 ∣ 2 ^ k := hk ▸ (by decide : 3 ∣ 24)
      exact absurd (Nat.prime_three.dvd_of_dvd_pow h3) (by decide)
    simp [heq] at hsome
  · have hsome : (htfhMemalign 8 24 tight.alloc).1 = some 16428 := by decide +kernel
    obtain ⟨hdvd, -, -⟩ := honours.aligned 3 16428 (htfhMemalign 8 24 tight.alloc).2 rfl
      (Prod.ext hsome rfl)
    exact absurd hdvd (by decide)

end Client

end Htfh
