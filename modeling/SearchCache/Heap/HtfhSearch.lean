import SearchCache.Heap.HtfhAdequacy
import SearchCache.Heap.InternalErrors

/-! The search finds a block exactly where a free block has a class that is searched, and that block
is large enough, so that no call reports an error of the heap itself. -/

namespace Htfh

open Memory

section Boundaries

/-- The width of the class of a size. -/
def classWidth (s : Nat) : Nat := if s < 128 then 4 else 2 ^ (s.log2 - 5)

/-- A size rounded up to the next least size of a class. -/
def nextBoundary (s : Nat) : Nat := (s + (classWidth s - 1)) / classWidth s * classWidth s

theorem mappingInsert_nextBoundary {s : Nat} (hmod : s % 4 = 0) (hs : s < 2 ^ 30) :
    mappingInsert (nextBoundary s) = mappingSearch s := by
  rw [mappingSearch_eq (by omega), nextBoundary, classWidth, roundedSize]
  by_cases hsmall : s < 128
  · simp only [if_pos hsmall]
    congr 1
    omega
  simp only [if_neg hsmall]
  have hlog := le_log2 (s := s) (by omega)
  have hself : 2 ^ s.log2 ≤ s := Nat.log2_self_le (by omega)
  have hlt : s < 2 ^ (s.log2 + 1) := Nat.lt_log2_self
  have hwidth : 2 ^ 2 ≤ 2 ^ (s.log2 - 5) := Nat.pow_le_pow_right (by decide) (by omega)
  have hpos : 0 < 2 ^ (s.log2 - 5) := Nat.two_pow_pos _
  have hpow := two_pow_log2 (s := s) (by omega)
  have hpow' : 2 ^ (s.log2 + 1) = 64 * 2 ^ (s.log2 - 5) := by
    rw [Nat.pow_succ]
    omega
  obtain ⟨r, hr⟩ : ∃ r, r = s + (2 ^ (s.log2 - 5) - 1) := ⟨_, rfl⟩
  rw [← hr]
  have hdown : r / 2 ^ (s.log2 - 5) * 2 ^ (s.log2 - 5) ≤ r := Nat.div_mul_le_self _ _
  -- the quotient decides on which side of the next power of two both sizes are
  have hlow : 32 ≤ r / 2 ^ (s.log2 - 5) := (Nat.le_div_iff_mul_le hpos).mpr (by omega)
  have hle : 2 ^ s.log2 ≤ r / 2 ^ (s.log2 - 5) * 2 ^ (s.log2 - 5) := by
    rw [hpow]
    exact Nat.mul_le_mul_right _ hlow
  have hend : 2 ^ (s.log2 + 2) = 128 * 2 ^ (s.log2 - 5) := by
    rw [Nat.pow_succ]
    omega
  by_cases hsplit : r < 2 ^ (s.log2 + 1)
  · have h1 : r.log2 = s.log2 := (Nat.log2_eq_iff (by omega)).mpr ⟨by omega, hsplit⟩
    have h2 : (r / 2 ^ (s.log2 - 5) * 2 ^ (s.log2 - 5)).log2 = s.log2 :=
      (Nat.log2_eq_iff (by omega)).mpr ⟨hle, by omega⟩
    rw [mappingInsert_large (by omega) (by omega), mappingInsert_large (by omega) (by omega), h1, h2,
      Nat.mul_div_cancel _ hpos]
  · have hhigh : 64 ≤ r / 2 ^ (s.log2 - 5) := (Nat.le_div_iff_mul_le hpos).mpr (by omega)
    have hle' : 2 ^ (s.log2 + 1) ≤ r / 2 ^ (s.log2 - 5) * 2 ^ (s.log2 - 5) := by
      rw [hpow']
      exact Nat.mul_le_mul_right _ hhigh
    have h1 : r.log2 = s.log2 + 1 := (Nat.log2_eq_iff (by omega)).mpr ⟨by omega, by omega⟩
    have h2 : (r / 2 ^ (s.log2 - 5) * 2 ^ (s.log2 - 5)).log2 = s.log2 + 1 :=
      (Nat.log2_eq_iff (by omega)).mpr ⟨hle', by omega⟩
    have hdouble : 2 ^ (s.log2 + 1 - 5) = 2 ^ (s.log2 - 5) * 2 := by
      rw [show s.log2 + 1 - 5 = s.log2 - 5 + 1 by omega, Nat.pow_succ]
    rw [mappingInsert_large (by omega) (by omega), mappingInsert_large (by omega) (by omega), h1, h2,
      hdouble, ← Nat.div_div_eq_div_mul, ← Nat.div_div_eq_div_mul, Nat.mul_div_cancel _ hpos]

end Boundaries

section Search

variable {cls : Classes} {a : Allocator} {fl sl : Nat}

theorem getLsbD_and_largestBitClass {v : BitVec 32} {i j : Nat}
    (h : (v &&& largestBitClass i).getLsbD j = true) : v.getLsbD j = true ∧ i ≤ j := by
  rw [BitVec.getLsbD_and, Bool.and_eq_true] at h
  refine ⟨h.1, ?_⟩
  have hmask := h.2
  rw [largestBitClass, BitVec.getLsbD_shiftLeft] at hmask
  simp at hmask
  omega

/-- Where no list from a class on is marked no block has such a class. -/
theorem Index.lt_of_nothing (h : Index cls a.mem a.controller) {k j : Nat × Nat} {b : Nat}
    (hnothing : NothingFrom k a.controller) (hb : cls b = some j) : toLex j < toLex k := by
  have hsl := (h.slBit j.1 j.2).mpr ⟨b, hb⟩
  have hfl := (h.flBit j.1).mpr fun hzero => by simp [hzero] at hsl
  have hle := lt_of_and_largestBitClass hnothing.2 hfl
  rw [Prod.Lex.toLex_lt_toLex]
  rcases Nat.lt_or_ge j.1 k.1 with hlt | hge
  · exact .inl hlt
  · have heq : j.1 = k.1 := by omega
    rw [heq] at hsl
    exact .inr ⟨heq, lt_of_and_largestBitClass hnothing.1 hsl⟩

/-- The search finds a block of a class that is not below the one it starts at, or there is none. -/
theorem controllerSearchSuitableBlock_exact (h : Index cls a.mem a.controller)
    (hs : Spaced cls a.controller.blockNull) (fl sl : Nat) :
    (controllerSearchSuitableBlock fl sl a = (none, setAllocErrno .heapFull a) ∧
        ∀ b k, cls b = some k → toLex k < toLex (fl, sl)) ∨
      ∃ b i j, controllerSearchSuitableBlock fl sl a = (some (b, i, j), a) ∧
        cls b = some (i, j) ∧ toLex (fl, sl) ≤ toLex (i, j) := by
  have hpick : ∀ i j, (a.controller.slBitmap i).getLsbD j = true →
      cls (a.controller.blocks i j) = some (i, j) ∧
        toPtr (a.controller.blocks i j) = some (a.controller.blocks i j) := by
    intro i j hbit
    have hhead := h.head hbit
    have hpos := (hs.pos _ _ hhead).1
    exact ⟨hhead, by rw [toPtr, if_neg (by omega)]⟩
  by_cases hsl : a.controller.slBitmap fl &&& largestBitClass sl = 0
  · by_cases hfl : a.controller.flBitmap &&& largestBitClass (fl + 1) = 0
    · refine .inl ⟨?_, fun b k hb => h.lt_of_nothing ⟨hsl, hfl⟩ hb⟩
      rw [controllerSearchSuitableBlock]
      exact (if_pos hsl).trans (if_pos hfl)
    · obtain ⟨hbit, hle⟩ := getLsbD_and_largestBitClass (getLsbD_htfhFfs hfl)
      obtain ⟨i, hi⟩ : ∃ i,
          i = (htfhFfs (a.controller.flBitmap &&& largestBitClass (fl + 1))).toNat := ⟨_, rfl⟩
      rw [← hi] at hbit hle
      have hne := (h.flBit i).mp hbit
      obtain ⟨hhead, hptr⟩ := hpick i _ (getLsbD_htfhFfs hne)
      refine .inr ⟨_, i, _, ?_, hhead, ?_⟩
      · simp only [controllerSearchSuitableBlock, if_pos hsl, if_neg hfl, ← hi, if_neg hne, hptr,
          Option.map_some]
      · rw [Prod.Lex.toLex_le_toLex]
        exact .inl (show fl < i by omega)
  · obtain ⟨hbit, hle⟩ := getLsbD_and_largestBitClass (getLsbD_htfhFfs hsl)
    obtain ⟨hhead, hptr⟩ := hpick fl _ hbit
    refine .inr ⟨_, fl, _, ?_, hhead, ?_⟩
    · simp only [controllerSearchSuitableBlock, if_neg hsl, hptr, Option.map_some]
    · rw [Prod.Lex.toLex_le_toLex]
      exact .inr ⟨rfl, hle⟩

end Search

section FindFree

variable {pools : List Pool} {L : Layout} {a : Allocator} {s : Nat}

/-- A free block of the layout has a class that is searched for `s` bytes. -/
def Suits (L : Layout) (s b : Nat) : Prop :=
  ∃ x, L b = some x ∧ x.free = true ∧ toLex (mappingSearch s) ≤ toLex (mappingInsert x.size)

/-- The block that is found was one that suits, and is large enough; or there is none. -/
theorem controllerBlockFindFree_exact (h : Rep pools L L.classOf a)
    (hs : s = 0 ∨ s % 4 = 0 ∧ s < 2 ^ 30) :
    (∃ a', controllerBlockFindFree s a = (none, a') ∧ (Clean a → Clean a') ∧
        (s = 0 ∨ ∀ b, ¬ Suits L s b)) ∨
      ∃ b x a', controllerBlockFindFree s a = (some b, a') ∧ (Clean a → Clean a') ∧
        s ≠ 0 ∧ Suits L s b ∧ L b = some x ∧ s ≤ x.size := by
  unfold controllerBlockFindFree
  by_cases hzero : s = 0
  · rw [if_pos hzero]
    exact .inl ⟨a, rfl, id, .inl hzero⟩
  obtain ⟨hmod, hlt⟩ := hs.resolve_left hzero
  rw [if_neg hzero]
  dsimp only
  by_cases hfl : flIndexCount ≤ (mappingSearch s).1
  · rw [if_pos hfl]
    refine .inl ⟨a, rfl, id, .inr ?_⟩
    rintro b ⟨x, hb, -, hle⟩
    have hclass := (mappingInsert_lt (h.tiling.bounds hb).2.2.2).1
    have := Prod.Lex.monotone_fst _ _ hle
    exact absurd (hfl.trans this) hclass.not_ge
  rw [if_neg hfl]
  rcases controllerSearchSuitableBlock_exact h.index (h.spaced h.listed) (mappingSearch s).1
    (mappingSearch s).2 with ⟨heq, hnone⟩ | ⟨b, i, j, heq, hcls, hle⟩
  · rw [heq]
    refine .inl ⟨_, rfl, fun _ => clean_setAllocErrno rfl, .inr ?_⟩
    rintro b ⟨x, hb, hfree, hle⟩
    exact absurd hle (hnone b _ (Client.classOf_eq_some.mpr ⟨x, hb, hfree, rfl⟩)).not_ge
  · obtain ⟨x, hb, hfree, hclass⟩ := h.listed b _ hcls
    rw [heq]
    dsimp only
    rw [← hclass] at hle
    have hlarge : s ≤ x.size := by
      by_contra hsmall
      exact absurd hle (mappingInsert_lt_search hlt (Nat.dvd_of_mod_eq_zero hmod) (by omega)).not_ge
    rw [h.blockSize_eq hb (by simp), if_neg (by omega)]
    obtain ⟨a', hremove, -, -⟩ := RepBut.removeFreeBlock h hcls
    refine .inr ⟨b, x, a', by rw [hremove]; rfl, fun hclean => ?_, hzero, ⟨x, hb, hfree, hle⟩, hb,
      hlarge⟩
    exact Quiet.of_eq (quiet_removeFreeBlock hclean b i j) hremove rfl

end FindFree

section Malloc

variable {pools : List Pool} {L : Layout} {a : Allocator}

theorem clean_lock (h : Clean a) : Clean (htfhLockLock a) := h

theorem clean_unlock (h : Clean a) : Clean (htfhLockUnlock a).2 := by
  rw [htfhLockUnlock]
  split
  · exact clean_setAllocErrno rfl
  · exact h

theorem clean_unlockReturning (h : Clean a) (ptr : Option Nat) : Clean (unlockReturning ptr a).2 := by
  have h1 := clean_unlock h
  rw [unlockReturning]
  exact h1

theorem adjustedSize_or (s : Nat) :
    adjustedSize s = 0 ∨ adjustedSize s % 4 = 0 ∧ adjustedSize s < 2 ^ 30 :=
  (adjustedSize_cases s).imp_right fun h => ⟨h.1, h.2.2⟩

/-- A block that was found can be marked as used. -/
theorem Detached.marks {b s : Nat} {x : Block} (h : Detached pools L b x a) (hc : Coalesced L)
    (hs : adjustedSize s ≠ 0) : ∃ a', controllerBlockMarkUsed (some b) (adjustedSize s) a =
      (some (b + 16), a') ∧ a'.mutex = a.mutex := by
  obtain ⟨hmod, hmin, hlt⟩ := (adjustedSize_cases s).resolve_left hs
  obtain ⟨a', -, -, heq, hframe, -⟩ :=
    h.markUsed (hc.mono fun _ _ _ _ _ _ _ hfalse => hfalse.elim) hmod hmin hlt
  exact ⟨a', heq, hframe.mutex⟩

/-- `htfh_malloc` returns the null pointer exactly where no free block suits. -/
theorem htfhMalloc_exact (h : Rep pools L L.classOf a) (hc : Coalesced L) (s : Nat) :
    ((htfhMalloc s a).1 = none ↔ adjustedSize s = 0 ∨ ∀ b, ¬ Suits L (adjustedSize s) b) ∧
      (Clean a → Clean (htfhMalloc s a).2) := by
  rw [htfhMalloc, adjustRequestSize_alignSize]
  dsimp only
  have h0 := rep_lock h
  rcases controllerBlockFindFree_exact h0 (adjustedSize_or s) with
    ⟨a1, heq, hclean, hnone⟩ | ⟨b, x, a1, heq, hclean, hne, hsuits, hb, -⟩
  · rw [heq]
    exact ⟨iff_of_true rfl hnone, fun h1 => clean_unlock (hclean h1)⟩
  · rcases controllerBlockFindFree_spec h0 (adjustedSize s) with
      ⟨a2, heq2, -⟩ | ⟨c, y, a2, heq2, hframe, hdetached, -⟩
    · simp [heq2] at heq
    · obtain ⟨hcb, ha⟩ := Prod.mk.inj (heq2.symm.trans heq)
      obtain rfl := Option.some.inj hcb
      subst ha
      obtain ⟨a3, hmark, hmutex⟩ := hdetached.marks hc hne
      rw [heq]
      dsimp only
      rw [hmark]
      dsimp only
      have hunlock := unlockReturning_eq (n := a.mutex) (hmutex.trans hframe.mutex) (some (c + 16))
      refine ⟨?_, fun h1 => ?_⟩
      · rw [hunlock]
        refine iff_of_false (by simp) ?_
        rintro (hzero | hnone)
        · exact hne hzero
        · exact hnone c hsuits
      · have h3 := Quiet.of_eq (quiet_markUsed (hclean h1) (adjustedSize s) (some c)) hmark (by simp)
        exact clean_unlockReturning h3 _

theorem clean_htfhCalloc (h : Rep pools L L.classOf a) (hc : Coalesced L) (hclean : Clean a)
    (count bytes : Nat) : Clean (htfhCalloc count bytes a).2 := by
  have h1 := (htfhMalloc_exact h hc (callocBytes count bytes)).2 hclean
  rw [htfhCalloc]
  split <;> rename_i heq <;> rw [heq] at h1
  · exact h1
  · exact clean_setMem h1

end Malloc

section Free

variable {pools : List Pool} {a : Allocator}

/-- A pointer that is returned leaves no internal error. -/
theorem clean_htfhFree (h : Clean a) {ptr : Nat} (hfree : (htfhFree ptr a).1 = 0) :
    Clean (htfhFree ptr a).2 := by
  have h0 : Clean (htfhLockLock a) := clean_lock h
  revert hfree
  rw [htfhFree]
  extract_lets block
  suffices hquiet : Quiet Succeeded _ from hquiet
  refine .ite (.of_clean (clean_unlock h0)) (.ite (.of_not (by simp)) (.ite (.of_not (by simp)) ?_))
  have h1 := clean_blockMarkAsFree h0 block
  split
  rename_i heq
  rw [heq] at h1
  have h2 := quiet_mergePrev h1 block
  split <;> rename_i heq <;> rw [heq] at h2
  · exact .of_not (by simp)
  · rename_i block _
    have h3 := quiet_mergeNext (h2 (by simp)) block
    split <;> rename_i heq <;> rw [heq] at h3
    · exact .of_not (by simp)
    · rename_i block _
      have h4 := quiet_blockInsert (h3 (by simp)) block
      split
      rename_i inserted _ heq
      rw [heq] at h4
      by_cases hinserted : inserted = 0
      · rw [if_neg (not_not_intro hinserted)]
        exact .of_clean (clean_unlock (h4 hinserted))
      · rw [if_pos hinserted]
        exact .of_not (by simp)

end Free

section Memalign

variable {pools : List Pool} {L : Layout} {a : Allocator} {align : Nat}

theorem alignUp_eq_alignPtr (s align : Nat) (a : Allocator) : alignUp s align a = alignPtr s align a :=
  rfl

/-- A size that is rounded up to an alignment of more than four is zero or that of a block. -/
theorem adjustRequestSize_or (halign : align < 2 ^ 64) (hlarge : 4 < align) (s : Nat) (a : Allocator) :
    (adjustRequestSize s align a).1 = 0 ∨
      (adjustRequestSize s align a).1 % 4 = 0 ∧ (adjustRequestSize s align a).1 < 2 ^ 30 := by
  obtain ⟨v, a1, heq, hv⟩ : ∃ v a1, alignUp s align a = (v, a1) ∧ v % 4 = 0 := by
    rw [alignUp]
    rcases alignPtr_cases halign with ⟨k, hk, rfl⟩ | hnull
    · have hk2 : 2 < k := (Nat.pow_lt_pow_iff_right (by decide : 1 < 2)).mp hlarge
      have hpos : 0 < 2 ^ k := Nat.two_pow_pos k
      have hsub : sub64 (2 ^ k) 1 = 2 ^ k - 1 := by
        unfold sub64
        omega
      have hword : add64 s (2 ^ k - 1) < 2 ^ 64 := Nat.mod_lt _ (by decide)
      rw [hsub, and_lnot_two_pow hword (by omega)]
      split
      · exact ⟨_, _, rfl, rfl⟩
      · refine ⟨_, _, rfl, Nat.mod_eq_zero_of_dvd ?_⟩
        exact Nat.dvd_trans (Nat.pow_dvd_pow 2 (show 2 ≤ k by omega)) (Nat.dvd_mul_left _ _)
    · obtain ⟨a', heq, -⟩ := hnull s a
      have heq : alignUp s align a = (0, a') := heq
      rw [alignUp] at heq
      exact ⟨0, a', heq, rfl⟩
  rw [adjustRequestSize]
  by_cases hzero : s = 0
  · rw [if_pos hzero]
    exact .inl rfl
  · rw [if_neg hzero, heq]
    dsimp only [blockSizeMax, blockSizeMin]
    split
    · exact .inr (by omega)
    · exact .inl rfl

theorem clean_adjustRequestSize (h : Clean a) (s align : Nat) :
    Clean (adjustRequestSize s align a).2 := by
  have h1 := clean_alignUp h s align
  rw [adjustRequestSize]
  split
  · exact h
  · split
    rename_i heq
    rw [heq] at h1
    exact h1

theorem clean_alignedWithGap (h : Clean a) (ptr align : Nat) : Clean (alignedWithGap ptr align a).2 := by
  have h1 := clean_alignPtr h ptr align
  rw [alignedWithGap]
  split
  rename_i aligned a1 heq
  rw [heq] at h1
  extract_lets gap offset
  split
  · have h2 := clean_alignPtr h1 (add64 aligned offset) align
    split
    rename_i heq
    rw [heq] at h2
    exact h2
  · exact h1

theorem quiet_memalignMarkUsed (h : Clean a) (adjust : Nat) (block : Option Nat) :
    Quiet Found (memalignMarkUsed adjust block a) := by
  have h1 := quiet_markUsed h adjust block
  rw [memalignMarkUsed]
  split <;> rename_i heq <;> rw [heq] at h1
  · exact .of_not (by simp)
  · exact fun _ => clean_unlockReturning (h1 (by simp)) _

theorem quiet_memalignBlock (h : Clean a) (align adjust block : Nat) :
    Quiet Found (memalignBlock align adjust block a) := by
  have h1 := clean_alignedWithGap h (blockToPtr block) align
  rw [memalignBlock]
  split
  rename_i gap a1 heq
  rw [heq] at h1
  refine .ite (quiet_memalignMarkUsed h1 _ _) (.ite (.of_not (by simp)) ?_)
  have h2 := quiet_trimFreeLeading h1 block gap
  split <;> rename_i heq <;> rw [heq] at h2
  · exact .of_not (by simp)
  · exact quiet_memalignMarkUsed (h2 (by simp)) _ _

theorem clean_htfhMemalign (h : Rep pools L L.classOf a) (hc : Coalesced L) (hclean : Clean a)
    (halign : align < 2 ^ 64) (s : Nat) : Clean (htfhMemalign align s a).2 := by
  obtain ⟨n, a0, hsizeeq, hsame0, hclean0, hn, hor⟩ : ∃ n a0,
      memalignSize align (adjustedSize s) (htfhLockLock a) = (n, a0) ∧
        SameHeap (htfhLockLock a) a0 ∧ Clean a0 ∧ (adjustedSize s = 0 → n = 0) ∧
        (n = 0 ∨ n % 4 = 0 ∧ n < 2 ^ 30) := by
    refine ⟨_, _, rfl, adjustRequestSize_sameHeap .., clean_adjustRequestSize (clean_lock hclean) _ _,
      fun hzero => ?_, ?_⟩
    · rw [hzero]
      exact if_neg (by simp)
    · split
      · rename_i hlarge
        exact adjustRequestSize_or halign hlarge.2 _ _
      · exact adjustedSize_or s
  have h0 := RepBut.sameHeap (rep_lock h) hsame0
  rw [htfhMemalign, adjustRequestSize_alignSize]
  simp only [hsizeeq]
  rcases controllerBlockFindFree_exact h0 hor with
    ⟨a1, heq, -, -⟩ | ⟨b, x, a1, heq, hclean1, hne, -, hb, -⟩
  · rw [heq]
    exact clean_setAllocErrno rfl
  · rcases controllerBlockFindFree_spec h0 n with ⟨a2, heq2, -⟩ |
      ⟨c, y, a2, heq2, hframe, hdetached, -, hstays⟩
    · simp [heq2] at heq
    · obtain ⟨hcb, ha⟩ := Prod.mk.inj (heq2.symm.trans heq)
      obtain rfl := Option.some.inj hcb
      subst ha
      have hadjust : adjustedSize s ≠ 0 := fun hzero => hne (hn hzero)
      obtain ⟨d, t, a', L', heq', -⟩ := memalignBlock_spec hdetached
        ((Frame.ofSameHeap hsame0).trans hframe)
        ((Stays.ofSameHeap hsame0).trans hstays) hc halign hadjust
      have hquiet := quiet_memalignBlock (hclean1 hclean0) align (adjustedSize s) c
      rw [heq]
      exact hquiet (by rw [heq']; simp)

end Memalign

section AddPool

variable {pools : List Pool} {L : Layout} {a : Allocator} {mem bytes : Nat}

theorem quiet_addPoolBlock (h : Clean a) (mem payload : Nat) :
    Quiet Found (addPoolBlock mem payload a) := by
  rw [addPoolBlock]
  have h3 : ∀ f g k, Clean (setMem f (setMem g (setMem k a))) := fun _ _ _ => h
  split
  rename_i inserted a4 heq
  have h4 : Quiet Succeeded (inserted, a4) := by
    rw [← heq]
    exact quiet_blockInsert (h3 _ _ _) _
  refine h4.status fun h5 => ?_
  have h6 := clean_blockLinkNext h5 (offsetToBlock mem (sub64 0 blockHeaderOverhead))
  split
  rename_i heq
  rw [heq] at h6
  exact fun _ => clean_unlockReturning (clean_setMem (clean_setMem (clean_setMem h6))) _

theorem clean_htfhAddPool (h : Rep pools L L.classOf a) (hgiven : Given pools a mem bytes)
    (hclean : Clean a) : Clean (htfhAddPool mem bytes a).2 := by
  have hspec := htfhAddPool_spec h hgiven
  rw [htfhAddPool, poolBytes_eq] at hspec ⊢
  dsimp only at hspec ⊢
  by_cases hmem : mem % alignSize ≠ 0
  · rw [if_pos hmem]
    exact clean_unlock (clean_setAllocErrno rfl)
  by_cases hpayload : sub64 bytes 16 / 4 * 4 < blockSizeMin ∨ blockSizeMax < sub64 bytes 16 / 4 * 4
  · rw [if_neg hmem, if_pos hpayload]
    exact clean_unlock (clean_setAllocErrno rfl)
  rw [if_neg hmem, if_neg hpayload] at hspec ⊢
  refine quiet_addPoolBlock (clean_lock hclean) mem _ ?_
  rcases hspec with ⟨a', -, -, hrejected⟩ | ⟨a', heq, -⟩
  · rw [not_or, not_lt, not_lt] at hpayload
    exact (hrejected ⟨not_not.mp hmem, hpayload⟩).elim
  · rw [heq]
    exact Option.some_ne_none _

end AddPool

namespace Client

variable {s : Client} {L : Layout} {a : Allocator} {calls : List Call}

theorem Holds.step_clean (h : s.Holds L) (hclean : Clean s.alloc) {c : Call} (legal : s.Legal c) :
    Clean (s.step c).alloc := by
  cases c with
  | addPool mem bytes =>
    have h1 := clean_htfhAddPool h.rep legal hclean
    rw [Client.step]
    rcases heq : htfhAddPool mem bytes s.alloc with ⟨o, a'⟩
    rw [heq] at h1
    cases o <;> exact h1
  | request r =>
    have h1 : Clean (r.run s.alloc).2 := by
      cases r with
      | malloc size => exact (htfhMalloc_exact h.rep h.coalesced size).2 hclean
      | calloc count bytes => exact clean_htfhCalloc h.rep h.coalesced hclean count bytes
      | memalign align size => exact clean_htfhMemalign h.rep h.coalesced hclean legal.1 size
    rw [Client.step]
    rcases heq : r.run s.alloc with ⟨o, a'⟩
    rw [heq] at h1
    cases o <;> exact h1
  | free ptr =>
    obtain ⟨b, t, hb, ht, hptr⟩ := (h.live ptr).mp legal
    obtain ⟨-, -, hfree, -⟩ := h.free hb ht
    rw [← hptr] at hfree
    rw [Client.step]
    exact clean_htfhFree hclean hfree
  | write w v =>
    rw [Client.step]
    exact clean_setMem hclean

/-- A free block that walking a pool comes to. -/
def FreeBlock (s : Client) (b : Nat) : Prop :=
  PhysicalBlock s.pools s.alloc b ∧ blockIsFree s.alloc.mem b = true

/-- The search misses no block that is large enough, finds none that is not, and never fails for
another reason. -/
structure Searches (s : Client) : Prop where
  null_iff : ∀ size, (htfhMalloc size s.alloc).1 = none ↔ adjustedSize size = 0 ∨
    ¬∃ b, s.FreeBlock b ∧ toLex (mappingSearch (adjustedSize size)) ≤
      toLex (mappingInsert (blockSize s.alloc.mem b))
  succeeds : ∀ size b, adjustedSize size ≠ 0 → s.FreeBlock b →
    nextBoundary (adjustedSize size) ≤ blockSize s.alloc.mem b → (htfhMalloc size s.alloc).1 ≠ none
  chosen : ∀ size b a', controllerBlockFindFree (adjustedSize size) (htfhLockLock s.alloc) =
    (some b, a') → adjustedSize size ≤ blockSize s.alloc.mem b
  clean : Clean s.alloc
  unchanged : ∀ size a', htfhMalloc size s.alloc = (none, a') → SameHeap s.alloc a'

theorem Holds.suits_iff (h : s.Holds L) {n b : Nat} : Suits L n b ↔ s.FreeBlock b ∧
    toLex (mappingSearch n) ≤ toLex (mappingInsert (blockSize s.alloc.mem b)) := by
  rw [FreeBlock, physicalBlock_iff h.rep]
  constructor
  · rintro ⟨x, hb, hfree, hle⟩
    rw [h.rep.blockIsFree_eq hb (by simp), h.rep.blockSize_eq hb (by simp)]
    exact ⟨⟨⟨x, hb⟩, hfree⟩, hle⟩
  · rintro ⟨⟨⟨x, hb⟩, hfree⟩, hle⟩
    rw [h.rep.blockIsFree_eq hb (by simp)] at hfree
    rw [h.rep.blockSize_eq hb (by simp)] at hle
    exact ⟨x, hb, hfree, hle⟩

theorem Holds.searches (h : s.Holds L) (hclean : Clean s.alloc) : s.Searches where
  null_iff size := by
    rw [(htfhMalloc_exact h.rep h.coalesced size).1]
    simp only [h.suits_iff, not_exists]
  succeeds size b hne hb hle hnone := by
    rcases (htfhMalloc_exact h.rep h.coalesced size).1.mp hnone with hzero | hnot
    · exact hne hzero
    · obtain ⟨hmod, -, hlt⟩ := (adjustedSize_cases size).resolve_left hne
      refine hnot b (h.suits_iff.mpr ⟨hb, ?_⟩)
      obtain ⟨x, hx⟩ := (physicalBlock_iff h.rep).mp hb.1
      have hxlt := (h.rep.tiling.bounds hx).2.2.2
      rw [h.rep.blockSize_eq hx (by simp)] at hle ⊢
      rw [← mappingInsert_nextBoundary hmod hlt]
      exact mappingInsert_mono (by omega) hle
  chosen size b a' heq := by
    rcases controllerBlockFindFree_exact (rep_lock h.rep) (adjustedSize_or size) with
      ⟨a1, heq', -⟩ | ⟨c, x, a1, heq', -, -, -, hc, hle⟩
    · simp [heq] at heq'
    · obtain ⟨hbc, -⟩ := Prod.mk.inj (heq.symm.trans heq')
      obtain rfl := Option.some.inj hbc
      rwa [h.rep.blockSize_eq hc (by simp)]
  clean := hclean
  unchanged size a' heq := by
    rcases htfhMalloc_spec h.rep h.coalesced size with ⟨a1, heq', hsame⟩ | ⟨b, t, a1, L', heq', -⟩
    · obtain ⟨-, rfl⟩ := Prod.mk.inj (heq.symm.trans heq')
      exact hsame
    · simp [heq] at heq'

end Client

end Htfh
