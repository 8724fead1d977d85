import SearchCache.Heap.GlibcSpecs
import SearchCache.Heap.HtfhUndo

/-! The locks.  No function below the operations touches the count, so an operation leaves it as it
was when it unlocks once on every path that it takes.  One path of `htfh_memalign` does not. -/

namespace Htfh

/-- The lock is held `n` times after a function. -/
def Locked {α : Type} (n : Nat) (r : α × Allocator) : Prop := r.2.mutex = n

namespace Locked

variable {α β : Type} {n : Nat} {x y : α × Allocator} {a : Allocator}

theorem ite {c : Prop} [Decidable c] (hx : Locked n x) (hy : Locked n y) :
    Locked n (if c then x else y) := by
  split
  · exact hx
  · exact hy

theorem failed (h : a.mutex = n) (r : α) (err : AllocatorErrno) :
    Locked n (r, setAllocErrno err a) := h

theorem of_eq {r : α} (h : Locked n x) (heq : x = (r, a)) : a.mutex = n := by
  rw [heq] at h
  exact h

end Locked

theorem mutex_setMem (f : Memory.Mem → Memory.Mem) (a : Allocator) :
    (setMem f a).mutex = a.mutex := rfl

section Block

variable {a : Allocator} {n : Nat} (h : a.mutex = n) (block prev s fl sl ptr align : Nat)

include h

theorem locked_alignUp : Locked n (alignUp s align a) := by
  rw [alignUp]
  exact .ite h h

theorem locked_alignDown : Locked n (alignDown s align a) := by
  rw [alignDown]
  exact .ite h h

theorem locked_alignPtr : Locked n (alignPtr ptr align a) := by
  rw [alignPtr]
  exact .ite h h

theorem locked_blockPrev : Locked n (blockPrev block a) := by
  rw [blockPrev]
  exact .ite h h

theorem locked_blockNext : Locked n (blockNext block a) := by
  rw [blockNext]
  exact .ite h h

theorem locked_blockLinkNext : Locked n (blockLinkNext block a) := by
  rw [blockLinkNext]
  split <;> rename_i heq <;> have h1 := (locked_blockNext h block).of_eq heq <;> exact h1

theorem locked_blockMarkAsFree : Locked n (blockMarkAsFree block a) := by
  rw [blockMarkAsFree]
  split <;> rename_i heq <;> have h1 := (locked_blockLinkNext h block).of_eq heq <;> exact h1

theorem locked_blockMarkAsUsed : Locked n (blockMarkAsUsed block a) := by
  rw [blockMarkAsUsed]
  split <;> rename_i heq <;> have h1 := (locked_blockNext h block).of_eq heq <;> exact h1

theorem locked_blockSplit : Locked n (blockSplit block s a) := by
  rw [blockSplit]
  split
  rename_i aligned a1 heq
  have h1 := (locked_alignPtr h _ _).of_eq heq
  refine .ite h1 (.ite h1 ?_)
  extract_lets a2 a3
  have h2 : a2.mutex = n := (mutex_setMem _ a1).trans h1
  have h3 : a3.mutex = n := (mutex_setMem _ a2).trans h2
  refine .ite (.failed h2 _ _) ?_
  split
  rename_i heq
  have h4 := (locked_blockMarkAsFree h3 _).of_eq heq
  exact h4

theorem locked_blockAbsorb : Locked n (blockAbsorb prev block a) := by
  rw [blockAbsorb]
  refine .ite h ?_
  extract_lets a1
  have h1 : a1.mutex = n := h
  split
  rename_i heq
  have h2 := (locked_blockLinkNext h1 _).of_eq heq
  exact h2

end Block


section Lists

variable {a : Allocator} {n : Nat} (h : a.mutex = n) (block prev s fl sl ptr align : Nat)

include h

theorem locked_searchSuitableBlock : Locked n (controllerSearchSuitableBlock fl sl a) := by
  rw [controllerSearchSuitableBlock]
  exact .ite (.ite h (.ite h h)) (.ite h h)

theorem locked_removeFreeBlock : Locked n (controllerRemoveFreeBlock block fl sl a) := by
  rw [controllerRemoveFreeBlock]
  exact .ite h (.ite h (.ite h (.ite h (.ite h h))))

theorem locked_insertFreeBlock : Locked n (controllerInsertFreeBlock block fl sl a) := by
  rw [controllerInsertFreeBlock]
  refine .ite h (.ite h ?_)
  extract_lets a1 a2 a3
  have h3 : a3.mutex = n := h
  split
  rename_i heq
  have h4 := (locked_alignPtr h3 _ _).of_eq heq
  exact .ite h4 h4

theorem locked_blockRemove : Locked n (controllerBlockRemove block a) := by
  rw [controllerBlockRemove]
  exact locked_removeFreeBlock h _ _ _

theorem locked_blockInsert : Locked n (controllerBlockInsert block a) := by
  rw [controllerBlockInsert]
  exact locked_insertFreeBlock h _ _ _

theorem locked_mergePrev : Locked n (controllerBlockMergePrev block a) := by
  rw [controllerBlockMergePrev]
  refine .ite h ?_
  split <;> rename_i heq <;> have h1 := (locked_blockPrev h block).of_eq heq
  · exact h1
  · refine .ite h1 ?_
    split
    rename_i heq
    have h2 := (locked_blockRemove h1 _).of_eq heq
    exact .ite h2 (locked_blockAbsorb h2 _ _)

theorem locked_mergeNext : Locked n (controllerBlockMergeNext block a) := by
  rw [controllerBlockMergeNext]
  split <;> rename_i heq <;> have h1 := (locked_blockNext h block).of_eq heq
  · exact h1
  · refine .ite h1 (.ite h1 ?_)
    split
    rename_i heq
    have h2 := (locked_blockRemove h1 _).of_eq heq
    exact .ite h2 (locked_blockAbsorb h2 _ _)

theorem locked_trimFree : Locked n (controllerBlockTrimFree block s a) := by
  rw [controllerBlockTrimFree]
  refine .ite h (.ite h ?_)
  split <;> rename_i heq <;> have h1 := (locked_blockSplit h block s).of_eq heq
  · exact h1
  · split
    rename_i heq
    have h2 := (locked_blockLinkNext h1 _).of_eq heq
    exact locked_blockInsert (a := setMem _ _) h2 _

theorem locked_trimUsed : Locked n (controllerBlockTrimUsed block s a) := by
  rw [controllerBlockTrimUsed]
  refine .ite h (.ite h ?_)
  split <;> rename_i heq <;> have h1 := (locked_blockSplit h block s).of_eq heq
  · exact h1
  · extract_lets a2
    have h2 : a2.mutex = n := h1
    split <;> rename_i heq <;> have h3 := (locked_mergeNext h2 _).of_eq heq
    · exact h3
    · exact locked_blockInsert h3 _

theorem locked_trimFreeLeading : Locked n (controllerBlockTrimFreeLeading block s a) := by
  rw [controllerBlockTrimFreeLeading]
  refine .ite h ?_
  split <;> rename_i heq <;> have h1 := (locked_blockSplit h block _).of_eq heq
  · exact h1
  · extract_lets a2
    have h2 : a2.mutex = n := h1
    split
    rename_i heq
    have h3 := (locked_blockLinkNext h2 _).of_eq heq
    split
    rename_i heq
    have h4 := (locked_blockInsert h3 _).of_eq heq
    exact .ite h4 h4

theorem locked_findFree : Locked n (controllerBlockFindFree s a) := by
  rw [controllerBlockFindFree]
  refine .ite h (.ite h ?_)
  split <;> rename_i heq <;> have h1 := (locked_searchSuitableBlock h _ _).of_eq heq
  · exact h1
  · refine .ite h1 ?_
    split
    rename_i heq
    have h2 := (locked_removeFreeBlock h1 _ _ _).of_eq heq
    exact h2

theorem locked_markUsed (block : Option Nat) : Locked n (controllerBlockMarkUsed block s a) := by
  rw [controllerBlockMarkUsed.eq_def]
  split
  · exact h
  · refine .ite h ?_
    split
    rename_i heq
    have h1 := (locked_trimFree h _ _).of_eq heq
    refine .ite h1 ?_
    split
    rename_i heq
    have h2 := (locked_blockMarkAsUsed h1 _).of_eq heq
    exact h2

end Lists

section Operations

variable {a : Allocator} {n : Nat}

theorem locked_unlock (h : a.mutex = n + 1) : Locked n (htfhLockUnlock a) := by
  rw [htfhLockUnlock_eq h]
  rfl

theorem Locked.unlocked {α : Type} (h : a.mutex = n + 1) (r : α) :
    Locked n (r, (htfhLockUnlock a).2) := locked_unlock h

theorem locked_unlockReturning (h : a.mutex = n + 1) (ptr : Option Nat) :
    Locked n (unlockReturning ptr a) := by
  rw [unlockReturning_eq h]
  rfl

theorem locked_lock (h : a.mutex = n) : (htfhLockLock a).mutex = n + 1 := congrArg Nat.succ h

theorem locked_adjustRequestSize (h : a.mutex = n) (s align : Nat) : Locked n (adjustRequestSize s align a) := by
  rw [adjustRequestSize]
  refine .ite h ?_
  split
  rename_i heq
  have h1 := (locked_alignUp h _ _).of_eq heq
  exact h1

theorem locked_addPool (h : a.mutex = n) (mem bytes : Nat) : Locked n (htfhAddPool mem bytes a) := by
  rw [htfhAddPool]
  split
  rename_i payload a1 heq
  have h1 : a1.mutex = n + 1 := (locked_alignDown (locked_lock h) _ _).of_eq heq
  refine .ite (.unlocked (Locked.failed h1 payload _) _) (.ite ?_ ?_)
  · exact .unlocked (a := setAllocErrnoMsg _ _ a1) h1 _
  · rw [addPoolBlock]
    have h2 : ∀ f g k, (setMem f (setMem g (setMem k a1))).mutex = n + 1 :=
      fun f g k => (mutex_setMem f _).trans ((mutex_setMem g _).trans ((mutex_setMem k _).trans h1))
    split
    rename_i heq
    have h3 := (locked_blockInsert (h2 _ _ _) _).of_eq heq
    refine .ite (.unlocked h3 _) ?_
    split
    rename_i heq
    have h4 := (locked_blockLinkNext h3 _).of_eq heq
    exact locked_unlockReturning (a := setMem _ (setMem _ (setMem _ _))) h4 _

theorem locked_malloc (h : a.mutex = n) (s : Nat) : Locked n (htfhMalloc s a) := by
  rw [htfhMalloc]
  split
  rename_i heq
  have h1 := (locked_adjustRequestSize (locked_lock h) _ _).of_eq heq
  split <;> rename_i heq <;> have h2 := (locked_findFree h1 _).of_eq heq
  · exact .unlocked h2 _
  · split
    rename_i heq
    have h3 := (locked_markUsed h2 _ _).of_eq heq
    exact locked_unlockReturning h3 _

theorem locked_calloc (h : a.mutex = n) (count bytes : Nat) : Locked n (htfhCalloc count bytes a) := by
  rw [htfhCalloc]
  split <;> rename_i heq <;> have h1 := (locked_malloc h _).of_eq heq <;> exact h1

theorem locked_free (h : a.mutex = n) (ptr : Nat) : Locked n (htfhFree ptr a) := by
  have h1 := locked_lock h
  rw [htfhFree]
  refine .ite (locked_unlock h1) ?_
  extract_lets block
  refine .ite (.unlocked (Locked.failed h1 block _) _)
    (.ite (.unlocked (Locked.failed h1 block _) _) ?_)
  split
  rename_i heq
  have h2 := (locked_blockMarkAsFree h1 _).of_eq heq
  split <;> rename_i heq <;> have h3 := (locked_mergePrev h2 _).of_eq heq
  · exact .unlocked h3 _
  · split <;> rename_i heq <;> have h4 := (locked_mergeNext h3 _).of_eq heq
    · exact .unlocked h4 _
    · split
      rename_i heq
      have h5 := (locked_blockInsert h4 _).of_eq heq
      exact .ite (.unlocked h5 _) (locked_unlock h5)

theorem locked_reallocMove (h : a.mutex = n + 1) (ptr count s : Nat) : Locked n (reallocMove ptr count s a) := by
  rw [reallocMove]
  split <;> rename_i heq <;> have h1 := (locked_malloc h s).of_eq heq
  · exact locked_unlockReturning h1 _
  · extract_lets a2
    have h2 : a2.mutex = n + 1 := h1
    split
    rename_i heq
    have h3 := (locked_free h2 ptr).of_eq heq
    exact .ite (.unlocked h3 _) (locked_unlockReturning h3 _)

theorem locked_reallocTrim (h : a.mutex = n + 1) (ptr s : Nat) : Locked n (reallocTrim ptr s a) := by
  rw [reallocTrim]
  split
  rename_i heq
  have h1 := (locked_trimUsed h _ s).of_eq heq
  exact .ite (.unlocked h1 _) (locked_unlockReturning h1 _)

theorem locked_reallocGrow (h : a.mutex = n + 1) (ptr s : Nat) : Locked n (reallocGrow ptr s a) := by
  rw [reallocGrow]
  split
  rename_i heq
  have h1 := (locked_mergeNext h _).of_eq heq
  exact .ite (.unlocked h1 _) (locked_reallocTrim (locked_blockMarkAsUsed h1 _) ptr s)

theorem locked_reallocBlock (h : a.mutex = n + 1) (ptr s : Nat) : Locked n (reallocBlock ptr s a) := by
  rw [reallocBlock]
  split
  rename_i heq
  have h1 := (locked_blockNext h _).of_eq heq
  extract_lets next cursize combined
  split
  rename_i heq
  have h2 := (locked_adjustRequestSize h1 _ _).of_eq heq
  exact .ite (.unlocked (Locked.failed h2 next _) _)
    (.ite (locked_reallocMove h2 _ _ _) (.ite (locked_reallocGrow h2 _ _) (locked_reallocTrim h2 _ _)))

theorem locked_realloc (h : a.mutex = n) (ptr s : Nat) : Locked n (htfhRealloc ptr s a) := by
  rw [htfhRealloc]
  have h1 := locked_lock h
  split
  rename_i heq
  have h0 : Locked (n + 1) ((0 : Int), htfhLockLock a) := h1
  have h2 := (Locked.ite (locked_free h1 ptr) h0).of_eq heq
  refine .ite (.unlocked h2 _) (.ite ?_ (locked_reallocBlock h2 ptr s))
  split
  rename_i heq
  have h3 := (locked_malloc h2 s).of_eq heq
  exact locked_unlockReturning h3 _

/-! ### `htfh_memalign` -/

/-- The calls that end in `controller_block_mark_used` without a pointer. -/
def MemalignStranded (align s : Nat) (a : Allocator) : Prop :=
  let (adjust, a) := adjustRequestSize s alignSize (htfhLockLock a)
  let (alignedSize, a) := memalignSize align adjust a
  match controllerBlockFindFree alignedSize a with
  | (none, _) => True
  | (some block, a) => ∃ b a', memalignTrimmed align block a = (some b, a') ∧
      (controllerBlockMarkUsed (some b) adjust a').1 = none

theorem locked_alignedWithGap (h : a.mutex = n) (ptr align : Nat) :
    Locked n (alignedWithGap ptr align a) := by
  rw [alignedWithGap]
  split
  rename_i heq
  have h1 := (locked_alignPtr h _ _).of_eq heq
  extract_lets
  refine .ite ?_ h1
  extract_lets
  split
  rename_i heq
  have h2 := (locked_alignPtr h1 _ _).of_eq heq
  exact h2

theorem locked_memalignTrimmed (h : a.mutex = n) (align block : Nat) :
    Locked n (memalignTrimmed align block a) := by
  rw [memalignTrimmed]
  split
  rename_i heq
  have h1 := (locked_alignedWithGap h _ _).of_eq heq
  exact .ite h1 (.ite h1 (locked_trimFreeLeading h1 _ _))

theorem locked_memalignSize (h : a.mutex = n) (align adjust : Nat) :
    Locked n (memalignSize align adjust a) := by
  rw [memalignSize]
  split
  rename_i heq
  have h1 := (locked_adjustRequestSize h _ _).of_eq heq
  exact h1

theorem memalignTrimmed_eq {align block gap : Nat} {a1 : Allocator}
    (h : alignedWithGap (blockToPtr block) align a = (gap, a1)) :
    memalignTrimmed align block a = if gap = 0 then (some block, a1)
      else if gap < sizeofBlockHeader then (none, a1)
      else controllerBlockTrimFreeLeading block gap a1 := by
  rw [memalignTrimmed, h]

/-- The end of `htfh_memalign` returns the lock exactly with a pointer. -/
theorem locked_memalignMarkUsed_iff (h : a.mutex = n + 1) (adjust : Nat) (block : Option Nat) :
    Locked n (memalignMarkUsed adjust block a) ↔ (controllerBlockMarkUsed block adjust a).1 ≠ none := by
  rw [memalignMarkUsed]
  split <;> rename_i heq <;> have h1 := (locked_markUsed h adjust block).of_eq heq <;> rw [heq]
  · refine ⟨fun h2 => ?_, fun h2 => (h2 rfl).elim⟩
    exact absurd (h2.symm.trans h1) (Nat.succ_ne_self n).symm
  · exact ⟨fun _ => Option.some_ne_none _, fun _ => locked_unlockReturning h1 _⟩

theorem locked_memalignBlock_iff (h : a.mutex = n + 1) (align adjust block : Nat) :
    Locked n (memalignBlock align adjust block a) ↔
      ¬ ∃ b a', memalignTrimmed align block a = (some b, a') ∧
        (controllerBlockMarkUsed (some b) adjust a').1 = none := by
  rw [memalignBlock]
  split
  rename_i gap a1 heq
  have h1 := (locked_alignedWithGap h _ _).of_eq heq
  have htrim := memalignTrimmed_eq heq
  by_cases hzero : gap = 0
  · rw [if_pos hzero] at htrim ⊢
    rw [locked_memalignMarkUsed_iff h1, htrim]
    simp
  · rw [if_neg hzero] at htrim ⊢
    by_cases hsmall : gap < sizeofBlockHeader
    · rw [if_pos hsmall] at htrim ⊢
      rw [htrim]
      simp only [Prod.mk.injEq, reduceCtorEq, false_and, exists_false, not_false_eq_true, iff_true]
      exact .unlocked (Locked.failed h1 gap _) _
    · rw [if_neg hsmall] at htrim ⊢
      rw [htrim]
      split <;> rename_i heq <;> have h2 := (locked_trimFreeLeading h1 _ _).of_eq heq <;> rw [heq]
      · simp only [Prod.mk.injEq, reduceCtorEq, false_and, exists_false, not_false_eq_true, iff_true]
        exact .unlocked h2 _
      · rw [locked_memalignMarkUsed_iff h2]
        simp

theorem locked_memalign_iff (h : a.mutex = n) (align s : Nat) :
    Locked n (htfhMemalign align s a) ↔ ¬ MemalignStranded align s a := by
  obtain ⟨aligned, a1, heq⟩ : ∃ aligned a1,
      adjustRequestSize s alignSize (htfhLockLock a) = (aligned, a1) := ⟨_, _, rfl⟩
  have h1 := (locked_adjustRequestSize (locked_lock h) _ _).of_eq heq
  rw [htfhMemalign, MemalignStranded, heq]
  dsimp only
  have h2 := locked_memalignSize h1 align
  obtain ⟨found, a2, hfind⟩ : ∃ found a2, controllerBlockFindFree (memalignSize align aligned a1).1
      (memalignSize align aligned a1).2 = (found, a2) := ⟨_, _, rfl⟩
  have h3 := (locked_findFree (h2 _) _).of_eq hfind
  rw [hfind]
  cases found with
  | none =>
    rw [locked_memalignMarkUsed_iff h3]
    simp [controllerBlockMarkUsed]
  | some block => exact locked_memalignBlock_iff h3 _ _ _

end Operations

end Htfh

namespace Gca

def Locked {α : Type} (n : Nat) (r : α × GlibcAllocator) : Prop := r.2.mutex = n

namespace Locked

variable {α : Type} {n : Nat} {x y : α × GlibcAllocator} {a : GlibcAllocator}

theorem ite {c : Prop} [Decidable c] (hx : Locked n x) (hy : Locked n y) :
    Locked n (if c then x else y) := by
  split
  · exact hx
  · exact hy

theorem of_eq {r : α} (h : Locked n x) (heq : x = (r, a)) : a.mutex = n := by
  rw [heq] at h
  exact h

end Locked

theorem mutex_setMem {f : Memory.Mem → Memory.Mem} {a : GlibcAllocator} {n : Nat}
    (h : a.mutex = n) : (setMem f a).mutex = n := h

theorem mutex_setAllocErrno {a : GlibcAllocator} {n : Nat} (err : Htfh.AllocatorErrno)
    (h : a.mutex = n) : (setAllocErrno err a).mutex = n := h

section Blocks

variable {a : GlibcAllocator} {n : Nat} (h : a.mutex = n) (header size used : Nat)

include h

theorem mutex_gcaAddFreeList : (gcaAddFreeList header a).mutex = n := by
  rw [gcaAddFreeList]
  split <;> exact h

theorem mutex_gcaRemoveFreeList : (gcaRemoveFreeList header a).mutex = n := by
  have h1 : (if a.freeList = header then { a with freeList := nextFree a.mem header } else a).mutex
      = n := by
    split <;> exact h
  rw [gcaRemoveFreeList]
  generalize (if a.freeList = header then { a with freeList := nextFree a.mem header } else a) = a1
    at h1
  split <;> split <;> exact h1

theorem mutex_gcaMark : (gcaMark header used a).mutex = n := mutex_setMem (mutex_setMem h)

theorem mutex_gcaCut (split : Nat) : (gcaCut header size split a).mutex = n :=
  mutex_setMem (mutex_setMem (mutex_setMem (mutex_setMem (mutex_setMem (mutex_setMem
    (mutex_setMem h))))))

theorem mutex_gcaNewBlock (origBrk newBrk : Nat) :
    (gcaNewBlock size origBrk newBrk a).mutex = n :=
  mutex_setMem (mutex_setMem (mutex_setMem (mutex_setMem (mutex_setMem (mutex_setMem h)))))

theorem mutex_gcaAbsorb (next : Nat) : (gcaAbsorb header next a).mutex = n :=
  mutex_setMem (mutex_setMem (mutex_setMem h))

theorem locked_gcaCoalesceNext : Locked n (gcaCoalesceNext header a) := by
  rw [gcaCoalesceNext]
  exact .ite h (mutex_gcaAbsorb (mutex_gcaRemoveFreeList h _) _ _)

theorem locked_gcaCoalescePrev : Locked n (gcaCoalescePrev header a) := by
  rw [gcaCoalescePrev]
  exact .ite (locked_gcaCoalesceNext h _) h

theorem locked_gcaCoalesce : Locked n (gcaCoalesce header a) := by
  rw [gcaCoalesce]
  exact locked_gcaCoalescePrev (locked_gcaCoalesceNext h _) _

theorem locked_gcaSplitBlock : Locked n (gcaSplitBlock header size a) := by
  rw [gcaSplitBlock]
  exact .ite h (locked_gcaCoalesceNext (mutex_gcaAddFreeList (mutex_gcaCut h _ _ _) _) _)

theorem locked_gcaBrk : Locked n (gcaBrk size a) := by
  rw [gcaBrk]
  exact .ite h h

theorem locked_gcaSbrk : Locked n (gcaSbrk size a) := by
  rw [gcaSbrk]
  refine .ite h (.ite h ?_)
  extract_lets oldbrk
  refine .ite h ?_
  split
  rename_i heq
  have h1 := (locked_gcaBrk h _).of_eq heq
  exact .ite h1 h1

theorem locked_gcaHandledSbrk : Locked n (gcaHandledSbrk size a) := by
  rw [gcaHandledSbrk]
  refine .ite h ?_
  split
  rename_i heq
  have h1 := (locked_gcaSbrk h _).of_eq heq
  exact .ite h1 h1

theorem locked_gcaSbrkNewBlock : Locked n (gcaSbrkNewBlock size a) := by
  rw [gcaSbrkNewBlock, gcaGrown.eq_def]
  split <;> rename_i heq <;> have h1 := (locked_gcaHandledSbrk h _).of_eq heq
  · exact h1
  · extract_lets
    split
    rename_i heq
    have h2 := (locked_gcaCoalescePrev (mutex_gcaAddFreeList (mutex_gcaNewBlock h1 _ _ _) _) _).of_eq heq
    exact h2

end Blocks

section Operations

variable {a : GlibcAllocator} {n : Nat}

theorem locked_unlockHandled (h : a.mutex = n + 1) : Locked n (htfhLockUnlockHandled a) := by
  rw [unlock_eq h]
  rfl

theorem Locked.unlocked {α : Type} (h : a.mutex = n + 1) (r : α) :
    Locked n (r, (htfhLockUnlockHandled a).2) := locked_unlockHandled h

theorem locked_unlockReturning (h : a.mutex = n + 1) (ptr : Option Nat) :
    Locked n (unlockReturning ptr a) := by
  rw [unlockReturning_eq h]
  rfl

theorem locked_lock (h : a.mutex = n) : (htfhLockLockHandled a).mutex = n + 1 :=
  congrArg Nat.succ h

/-- The same of a function that may not return. -/
def Returns (n : Nat) (r : Option (Option Nat × GlibcAllocator)) : Prop := ∀ x ∈ r, Locked n x

namespace Returns

variable {x y : Option (Option Nat × GlibcAllocator)}

theorem some {r : Option Nat × GlibcAllocator} (h : Locked n r) : Returns n (some r) := by
  rintro _ ⟨⟩
  exact h

theorem ite {c : Prop} [Decidable c] (hx : Returns n x) (hy : Returns n y) :
    Returns n (if c then x else y) := by
  split
  · exact hx
  · exact hy

theorem map {α : Type} {r : Option α} {f : α → Option Nat × GlibcAllocator}
    (h : ∀ x ∈ r, Locked n (f x)) : Returns n (r.map f) := by
  intro y hy
  obtain ⟨x, hx, rfl⟩ := Option.map_eq_some_iff.mp hy
  exact h x hx

end Returns

variable (header ptr size count alignedSize : Nat)

theorem locked_gcaTake (h : a.mutex = n + 1) : Locked n (gcaTake header alignedSize a) := by
  rw [gcaTake]
  split
  rename_i heq
  have h1 := (locked_gcaSplitBlock h _ _).of_eq heq
  exact locked_unlockReturning (mutex_gcaMark (mutex_gcaRemoveFreeList h1 _) _ _) _

theorem locked_gcaMallocFound (h : a.mutex = n + 1) (found : Option Nat) :
    Locked n (gcaMallocFound alignedSize a found) := by
  rw [gcaMallocFound.eq_def]
  split
  · rw [gcaTakeNew.eq_def]
    split <;> rename_i heq <;> have h1 := (locked_gcaSbrkNewBlock h _).of_eq heq
    · exact .unlocked (mutex_setAllocErrno _ h1) _
    · exact locked_gcaTake _ _ h1
  · exact locked_gcaTake _ _ h

theorem locked_gcaMalloc (h : a.mutex = n) : Returns n (gcaMalloc size a) := by
  have h1 := locked_lock h
  rw [gcaMalloc]
  refine .ite (.some h) ?_
  extract_lets
  exact .ite (.some (.unlocked (mutex_setAllocErrno _ h1) _))
    (.map fun found _ => locked_gcaMallocFound _ h1 found)

theorem locked_gcaFree (h : a.mutex = n) : Locked n (gcaFree ptr a) := by
  have h1 := locked_lock h
  rw [gcaFree]
  refine .ite h ?_
  extract_lets
  exact locked_unlockHandled (locked_gcaCoalesce (mutex_gcaAddFreeList (mutex_gcaMark h1 _ _) _) _)

theorem locked_gcaCalloc (h : a.mutex = n) : Returns n (gcaCalloc count size a) := by
  have h1 := locked_lock h
  rw [gcaCalloc]
  refine .ite (.some h) (.map fun r hr => ?_)
  have h2 := locked_gcaMalloc _ h1 r hr
  rw [gcaZeroed.eq_def]
  split
  · exact locked_unlockReturning h2 _
  · exact locked_unlockReturning (a := setMem _ _) h2 _

theorem locked_reallocMove (h : a.mutex = n + 1) :
    Returns n (reallocMove ptr count size a) := by
  rw [reallocMove]
  refine .map fun r hr => ?_
  have h1 := locked_gcaMalloc _ h r hr
  rw [gcaMoved.eq_def]
  split
  · exact locked_unlockReturning h1 _
  · exact locked_unlockReturning (locked_gcaFree (a := setMem _ _) _ h1) _

theorem locked_reallocCut (h : a.mutex = n + 1) : Locked n (reallocCut ptr alignedSize a) := by
  rw [reallocCut]
  exact locked_unlockReturning (locked_gcaSplitBlock h _ _) _

theorem locked_reallocExtend (h : a.mutex = n + 1) :
    Returns n (reallocExtend ptr alignedSize count size a) := by
  rw [reallocExtend]
  refine .ite ?_ (locked_reallocMove _ _ _ h)
  rw [reallocGrown.eq_def]
  split <;> rename_i heq <;> have h1 := (locked_gcaSbrkNewBlock h _).of_eq heq
  · exact locked_reallocMove _ _ _ h1
  · exact .some (locked_reallocCut _ _ (locked_gcaCoalesceNext h1 _))

theorem locked_reallocBlock (h : a.mutex = n + 1) : Returns n (reallocBlock ptr size a) := by
  rw [reallocBlock]
  refine .ite (.some (locked_reallocCut _ _ h)) ?_
  rw [reallocJoined.eq_def]
  split
  rename_i heq
  have h1 := (locked_gcaCoalesceNext h _).of_eq heq
  exact .ite (.some (locked_reallocCut _ _ h1)) (locked_reallocExtend _ _ _ _ h1)

theorem locked_gcaRealloc (h : a.mutex = n) : Returns n (gcaRealloc ptr size a) := by
  have h1 := locked_lock h
  rw [gcaRealloc]
  refine .ite (.some h) ?_
  extract_lets
  exact .ite (.map fun r hr => locked_unlockReturning (locked_gcaMalloc _ h1 r hr) _)
    (locked_reallocBlock _ _ h1)

end Operations

end Gca

namespace Htfh

inductive Operation
  | addPool (mem bytes : Nat)
  | malloc (s : Nat)
  | calloc (count bytes : Nat)
  | memalign (align s : Nat)
  | realloc (ptr s : Nat)
  | free (ptr : Nat)

namespace Operation

def run (a : Allocator) : Operation → Allocator
  | addPool mem bytes => (htfhAddPool mem bytes a).2
  | malloc s => (htfhMalloc s a).2
  | calloc count bytes => (htfhCalloc count bytes a).2
  | memalign align s => (htfhMemalign align s a).2
  | realloc ptr s => (htfhRealloc ptr s a).2
  | free ptr => (htfhFree ptr a).2

def Strands (a : Allocator) : Operation → Prop
  | memalign align s => MemalignStranded align s a
  | _ => False

theorem mutex_run_iff (o : Operation) (a : Allocator) :
    (o.run a).mutex = a.mutex ↔ ¬ o.Strands a := by
  cases o with
  | addPool mem bytes => exact ⟨fun _ => id, fun _ => locked_addPool rfl mem bytes⟩
  | malloc s => exact ⟨fun _ => id, fun _ => locked_malloc rfl s⟩
  | calloc count bytes => exact ⟨fun _ => id, fun _ => locked_calloc rfl count bytes⟩
  | memalign align s => exact locked_memalign_iff rfl align s
  | realloc ptr s => exact ⟨fun _ => id, fun _ => locked_realloc rfl ptr s⟩
  | free ptr => exact ⟨fun _ => id, fun _ => locked_free rfl ptr⟩

end Operation

end Htfh

namespace Gca

inductive Operation
  | malloc (size : Nat)
  | calloc (num size : Nat)
  | realloc (ptr size : Nat)
  | free (ptr : Nat)

namespace Operation

/-- `none` where the operation does not return. -/
def run (a : GlibcAllocator) : Operation → Option GlibcAllocator
  | malloc size => (gcaMalloc size a).map Prod.snd
  | calloc num size => (gcaCalloc num size a).map Prod.snd
  | realloc ptr size => (gcaRealloc ptr size a).map Prod.snd
  | free ptr => some (gcaFree ptr a).2

theorem mutex_run {o : Operation} {a a' : GlibcAllocator} (h : o.run a = some a') :
    a'.mutex = a.mutex := by
  cases o with
  | malloc size =>
    obtain ⟨r, hr, rfl⟩ := Option.map_eq_some_iff.mp h
    exact locked_gcaMalloc size rfl r hr
  | calloc num size =>
    obtain ⟨r, hr, rfl⟩ := Option.map_eq_some_iff.mp h
    exact locked_gcaCalloc _ _ rfl r hr
  | realloc ptr size =>
    obtain ⟨r, hr, rfl⟩ := Option.map_eq_some_iff.mp h
    exact locked_gcaRealloc _ _ rfl r hr
  | free ptr =>
    obtain rfl := Option.some.inj h
    exact locked_gcaFree _ rfl

end Operation

end Gca

/-! ### Runs -/

namespace Htfh.Operation

def step (a : Allocator) (o : Operation) : Option Allocator := some (o.run a)

theorem not_strands_opened : ¬ (memalign 64 100).Strands Client.opened.alloc := by
  refine (mutex_run_iff _ _).mp ?_
  decide +kernel

end Htfh.Operation
