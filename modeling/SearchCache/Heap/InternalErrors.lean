import SearchCache.Heap.Htfh

/-! The error codes that say that the heap is out of order.  A function that sets one of them reports
a failure, so that a call that succeeds leaves no such code. -/

namespace Htfh

def AllocatorErrno.internal : AllocatorErrno → Bool
  | .blockSizeMismatch | .secondLevelBitmapNull | .prevBlockNull | .nextBlockNull
  | .blockNotAligned | .invalidBlockSplitSize => true
  | _ => false

/-- No internal error was reported. -/
def Clean (a : Allocator) : Prop := a.allocErrno.internal = false

/-- A function reports no internal error with a result that is `ok`. -/
def Quiet {α : Type} (ok : α → Prop) (r : α × Allocator) : Prop := ok r.1 → Clean r.2

/-- The results of functions that return a pointer, and a status. -/
abbrev Found (r : Option Nat) : Prop := r ≠ none
abbrev Succeeded (r : Int) : Prop := r = 0

namespace Quiet

variable {α : Type} {ok : α → Prop} {x y : α × Allocator} {a : Allocator}

theorem ite {c : Prop} [Decidable c] (hx : Quiet ok x) (hy : Quiet ok y) :
    Quiet ok (if c then x else y) := by
  split
  · exact hx
  · exact hy

theorem of_clean {r : α} (h : Clean a) : Quiet ok (r, a) := fun _ => h

theorem of_not {r : α} (h : ¬ ok r) : Quiet ok (r, a) := fun hok => (h hok).elim

theorem of_eq {r : α} (h : Quiet ok x) (heq : x = (r, a)) (hr : ok r) : Clean a := by
  rw [heq] at h
  exact h hr

/-- A function that returns when a status is not the one of success. -/
theorem status {n : Int} {p : Option Nat × Allocator} {a' : Allocator} (h : Quiet Succeeded (n, a))
    (hp : Clean a → Quiet Found p) : Quiet Found (if n ≠ 0 then (none, a') else p) := by
  by_cases hn : n = 0
  · rw [if_neg (not_not_intro hn)]
    exact hp (h hn)
  · rw [if_pos hn]
    exact of_not (not_not_intro rfl)

end Quiet

theorem clean_setMem {f : Memory.Mem → Memory.Mem} {a : Allocator} (h : Clean a) :
    Clean (setMem f a) := h

theorem clean_setController {f : Controller → Controller} {a : Allocator} (h : Clean a) :
    Clean (setController f a) := h

theorem clean_setAllocErrno {err : AllocatorErrno} {a : Allocator} (h : err.internal = false) :
    Clean (setAllocErrno err a) := h

section Block

variable {a : Allocator} (h : Clean a) (block prev s ptr align : Nat)

include h

theorem clean_alignUp : Clean (alignUp s align a).2 := by
  rw [alignUp]
  split
  · exact clean_setAllocErrno rfl
  · exact h

theorem clean_alignDown : Clean (alignDown s align a).2 := by
  rw [alignDown]
  split
  · exact clean_setAllocErrno rfl
  · exact h

theorem clean_alignPtr : Clean (alignPtr ptr align a).2 := by
  rw [alignPtr]
  split
  · exact clean_setAllocErrno rfl
  · exact h

theorem clean_blockPrev : Clean (blockPrev block a).2 := by
  rw [blockPrev]
  split
  · exact clean_setAllocErrno rfl
  · exact h

theorem clean_blockNext : Clean (blockNext block a).2 := by
  rw [blockNext]
  split
  · exact clean_setAllocErrno rfl
  · exact h

theorem clean_blockLinkNext : Clean (blockLinkNext block a).2 := by
  have h1 := clean_blockNext h block
  rw [blockLinkNext]
  split <;> rename_i heq <;> rw [heq] at h1 <;> exact h1

theorem clean_blockMarkAsFree : Clean (blockMarkAsFree block a).2 := by
  have h1 := clean_blockLinkNext h block
  rw [blockMarkAsFree]
  split <;> rename_i heq <;> rw [heq] at h1 <;> exact h1

theorem clean_blockMarkAsUsed : Clean (blockMarkAsUsed block a).2 := by
  have h1 := clean_blockNext h block
  rw [blockMarkAsUsed]
  split <;> rename_i heq <;> rw [heq] at h1 <;> exact h1

theorem clean_blockAbsorb : Clean (blockAbsorb prev block a).2 := by
  rw [blockAbsorb]
  split
  · exact clean_setAllocErrno rfl
  · exact clean_blockLinkNext (clean_setMem h) prev

theorem quiet_blockSplit : Quiet Found (blockSplit block s a) := by
  rw [blockSplit]
  split
  rename_i aligned a1 heq
  have h1 := clean_alignPtr h (blockToPtr (offsetToBlock (blockToPtr block)
    (sub64 s blockHeaderOverhead))) alignSize
  rw [heq] at h1
  refine .ite (.of_not (by simp)) (.ite (.of_not (by simp)) ?_)
  extract_lets a2 a3
  have h3 : Clean a3 := clean_setMem (clean_setMem h1)
  refine .ite (.of_not (by simp)) ?_
  have h4 := clean_blockMarkAsFree h3 (offsetToBlock (blockToPtr block) (sub64 s blockHeaderOverhead))
  split
  rename_i heq
  rw [heq] at h4
  exact .of_clean h4

end Block

section Lists

variable {a : Allocator} (h : Clean a) (block s fl sl : Nat)

include h

theorem quiet_removeFreeBlock : Quiet Succeeded (controllerRemoveFreeBlock block fl sl a) := by
  rw [controllerRemoveFreeBlock]
  extract_lets a1 a2 a3 slMap a4
  have h2 : Clean a2 := clean_setMem (clean_setMem h)
  have h3 : Clean a3 := clean_setController h2
  have h4 : Clean a4 := clean_setController h3
  refine .ite (.of_not (by simp)) (.ite (.of_not (by simp)) ?_)
  refine .ite (.of_clean h2) (.ite (.of_clean h3) ?_)
  exact .ite (.of_clean (clean_setController h4)) (.of_clean h4)

theorem quiet_insertFreeBlock : Quiet Succeeded (controllerInsertFreeBlock block fl sl a) := by
  rw [controllerInsertFreeBlock]
  refine .ite (.of_not (by simp)) (.ite (.of_not (by simp)) ?_)
  extract_lets a1 a2 a3
  have h3 : Clean a3 := clean_setMem (clean_setMem (clean_setMem h))
  have h4 := clean_alignPtr h3 (blockToPtr block) alignSize
  split
  rename_i aligned a4 heq
  rw [heq] at h4
  extract_lets a5 a6
  have h6 : Clean a6 := clean_setController (clean_setController h4)
  exact .ite (.of_not (by simp)) (.of_clean (clean_setController h6))

theorem quiet_blockRemove : Quiet Succeeded (controllerBlockRemove block a) := by
  rw [controllerBlockRemove]
  exact quiet_removeFreeBlock h _ _ _

theorem quiet_blockInsert : Quiet Succeeded (controllerBlockInsert block a) := by
  rw [controllerBlockInsert]
  exact quiet_insertFreeBlock h _ _ _

theorem quiet_mergePrev : Quiet Found (controllerBlockMergePrev block a) := by
  have h1 := clean_blockPrev h block
  rw [controllerBlockMergePrev]
  refine .ite (.of_clean h) ?_
  split <;> rename_i heq <;> rw [heq] at h1
  · exact .of_not (by simp)
  · refine .ite (.of_not (by simp)) ?_
    split
    rename_i prev _ _ _ _ heq
    have h2 := quiet_blockRemove h1 prev
    rw [heq] at h2
    exact h2.status fun h3 => .of_clean (clean_blockAbsorb h3 _ _)

theorem quiet_mergeNext : Quiet Found (controllerBlockMergeNext block a) := by
  have h1 := clean_blockNext h block
  rw [controllerBlockMergeNext]
  split <;> rename_i heq <;> rw [heq] at h1
  · exact .of_not (by simp)
  · refine .ite (.of_clean h1) (.ite (.of_not (by simp)) ?_)
    split
    rename_i next _ _ _ _ heq
    have h2 := quiet_blockRemove h1 next
    rw [heq] at h2
    exact h2.status fun h3 => .of_clean (clean_blockAbsorb h3 _ _)

theorem quiet_trimFree : Quiet Succeeded (controllerBlockTrimFree block s a) := by
  have h1 := quiet_blockSplit h block s
  rw [controllerBlockTrimFree]
  refine .ite (.of_not (by simp)) (.ite (.of_clean h) ?_)
  split <;> rename_i heq <;> rw [heq] at h1
  · exact .of_not (by simp)
  · have h2 := clean_blockLinkNext (h1 (by simp)) block
    split
    rename_i heq
    rw [heq] at h2
    exact quiet_blockInsert (clean_setMem h2) _

theorem quiet_trimFreeLeading : Quiet Found (controllerBlockTrimFreeLeading block s a) := by
  have h1 := quiet_blockSplit h block (sub64 s blockHeaderOverhead)
  rw [controllerBlockTrimFreeLeading]
  refine .ite (.of_clean h) ?_
  split <;> rename_i heq <;> rw [heq] at h1
  · exact .of_not (by simp)
  · extract_lets a2
    have h2 : Clean a2 := clean_setMem (h1 (by simp))
    have h3 := clean_blockLinkNext h2 block
    split
    rename_i heq
    rw [heq] at h3
    have h4 := quiet_blockInsert h3 block
    split
    rename_i heq
    rw [heq] at h4
    exact h4.status .of_clean

theorem quiet_markUsed (block : Option Nat) : Quiet Found (controllerBlockMarkUsed block s a) := by
  rw [controllerBlockMarkUsed.eq_def]
  split
  · exact .of_not (by simp)
  · rename_i block
    refine .ite (.of_not (by simp)) ?_
    have h1 := quiet_trimFree h block s
    split
    rename_i heq
    rw [heq] at h1
    refine h1.status fun h2 => ?_
    have h3 := clean_blockMarkAsUsed h2 block
    split
    rename_i heq
    rw [heq] at h3
    exact .of_clean h3

end Lists

end Htfh
