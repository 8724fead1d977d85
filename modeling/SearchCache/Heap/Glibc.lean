import SearchCache.Heap.Block
import SearchCache.Lib.Loop

/-! The second allocator, `glibc.c`: blocks with their size and use bit stored at both ends, one list
of the free blocks, and a break that grows inside of one mapped region.  Taking the lock fails only
for a lock that was never initialised, which the operations rely on not being the case. -/

namespace Gca

open Memory Htfh

abbrev gcaInfoSize : Nat := 16
abbrev gcaDataAlign : Nat := 16
abbrev gcaSbrkAlign : Nat := 4096

/-- `GCA_MASK_SIZE`, a negative `int` where it meets a `size_t`. -/
def gcaMaskSize : Nat := lnot 7

abbrev gcaFlagUsed : Nat := 1

/-- An allocator with the memory it works on.  `mutex` counts how often the recursive lock is held. -/
structure GlibcAllocator where
  mem : Mem
  mutex : Nat
  freeList : Nat
  currentBrk : Nat
  heapSize : Nat
  heap : Nat
  allocErrno : AllocatorErrno
  allocErrnoStrerr : String

def setAllocErrno (err : AllocatorErrno) (a : GlibcAllocator) : GlibcAllocator :=
  { a with allocErrno := err }

def setAllocErrnoMsg (err : AllocatorErrno) (msg : String) (a : GlibcAllocator) : GlibcAllocator :=
  setAllocErrno err { a with allocErrnoStrerr := ": [" ++ msg ++ "]:" }

def setMem (f : Mem → Mem) (a : GlibcAllocator) : GlibcAllocator := { a with mem := f a.mem }

def htfhLockLockHandled (a : GlibcAllocator) : GlibcAllocator := { a with mutex := a.mutex + 1 }

/-- Returns 0, or -1 where the lock is not held. -/
def htfhLockUnlockHandled (a : GlibcAllocator) : Int × GlibcAllocator :=
  if a.mutex = 0 then (-1, setAllocErrnoMsg .mutexLockUnlock "Operation not permitted" a)
  else (0, { a with mutex := a.mutex - 1 })

/-- `htfh_lock_unlock_handled(&alloc->mutex) != 0 ? NULL : ptr`. -/
def unlockReturning (ptr : Option Nat) (a : GlibcAllocator) : Option Nat × GlibcAllocator :=
  let (unlocked, a) := htfhLockUnlockHandled a
  (if unlocked ≠ 0 then none else ptr, a)

/-! ### Headers -/

/-- A header tells about the block before it and about its own. -/
inductive Which
  | prev
  | curr
  deriving DecidableEq

def Which.offset : Which → Nat
  | prev => 0
  | curr => 8

def gcaRoundUp (x align : Nat) : Nat := sub64 (add64 x align) 1 &&& sub64 0 align

def gcaDataToHeader (d : Nat) : Nat := sub64 d gcaInfoSize
def gcaHeaderToData (h : Nat) : Nat := add64 h gcaInfoSize

def gcaInfo (w : Which) (m : Mem) (h : Nat) : Nat := read64 m (h + w.offset)
def gcaSize (w : Which) (m : Mem) (h : Nat) : Nat := gcaInfo w m h &&& gcaMaskSize
def gcaUsed (w : Which) (m : Mem) (h : Nat) : Nat := gcaInfo w m h &&& gcaFlagUsed

def gcaSetSize (w : Which) (h v : Nat) (m : Mem) : Mem :=
  write64 m (h + w.offset) ((gcaInfo w m h &&& lnot gcaMaskSize) ||| v)

def gcaSetUsed (w : Which) (h v : Nat) (m : Mem) : Mem :=
  write64 m (h + w.offset) ((gcaInfo w m h &&& lnot gcaFlagUsed) ||| v)

def gcaIsSentinel (w : Which) (m : Mem) (h : Nat) : Bool := gcaSize w m h = 0

def gcaNext (m : Mem) (h : Nat) : Nat := add64 (gcaHeaderToData h) (gcaSize .curr m h)
def gcaPrev (m : Mem) (h : Nat) : Nat := gcaDataToHeader (sub64 h (gcaSize .prev m h))

def prevFree (m : Mem) (h : Nat) : Nat := read64 m (h + 16)
def nextFree (m : Mem) (h : Nat) : Nat := read64 m (h + 24)

def setPrevFree (h v : Nat) (m : Mem) : Mem := write64 m (h + 16) v
def setNextFree (h v : Nat) (m : Mem) : Mem := write64 m (h + 24) v

/-! ### The free list -/

def gcaAddFreeList (header : Nat) (a : GlibcAllocator) : GlibcAllocator :=
  let a := setMem (setPrevFree header 0) a
  let a := setMem (setNextFree header a.freeList) a
  let a := if a.freeList ≠ 0 then setMem (setPrevFree a.freeList header) a else a
  { a with freeList := header }

def gcaRemoveFreeList (header : Nat) (a : GlibcAllocator) : GlibcAllocator :=
  let prev := prevFree a.mem header
  let next := nextFree a.mem header
  let a := if a.freeList = header then { a with freeList := next } else a
  let a := if prev ≠ 0 then setMem (setNextFree prev next) a else a
  if next ≠ 0 then setMem (setPrevFree next prev) a else a

/-! ### The break -/

def gcaBrk (addr : Nat) (a : GlibcAllocator) : Int × GlibcAllocator :=
  if add64 a.heap a.heapSize < addr then (-1, a) else (0, { a with currentBrk := addr })

/-- `(void*) -1`. -/
def sbrkFailed : Nat := 2 ^ 64 - 1

/-- The increment is a signed word. -/
def gcaSbrk (increment : Nat) (a : GlibcAllocator) : Nat × GlibcAllocator :=
  if a.currentBrk = 0 ∧ (gcaBrk 0 a).1 < 0 then (sbrkFailed, a)
  else if increment = 0 then (a.currentBrk, a)
  else
    let oldbrk := a.currentBrk
    if if increment < 2 ^ 63 then add64 oldbrk increment < oldbrk else oldbrk < sub64 0 increment then
      (sbrkFailed, a)
    else
      let (grown, a) := gcaBrk (add64 oldbrk increment) a
      if grown < 0 then (sbrkFailed, a) else (oldbrk, a)

/-- The old break and the new one. -/
def gcaHandledSbrk (delta : Nat) (a : GlibcAllocator) : Option (Nat × Nat) × GlibcAllocator :=
  if add64 a.currentBrk delta < a.currentBrk then (none, a)
  else
    let (lastBrk, a) := gcaSbrk delta a
    if lastBrk = sbrkFailed then (none, a)
    else
      let a := { a with currentBrk := add64 lastBrk delta }
      (some (lastBrk, a.currentBrk), a)

/-! ### Blocks -/

/-- The headers of a block that takes in the free block after it. -/
def gcaAbsorb (header nextAdj : Nat) (a : GlibcAllocator) : GlibcAllocator :=
  let newSize := add64 (add64 (gcaSize .curr a.mem header) gcaInfoSize) (gcaSize .curr a.mem nextAdj)
  let nextNextAdj := gcaNext a.mem nextAdj
  let a := setMem (gcaSetUsed .prev nextNextAdj (gcaUsed .curr a.mem header)) a
  let a := setMem (gcaSetSize .prev nextNextAdj newSize) a
  setMem (gcaSetSize .curr header newSize) a

def gcaCoalesceNext (header : Nat) (a : GlibcAllocator) : Bool × GlibcAllocator :=
  let nextAdj := gcaNext a.mem header
  if gcaUsed .curr a.mem nextAdj ≠ 0 then (false, a)
  else (true, gcaAbsorb header nextAdj (gcaRemoveFreeList nextAdj a))

def gcaCoalescePrev (header : Nat) (a : GlibcAllocator) : Nat × GlibcAllocator :=
  if gcaUsed .prev a.mem header = 0 then
    let header := gcaPrev a.mem header
    (header, (gcaCoalesceNext header a).2)
  else (header, a)

def gcaCoalesce (header : Nat) (a : GlibcAllocator) : Nat × GlibcAllocator :=
  gcaCoalescePrev header (gcaCoalesceNext header a).2

/-- One iteration of the walk along the free list. -/
def gcaFindFreeStep (m : Mem) (alignedSize : Nat) (header : Nat) : Option (Loop.Step Nat) :=
  if header = 0 then some (.done 0)
  else if alignedSize ≤ gcaSize .curr m header then some (.done header)
  else some (.next (nextFree m header))

/-- The first free block that is large enough, or `none` for a walk that never ends: no list without
a cycle has `2 ^ 64` blocks. -/
def gcaFindFreeBlock (alignedSize : Nat) (a : GlibcAllocator) : Option (Option Nat) :=
  (Loop.run (gcaFindFreeStep a.mem alignedSize) (2 ^ 64) a.freeList).map toPtr

/-- The headers of the block that grows the heap from `origBrk` to `newBrk`. -/
def gcaNewBlock (pageSize origBrk newBrk : Nat) (a : GlibcAllocator) : GlibcAllocator :=
  let header := gcaDataToHeader origBrk
  let a := setMem (gcaSetSize .curr header (sub64 pageSize gcaInfoSize)) a
  let a := setMem (gcaSetUsed .curr header 0) a
  let sentinel := gcaDataToHeader newBrk
  let a := setMem (gcaSetSize .prev sentinel (sub64 pageSize gcaInfoSize)) a
  let a := setMem (gcaSetUsed .prev sentinel 0) a
  let a := setMem (gcaSetSize .curr sentinel 0) a
  setMem (gcaSetUsed .curr sentinel 1) a

def gcaPageSize (alignedSize : Nat) : Nat :=
  gcaRoundUp (add64 alignedSize gcaInfoSize) gcaSbrkAlign

/-- `gca_sbrk_new_block` with the old break and the new one. -/
def gcaGrown (pageSize : Nat) : Option (Nat × Nat) × GlibcAllocator → Option Nat × GlibcAllocator
  | (none, a) => (none, a)
  | (some (origBrk, newBrk), a) =>
    let header := gcaDataToHeader origBrk
    let a := gcaAddFreeList header (gcaNewBlock pageSize origBrk newBrk a)
    let (header, a) := gcaCoalescePrev header a
    (some header, a)

def gcaSbrkNewBlock (alignedSize : Nat) (a : GlibcAllocator) : Option Nat × GlibcAllocator :=
  gcaGrown (gcaPageSize alignedSize) (gcaHandledSbrk (gcaPageSize alignedSize) a)

/-- The headers of the two parts of a split block. -/
def gcaCut (header alignedSize splitSize : Nat) (a : GlibcAllocator) : GlibcAllocator :=
  let nextHeader := gcaNext a.mem header
  let a := setMem (gcaSetSize .prev nextHeader splitSize) a
  let a := setMem (gcaSetUsed .prev nextHeader 0) a
  let a := setMem (gcaSetSize .curr header alignedSize) a
  let splitHeader := gcaNext a.mem header
  let a := setMem (gcaSetSize .prev splitHeader alignedSize) a
  let a := setMem (gcaSetUsed .prev splitHeader (gcaUsed .curr a.mem header)) a
  let a := setMem (gcaSetSize .curr splitHeader splitSize) a
  setMem (gcaSetUsed .curr splitHeader 0) a

def gcaSplitBlock (header alignedSize : Nat) (a : GlibcAllocator) : Option Nat × GlibcAllocator :=
  let currSize := gcaSize .curr a.mem header
  if currSize < add64 (add64 alignedSize gcaInfoSize) gcaDataAlign then (none, a)
  else
    let splitSize := sub64 (sub64 currSize alignedSize) gcaInfoSize
    let a := gcaCut header alignedSize splitSize a
    let splitHeader := gcaNext a.mem header
    let a := gcaAddFreeList splitHeader a
    (some splitHeader, (gcaCoalesceNext splitHeader a).2)

/-- Both use bits of a block. -/
def gcaMark (header used : Nat) (a : GlibcAllocator) : GlibcAllocator :=
  let a := setMem (gcaSetUsed .curr header used) a
  setMem (gcaSetUsed .prev (gcaNext a.mem header) used) a

/-! ### The operations -/

/-- `gca_create` with the old break and the new one. -/
def gcaBottom : Option (Nat × Nat) × GlibcAllocator → Bool × GlibcAllocator
  | (none, a) => (false, (htfhLockUnlockHandled (setAllocErrno .heapMmapFailed a)).2)
  | (some (bottom, newBrk), a) =>
    let a := setMem (gcaSetSize .prev bottom 0) a
    let a := setMem (gcaSetUsed .prev bottom 1) a
    let top := gcaDataToHeader newBrk
    let a := setMem (gcaSetSize .curr top 0) a
    let a := setMem (gcaSetUsed .curr top 1) a
    let a := setMem (gcaSetSize .curr bottom (gcaSbrkAlign - 2 * gcaInfoSize)) a
    let a := setMem (gcaSetUsed .curr bottom 0) a
    let a := setMem (gcaSetSize .prev top (gcaSbrkAlign - 2 * gcaInfoSize)) a
    let a := setMem (gcaSetUsed .prev top 0) a
    let (unlocked, a) := htfhLockUnlockHandled (gcaAddFreeList bottom a)
    (unlocked = 0, a)

/-- The state of a new allocator, and whether it is returned.  `heap` is what `mmap` returns. -/
def gcaCreate (heapSize heap : Nat) (a : GlibcAllocator) : Bool × GlibcAllocator :=
  let a := htfhLockLockHandled { a with mutex := 0, heap, freeList := 0, heapSize, currentBrk := heap }
  if a.heap = 0 then (false, (htfhLockUnlockHandled (setAllocErrno .heapMmapFailed a)).2)
  else gcaBottom (gcaHandledSbrk gcaSbrkAlign a)

/-- `gca_malloc` from a free block that is large enough on. -/
def gcaTake (header alignedSize : Nat) (a : GlibcAllocator) : Option Nat × GlibcAllocator :=
  let (_, a) := gcaSplitBlock header alignedSize a
  let a := gcaRemoveFreeList header a
  let a := gcaMark header 1 a
  unlockReturning (some (gcaHeaderToData header)) a

/-- `gca_malloc` with the new block at the end of the heap. -/
def gcaTakeNew (alignedSize : Nat) : Option Nat × GlibcAllocator → Option Nat × GlibcAllocator
  | (none, a) => (none, (htfhLockUnlockHandled (setAllocErrno .mallocFailed a)).2)
  | (some header, a) => gcaTake header alignedSize a

/-- `gca_malloc` with the free block that was found. -/
def gcaMallocFound (alignedSize : Nat) (a : GlibcAllocator) : Option Nat → Option Nat × GlibcAllocator
  | none => gcaTakeNew alignedSize (gcaSbrkNewBlock alignedSize a)
  | some header => gcaTake header alignedSize a

/-- `none` where the walk along the free list never ends. -/
def gcaMalloc (size : Nat) (a : GlibcAllocator) : Option (Option Nat × GlibcAllocator) :=
  if a.heap = 0 ∨ size = 0 then some (none, setAllocErrno .mallocFailed a)
  else
    let a := htfhLockLockHandled a
    let alignedSize := gcaRoundUp size gcaDataAlign
    if alignedSize = 0 then
      some (none, (htfhLockUnlockHandled (setAllocErrno .mallocFailed a)).2)
    else (gcaFindFreeBlock alignedSize a).map (gcaMallocFound alignedSize a)

def gcaFree (ptr : Nat) (a : GlibcAllocator) : Int × GlibcAllocator :=
  if a.heap = 0 ∨ ptr = 0 then (-1, a)
  else
    let a := htfhLockLockHandled a
    let header := gcaDataToHeader ptr
    let a := gcaMark header 0 a
    let a := gcaAddFreeList header a
    htfhLockUnlockHandled (gcaCoalesce header a).2

def sizeMax : Nat := 2 ^ 64 - 1

/-- `gca_calloc` with what `gca_malloc` returns. -/
def gcaZeroed (bytes : Nat) : Option Nat × GlibcAllocator → Option Nat × GlibcAllocator
  | (none, a) => unlockReturning none a
  | (some ptr, a) => unlockReturning (some ptr) (setMem (fun m => fill m ptr 0 bytes) a)

def gcaCalloc (num size : Nat) (a : GlibcAllocator) : Option (Option Nat × GlibcAllocator) :=
  if a.heap = 0 ∨ size = 0 ∨ num = 0 ∨ sizeMax / size < num then some (none, a)
  else
    (gcaMalloc (num * size % 2 ^ 64) (htfhLockLockHandled a)).map (gcaZeroed (num * size % 2 ^ 64))

/-- The end of `gca_realloc` with what `gca_malloc` returns: the contents are copied and the old block
is freed. -/
def gcaMoved (ptr origSize : Nat) : Option Nat × GlibcAllocator → Option Nat × GlibcAllocator
  | (none, a) => unlockReturning none a
  | (some new, a) =>
    unlockReturning (some new) (gcaFree ptr (setMem (fun m => copy m new ptr origSize) a)).2

def reallocMove (ptr origSize size : Nat) (a : GlibcAllocator) :
    Option (Option Nat × GlibcAllocator) :=
  (gcaMalloc size a).map (gcaMoved ptr origSize)

/-- `gca_realloc` in place, of a block that is large enough. -/
def reallocCut (ptr alignedSize : Nat) (a : GlibcAllocator) : Option Nat × GlibcAllocator :=
  unlockReturning (some ptr) (gcaSplitBlock (gcaDataToHeader ptr) alignedSize a).2

/-- `gca_realloc` with the new block after its own. -/
def reallocGrown (ptr alignedSize origSize size : Nat) :
    Option Nat × GlibcAllocator → Option (Option Nat × GlibcAllocator)
  | (none, a) => reallocMove ptr origSize size a
  | (some _, a) => some (reallocCut ptr alignedSize (gcaCoalesceNext (gcaDataToHeader ptr) a).2)

/-- `gca_realloc` of a block that is too small with the next one too. -/
def reallocExtend (ptr alignedSize origSize size : Nat) (a : GlibcAllocator) :
    Option (Option Nat × GlibcAllocator) :=
  let header := gcaDataToHeader ptr
  if gcaIsSentinel .curr a.mem (gcaNext a.mem header) then
    reallocGrown ptr alignedSize origSize size
      (gcaSbrkNewBlock (sub64 alignedSize (gcaSize .curr a.mem header)) a)
  else reallocMove ptr origSize size a

/-- `gca_realloc` of a block that is too small, with what `gca_coalesce_next` returns. -/
def reallocJoined (ptr alignedSize origSize size : Nat) :
    Bool × GlibcAllocator → Option (Option Nat × GlibcAllocator)
  | (merged, a) =>
    if merged ∧ alignedSize ≤ gcaSize .curr a.mem (gcaDataToHeader ptr) then
      some (reallocCut ptr alignedSize a)
    else reallocExtend ptr alignedSize origSize size a

/-- `gca_realloc` of a pointer that is not null. -/
def reallocBlock (ptr size : Nat) (a : GlibcAllocator) : Option (Option Nat × GlibcAllocator) :=
  let alignedSize := gcaRoundUp size gcaDataAlign
  let header := gcaDataToHeader ptr
  let origSize := gcaSize .curr a.mem header
  if alignedSize ≤ origSize then some (reallocCut ptr alignedSize a)
  else reallocJoined ptr alignedSize origSize size (gcaCoalesceNext header a)

def gcaRealloc (ptr size : Nat) (a : GlibcAllocator) : Option (Option Nat × GlibcAllocator) :=
  if a.heap = 0 ∨ size = 0 then some (none, a)
  else
    let a := htfhLockLockHandled a
    if ptr = 0 then (gcaMalloc size a).map fun r => unlockReturning r.1 r.2
    else reallocBlock ptr size a

end Gca
