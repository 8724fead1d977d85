import SearchCache.Heap.Controller

/-! The allocator's operations, `htfh.c`.  Taking the lock fails only for a lock that was never
initialised, which the operations rely on not being the case. -/

namespace Htfh

open Memory

def htfhLockLock (a : Allocator) : Allocator := { a with mutex := a.mutex + 1 }

/-- Returns 0, or -1 where the lock is not held. -/
def htfhLockUnlock (a : Allocator) : Int × Allocator :=
  if a.mutex = 0 then (-1, setAllocErrnoMsg .mutexLockUnlock "Operation not permitted" a)
  else (0, { a with mutex := a.mutex - 1 })

/-- `htfh_lock_unlock_handled(&alloc->mutex) == 0 ? ptr : NULL`. -/
def unlockReturning (ptr : Option Nat) (a : Allocator) : Option Nat × Allocator :=
  let (unlocked, a) := htfhLockUnlock a
  (if unlocked = 0 then ptr else none, a)

def htfhPoolOverhead : Nat := 2 * blockHeaderOverhead

/-- The payload of a pool of `bytes` bytes. -/
def poolBytes (bytes : Nat) (a : Allocator) : Nat × Allocator :=
  alignDown (sub64 bytes htfhPoolOverhead) alignSize a

/-- `htfh_add_pool` from a payload that it accepts on. -/
def addPoolBlock (mem payload : Nat) (a : Allocator) : Option Nat × Allocator :=
  let block := offsetToBlock mem (sub64 0 blockHeaderOverhead)
  let a := setMem (blockSetSize block payload) a
  let a := setMem (blockSetFree block) a
  let a := setMem (blockSetPrevUsed block) a
  let (inserted, a) := controllerBlockInsert block a
  if inserted ≠ 0 then (none, (htfhLockUnlock a).2)
  else
    let (next, a) := blockLinkNext block a
    -- the null pointer is address 0
    let next := next.getD 0
    let a := setMem (blockSetSize next 0) a
    let a := setMem (blockSetUsed next) a
    let a := setMem (blockSetPrevFree next) a
    unlockReturning (some mem) a

def htfhAddPool (mem bytes : Nat) (a : Allocator) : Option Nat × Allocator :=
  let (payload, a) := poolBytes bytes (htfhLockLock a)
  if mem % alignSize ≠ 0 then (none, (htfhLockUnlock (setAllocErrno .poolMisaligned a)).2)
  else if payload < blockSizeMin ∨ blockSizeMax < payload then
    (none, (htfhLockUnlock (setAllocErrnoMsg .invalidPoolSize
      "Memory pool must be between 0x28 and 0x40000000 bytes: " a)).2)
  else addPoolBlock mem payload a

def adjustRequestSize (s align : Nat) (a : Allocator) : Nat × Allocator :=
  if s = 0 then (0, a)
  else
    let (aligned, a) := alignUp s align a
    (if aligned < blockSizeMax then max aligned blockSizeMin else 0, a)

def htfhMalloc (s : Nat) (a : Allocator) : Option Nat × Allocator :=
  let a := htfhLockLock a
  let (adjust, a) := adjustRequestSize s alignSize a
  match controllerBlockFindFree adjust a with
  | (none, a) => (none, (htfhLockUnlock a).2)
  | (some block, a) =>
    let (ptr, a) := controllerBlockMarkUsed (some block) adjust a
    unlockReturning ptr a

def htfhFree (ptr : Nat) (a : Allocator) : Int × Allocator :=
  let a := htfhLockLock a
  if ptr = 0 then htfhLockUnlock a
  else
    let block := blockFromPtr ptr
    if block = 0 then (-1, (htfhLockUnlock (setAllocErrno .blockIsNull a)).2)
    else if blockIsFree a.mem block then
      (-1, (htfhLockUnlock (setAllocErrno .blockAlreadyFreed a)).2)
    else
      let (_, a) := blockMarkAsFree block a
      match controllerBlockMergePrev block a with
      | (none, a) => (-1, (htfhLockUnlock a).2)
      | (some block, a) =>
        match controllerBlockMergeNext block a with
        | (none, a) => (-1, (htfhLockUnlock a).2)
        | (some block, a) =>
          let (inserted, a) := controllerBlockInsert block a
          if inserted ≠ 0 then (-1, (htfhLockUnlock a).2) else htfhLockUnlock a

/-- `count * bytes` as the code computes it. -/
def callocBytes (count bytes : Nat) : Nat := count * bytes % 2 ^ 64

def htfhCalloc (count bytes : Nat) (a : Allocator) : Option Nat × Allocator :=
  match htfhMalloc (callocBytes count bytes) a with
  | (none, a) => (none, a)
  | (some ptr, a) => (some ptr, setMem (fun m => fill m ptr 0 (callocBytes count bytes)) a)

/-- The first aligned address that leaves no gap after `ptr` or one that a block fits in, with the
gap. -/
def alignedWithGap (ptr align : Nat) (a : Allocator) : Nat × Allocator :=
  let (aligned, a) := alignPtr ptr align a
  let gap := sub64 aligned ptr
  if gap ≠ 0 ∧ gap < sizeofBlockHeader then
    let offset := max (sub64 sizeofBlockHeader gap) align
    let (aligned, a) := alignPtr (add64 aligned offset) align a
    (sub64 aligned ptr, a)
  else (gap, a)

/-- The end of `htfh_memalign`, which returns the lock with a pointer only. -/
def memalignMarkUsed (adjust : Nat) (block : Option Nat) (a : Allocator) : Option Nat × Allocator :=
  match controllerBlockMarkUsed block adjust a with
  | (none, a) => (none, a)
  | (some ptr, a) => unlockReturning (some ptr) a

/-- `htfh_memalign` from the block that it found on. -/
def memalignBlock (align adjust block : Nat) (a : Allocator) : Option Nat × Allocator :=
  let (gap, a) := alignedWithGap (blockToPtr block) align a
  if gap = 0 then memalignMarkUsed adjust (some block) a
  else if gap < sizeofBlockHeader then
    (none, (htfhLockUnlock (setAllocErrno .gapTooSmall a)).2)
  else
    match controllerBlockTrimFreeLeading block gap a with
    | (none, a) => (none, (htfhLockUnlock a).2)
    | (some block, a) => memalignMarkUsed adjust (some block) a

/-- The size of the block that `htfh_memalign` looks for. -/
def memalignSize (align adjust : Nat) (a : Allocator) : Nat × Allocator :=
  let (sizeWithGap, a) :=
    adjustRequestSize (add64 (add64 adjust align) sizeofBlockHeader) align a
  (if adjust ≠ 0 ∧ alignSize < align then sizeWithGap else adjust, a)

def htfhMemalign (align s : Nat) (a : Allocator) : Option Nat × Allocator :=
  let (adjust, a) := adjustRequestSize s alignSize (htfhLockLock a)
  let (alignedSize, a) := memalignSize align adjust a
  match controllerBlockFindFree alignedSize a with
  | (none, a) => memalignMarkUsed adjust none a
  | (some block, a) => memalignBlock align adjust block a

/-- `htfh_realloc` where the block cannot grow in place: a new block, the contents, and the old
block is freed. -/
def reallocMove (ptr cursize s : Nat) (a : Allocator) : Option Nat × Allocator :=
  match htfhMalloc s a with
  | (none, a) => unlockReturning none a
  | (some p, a) =>
    let a := setMem (fun m => copy m p ptr (min cursize s)) a
    let (freed, a) := htfhFree ptr a
    if freed ≠ 0 then (none, (htfhLockUnlock a).2) else unlockReturning (some p) a

/-- Trims the resulting block and returns the original pointer. -/
def reallocTrim (ptr adjust : Nat) (a : Allocator) : Option Nat × Allocator :=
  let (trimmed, a) := controllerBlockTrimUsed (blockFromPtr ptr) adjust a
  if trimmed ≠ 0 then (none, (htfhLockUnlock a).2) else unlockReturning (some ptr) a

/-- Grows into the next block.  The pointer that the merge returns is compared with the status of
success. -/
def reallocGrow (ptr adjust : Nat) (a : Allocator) : Option Nat × Allocator :=
  let (merged, a) := controllerBlockMergeNext (blockFromPtr ptr) a
  if merged.getD 0 ≠ 0 then (none, (htfhLockUnlock a).2)
  else reallocTrim ptr adjust (blockMarkAsUsed (blockFromPtr ptr) a).2

/-- `htfh_realloc` of a pointer that is not null. -/
def reallocBlock (ptr s : Nat) (a : Allocator) : Option Nat × Allocator :=
  let block := blockFromPtr ptr
  let (next, a) := blockNext block a
  -- the null pointer is address 0
  let next := next.getD 0
  let cursize := blockSize a.mem block
  let combined := add64 (add64 cursize (blockSize a.mem next)) blockHeaderOverhead
  let (adjust, a) := adjustRequestSize s alignSize a
  if blockIsFree a.mem block then
    (none, (htfhLockUnlock (setAllocErrno .blockAlreadyFreed a)).2)
  else if cursize < adjust ∧ (!blockIsFree a.mem next ∨ combined < adjust) then
    reallocMove ptr cursize s a
  else if cursize < adjust then reallocGrow ptr adjust a
  else reallocTrim ptr adjust a

def htfhRealloc (ptr s : Nat) (a : Allocator) : Option Nat × Allocator :=
  let a := htfhLockLock a
  let (freed, a) := if ptr ≠ 0 ∧ s = 0 then htfhFree ptr a else (0, a)
  if freed ≠ 0 then (none, (htfhLockUnlock a).2)
  else if ptr = 0 then
    let (p, a) := htfhMalloc s a
    unlockReturning p a
  else reallocBlock ptr s a

end Htfh
