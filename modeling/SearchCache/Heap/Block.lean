import SearchCache.Lib.Memory
import Mathlib.Data.BitVec

/-! The allocator's state, the arithmetic of `htfh_utils.c` and the block headers of `block.c`.
`constants.h` is read before `htfh_utils.h` defines `ARCH_64_BIT`, so its 32-bit branch is the one
in force on every target: four-byte alignment and 24 first-level classes. -/

namespace Htfh

open Memory

abbrev alignSize : Nat := 4
abbrev slIndexCountLog2 : Nat := 5
abbrev slIndexCount : Nat := 32
abbrev flIndexMax : Nat := 30
abbrev flIndexShift : Nat := 7
abbrev flIndexCount : Nat := 24
abbrev smallBlockSize : Nat := 128

/-- `sizeof(BlockHeader)`. -/
abbrev sizeofBlockHeader : Nat := 32
abbrev blockHeaderOverhead : Nat := 8
abbrev blockStartOffset : Nat := 16
abbrev blockSizeMin : Nat := 24
abbrev blockSizeMax : Nat := 2 ^ 30
abbrev blockHeaderFreeBit : Nat := 1
abbrev blockHeaderPrevFreeBit : Nat := 2

/-- `sizeof(Controller)`. -/
abbrev sizeofController : Nat := 6280

/-- Addition of `size_t` values and of pointers. -/
def add64 (a b : Nat) : Nat := (a + b) % 2 ^ 64

/-- Subtraction of `size_t` values and of pointers. -/
def sub64 (a b : Nat) : Nat := (a + (2 ^ 64 - b)) % 2 ^ 64

inductive AllocatorErrno
  | none
  | mutexLockUnlock
  | nullAllocatorInstance
  | heapMisaligned
  | heapMmapFailed
  | mallocFailed
  | blockIsLast
  | nextBlockNull
  | prevBlockNull
  | prevBlockNotFree
  | blockIsNull
  | nonZeroBlockSize
  | blockNotFree
  | blockNotAligned
  | blockSizeMismatch
  | invalidBlockSplitSize
  | blockAlreadyFreed
  | alignPowerOfTwo
  | secondLevelBitmapNull
  | heapFull
  | poolMisaligned
  | invalidPoolSize
  | gapTooSmall
  deriving DecidableEq, Repr

/-- The segregated lists: a two-level bitmap over the heads of the lists.  `blockNull` is the address
of `block_null`, the first field of the controller. -/
structure Controller where
  blockNull : Nat
  flBitmap : BitVec 32
  slBitmap : Nat → BitVec 32
  blocks : Nat → Nat → Nat

/-- An allocator with the memory it works on.  `mutex` counts how often the recursive lock is held. -/
structure Allocator where
  mem : Mem
  controller : Controller
  mutex : Nat
  allocErrno : AllocatorErrno
  allocErrnoStrerr : String

def setAllocErrno (err : AllocatorErrno) (a : Allocator) : Allocator :=
  { a with allocErrno := err }

def setAllocErrnoMsg (err : AllocatorErrno) (msg : String) (a : Allocator) : Allocator :=
  setAllocErrno err { a with allocErrnoStrerr := ": [" ++ msg ++ "]:" }

def setMem (f : Mem → Mem) (a : Allocator) : Allocator := { a with mem := f a.mem }

/-! ### htfh_utils.c -/

def alignUp (x align : Nat) (a : Allocator) : Nat × Allocator :=
  if align &&& sub64 align 1 ≠ 0 then (0, setAllocErrno .alignPowerOfTwo a)
  else (add64 x (sub64 align 1) &&& lnot (sub64 align 1), a)

def alignDown (x align : Nat) (a : Allocator) : Nat × Allocator :=
  if align &&& sub64 align 1 ≠ 0 then (0, setAllocErrno .alignPowerOfTwo a)
  else (sub64 x (x &&& sub64 align 1), a)

def alignPtr (ptr align : Nat) (a : Allocator) : Nat × Allocator :=
  let aligned := add64 ptr (sub64 align 1) &&& lnot (sub64 align 1)
  if align &&& sub64 align 1 ≠ 0 then (0, setAllocErrno .alignPowerOfTwo a) else (aligned, a)

/-- The lowest set bit. -/
def htfhFfs (word : BitVec 32) : Int :=
  match (List.range 32).find? word.getLsbD with
  | some bit => bit
  | none => -1

/-- The highest set bit. -/
def htfhFls (word : Nat) : Int := if word = 0 then -1 else word.log2

def htfhFlsSizet (size : Nat) : Int :=
  let high := size >>> 32
  if high ≠ 0 then 32 + htfhFls high else htfhFls (size % 2 ^ 32)

/-- The first- and second-level class of a size. -/
def mappingInsert (size : Nat) : Nat × Nat :=
  if size < smallBlockSize then (0, size / (smallBlockSize / slIndexCount))
  else
    let fl := (htfhFlsSizet size).toNat
    (fl - (flIndexShift - 1), (size >>> (fl - slIndexCountLog2)) ^^^ (1 <<< slIndexCountLog2))

/-- The class to search for a size, rounded up to the next one. -/
def mappingSearch (size : Nat) : Nat × Nat :=
  if smallBlockSize ≤ size then
    mappingInsert (add64 size (1 <<< ((htfhFlsSizet size).toNat - slIndexCountLog2) - 1))
  else mappingInsert size

/-! ### The fields of a header -/

def prevPhysBlock (m : Mem) (block : Nat) : Nat := read64 m block
def size (m : Mem) (block : Nat) : Nat := read64 m (block + 8)
def nextFree (m : Mem) (block : Nat) : Nat := read64 m (block + 16)
def prevFree (m : Mem) (block : Nat) : Nat := read64 m (block + 24)

def setPrevPhysBlock (block v : Nat) (m : Mem) : Mem := write64 m block v
def setSize (block v : Nat) (m : Mem) : Mem := write64 m (block + 8) v
def setNextFree (block v : Nat) (m : Mem) : Mem := write64 m (block + 16) v
def setPrevFree (block v : Nat) (m : Mem) : Mem := write64 m (block + 24) v

/-! ### block.c -/

def blockSize (m : Mem) (block : Nat) : Nat :=
  size m block &&& lnot (blockHeaderFreeBit ||| blockHeaderPrevFreeBit)

def blockSetSize (block s : Nat) (m : Mem) : Mem :=
  let oldSize := size m block
  setSize block (s ||| (oldSize &&& (blockHeaderFreeBit ||| blockHeaderPrevFreeBit))) m

def blockIsLast (m : Mem) (block : Nat) : Bool := blockSize m block = 0

def blockIsFree (m : Mem) (block : Nat) : Bool := size m block &&& blockHeaderFreeBit ≠ 0

def blockSetFree (block : Nat) (m : Mem) : Mem :=
  setSize block (size m block ||| blockHeaderFreeBit) m

def blockSetUsed (block : Nat) (m : Mem) : Mem :=
  setSize block (size m block &&& lnot blockHeaderFreeBit) m

def blockIsPrevFree (m : Mem) (block : Nat) : Bool := size m block &&& blockHeaderPrevFreeBit ≠ 0

def blockSetPrevFree (block : Nat) (m : Mem) : Mem :=
  setSize block (size m block ||| blockHeaderPrevFreeBit) m

def blockSetPrevUsed (block : Nat) (m : Mem) : Mem :=
  setSize block (size m block &&& lnot blockHeaderPrevFreeBit) m

/-- A pointer read from memory, where zero is the null pointer. -/
def toPtr (v : Nat) : Option Nat := if v = 0 then none else some v

def blockFromPtr (ptr : Nat) : Nat := sub64 ptr blockStartOffset
def blockToPtr (block : Nat) : Nat := add64 block blockStartOffset
def offsetToBlock (ptr s : Nat) : Nat := add64 ptr s

def blockPrev (block : Nat) (a : Allocator) : Option Nat × Allocator :=
  if !blockIsPrevFree a.mem block then (none, setAllocErrno .prevBlockNotFree a)
  else (toPtr (prevPhysBlock a.mem block), a)

def blockNext (block : Nat) (a : Allocator) : Option Nat × Allocator :=
  let next := offsetToBlock (blockToPtr block) (sub64 (blockSize a.mem block) blockHeaderOverhead)
  if blockIsLast a.mem block then (none, setAllocErrno .blockIsLast a) else (some next, a)

def blockLinkNext (block : Nat) (a : Allocator) : Option Nat × Allocator :=
  match blockNext block a with
  | (none, a) => (none, a)
  | (some next, a) => (some next, setMem (setPrevPhysBlock next block) a)

def blockMarkAsFree (block : Nat) (a : Allocator) : Int × Allocator :=
  match blockLinkNext block a with
  | (none, a) => (-1, a)
  | (some next, a) => (0, setMem (blockSetFree block) (setMem (blockSetPrevFree next) a))

def blockMarkAsUsed (block : Nat) (a : Allocator) : Int × Allocator :=
  match blockNext block a with
  | (none, a) => (-1, a)
  | (some next, a) => (0, setMem (blockSetUsed block) (setMem (blockSetPrevUsed next) a))

def blockCanSplit (m : Mem) (block s : Nat) : Bool :=
  add64 sizeofBlockHeader s ≤ blockSize m block

/-- Splits a block into two, the second of which is free. -/
def blockSplit (block s : Nat) (a : Allocator) : Option Nat × Allocator :=
  let remaining := offsetToBlock (blockToPtr block) (sub64 s blockHeaderOverhead)
  let remainSize := sub64 (blockSize a.mem block) (add64 s blockHeaderOverhead)
  let (aligned, a) := alignPtr (blockToPtr remaining) alignSize a
  if blockToPtr remaining ≠ aligned then (none, setAllocErrno .blockNotAligned a)
  else if blockSize a.mem block ≠ add64 (add64 remainSize s) blockHeaderOverhead then
    (none, setAllocErrno .blockSizeMismatch a)
  else
    let a := setMem (blockSetSize remaining remainSize) a
    if blockSize a.mem remaining < blockSizeMin then (none, setAllocErrno .invalidBlockSplitSize a)
    else
      let a := setMem (blockSetSize block s) a
      let (_, a) := blockMarkAsFree remaining a
      (some remaining, a)

/-- Absorbs a free block's storage into an adjacent previous free block. -/
def blockAbsorb (prev block : Nat) (a : Allocator) : Option Nat × Allocator :=
  if blockIsLast a.mem prev then (none, setAllocErrno .blockIsLast a)
  else
    let a := setMem (setSize prev (add64 (size a.mem prev)
      (add64 (blockSize a.mem block) blockHeaderOverhead))) a
    let (_, a) := blockLinkNext prev a
    (some prev, a)

end Htfh
