import SearchCache.Heap.Block

/-! The segregated free lists of `controller.c`.  A function that returns a pointer returns `none`
for `NULL`, and one that returns a status returns 0 or -1 as in the source. -/

namespace Htfh

open Memory

def largestBitClass (index : Nat) : BitVec 32 := ~~~(0#32) <<< index

def setController (f : Controller → Controller) (a : Allocator) : Allocator :=
  { a with controller := f a.controller }

namespace Controller

def setFlBitmap (v : BitVec 32) (c : Controller) : Controller := { c with flBitmap := v }

def setSlBitmap (fl : Nat) (v : BitVec 32) (c : Controller) : Controller :=
  { c with slBitmap := fun i => if i = fl then v else c.slBitmap i }

def setBlocks (fl sl block : Nat) (c : Controller) : Controller :=
  { c with blocks := fun i j => if i = fl ∧ j = sl then block else c.blocks i j }

end Controller

/-- The head of the first list, from a class on, that the bitmaps call non-empty, with its class. -/
def controllerSearchSuitableBlock (fl sl : Nat) (a : Allocator) :
    Option (Nat × Nat × Nat) × Allocator :=
  let control := a.controller
  let pick (fl : Nat) (slMap : BitVec 32) : Option (Nat × Nat × Nat) × Allocator :=
    if slMap = 0 then (none, setAllocErrno .secondLevelBitmapNull a)
    else
      let sl := (htfhFfs slMap).toNat
      ((toPtr (control.blocks fl sl)).map fun block => (block, fl, sl), a)
  let slMap := control.slBitmap fl &&& largestBitClass sl
  if slMap = 0 then
    let flMap := control.flBitmap &&& largestBitClass (fl + 1)
    if flMap = 0 then (none, setAllocErrno .heapFull a)
    else
      let fl := (htfhFfs flMap).toNat
      pick fl (control.slBitmap fl)
  else pick fl slMap

/-- Removes a free block from the free list. -/
def controllerRemoveFreeBlock (block fl sl : Nat) (a : Allocator) : Int × Allocator :=
  let prev := prevFree a.mem block
  let next := nextFree a.mem block
  if prev = 0 then (-1, setAllocErrno .prevBlockNull a)
  else if next = 0 then (-1, setAllocErrno .nextBlockNull a)
  else
    let a := setMem (setPrevFree next prev) a
    let a := setMem (setNextFree prev next) a
    if a.controller.blocks fl sl ≠ block then (0, a)
    else
      -- the head of the list
      let a := setController (.setBlocks fl sl next) a
      if next ≠ a.controller.blockNull then (0, a)
      else
        let slMap := a.controller.slBitmap fl &&& ~~~(1#32 <<< sl)
        let a := setController (.setSlBitmap fl slMap) a
        if slMap = 0 then
          (0, setController (.setFlBitmap (a.controller.flBitmap &&& ~~~(1#32 <<< fl))) a)
        else (0, a)

/-- Inserts a free block into the free list, at its head. -/
def controllerInsertFreeBlock (block fl sl : Nat) (a : Allocator) : Int × Allocator :=
  let current := a.controller.blocks fl sl
  if current = 0 then
    (-1, setAllocErrnoMsg .blockIsNull "Free list cannot have null entry" a)
  else if block = 0 then
    (-1, setAllocErrnoMsg .blockIsNull "Cannot insert null entry into free list" a)
  else
    let a := setMem (setNextFree block current) a
    let a := setMem (setPrevFree block a.controller.blockNull) a
    let a := setMem (setPrevFree current block) a
    let (aligned, a) := alignPtr (blockToPtr block) alignSize a
    if blockToPtr block ≠ aligned then (-1, setAllocErrno .blockNotAligned a)
    else
      let a := setController (.setBlocks fl sl block) a
      let a := setController (.setFlBitmap (a.controller.flBitmap ||| 1#32 <<< fl)) a
      (0, setController (.setSlBitmap fl (a.controller.slBitmap fl ||| 1#32 <<< sl)) a)

def controllerBlockRemove (block : Nat) (a : Allocator) : Int × Allocator :=
  let mapping := mappingInsert (blockSize a.mem block)
  controllerRemoveFreeBlock block mapping.1 mapping.2 a

def controllerBlockInsert (block : Nat) (a : Allocator) : Int × Allocator :=
  let mapping := mappingInsert (blockSize a.mem block)
  controllerInsertFreeBlock block mapping.1 mapping.2 a

/-- Merges a just-freed block with an adjacent previous free block. -/
def controllerBlockMergePrev (block : Nat) (a : Allocator) : Option Nat × Allocator :=
  if !blockIsPrevFree a.mem block then (some block, a)
  else
    match blockPrev block a with
    | (none, a) => (none, setAllocErrno .prevBlockNull a)
    | (some prev, a) =>
      if !blockIsFree a.mem prev then (none, setAllocErrno .blockNotFree a)
      else
        let (removed, a) := controllerBlockRemove prev a
        if removed ≠ 0 then (none, a) else blockAbsorb prev block a

/-- Merges a just-freed block with an adjacent free block. -/
def controllerBlockMergeNext (block : Nat) (a : Allocator) : Option Nat × Allocator :=
  match blockNext block a with
  | (none, a) => (none, a)
  | (some next, a) =>
    if !blockIsFree a.mem next then (some block, a)
    else if blockIsLast a.mem block then (none, setAllocErrno .blockIsLast a)
    else
      let (removed, a) := controllerBlockRemove next a
      if removed ≠ 0 then (none, a) else blockAbsorb block next a

/-- Trims trailing space off the end of a block and returns it to the pool. -/
def controllerBlockTrimFree (block s : Nat) (a : Allocator) : Int × Allocator :=
  if !blockIsFree a.mem block then (-1, setAllocErrno .blockNotFree a)
  else if !blockCanSplit a.mem block s then (0, a)
  else
    match blockSplit block s a with
    | (none, a) => (-1, a)
    | (some remaining, a) =>
      let (_, a) := blockLinkNext block a
      let a := setMem (blockSetPrevFree remaining) a
      controllerBlockInsert remaining a

/-- Trims trailing space off a block, which must be free here too. -/
def controllerBlockTrimUsed (block s : Nat) (a : Allocator) : Int × Allocator :=
  if !blockIsFree a.mem block then (-1, setAllocErrno .blockNotFree a)
  else if !blockCanSplit a.mem block s then (0, a)
  else
    match blockSplit block s a with
    | (none, a) => (-1, a)
    | (some remaining, a) =>
      let a := setMem (blockSetPrevUsed remaining) a
      match controllerBlockMergeNext remaining a with
      | (none, a) => (-1, a)
      | (some remaining, a) => controllerBlockInsert remaining a

/-- Trims leading space off a block, returns it to the pool and goes on with the rest. -/
def controllerBlockTrimFreeLeading (block s : Nat) (a : Allocator) : Option Nat × Allocator :=
  if !blockCanSplit a.mem block s then (some block, a)
  else
    match blockSplit block (sub64 s blockHeaderOverhead) a with
    -- the source goes on with the null pointer here
    | (none, a) => (none, a)
    | (some remaining, a) =>
      let a := setMem (blockSetPrevFree remaining) a
      let (_, a) := blockLinkNext block a
      let (inserted, a) := controllerBlockInsert block a
      if inserted ≠ 0 then (none, a) else (some remaining, a)

def controllerBlockFindFree (s : Nat) (a : Allocator) : Option Nat × Allocator :=
  if s = 0 then (none, a)
  else
    let (fl, sl) := mappingSearch s
    if flIndexCount ≤ fl then (none, a)
    else
      match controllerSearchSuitableBlock fl sl a with
      | (none, a) => (none, a)
      | (some (block, fl, sl), a) =>
        if blockSize a.mem block < s then (none, setAllocErrno .blockSizeMismatch a)
        else
          let (removed, a) := controllerRemoveFreeBlock block fl sl a
          (if removed = 0 then some block else none, a)

def controllerBlockMarkUsed (block : Option Nat) (s : Nat) (a : Allocator) :
    Option Nat × Allocator :=
  match block with
  | none => (none, setAllocErrno .blockIsNull a)
  | some block =>
    if s = 0 then (none, setAllocErrno .nonZeroBlockSize a)
    else
      let (trimmed, a) := controllerBlockTrimFree block s a
      if trimmed ≠ 0 then (none, a)
      else
        let (marked, a) := blockMarkAsUsed block a
        (if marked = 0 then some (blockToPtr block) else none, a)

/-- Points all lists at the null block and links it to itself. -/
def controllerNew (a : Allocator) : Allocator :=
  let null := a.controller.blockNull
  let a := setMem (setPrevFree null null) (setMem (setNextFree null null) a)
  setController (fun c => { c with
    flBitmap := 0, slBitmap := fun _ => 0, blocks := fun _ _ => null }) a

end Htfh
