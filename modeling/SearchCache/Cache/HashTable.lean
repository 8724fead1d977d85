import SearchCache.Cache.Key

/-! `cache_hashtable.c` and `dq_ht_entry.c`: the open-addressing table with linear probing under the
caches.  The entries are objects with addresses, since the deque links them and a resize moves them
between slots; an address with no entry is one that `dqhtentry_destroy` released, and reading it
finds the NULL key and links that the destructor left.  A function returns `none` where the source
does not return.  Pointer arguments that the callers never pass as NULL have no `Option`. -/

namespace SearchCache

abbrev Addr := Nat

/-- `DQHTEntry`.  Its `length` is written and never read. -/
structure DQHTEntry (K V : Type) where
  key : K
  ptr : V
  index : Nat
  prev : Option Addr
  next : Option Addr

/-- The entries that live in memory. -/
abbrev Entries (K V : Type) := Addr → Option (DQHTEntry K V)

/-- `KeyComparator`, whose third argument is the entry of the second key. -/
abbrev KeyComparator (K V : Type) := K → K → DQHTEntry K V → Int

/-- `HashTable`, with the memory of its entries and the next address that an allocation returns. -/
structure HashTable (K V : Type) where
  size : Nat
  count : Nat
  comparator : KeyComparator K V
  items : Nat → Option Addr
  entries : Entries K V
  fresh : Addr

/-- Which of the allocations that an insertion makes succeed: the array of `ht_resize`, and the
entry of `dqhtentry_create`. -/
structure Alloc where
  items : Bool := true
  entry : Bool := true

variable {K V : Type} [TableKey K]

/-- The entries with entry `a` changed by `f`. -/
def Entries.modify (entries : Entries K V) (a : Addr) (f : DQHTEntry K V → DQHTEntry K V) :
    Entries K V :=
  fun b => if b = a then (entries a).map f else entries b

/-- `ht_create`, with an array of `size` NULL pointers. -/
def htCreate (size : Nat) (comparator : KeyComparator K V) : HashTable K V where
  size := size
  count := 0
  comparator := comparator
  items := fun _ => none
  entries := fun _ => none
  fresh := 0

/-! ### Resizing -/

/-- What a rehash has done: the return value, the new array and the entries. -/
structure Rehash (K V : Type) where
  code : Int
  items : Nat → Option Addr
  entries : Entries K V

/-- The loop of `ht_resize_insert` for the entry `a` with key `key`.  After `size` occupied slots
it has seen the whole array and never ends. -/
def htResizeInsert (items : Nat → Option Addr) (entries : Entries K V) (size : Nat) (a : Addr)
    (key : K) : Nat → Nat → Option (Rehash K V)
  | 0, _ => none
  | n + 1, index =>
    match items index with
    | none => some {
        code := 0
        items := Function.update items index (some a)
        entries := entries.modify a fun e => { e with index } }
    | some b =>
      match entries b with
      | some e =>
        if TableKey.cmp key e.key = 0 then some { code := -1, items, entries }
        else htResizeInsert items entries size a key n ((index + 1) % size)
      | none => htResizeInsert items entries size a key n ((index + 1) % size)

/-- The loop of `ht_resize` over the slots of the old array. -/
def htRehash (old : Nat → Option Addr) (newSize : Nat) :
    List Nat → (Nat → Option Addr) → Entries K V → Option (Rehash K V)
  | [], items, entries => some { code := 0, items, entries }
  | i :: slots, items, entries =>
    match old i with
    | none => htRehash old newSize slots items entries
    | some a =>
      match entries a with
      | none => none
      | some e =>
        match htResizeInsert items entries newSize a e.key newSize
            (TableKey.hash e.key % newSize) with
        | none => none
        | some r =>
          if r.code ≠ 0 then some { r with code := -1 }
          else htRehash old newSize slots r.items r.entries

/-- `ht_resize`: the return value and the table. -/
def htResize (ok : Alloc) (ht : HashTable K V) : Option (Int × HashTable K V) :=
  let newSize := ht.size * 2
  if newSize < ht.size then some (-1, ht)
  else if ok.items = false then some (-1, ht)
  else
    match htRehash ht.items newSize (List.range ht.size) (fun _ => none) ht.entries with
    | none => none
    | some r =>
      if r.code ≠ 0 then some (-1, { ht with entries := r.entries })
      else some (0, { ht with items := r.items, entries := r.entries, size := newSize })

/-! ### Insertion -/

/-- What an insertion has done: the return value, the table, `*entryAtIndex` and `*overridden`. -/
structure Inserted (K V : Type) where
  code : Int
  table : HashTable K V
  entryAtIndex : Option Addr
  overridden : Option V

/-- The loop of `ht_insert`: the slot where it stops, and the entry there whose key is `key`. -/
def htInsertLoop (ht : HashTable K V) (key : K) : Nat → Nat → Nat × Option Addr
  | 0, index => (index, none)
  | n + 1, index =>
    match ht.items index with
    | none => (index, none)
    | some a =>
      match ht.entries a with
      | some e =>
        if TableKey.cmp key e.key = 0 then (index, some a)
        else htInsertLoop ht key n ((index + 1) % ht.size)
      | none => htInsertLoop ht key n ((index + 1) % ht.size)

/-- `dqhtentry_create`. -/
def dqhtentryCreate (key : K) (ptr : V) : DQHTEntry K V :=
  { key, ptr, index := 0, prev := none, next := none }

/-- A new entry in slot `index`, as the end of `ht_insert` makes it. -/
def htCreateAt (ht : HashTable K V) (index : Nat) (key : K) (value : V) : HashTable K V :=
  { ht with
    count := ht.count + 1
    items := Function.update ht.items index (some ht.fresh)
    entries := Function.update ht.entries ht.fresh
      (some { dqhtentryCreate key value with index })
    fresh := ht.fresh + 1 }

/-- `ht_insert` after its checks and the resize. -/
def htInsertSlot (ok : Alloc) (ht : HashTable K V) (key : K) (value : V) : Inserted K V :=
  match htInsertLoop ht key ht.size (TableKey.hash key % ht.size) with
  | (_, some a) => {
      code := 1
      table := { ht with entries := ht.entries.modify a fun e => { e with ptr := value } }
      entryAtIndex := some a
      overridden := (ht.entries a).map DQHTEntry.ptr }
  | (index, none) =>
    if ok.entry = false then {
      code := -1
      table := { ht with items := Function.update ht.items index none }
      entryAtIndex := none
      overridden := none }
    else {
      code := 0
      table := htCreateAt ht index key value
      entryAtIndex := some ht.fresh
      overridden := none }

/-- `ht_insert`.  The value is a pointer that may be NULL. -/
def htInsert (ok : Alloc) (ht : HashTable K V) (key : K) (value : Option V) :
    Option (Inserted K V) :=
  let failed (ht : HashTable K V) : Inserted K V :=
    { code := -1, table := ht, entryAtIndex := none, overridden := none }
  match value with
  | none => some (failed ht)
  | some v =>
    if ht.size / 2 ≤ ht.count then
      match htResize ok ht with
      | none => none
      | some (code, ht) =>
        if code ≠ 0 then some (failed ht) else some (htInsertSlot ok ht key v)
    else some (htInsertSlot ok ht key v)

/-! ### Lookup and deletion -/

/-- The loop that `ht_get`, `ht_delete` and `dqht_remove` share: the slot of the first entry, in
probe order, that `comparator` finds equal to `key`. -/
def htFind (ht : HashTable K V) (comparator : KeyComparator K V) (key : K) :
    Nat → Nat → Option (Nat × Addr)
  | 0, _ => none
  | n + 1, index =>
    match ht.items index with
    | none => htFind ht comparator key n ((index + 1) % ht.size)
    | some a =>
      match ht.entries a with
      | some e =>
        if comparator key e.key e = 0 then some (index, a)
        else htFind ht comparator key n ((index + 1) % ht.size)
      | none => htFind ht comparator key n ((index + 1) % ht.size)

/-- The slot and the entry that a scan of the whole table from the hash of `key` finds. -/
def htLookup (ht : HashTable K V) (comparator : KeyComparator K V) (key : K) :
    Option (Nat × Addr) :=
  htFind ht comparator key ht.size (TableKey.hash key % ht.size)

/-- `ht_get`: the address of the entry. -/
def htGet (ht : HashTable K V) (key : K) : Option Addr :=
  (htLookup ht ht.comparator key).map Prod.snd

/-- `ht_delete_entry`: the value of the deleted entry. -/
def htDeleteEntry (ht : HashTable K V) (index : Nat) : Option V × HashTable K V :=
  match ht.items index with
  | none => (none, ht)
  | some a =>
    ((ht.entries a).map DQHTEntry.ptr,
      { ht with
        count := ht.count - 1
        items := Function.update ht.items index none
        entries := Function.update ht.entries a none })

/-- `ht_delete`: the value of the deleted entry. -/
def htDelete (ht : HashTable K V) (key : K) : Option V × HashTable K V :=
  match htLookup ht ht.comparator key with
  | none => (none, ht)
  | some (index, _) => htDeleteEntry ht index

/-- `default_comparator`, and `default_key_compare` of `main.c`. -/
def defaultComparator : KeyComparator K V := fun key1 key2 _ => TableKey.cmp key1 key2

end SearchCache
