import SearchCache.Cache.HashTable

/-! `dq_hashtable.c`: a hash table whose entries are also linked into a deque.  Where the source
calls `entryDestroyHandler` the function returns the value that the handler receives, and the caller
of the model runs the handler.  Of the listings that `dqht_print_table` prints only the one at the
end of an insertion is modelled, since only there the links may have become circular. -/

namespace SearchCache

/-- `DequeueHashTable` without its handler. -/
structure DequeueHashTable (K V : Type) where
  keyComparator : KeyComparator K V
  head : Option Addr
  tail : Option Addr
  ht : HashTable K V

variable {K V : Type}

namespace DequeueHashTable

def next (dqht : DequeueHashTable K V) (a : Addr) : Option Addr :=
  (dqht.ht.entries a).bind DQHTEntry.next

def prev (dqht : DequeueHashTable K V) (a : Addr) : Option Addr :=
  (dqht.ht.entries a).bind DQHTEntry.prev

def ptr (dqht : DequeueHashTable K V) (a : Addr) : Option V :=
  (dqht.ht.entries a).map DQHTEntry.ptr

def withEntries (dqht : DequeueHashTable K V) (entries : Entries K V) : DequeueHashTable K V :=
  { dqht with ht := { dqht.ht with entries } }

/-- `a->next = next`. -/
def setNext (dqht : DequeueHashTable K V) (a : Addr) (next : Option Addr) :
    DequeueHashTable K V :=
  dqht.withEntries (dqht.ht.entries.modify a fun e => { e with next })

/-- `a->prev = prev`. -/
def setPrev (dqht : DequeueHashTable K V) (a : Addr) (prev : Option Addr) :
    DequeueHashTable K V :=
  dqht.withEntries (dqht.ht.entries.modify a fun e => { e with prev })

end DequeueHashTable

/-! ### The links -/

def dqhtUnlink (dqht : DequeueHashTable K V) (entry : Addr) : DequeueHashTable K V :=
  let prevEntry := dqht.prev entry
  let nextEntry := dqht.next entry
  let dqht :=
    match prevEntry with
    | some a => dqht.setNext a nextEntry
    | none => { dqht with head := nextEntry }
  match nextEntry with
  | some a => dqht.setPrev a prevEntry
  | none => { dqht with tail := prevEntry }

/-- The end of `dqht_insert`, which links `entry` behind the tail. -/
def dqhtLinkLast (dqht : DequeueHashTable K V) (entry : Addr) : DequeueHashTable K V :=
  let dqht :=
    match dqht.tail with
    | some tail => (dqht.setNext tail (some entry)).setPrev entry (some tail)
    | none => { dqht with head := some entry }
  { dqht with tail := some entry }

/-- The end of `dqht_push_front`, which links `entry` before the head. -/
def dqhtLinkFirst (dqht : DequeueHashTable K V) (entry : Addr) : DequeueHashTable K V :=
  let dqht :=
    match dqht.head with
    | some head => (dqht.setPrev head (some entry)).setNext entry (some head)
    | none => { dqht with tail := some entry }
  { dqht with head := some entry }

/-- The listing of `dqht_print_table` comes to an end. -/
def listingEnds (next : Addr → Option Addr) : Nat → Option Addr → Bool
  | _, none => true
  | 0, some _ => false
  | n + 1, some a => listingEnds next n (next a)

/-- `dqht_print_table`, which follows `next` from the head.  It returns when it arrives at NULL, and
there are no more than `fresh` entries to visit before that. -/
def dqhtPrintTable (dqht : DequeueHashTable K V) : Option Unit :=
  if listingEnds dqht.next dqht.ht.fresh dqht.head then some () else none

/-! ### The two ends -/

def dqhtGetFront (dqht : DequeueHashTable K V) : Option V :=
  dqht.head.bind dqht.ptr

def dqhtGetLast (dqht : DequeueHashTable K V) : Option V :=
  dqht.tail.bind dqht.ptr

/-- What `dqht_pop_front` and `dqht_pop_last` do to the entry at their end of the deque. -/
def dqhtPop (dqht : DequeueHashTable K V) (entry : Option Addr) :
    Option V × DequeueHashTable K V :=
  match entry with
  | none => (none, dqht)
  | some entry =>
    let dqht := dqhtUnlink dqht entry
    match dqht.ht.entries entry with
    | none => (none, dqht)
    | some e =>
      let (deleted, ht) := htDeleteEntry dqht.ht e.index
      (deleted, { dqht with ht })

def dqhtPopFront (dqht : DequeueHashTable K V) : Option V × DequeueHashTable K V :=
  dqhtPop dqht dqht.head

def dqhtPopLast (dqht : DequeueHashTable K V) : Option V × DequeueHashTable K V :=
  dqhtPop dqht dqht.tail

/-! ### Keys -/

section Keys

variable [TableKey K]

/-- `dqht_create`, where a NULL comparator means `default_comparator`. -/
def dqhtCreate (size : Nat) (comparator : Option (KeyComparator K V)) : DequeueHashTable K V where
  keyComparator := comparator.getD defaultComparator
  head := none
  tail := none
  ht := htCreate size (comparator.getD defaultComparator)

def dqhtGet (dqht : DequeueHashTable K V) (key : K) : Option V :=
  (htGet dqht.ht key).bind dqht.ptr

/-- What an insertion has done: the return value, the table, and the value that
`entryDestroyHandler` receives. -/
structure DqhtInserted (K V : Type) where
  code : Int
  table : DequeueHashTable K V
  overridden : Option V

/-- What `dqht_insert` and `dqht_push_front` share: `ht_insert`, the unlinking of an entry that was
there already, the linking of the entry with `link` and the listing.  An insertion that does not
fail always sets `entryAtIndex`. -/
def dqhtInsertWith (link : DequeueHashTable K V → Addr → DequeueHashTable K V) (ok : Alloc)
    (dqht : DequeueHashTable K V) (key : K) (value : Option V) : Option (DqhtInserted K V) :=
  (htInsert ok dqht.ht key value).bind fun r =>
    let dqht := { dqht with ht := r.table }
    if r.code = -1 then some { code := -1, table := dqht, overridden := r.overridden }
    else
      match r.entryAtIndex with
      | none => some { code := 0, table := dqht, overridden := r.overridden }
      | some entry =>
        let dqht := if r.code = 1 then dqhtUnlink dqht entry else dqht
        let dqht := link dqht entry
        (dqhtPrintTable dqht).map fun _ =>
          { code := 0, table := dqht, overridden := r.overridden }

def dqhtInsert (ok : Alloc) (dqht : DequeueHashTable K V) (key : K) (value : Option V) :
    Option (DqhtInserted K V) :=
  dqhtInsertWith dqhtLinkLast ok dqht key value

def dqhtPushFront (ok : Alloc) (dqht : DequeueHashTable K V) (key : K) (value : Option V) :
    Option (DqhtInserted K V) :=
  dqhtInsertWith dqhtLinkFirst ok dqht key value

def dqhtPushLast (ok : Alloc) (dqht : DequeueHashTable K V) (key : K) (value : Option V) :
    Option (DqhtInserted K V) :=
  dqhtInsert ok dqht key value

/-- `dqht_remove`: the return value, the removed value, which goes to `*removed` or to the handler,
and the table. -/
def dqhtRemove (dqht : DequeueHashTable K V) (key : K) :
    Int × Option V × DequeueHashTable K V :=
  match htLookup dqht.ht dqht.keyComparator key with
  | none => (1, none, dqht)
  | some (index, entry) =>
    let dqht := dqhtUnlink dqht entry
    let (deleted, ht) := htDeleteEntry dqht.ht index
    (0, deleted, { dqht with ht })

end Keys

end SearchCache
