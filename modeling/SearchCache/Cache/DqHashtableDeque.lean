import SearchCache.Cache.DqHashtableInsert

/-! Runs of the deque against a list of keys and values.  The insertions of a run have keys that are
not in the deque; `dqht_insert` of a key that is there links its entry with the links it had. -/

namespace SearchCache

open DequeueHashTable HashTable

/-- The deque holds the pairs `l`, and compares keys with `key_cmp`. -/
structure Represents {K V : Type} [TableKey K] (dqht : DequeueHashTable K V) (l : List (K × V)) :
    Prop where
  keyComparator : dqht.keyComparator = defaultComparator
  comparator : dqht.ht.comparator = defaultComparator
  holds : ∃ order, Holds dqht order l

/-- The allocations that the insertion of a new key makes succeed. -/
def Alloc.Suffices (ok : Alloc) (size count : Nat) : Prop :=
  (size / 2 ≤ count → ok.items = true) ∧ ok.entry = true

namespace Represents

variable {K V : Type} [TableKey K] {dqht : DequeueHashTable K V} {l l1 l2 : List (K × V)}
  {key : K} {value : V}

theorem create {size : Nat} (hsize : 0 < size) :
    Represents (dqhtCreate size none : DequeueHashTable K V) [] where
  keyComparator := rfl
  comparator := rfl
  holds := ⟨[], htCreate_wf hsize _, Linked.Dll.empty, by simp [Live, dqhtCreate, htCreate], rfl⟩

theorem keys_nodup (h : Represents dqht l) : (l.map Prod.fst).Nodup := by
  obtain ⟨order, hl⟩ := h.holds
  exact hl.keys_nodup

theorem count_eq (h : Represents dqht l) : dqht.ht.count = l.length := by
  obtain ⟨order, hl⟩ := h.holds
  exact hl.count_eq

/-! ### The two ends -/

theorem getFront (h : Represents dqht l) : dqhtGetFront dqht = l.head?.map Prod.snd := by
  obtain ⟨order, hl⟩ := h.holds
  rw [dqhtGetFront, Linked.Dll.head_eq hl.linked]
  have hc := hl.contents
  cases l with
  | nil => simp [List.map_eq_nil_iff.mp hc]
  | cons x l =>
    obtain ⟨a, order, rfl, ha, -⟩ := List.map_eq_cons_iff.mp hc
    obtain ⟨e, he, rfl⟩ := Option.map_eq_some_iff.mp ha
    simp [ptr, he]

theorem getLast (h : Represents dqht l) : dqhtGetLast dqht = l.getLast?.map Prod.snd := by
  obtain ⟨order, hl⟩ := h.holds
  rw [dqhtGetLast, Linked.Dll.tail_eq hl.linked]
  have hc := congrArg List.getLast? hl.contents
  rw [List.getLast?_map, List.getLast?_map] at hc
  cases horder : order.getLast? with
  | none => simp_all
  | some a =>
    rw [horder, Option.map_some] at hc
    obtain ⟨x, hx, hxa⟩ := Option.map_eq_some_iff.mp hc.symm
    obtain ⟨e, he, rfl⟩ := Option.map_eq_some_iff.mp hxa.symm
    simp [ptr, he, hx]

theorem same (h : Represents dqht l) {dqht' : DequeueHashTable K V} {order' : List Addr}
    {l' : List (K × V)} (hsame : SameComparators dqht dqht') (hl : Holds dqht' order' l') :
    Represents dqht' l' :=
  ⟨hsame.1.trans h.keyComparator, hsame.2.trans h.comparator, order', hl⟩

theorem popFront_nil (h : Represents dqht []) : dqhtPopFront dqht = (none, dqht) := by
  obtain ⟨order, hl⟩ := h.holds
  exact hl.popFront_nil

theorem popLast_nil (h : Represents dqht []) : dqhtPopLast dqht = (none, dqht) := by
  obtain ⟨order, hl⟩ := h.holds
  exact hl.popLast_nil

theorem popFront (h : Represents dqht ((key, value) :: l)) :
    ∃ dqht', dqhtPopFront dqht = (some value, dqht') ∧ Represents dqht' l := by
  obtain ⟨order, hl⟩ := h.holds
  obtain ⟨dqht', order', heq, hsame, hholds⟩ := hl.popFront
  exact ⟨dqht', heq, h.same hsame hholds⟩

theorem popLast (h : Represents dqht (l ++ [(key, value)])) :
    ∃ dqht', dqhtPopLast dqht = (some value, dqht') ∧ Represents dqht' l := by
  obtain ⟨order, hl⟩ := h.holds
  obtain ⟨dqht', order', heq, hsame, hholds⟩ := hl.popLast
  exact ⟨dqht', heq, h.same hsame hholds⟩

theorem insert_suffices {ok : Alloc} (hok : ok.Suffices dqht.ht.size dqht.ht.count) (key : K)
    (value : Option V) : dqhtInsert ok dqht key value = dqhtInsert {} dqht key value := by
  have hslot : ∀ (ht : HashTable K V) (value : V),
      htInsertSlot ok ht key value = htInsertSlot {} ht key value := fun ht value => by
    simp only [htInsertSlot, hok.2]
  have hht : htInsert ok dqht.ht key value = htInsert {} dqht.ht key value := by
    cases value with
    | none => rfl
    | some value =>
      unfold htInsert
      by_cases hfull : dqht.ht.size / 2 ≤ dqht.ht.count
      · simp only [hslot, htResize, hok.1 hfull]
      · simp only [hslot, hfull, if_false]
  rw [dqhtInsert, dqhtInsert, dqhtInsertWith, dqhtInsertWith, hht]

/-! ### Keys -/

variable [LawfulTableKey K]

theorem get_of_mem (h : Represents dqht l) (hmem : (key, value) ∈ l) :
    dqhtGet dqht key = some value := by
  obtain ⟨order, hl⟩ := h.holds
  obtain ⟨a, e, has, rfl⟩ := hl.mem_iff.mp hmem
  rw [dqhtGet, (htGet_eq_some hl.wf.toShape hl.wf.distinct (h.comparator ▸ exact_default)).mpr ⟨e, has⟩]
  simp [ptr, has.1]

theorem get_absent (h : Represents dqht l) (hkey : key ∉ l.map Prod.fst) :
    dqhtGet dqht key = none := by
  obtain ⟨order, hl⟩ := h.holds
  rw [dqhtGet, (htGet_eq_none hl.wf (h.comparator ▸ exact_default)).mpr (hl.absent hkey)]
  rfl

theorem foreign (hkey : key ∉ l.map Prod.fst) : ∀ x ∈ l, TableKey.cmp key x.1 ≠ 0 :=
  fun x hx hcmp => hkey (List.mem_map.mpr
    ⟨x, hx, ((LawfulTableKey.cmp_eq_zero _ _).mp hcmp).symm⟩)

theorem insert (h : Represents dqht l) (hkey : key ∉ l.map Prod.fst) (value : V) :
    ∃ r, dqhtInsert {} dqht key (some value) = some r ∧ r.code = 0 ∧ r.overridden = none ∧
      Represents r.table (l ++ [(key, value)]) := by
  obtain ⟨order, hl⟩ := h.holds
  obtain ⟨r, heq, hcode, hover, hsame, ⟨order', hholds⟩, -⟩ :=
    hl.insert hl.wf.separated (foreign hkey) value
  exact ⟨r, heq, hcode, hover, h.same hsame hholds⟩

theorem insert_fails (h : Represents dqht l) (hkey : key ∉ l.map Prod.fst) {ok : Alloc}
    (hok : ¬ok.Suffices dqht.ht.size dqht.ht.count) (value : V) :
    ∃ table, dqhtInsert ok dqht key (some value) =
      some { code := -1, table, overridden := none } ∧ Represents table l := by
  by_cases hresizable : Resizable ok dqht.ht
  · have hentry : ok.entry = false := by
      by_contra hentry
      exact hok ⟨hresizable, by simpa using hentry⟩
    obtain ⟨order, hl⟩ := h.holds
    obtain ⟨ht, heq, hmoved, hroom, -⟩ := htInsert_eq ok hl.wf hl.wf.separated hresizable key value
    have hholds := hl.moved hmoved
    obtain ⟨index, -, -, -, hslot⟩ := htInsertSlot_stops ok hmoved.wf.toShape key value (by omega)
      fun i a e hi he _ => foreign hkey (e.key, e.ptr) (hholds.mem_iff.mpr ⟨a, e, ⟨he, rfl⟩, rfl⟩)
    refine ⟨{ dqht with ht }, ?_, h.keyComparator, hmoved.comparator_eq.trans h.comparator, order,
      hholds⟩
    rw [dqhtInsert, dqhtInsertWith, heq, hslot, if_pos hentry]
    rfl
  · refine ⟨dqht, ?_, h⟩
    rw [dqhtInsert, dqhtInsertWith, htInsert_notResizable hresizable]
    rfl

theorem pushFront (h : Represents dqht l) (hkey : key ∉ l.map Prod.fst) (value : V) :
    ∃ r, dqhtPushFront {} dqht key (some value) = some r ∧ r.code = 0 ∧ r.overridden = none ∧
      Represents r.table ((key, value) :: l) := by
  obtain ⟨order, hl⟩ := h.holds
  obtain ⟨r, heq, hcode, hover, hsame, ⟨order', hholds⟩, -⟩ :=
    hl.pushFront hl.wf.separated (foreign hkey) value
  exact ⟨r, heq, hcode, hover, h.same hsame hholds⟩

theorem remove_mem (h : Represents dqht (l1 ++ (key, value) :: l2)) :
    ∃ dqht', dqhtRemove dqht key = (0, some value, dqht') ∧ Represents dqht' (l1 ++ l2) := by
  obtain ⟨order, hl⟩ := h.holds
  obtain ⟨dqht', order', heq, hsame, hholds⟩ := hl.remove fun a e has =>
    (htLookup_eq_some hl.wf (h.keyComparator ▸ exact_default)).mpr ⟨e, has, rfl⟩
  exact ⟨dqht', heq, h.same hsame hholds⟩

theorem remove_absent (h : Represents dqht l) (hkey : key ∉ l.map Prod.fst) :
    dqhtRemove dqht key = (1, none, dqht) := by
  obtain ⟨order, hl⟩ := h.holds
  rw [dqhtRemove, (htLookup_eq_none hl.wf (h.keyComparator ▸ exact_default)).mpr (hl.absent hkey)]

end Represents

/-! ### Runs -/

variable {V : Type}

inductive DqhtOp (V : Type)
  | insert (key : Key) (value : V)
  | pushLast (key : Key) (value : V)
  | pushFront (key : Key) (value : V)
  | remove (key : Key)
  | popFront
  | popLast
  | get (key : Key)
  | getFront
  | getLast

/-- What an operation returns: the code of an insertion and the value that it hands to the handler,
the code of a removal and the removed value, and the value that the other operations return. -/
inductive DqhtReply (V : Type)
  | inserted (code : Int) (overridden : Option V)
  | removed (code : Int) (value : Option V)
  | value (value : Option V)

namespace DqhtOp

/-- An operation on the table, where allocations succeed. -/
def run (dqht : DequeueHashTable Key V) : DqhtOp V → Option (DqhtReply V × DequeueHashTable Key V)
  | insert key value =>
    (dqhtInsert {} dqht key (some value)).map fun r => (.inserted r.code r.overridden, r.table)
  | pushLast key value =>
    (dqhtPushLast {} dqht key (some value)).map fun r => (.inserted r.code r.overridden, r.table)
  | pushFront key value =>
    (dqhtPushFront {} dqht key (some value)).map fun r => (.inserted r.code r.overridden, r.table)
  | remove key =>
    let (code, value, dqht) := dqhtRemove dqht key
    some (.removed code value, dqht)
  | popFront =>
    let (value, dqht) := dqhtPopFront dqht
    some (.value value, dqht)
  | popLast =>
    let (value, dqht) := dqhtPopLast dqht
    some (.value value, dqht)
  | get key => some (.value (dqhtGet dqht key), dqht)
  | getFront => some (.value (dqhtGetFront dqht), dqht)
  | getLast => some (.value (dqhtGetLast dqht), dqht)

/-- The operation on a double-ended list of pairs with distinct keys. -/
def onDeque (l : List (Key × V)) : DqhtOp V → DqhtReply V × List (Key × V)
  | insert key value => (.inserted 0 none, l ++ [(key, value)])
  | pushLast key value => (.inserted 0 none, l ++ [(key, value)])
  | pushFront key value => (.inserted 0 none, (key, value) :: l)
  | remove key =>
    match l.find? fun x => x.1 = key with
    | none => (.removed 1 none, l)
    | some x => (.removed 0 (some x.2), l.eraseP fun x => x.1 = key)
  | popFront => (.value (l.head?.map Prod.snd), l.tail)
  | popLast => (.value (l.getLast?.map Prod.snd), l.dropLast)
  | get key => (.value ((l.find? fun x => x.1 = key).map Prod.snd), l)
  | getFront => (.value (l.head?.map Prod.snd), l)
  | getLast => (.value (l.getLast?.map Prod.snd), l)

/-- The key of an insertion is not in the deque. -/
def Absent (l : List (Key × V)) : DqhtOp V → Prop
  | insert key _ | pushLast key _ | pushFront key _ => key ∉ l.map Prod.fst
  | _ => True

end DqhtOp

def dqhtRun (dqht : DequeueHashTable Key V) :
    List (DqhtOp V) → Option (List (DqhtReply V) × DequeueHashTable Key V)
  | [] => some ([], dqht)
  | op :: ops =>
    match op.run dqht with
    | none => none
    | some (reply, dqht) => (dqhtRun dqht ops).map fun (replies, dqht) => (reply :: replies, dqht)

def dequeRun (l : List (Key × V)) : List (DqhtOp V) → List (DqhtReply V) × List (Key × V)
  | [] => ([], l)
  | op :: ops =>
    let (reply, l) := op.onDeque l
    let (replies, l) := dequeRun l ops
    (reply :: replies, l)

def RunAbsent (l : List (Key × V)) : List (DqhtOp V) → Prop
  | [] => True
  | op :: ops => op.Absent l ∧ RunAbsent (op.onDeque l).2 ops

/-- The links and the slots of the table are those of the list `l`. -/
structure Mirrors (dqht : DequeueHashTable Key V) (l : List (Key × V)) : Prop where
  keys_nodup : (l.map Prod.fst).Nodup
  chains : ∃ order, Linked.Path dqht.next dqht.head order none ∧
    Linked.Path dqht.prev dqht.tail order.reverse none ∧ order.map dqht.pair = l.map some ∧
    ∀ a, a ∈ order ↔ ∃ i < dqht.ht.size, dqht.ht.items i = some a
  head_prev : ∀ a, dqht.head = some a → dqht.prev a = none
  tail_next : ∀ a, dqht.tail = some a → dqht.next a = none
  index : ∀ i a e, dqht.ht.items i = some a → dqht.ht.entries a = some e → e.index = i
  count : dqht.ht.count = l.length

namespace Represents

variable {dqht : DequeueHashTable Key V} {l : List (Key × V)}

theorem mirrors (h : Represents dqht l) : Mirrors dqht l := by
  obtain ⟨order, hl⟩ := h.holds
  refine ⟨h.keys_nodup, ⟨order, hl.linked.forward, hl.linked.backward, hl.contents, ?_⟩, ?_, ?_,
    hl.wf.indexed, h.count_eq⟩
  · intro a
    constructor
    · intro ha
      obtain ⟨e, he⟩ := hl.live ha
      have hslot := hl.wf.slot he
      exact ⟨e.index, hl.wf.bound _ a hslot, hslot⟩
    · rintro ⟨i, -, hi⟩
      exact hl.nodes a (hl.wf.live i a hi)
  · intro a ha
    have hhead := Linked.Dll.head_eq hl.linked
    rw [ha] at hhead
    obtain ⟨rest, rfl⟩ := List.head?_eq_some_iff.mp hhead.symm
    have hlinked : dqht.Linked ([] ++ a :: rest) := hl.linked
    exact Linked.Dll.prev_eq hlinked
  · intro a ha
    have htail := Linked.Dll.tail_eq hl.linked
    rw [ha] at htail
    obtain ⟨rest, rfl⟩ := List.getLast?_eq_some_iff.mp htail.symm
    exact Linked.Dll.next_eq hl.linked

theorem find_eq_none {key : Key} (hfind : l.find? (fun x => x.1 = key) = none) :
    key ∉ l.map Prod.fst := by
  intro hkey
  obtain ⟨x, hx, rfl⟩ := List.mem_map.mp hkey
  simpa using List.find?_eq_none.mp hfind x hx

/-- One operation of a run. -/
theorem step (h : Represents dqht l) {op : DqhtOp V} (absent : op.Absent l) :
    ∃ dqht', op.run dqht = some ((op.onDeque l).1, dqht') ∧
      Represents dqht' (op.onDeque l).2 := by
  cases op with
  | insert key value =>
    obtain ⟨r, hr, hcode, hover, hrep⟩ := h.insert absent value
    exact ⟨r.table, by simp [DqhtOp.run, DqhtOp.onDeque, hr, hcode, hover], hrep⟩
  | pushLast key value =>
    obtain ⟨r, hr, hcode, hover, hrep⟩ := h.insert absent value
    exact ⟨r.table, by simp [DqhtOp.run, DqhtOp.onDeque, dqhtPushLast, hr, hcode, hover], hrep⟩
  | pushFront key value =>
    obtain ⟨r, hr, hcode, hover, hrep⟩ := h.pushFront absent value
    exact ⟨r.table, by simp [DqhtOp.run, DqhtOp.onDeque, hr, hcode, hover], hrep⟩
  | remove key =>
    cases hfind : l.find? fun x => x.1 = key with
    | none =>
      refine ⟨dqht, ?_, ?_⟩
      · simp [DqhtOp.run, DqhtOp.onDeque, hfind, h.remove_absent (find_eq_none hfind)]
      · simpa [DqhtOp.onDeque, hfind] using h
    | some x =>
      obtain ⟨hx, before, after, rfl, hbefore⟩ := List.find?_eq_some_iff_append.mp hfind
      obtain ⟨key', value⟩ := x
      obtain rfl : key' = key := by simpa using hx
      obtain ⟨dqht', hremove, hrep⟩ := h.remove_mem
      have herase : (before ++ (key', value) :: after).eraseP (fun x => x.1 = key') =
          before ++ after := by
        rw [List.eraseP_append_right _ (by simpa using hbefore), List.eraseP_cons_of_pos (by simp)]
      refine ⟨dqht', ?_, ?_⟩
      · simp only [DqhtOp.run, DqhtOp.onDeque, hfind, hremove]
      · simpa only [DqhtOp.onDeque, hfind, herase] using hrep
  | popFront =>
    cases l with
    | nil => exact ⟨dqht, by simp [DqhtOp.run, DqhtOp.onDeque, h.popFront_nil], h⟩
    | cons x l =>
      obtain ⟨dqht', hpop, hrep⟩ := h.popFront
      exact ⟨dqht', by simp [DqhtOp.run, DqhtOp.onDeque, hpop], hrep⟩
  | popLast =>
    rcases List.eq_nil_or_concat l with rfl | ⟨l, x, rfl⟩
    · exact ⟨dqht, by simp [DqhtOp.run, DqhtOp.onDeque, h.popLast_nil], h⟩
    · rw [List.concat_eq_append] at h ⊢
      obtain ⟨dqht', hpop, hrep⟩ := h.popLast
      exact ⟨dqht', by simp [DqhtOp.run, DqhtOp.onDeque, hpop],
        by simpa [DqhtOp.onDeque] using hrep⟩
  | get key =>
    refine ⟨dqht, ?_, h⟩
    cases hfind : l.find? fun x => x.1 = key with
    | none => simp [DqhtOp.run, DqhtOp.onDeque, hfind, h.get_absent (find_eq_none hfind)]
    | some x =>
      have hx : x.1 = key := by simpa using List.find?_some hfind
      have hmem : (key, x.2) ∈ l := hx ▸ List.mem_of_find?_eq_some hfind
      simp [DqhtOp.run, DqhtOp.onDeque, hfind, h.get_of_mem hmem]
  | getFront => exact ⟨dqht, by simp [DqhtOp.run, DqhtOp.onDeque, h.getFront], h⟩
  | getLast => exact ⟨dqht, by simp [DqhtOp.run, DqhtOp.onDeque, h.getLast], h⟩

theorem run (h : Represents dqht l) {ops : List (DqhtOp V)} (absent : RunAbsent l ops) :
    ∃ dqht', dqhtRun dqht ops = some ((dequeRun l ops).1, dqht') ∧
      Represents dqht' (dequeRun l ops).2 := by
  induction ops generalizing dqht l with
  | nil => exact ⟨dqht, rfl, h⟩
  | cons op ops ih =>
    obtain ⟨dqht1, hrun, h1⟩ := h.step absent.1
    obtain ⟨dqht2, hrest, h2⟩ := ih h1 absent.2
    exact ⟨dqht2, by simp [dqhtRun, dequeRun, hrun, hrest], h2⟩

end Represents

end SearchCache
