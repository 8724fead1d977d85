import SearchCache.Cache.DqHashtable
import SearchCache.Cache.HashTableOperations
import SearchCache.Lib.Linked

/-! The deque that a `DequeueHashTable` holds: its entries, in the order of their links, as a list
of keys and values.  Each operation is described on this list, an insertion for an absent key. -/

namespace SearchCache

open Linked HashTable

variable {K V : Type}

namespace DequeueHashTable

/-- The key and the value of the entry at `a`. -/
def pair (dqht : DequeueHashTable K V) (a : Addr) : Option (K × V) :=
  (dqht.ht.entries a).map fun e => (e.key, e.ptr)

/-- `dqht'` is `dqht` with other links. -/
structure Relinked (dqht dqht' : DequeueHashTable K V) : Prop where
  keyComparator : dqht'.keyComparator = dqht.keyComparator
  ht : dqht'.ht = { dqht.ht with entries := dqht'.ht.entries }
  entries : ∀ a, (dqht'.ht.entries a).map (fun e => (e.key, e.ptr, e.index)) =
    (dqht.ht.entries a).map fun e => (e.key, e.ptr, e.index)

/-- `dqht'` compares keys as `dqht` does. -/
def SameComparators (dqht dqht' : DequeueHashTable K V) : Prop :=
  dqht'.keyComparator = dqht.keyComparator ∧ dqht'.ht.comparator = dqht.ht.comparator

variable {dqht dqht' dqht'' : DequeueHashTable K V} {a b : Addr}

theorem Relinked.sameComparators (h : Relinked dqht dqht') : SameComparators dqht dqht' :=
  ⟨h.keyComparator, by rw [h.ht]⟩

namespace Relinked

theorem refl (dqht : DequeueHashTable K V) : Relinked dqht dqht := ⟨rfl, rfl, fun _ => rfl⟩

theorem trans (h : Relinked dqht dqht') (h' : Relinked dqht' dqht'') : Relinked dqht dqht'' where
  keyComparator := h'.keyComparator.trans h.keyComparator
  ht := by rw [h'.ht, h.ht]
  entries a := (h'.entries a).trans (h.entries a)

theorem withEnds (h : Relinked dqht dqht') (head tail : Option Addr) :
    Relinked dqht { dqht' with head, tail } := ⟨h.keyComparator, h.ht, h.entries⟩

theorem modify (dqht : DequeueHashTable K V) (a : Addr) {f : DQHTEntry K V → DQHTEntry K V}
    (hf : ∀ e, ((f e).key, (f e).ptr, (f e).index) = (e.key, e.ptr, e.index)) :
    Relinked dqht (dqht.withEntries (dqht.ht.entries.modify a f)) where
  keyComparator := rfl
  ht := rfl
  entries b := by
    show (dqht.ht.entries.modify a f b).map _ = _
    rcases eq_or_ne b a with rfl | hne
    · rw [Entries.modify_self, Option.map_map]
      exact congrArg (fun g => (dqht.ht.entries b).map g) (funext hf)
    · rw [Entries.modify_of_ne _ _ hne]

theorem setNext (dqht : DequeueHashTable K V) (a : Addr) (next : Option Addr) :
    Relinked dqht (dqht.setNext a next) := modify dqht a fun _ => rfl

theorem setPrev (dqht : DequeueHashTable K V) (a : Addr) (prev : Option Addr) :
    Relinked dqht (dqht.setPrev a prev) := modify dqht a fun _ => rfl

theorem count_eq (h : Relinked dqht dqht') : dqht'.ht.count = dqht.ht.count := by rw [h.ht]

theorem wf (h : Relinked dqht dqht') (wf : dqht.ht.WF) : dqht'.ht.WF := by
  rw [h.ht]
  refine wf.withEntries fun a => ?_
  have := congrArg (Option.map fun x : K × V × Nat => (x.1, x.2.2)) (h.entries a)
  simpa [Function.comp_def] using this

theorem pair_eq (h : Relinked dqht dqht') (a : Addr) : dqht'.pair a = dqht.pair a := by
  have := congrArg (Option.map fun x : K × V × Nat => (x.1, x.2.1)) (h.entries a)
  simpa [pair, Function.comp_def] using this

/-- An entry under its new links. -/
theorem of_entry (h : Relinked dqht dqht') {e : DQHTEntry K V}
    (he : dqht.ht.entries a = some e) : ∃ f, dqht'.ht.entries a = some f ∧ f.key = e.key ∧
      f.ptr = e.ptr ∧ f.index = e.index := by
  have := h.entries a
  rw [he, Option.map_some] at this
  obtain ⟨f, hf, hfe⟩ := Option.map_eq_some_iff.mp this
  simp only [Prod.mk.injEq] at hfe
  exact ⟨f, hf, hfe⟩

end Relinked

/-! ### Changing links -/

theorem next_setNext {e : DQHTEntry K V} (he : dqht.ht.entries a = some e) (next : Option Addr) :
    (dqht.setNext a next).next = Function.update dqht.next a next := by
  funext b
  rcases eq_or_ne b a with rfl | hne
  · simp [DequeueHashTable.next, setNext, withEntries, Entries.modify_self, he]
  · simp [DequeueHashTable.next, setNext, withEntries, Entries.modify_of_ne _ _ hne, hne]

theorem prev_setNext (a : Addr) (next : Option Addr) :
    (dqht.setNext a next).prev = dqht.prev := by
  funext b
  rcases eq_or_ne b a with rfl | hne
  · cases he : dqht.ht.entries b <;>
      simp [DequeueHashTable.prev, setNext, withEntries, Entries.modify_self, he]
  · simp [DequeueHashTable.prev, setNext, withEntries, Entries.modify_of_ne _ _ hne]

theorem prev_setPrev {e : DQHTEntry K V} (he : dqht.ht.entries a = some e) (prev : Option Addr) :
    (dqht.setPrev a prev).prev = Function.update dqht.prev a prev := by
  funext b
  rcases eq_or_ne b a with rfl | hne
  · simp [DequeueHashTable.prev, setPrev, withEntries, Entries.modify_self, he]
  · simp [DequeueHashTable.prev, setPrev, withEntries, Entries.modify_of_ne _ _ hne, hne]

theorem next_setPrev (a : Addr) (prev : Option Addr) :
    (dqht.setPrev a prev).next = dqht.next := by
  funext b
  rcases eq_or_ne b a with rfl | hne
  · cases he : dqht.ht.entries b <;>
      simp [DequeueHashTable.next, setPrev, withEntries, Entries.modify_self, he]
  · simp [DequeueHashTable.next, setPrev, withEntries, Entries.modify_of_ne _ _ hne]

/-- An entry is in memory. -/
def Live (dqht : DequeueHashTable K V) (a : Addr) : Prop := ∃ e, dqht.ht.entries a = some e

theorem Relinked.live (h : Relinked dqht dqht') (live : dqht.Live a) : dqht'.Live a := by
  obtain ⟨e, he⟩ := live
  obtain ⟨f, hf, -⟩ := h.of_entry he
  exact ⟨f, hf⟩

/-! ### Unlinking -/

@[simp] theorem next_withEnds (compare : KeyComparator K V) (head tail : Option Addr) :
    DequeueHashTable.next ⟨compare, head, tail, dqht.ht⟩ = dqht.next := rfl

@[simp] theorem prev_withEnds (compare : KeyComparator K V) (head tail : Option Addr) :
    DequeueHashTable.prev ⟨compare, head, tail, dqht.ht⟩ = dqht.prev := rfl

theorem relinked_unlink (dqht : DequeueHashTable K V) (a : Addr) :
    Relinked dqht (dqhtUnlink dqht a) := by
  unfold dqhtUnlink
  cases dqht.prev a with
  | none =>
    have hhead := (Relinked.refl dqht).withEnds (dqht.next a) dqht.tail
    cases hn : dqht.next a with
    | none => exact (hn ▸ hhead).withEnds _ _
    | some n => exact (hn ▸ hhead).trans (Relinked.setPrev _ n none)
  | some p =>
    cases dqht.next a with
    | none => exact (Relinked.setNext dqht p none).withEnds _ _
    | some n => exact (Relinked.setNext dqht p (some n)).trans (Relinked.setPrev _ n (some p))

theorem next_unlink (live : ∀ b, dqht.prev a = some b → dqht.Live b) (b : Addr) :
    (dqhtUnlink dqht a).next b = if dqht.prev a = some b then dqht.next a else dqht.next b := by
  unfold dqhtUnlink
  cases hp : dqht.prev a with
  | none => cases dqht.next a <;> simp [next_setPrev]
  | some p =>
    obtain ⟨e, he⟩ := live p hp
    cases hn : dqht.next a <;>
      simp [next_setPrev, next_setNext he, Function.update_apply, eq_comm]

theorem prev_unlink (live : ∀ b, dqht.next a = some b → dqht.Live b) (b : Addr) :
    (dqhtUnlink dqht a).prev b = if dqht.next a = some b then dqht.prev a else dqht.prev b := by
  unfold dqhtUnlink
  cases hn : dqht.next a with
  | none => cases dqht.prev a <;> simp [prev_setNext]
  | some n =>
    cases hp : dqht.prev a with
    | none =>
      obtain ⟨e, he⟩ := live n hn
      let moved : DequeueHashTable K V := { dqht with head := some n }
      have hset := congrFun (prev_setPrev (show moved.ht.entries n = some e from he) none) b
      simpa [moved, Function.update_apply, eq_comm] using hset
    | some p =>
      obtain ⟨e, he⟩ := (Relinked.setNext dqht p (some n)).live (live n hn)
      simp [prev_setPrev he, Function.update_apply, prev_setNext, eq_comm]

theorem head_unlink : (dqhtUnlink dqht a).head =
    if dqht.prev a = none then dqht.next a else dqht.head := by
  unfold dqhtUnlink
  cases dqht.prev a <;> cases dqht.next a <;> rfl

theorem tail_unlink : (dqhtUnlink dqht a).tail =
    if dqht.next a = none then dqht.prev a else dqht.tail := by
  unfold dqhtUnlink
  cases dqht.prev a <;> cases dqht.next a <;> rfl

/-- The nodes `order` are linked into a deque. -/
def Linked (dqht : DequeueHashTable K V) (order : List Addr) : Prop :=
  Dll dqht.next dqht.prev dqht.head dqht.tail order

/-- `dqht_unlink` takes its entry out of the deque. -/
theorem Linked.unlink {before after : List Addr} (h : dqht.Linked (before ++ a :: after))
    (live : ∀ b ∈ before ++ a :: after, dqht.Live b) :
    (dqhtUnlink dqht a).Linked (before ++ after) := by
  have hnext : dqht.next a = after.head? := h.next_eq
  have hprev : dqht.prev a = before.getLast? := h.prev_eq
  have liveNext : ∀ b, dqht.next a = some b → dqht.Live b := by
    intro b hb
    have := List.mem_of_head? (hnext.symm.trans hb)
    exact live b (by simp [this])
  have livePrev : ∀ b, dqht.prev a = some b → dqht.Live b := by
    intro b hb
    have := List.mem_of_getLast? (hprev.symm.trans hb)
    exact live b (by simp [this])
  refine Dll.unlink h ?_ ?_ ?_ ?_ ?_ ?_
  · rw [head_unlink, hprev]
    simp
  · rw [tail_unlink, hnext]
    simp
  · intro y hy
    rw [next_unlink livePrev, hprev, if_pos hy]
  · intro y hy
    rw [prev_unlink liveNext, hnext, if_pos hy]
  · intro y _ hy
    rw [next_unlink livePrev, hprev, if_neg hy]
  · intro y _ hy
    rw [prev_unlink liveNext, hnext, if_neg hy]

/-! ### The contents -/

/-- The table holds the pairs `l`, in the nodes `order`. -/
structure Holds (dqht : DequeueHashTable K V) (order : List Addr) (l : List (K × V)) : Prop where
  wf : dqht.ht.WF
  linked : dqht.Linked order
  nodes : ∀ a, dqht.Live a → a ∈ order
  contents : order.map dqht.pair = l.map some

namespace Holds

variable {order before after : List Addr} {l l1 l2 : List (K × V)} {key : K} {value : V}

theorem pair_of_mem (h : Holds dqht order l) (ha : a ∈ order) : ∃ x ∈ l, dqht.pair a = some x := by
  have := List.mem_map_of_mem (f := dqht.pair) ha
  rw [h.contents] at this
  obtain ⟨x, hx, hxa⟩ := List.mem_map.mp this
  exact ⟨x, hx, hxa.symm⟩

theorem live (h : Holds dqht order l) (ha : a ∈ order) : dqht.Live a := by
  obtain ⟨x, -, hx⟩ := h.pair_of_mem ha
  obtain ⟨e, he, -⟩ := Option.map_eq_some_iff.mp hx
  exact ⟨e, he⟩

theorem mem_iff (h : Holds dqht order l) :
    (key, value) ∈ l ↔ ∃ a e, dqht.ht.Has key a e ∧ e.ptr = value := by
  constructor
  · intro hx
    have : some (key, value) ∈ order.map dqht.pair := by
      rw [h.contents]
      exact List.mem_map_of_mem hx
    obtain ⟨a, -, ha⟩ := List.mem_map.mp this
    obtain ⟨e, he, hex⟩ := Option.map_eq_some_iff.mp ha
    cases hex
    exact ⟨a, e, ⟨he, rfl⟩, rfl⟩
  · rintro ⟨a, e, ⟨he, rfl⟩, rfl⟩
    obtain ⟨x, hx, hxa⟩ := h.pair_of_mem (h.nodes a ⟨e, he⟩)
    rw [pair, he, Option.map_some, Option.some_inj] at hxa
    rwa [hxa]

theorem absent (h : Holds dqht order l) (hkey : key ∉ l.map Prod.fst) :
    ∀ a e, ¬dqht.ht.Has key a e := by
  intro a e has
  exact hkey (List.mem_map.mpr ⟨_, h.mem_iff.mpr ⟨a, e, has, rfl⟩, rfl⟩)

theorem keys_nodup (h : Holds dqht order l) : (l.map Prod.fst).Nodup := by
  have hmap : (l.map Prod.fst).map some = order.map fun a => (dqht.pair a).map Prod.fst := by
    have := congrArg (List.map (Option.map Prod.fst)) h.contents
    simpa [Function.comp_def] using this.symm
  apply List.Nodup.of_map some
  rw [hmap]
  refine List.Nodup.map_on ?_ h.linked.nodup
  intro a ha b hb hab
  obtain ⟨e, he⟩ := h.live ha
  obtain ⟨f, hf⟩ := h.live hb
  simp only [pair, he, hf, Option.map_some, Option.some_inj] at hab
  exact h.wf.distinct a b e f he hf hab

theorem count_eq (h : Holds dqht order l) : dqht.ht.count = l.length := by
  classical
  have hlength : order.length = l.length := by simpa using congrArg List.length h.contents
  have himage : (Slots.occupied dqht.ht.items dqht.ht.size).image dqht.ht.items =
      order.toFinset.image some := by
    ext o
    simp only [Finset.mem_image, Slots.mem_occupied, List.mem_toFinset]
    constructor
    · rintro ⟨i, ⟨-, a, ha⟩, rfl⟩
      exact ⟨a, h.nodes a (h.wf.live i a ha), ha.symm⟩
    · rintro ⟨a, ha, rfl⟩
      obtain ⟨e, he⟩ := h.live ha
      have hslot := h.wf.slot he
      exact ⟨e.index, ⟨h.wf.bound _ a hslot, a, hslot⟩, hslot⟩
  have hinj : Set.InjOn dqht.ht.items (Slots.occupied dqht.ht.items dqht.ht.size) := by
    intro i hi j _ hij
    obtain ⟨-, a, ha⟩ := Slots.mem_occupied.mp (Finset.mem_coe.mp hi)
    exact h.wf.inj i j a ha (hij ▸ ha)
  rw [h.wf.count_eq, ← Finset.card_image_of_injOn hinj, himage,
    Finset.card_image_of_injective _ (Option.some_injective _),
    List.toFinset_card_of_nodup h.linked.nodup, hlength]

/-- The nodes are among the addresses that allocations have returned. -/
theorem length_le (h : Holds dqht order l) : order.length ≤ dqht.ht.fresh := by
  rw [← List.toFinset_card_of_nodup h.linked.nodup, ← Finset.card_range dqht.ht.fresh]
  refine Finset.card_le_card fun a ha => ?_
  obtain ⟨e, he⟩ := h.live (List.mem_toFinset.mp ha)
  exact Finset.mem_range.mpr (h.wf.fresh a e he)

/-- The listing of a path ends when there is enough fuel for its entries. -/
theorem listingEnds_of_path {next : Addr → Option Addr} {order : List Addr} {p : Option Addr}
    {n : Nat} (h : Linked.Path next p order none) (hn : order.length ≤ n) :
    listingEnds next n p = true := by
  induction order generalizing p n with
  | nil =>
    obtain rfl : p = none := h
    cases n <;> rfl
  | cons a order ih =>
    obtain ⟨rfl, hpath⟩ := h
    obtain ⟨m, rfl⟩ : ∃ m, n = m + 1 := ⟨n - 1, by simp at hn; omega⟩
    rw [listingEnds]
    exact ih hpath (by simpa using hn)

theorem printTable (h : Holds dqht order l) : dqhtPrintTable dqht = some () := by
  rw [dqhtPrintTable, if_pos (listingEnds_of_path h.linked.forward h.length_le)]

/-- The node of a pair in the middle of the list. -/
theorem split (h : Holds dqht order (l1 ++ (key, value) :: l2)) :
    ∃ before a after, order = before ++ a :: after ∧ before.map dqht.pair = l1.map some ∧
      dqht.pair a = some (key, value) ∧ after.map dqht.pair = l2.map some := by
  have hc := h.contents
  rw [List.map_append, List.map_eq_append_iff] at hc
  obtain ⟨before, rest, rfl, hbefore, hrest⟩ := hc
  rw [List.map_cons, List.map_eq_cons_iff] at hrest
  obtain ⟨a, after, rfl, ha, hafter⟩ := hrest
  exact ⟨before, a, after, rfl, hbefore, ha, hafter⟩

/-- Unlinking a node and deleting its entry takes its pair out of the list. -/
theorem delete (h : Holds dqht (before ++ a :: after) (l1 ++ (key, value) :: l2))
    (hbefore : before.map dqht.pair = l1.map some) (ha : dqht.pair a = some (key, value))
    (hafter : after.map dqht.pair = l2.map some) :
    ∃ e ht, (dqhtUnlink dqht a).ht.entries a = some e ∧ dqht.ht.items e.index = some a ∧
      htDeleteEntry (dqhtUnlink dqht a).ht e.index = (some value, ht) ∧
      SameComparators dqht ⟨(dqhtUnlink dqht a).keyComparator, (dqhtUnlink dqht a).head,
        (dqhtUnlink dqht a).tail, ht⟩ ∧
      Holds ⟨(dqhtUnlink dqht a).keyComparator, (dqhtUnlink dqht a).head,
        (dqhtUnlink dqht a).tail, ht⟩ (before ++ after) (l1 ++ l2) := by
  have hr := relinked_unlink dqht a
  have hlinked := h.linked.unlink fun b hb => h.live hb
  have hnodup := h.linked.nodup
  obtain ⟨e, he, hpair⟩ := Option.map_eq_some_iff.mp ha
  cases hpair
  obtain ⟨f, hf, -, hptr, hindex⟩ := hr.of_entry he
  obtain ⟨heq, hwf⟩ := htDeleteEntry_wf (hr.wf h.wf) hf
  have hother : ∀ b ∈ before ++ after, b ≠ a := by
    rintro b hb rfl
    exact (List.nodup_cons.mp (List.nodup_middle.mp hnodup)).1 hb
  rw [heq] at hwf
  refine ⟨f, _, hf, hindex ▸ h.wf.slot he, by rw [heq, hptr], ?_, hwf, ?_, ?_, ?_⟩
  · exact ⟨hr.keyComparator, hr.sameComparators.2⟩
  · refine Dll.congr hlinked ?_ ?_
    · intro b hb
      simp [DequeueHashTable.next, Function.update_of_ne (hother b hb)]
    · intro b hb
      simp [DequeueHashTable.prev, Function.update_of_ne (hother b hb)]
  · rintro b ⟨g, hg⟩
    simp only [Function.update_apply] at hg
    split at hg
    · simp at hg
    · rename_i hne
      have := h.nodes b (by
        have hsame := hr.entries b
        rw [hg, Option.map_some] at hsame
        obtain ⟨k, hk, -⟩ := Option.map_eq_some_iff.mp hsame.symm
        exact ⟨k, hk⟩)
      simp only [List.mem_append, List.mem_cons] at this ⊢
      tauto
  · rw [List.map_append, List.map_append, ← hbefore, ← hafter, ← List.map_append,
      ← List.map_append]
    refine List.map_congr_left fun b hb => ?_
    rw [← hr.pair_eq b]
    simp [pair, Function.update_of_ne (hother b hb)]

theorem popFront (h : Holds dqht order ((key, value) :: l)) :
    ∃ dqht' order', dqhtPopFront dqht = (some value, dqht') ∧ SameComparators dqht dqht' ∧
      Holds dqht' order' l := by
  have h' : Holds dqht order ([] ++ (key, value) :: l) := h
  obtain ⟨before, a, after, rfl, hbefore, ha, hafter⟩ := h'.split
  obtain ⟨e, ht, he, -, hdelete, hsame, hholds⟩ := h'.delete hbefore ha hafter
  obtain rfl : before = [] := by simpa using hbefore
  have hhead : dqht.head = some a := Dll.head_eq h'.linked
  refine ⟨_, _, ?_, hsame, hholds⟩
  simp only [dqhtPopFront, hhead, dqhtPop, he, hdelete]

theorem popLast (h : Holds dqht order (l ++ [(key, value)])) :
    ∃ dqht' order', dqhtPopLast dqht = (some value, dqht') ∧ SameComparators dqht dqht' ∧
      Holds dqht' order' l := by
  obtain ⟨before, a, after, rfl, hbefore, ha, hafter⟩ := h.split
  obtain ⟨e, ht, he, -, hdelete, hsame, hholds⟩ := h.delete hbefore ha hafter
  obtain rfl : after = [] := by simpa using hafter
  have htail : dqht.tail = some a := by
    rw [Dll.tail_eq h.linked, List.getLast?_concat]
  refine ⟨_, _, ?_, hsame, by simpa using hholds⟩
  simp only [dqhtPopLast, htail, dqhtPop, he, hdelete]

theorem popFront_nil (h : Holds dqht order []) : dqhtPopFront dqht = (none, dqht) := by
  have hhead := Dll.head_eq h.linked
  rw [List.map_eq_nil_iff.mp h.contents] at hhead
  simp only [dqhtPopFront, dqhtPop, hhead, List.head?_nil]

theorem popLast_nil (h : Holds dqht order []) : dqhtPopLast dqht = (none, dqht) := by
  have htail := Dll.tail_eq h.linked
  rw [List.map_eq_nil_iff.mp h.contents] at htail
  simp only [dqhtPopLast, dqhtPop, htail, List.getLast?_nil]

/-- `dqht_remove` where the scan finds the entry of a pair. -/
theorem remove [TableKey K] {key' : K} (h : Holds dqht order (l1 ++ (key, value) :: l2))
    (found : ∀ a e, dqht.ht.Has key a e →
      htLookup dqht.ht dqht.keyComparator key' = some (e.index, a)) :
    ∃ dqht' order', dqhtRemove dqht key' = (0, some value, dqht') ∧ SameComparators dqht dqht' ∧
      Holds dqht' order' (l1 ++ l2) := by
  obtain ⟨before, a, after, rfl, hbefore, ha, hafter⟩ := h.split
  obtain ⟨e, ht, -, hslot, hdelete, hsame, hholds⟩ := h.delete hbefore ha hafter
  obtain ⟨f, hf, hpair⟩ := Option.map_eq_some_iff.mp ha
  cases hpair
  have hlookup := found a f ⟨hf, rfl⟩
  rw [h.wf.indexed _ a f hslot hf] at hlookup
  refine ⟨_, _, ?_, hsame, hholds⟩
  simp only [dqhtRemove, hlookup, hdelete]

/-- A resize does not change what the table holds. -/
theorem moved {ht' : HashTable K V} (h : Holds dqht order l) (hm : Moved dqht.ht ht') :
    Holds { dqht with ht := ht' } order l := by
  have hnext : DequeueHashTable.next { dqht with ht := ht' } = dqht.next := by
    funext b
    obtain ⟨i, hi⟩ := hm.same b
    simp only [DequeueHashTable.next, hi]
    cases dqht.ht.entries b <;> rfl
  have hprev : DequeueHashTable.prev { dqht with ht := ht' } = dqht.prev := by
    funext b
    obtain ⟨i, hi⟩ := hm.same b
    simp only [DequeueHashTable.prev, hi]
    cases dqht.ht.entries b <;> rfl
  have hpair : DequeueHashTable.pair { dqht with ht := ht' } = dqht.pair := by
    funext b
    obtain ⟨i, hi⟩ := hm.same b
    simp only [pair, hi]
    cases dqht.ht.entries b <;> rfl
  refine ⟨hm.wf, ?_, ?_, ?_⟩
  · rw [Linked, hnext, hprev]
    exact h.linked
  · rintro b ⟨e, he⟩
    obtain ⟨f, hf, -⟩ := hm.of_entry he
    exact h.nodes b ⟨f, hf⟩
  · rw [hpair, h.contents]

/-- A new entry, linked at one end, adds its pair at that end. -/
theorem create (h : Holds dqht order l) {index : Nat}
    (wf : (htCreateAt dqht.ht index key value).WF) {order' : List Addr} {l' : List (K × V)}
    (hr : Relinked { dqht with ht := htCreateAt dqht.ht index key value } dqht')
    (linked : dqht'.Linked order') (nodes : ∀ b, b ∈ order' ↔ b = dqht.ht.fresh ∨ b ∈ order)
    (contents : ∀ f : Addr → Option (K × V), f dqht.ht.fresh = some (key, value) →
      order.map f = l.map some → order'.map f = l'.map some) : Holds dqht' order' l' := by
  have hfresh : ∀ b ∈ order, b ≠ dqht.ht.fresh := by
    rintro b hb rfl
    obtain ⟨e, he⟩ := h.live hb
    exact Nat.lt_irrefl _ (h.wf.fresh _ e he)
  refine ⟨hr.wf wf, linked, ?_, ?_⟩
  · rintro b ⟨f, hf⟩
    have hsame := hr.entries b
    rw [hf, Option.map_some] at hsame
    obtain ⟨e, he, -⟩ := Option.map_eq_some_iff.mp hsame.symm
    simp only [htCreateAt, Function.update_apply] at he
    split at he
    · exact (nodes b).mpr (.inl (by assumption))
    · exact (nodes b).mpr (.inr (h.nodes b ⟨e, he⟩))
  · refine contents _ ?_ ?_
    · rw [hr.pair_eq]
      simp [pair, htCreateAt, dqhtentryCreate]
    · rw [← h.contents]
      refine List.map_congr_left fun b hb => ?_
      rw [hr.pair_eq]
      simp [pair, htCreateAt, Function.update_of_ne (hfresh b hb)]

end Holds

/-! ### Linking -/

theorem relinked_linkLast (dqht : DequeueHashTable K V) (a : Addr) :
    Relinked dqht (dqhtLinkLast dqht a) := by
  unfold dqhtLinkLast
  cases dqht.tail with
  | none => exact (Relinked.refl dqht).withEnds _ _
  | some tail =>
    exact ((Relinked.setNext dqht tail _).trans (Relinked.setPrev _ a _)).withEnds _ _

theorem relinked_linkFirst (dqht : DequeueHashTable K V) (a : Addr) :
    Relinked dqht (dqhtLinkFirst dqht a) := by
  unfold dqhtLinkFirst
  cases dqht.head with
  | none => exact (Relinked.refl dqht).withEnds _ _
  | some head =>
    exact ((Relinked.setPrev dqht head _).trans (Relinked.setNext _ a _)).withEnds _ _

/-- An entry without a next one, linked behind the tail. -/
theorem Linked.linkLast {order : List Addr} (h : dqht.Linked order) (ha : a ∉ order)
    (live : ∀ b, b = a ∨ b ∈ order → dqht.Live b) (hnext : dqht.next a = none)
    (hprev : order = [] → dqht.prev a = none) : (dqhtLinkLast dqht a).Linked (order ++ [a]) := by
  have htail := Dll.tail_eq h
  have hne : ∀ b ∈ order, b ≠ a := fun b hb hba => ha (hba ▸ hb)
  unfold dqhtLinkLast
  cases ht : dqht.tail with
  | none =>
    have horder : order = [] := by simpa [ht] using htail.symm
    subst horder
    exact Dll.pushBack h (by simp) (by simp) hnext (by simpa [ht] using hprev rfl) (by simp)
      (by simp)
  | some tail =>
    have hlast : order.getLast? = some tail := htail ▸ ht
    have hmem : tail ∈ order := List.mem_of_getLast? hlast
    obtain ⟨e, he⟩ := live tail (.inr hmem)
    obtain ⟨f, hf⟩ := (Relinked.setNext dqht tail (some a)).live (live a (.inl rfl))
    refine Dll.pushBack h ?_ ?_ ?_ ?_ ?_ ?_
    · rw [if_neg (by rintro rfl; simp at hmem)]
      rfl
    · intro y hy
      obtain rfl : y = tail := by simpa [hlast] using hy.symm
      simp [next_setPrev, next_setNext he]
    · simp [next_setPrev, next_setNext he, Function.update_of_ne (hne tail hmem).symm, hnext]
    · simp [prev_setPrev hf, ht]
    · intro y hy hy'
      have : y ≠ tail := fun hyt => hy' (hyt ▸ hlast)
      simp [next_setPrev, next_setNext he, Function.update_of_ne this]
    · intro y hy
      simp [prev_setPrev hf, prev_setNext, Function.update_of_ne (hne y hy)]

/-- An entry without a previous one, linked before the head. -/
theorem Linked.linkFirst {order : List Addr} (h : dqht.Linked order) (ha : a ∉ order)
    (live : ∀ b, b = a ∨ b ∈ order → dqht.Live b) (hprev : dqht.prev a = none)
    (hnext : order = [] → dqht.next a = none) : (dqhtLinkFirst dqht a).Linked (a :: order) := by
  have hhead := Dll.head_eq h
  have hne : ∀ b ∈ order, b ≠ a := fun b hb hba => ha (hba ▸ hb)
  unfold dqhtLinkFirst
  cases ht : dqht.head with
  | none =>
    have horder : order = [] := by simpa [ht] using hhead.symm
    subst horder
    exact Dll.pushFront h (by simp) (by simp) hprev (by simpa [ht] using hnext rfl) (by simp)
      (by simp)
  | some head =>
    have hfirst : order.head? = some head := hhead ▸ ht
    have hmem : head ∈ order := List.mem_of_head? hfirst
    obtain ⟨e, he⟩ := live head (.inr hmem)
    obtain ⟨f, hf⟩ := (Relinked.setPrev dqht head (some a)).live (live a (.inl rfl))
    refine Dll.pushFront h ?_ ?_ ?_ ?_ ?_ ?_
    · rw [if_neg (by rintro rfl; simp at hmem)]
      rfl
    · intro y hy
      obtain rfl : y = head := by simpa [hfirst] using hy.symm
      simp [prev_setNext, prev_setPrev he]
    · simp [prev_setNext, prev_setPrev he, Function.update_of_ne (hne head hmem).symm, hprev]
    · simp [next_setNext hf, ht]
    · intro y hy hy'
      have : y ≠ head := fun hyt => hy' (hyt ▸ hfirst)
      simp [prev_setNext, prev_setPrev he, Function.update_of_ne this]
    · intro y hy
      simp [next_setNext hf, next_setPrev, Function.update_of_ne (hne y hy)]

end DequeueHashTable

end SearchCache
