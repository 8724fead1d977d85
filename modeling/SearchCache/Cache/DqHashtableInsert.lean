import SearchCache.Cache.DqHashtableInvariant

/-! Insertions at the two ends of the deque, for keys that it does not have and for keys that it has.
For a key that it has, `dqht_unlink` leaves the links of the entry as they were, and linking the entry
at one end sets only the link that leads inwards: the other one has to be NULL already, as it is for
an entry that stands at that end. -/

namespace SearchCache

open Linked DequeueHashTable HashTable Slots

variable {K V : Type}

namespace DequeueHashTable

variable {dqht dqht' : DequeueHashTable K V} {order before after : List Addr} {a : Addr}
  {l l1 l2 : List (K × V)} {key : K} {old value : V}

/-! ### A new entry -/

/-- The entry that an insertion creates, before it is linked. -/
theorem Holds.created (h : Holds dqht order l) (key : K) (value : V) (index : Nat) :
    let dqht' := { dqht with ht := htCreateAt dqht.ht index key value }
    dqht'.Linked order ∧ dqht.ht.fresh ∉ order ∧
      (∀ b, b = dqht.ht.fresh ∨ b ∈ order → dqht'.Live b) ∧
      dqht'.next dqht.ht.fresh = none ∧ dqht'.prev dqht.ht.fresh = none := by
  have hfresh : dqht.ht.fresh ∉ order := by
    intro hb
    obtain ⟨e, he⟩ := h.live hb
    exact Nat.lt_irrefl _ (h.wf.fresh _ e he)
  have hne : ∀ b ∈ order, b ≠ dqht.ht.fresh := fun b hb hba => hfresh (hba ▸ hb)
  refine ⟨Dll.congr h.linked ?_ ?_, hfresh, ?_, ?_, ?_⟩
  · intro b hb
    simp [DequeueHashTable.next, htCreateAt, Function.update_of_ne (hne b hb)]
  · intro b hb
    simp [DequeueHashTable.prev, htCreateAt, Function.update_of_ne (hne b hb)]
  · rintro b (rfl | hb)
    · exact ⟨_, Function.update_self _ _ _⟩
    · obtain ⟨e, he⟩ := h.live hb
      exact ⟨e, (Function.update_of_ne (hne b hb) _ _).trans he⟩
  · simp [DequeueHashTable.next, htCreateAt, dqhtentryCreate]
  · simp [DequeueHashTable.prev, htCreateAt, dqhtentryCreate]

theorem Relinked.reaching [TableKey K] (h : Relinked dqht dqht') (reaching : dqht.ht.Reaching) :
    dqht'.ht.Reaching := by
  intro i a e hi he
  have hsame := h.entries a
  rw [he, Option.map_some] at hsame
  obtain ⟨f, hf, hfe⟩ := Option.map_eq_some_iff.mp hsame.symm
  rw [h.ht] at hi ⊢
  have := reaching i a f hi hf
  rw [show f.key = e.key from congrArg Prod.fst hfe] at this
  exact this

section Absent

variable [TableKey K] [EquivTableKey K]

/-- `ht_insert` of a key to which no key compares equal, in the table as it is or resized. -/
theorem Holds.htInsert (h : Holds dqht order l) (separated : dqht.ht.Separated)
    (foreign : ∀ x ∈ l, TableKey.cmp key x.1 ≠ 0) (value : V) :
    ∃ ht index, htInsert {} dqht.ht key (some value) = some {
        code := 0, table := htCreateAt ht index key value, entryAtIndex := some ht.fresh
        overridden := none } ∧
      (htCreateAt ht index key value).WF ∧ ht.comparator = dqht.ht.comparator ∧
      Holds { dqht with ht } order l ∧
      (dqht.ht.Reaching → (htCreateAt ht index key value).Reaching) := by
  obtain ⟨ht, heq, hmoved, hroom, hresized⟩ := htInsert_eq {} h.wf separated (fun _ => rfl) key value
  have hholds := h.moved hmoved
  have hforeign : ∀ a e, ht.entries a = some e → TableKey.cmp key e.key ≠ 0 := fun a e he =>
    foreign (e.key, e.ptr) (hholds.mem_iff.mpr ⟨a, e, ⟨he, rfl⟩, rfl⟩)
  have habsent : ∀ a e, ¬ht.Has key a e := by
    rintro a e ⟨he, rfl⟩
    exact hforeign a e he (EquivTableKey.equivalence.refl _)
  obtain ⟨index, hwf, hreach, hslot⟩ :=
    htInsertSlot_absent {} rfl hmoved.wf value hroom habsent hforeign
  refine ⟨ht, index, by rw [heq, hslot], hwf, hmoved.comparator_eq, hholds, fun reaching => ?_⟩
  have hreaching : ht.Reaching := by
    rcases hresized with ⟨rfl, -⟩ | hresized
    · exact reaching
    · exact hresized.reach
  exact htCreateAt_reaching hmoved.wf hreaching value hreach

theorem Holds.insert (h : Holds dqht order l) (separated : dqht.ht.Separated)
    (foreign : ∀ x ∈ l, TableKey.cmp key x.1 ≠ 0) (value : V) :
    ∃ r, dqhtInsert {} dqht key (some value) = some r ∧ r.code = 0 ∧ r.overridden = none ∧
      SameComparators dqht r.table ∧
      (∃ order', Holds r.table order' (l ++ [(key, value)])) ∧
      (dqht.ht.Reaching → r.table.ht.Reaching) := by
  obtain ⟨ht, index, heq, hwf, hcomparator, hht, hreaching⟩ := h.htInsert separated foreign value
  obtain ⟨hlinked, hfresh, hlive, hnext, hprev⟩ := hht.created key value index
  have hr := relinked_linkLast { dqht with ht := htCreateAt ht index key value } ht.fresh
  have hholds : Holds _ _ (l ++ [(key, value)]) :=
    hht.create hwf hr (hlinked.linkLast hfresh hlive hnext fun _ => hprev)
      (fun b => by simp [or_comm]) (fun f ha ho => by simp [ha, ho])
  refine ⟨⟨0, dqhtLinkLast { dqht with ht := htCreateAt ht index key value } ht.fresh, none⟩, ?_,
    rfl, rfl, ⟨hr.keyComparator, (congrArg HashTable.comparator hr.ht).trans hcomparator⟩,
    ⟨_, hholds⟩, fun reaching => hr.reaching (hreaching reaching)⟩
  have hprint := hholds.printTable
  simp only [dqhtInsert, dqhtInsertWith, heq, Option.bind_some]
  rw [if_neg (by decide), if_neg (by decide), hprint, Option.map_some]

theorem Holds.pushFront (h : Holds dqht order l) (separated : dqht.ht.Separated)
    (foreign : ∀ x ∈ l, TableKey.cmp key x.1 ≠ 0) (value : V) :
    ∃ r, dqhtPushFront {} dqht key (some value) = some r ∧ r.code = 0 ∧ r.overridden = none ∧
      SameComparators dqht r.table ∧
      (∃ order', Holds r.table order' ((key, value) :: l)) ∧
      (dqht.ht.Reaching → r.table.ht.Reaching) := by
  obtain ⟨ht, index, heq, hwf, hcomparator, hht, hreaching⟩ := h.htInsert separated foreign value
  obtain ⟨hlinked, hfresh, hlive, hnext, hprev⟩ := hht.created key value index
  have hr := relinked_linkFirst { dqht with ht := htCreateAt ht index key value } ht.fresh
  have hholds : Holds _ _ ((key, value) :: l) :=
    hht.create hwf hr (hlinked.linkFirst hfresh hlive hprev fun _ => hnext) (fun b => by simp)
      (fun f ha ho => by simp [ha, ho])
  refine ⟨⟨0, dqhtLinkFirst { dqht with ht := htCreateAt ht index key value } ht.fresh, none⟩, ?_,
    rfl, rfl, ⟨hr.keyComparator, (congrArg HashTable.comparator hr.ht).trans hcomparator⟩,
    ⟨_, hholds⟩, fun reaching => hr.reaching (hreaching reaching)⟩
  have hprint := hholds.printTable
  simp only [dqhtPushFront, dqhtInsertWith, heq, Option.bind_some]
  rw [if_neg (by decide), if_neg (by decide), hprint, Option.map_some]

end Absent

/-! ### Changing an entry in place -/

theorem Holds.relinked (h : Holds dqht order l) (hr : Relinked dqht dqht')
    (linked : dqht'.Linked order) : Holds dqht' order l where
  wf := hr.wf h.wf
  linked := linked
  nodes b hb := by
    obtain ⟨f, hf⟩ := hb
    have hsame := hr.entries b
    rw [hf, Option.map_some] at hsame
    obtain ⟨e, he, -⟩ := Option.map_eq_some_iff.mp hsame.symm
    exact h.nodes b ⟨e, he⟩
  contents := by
    rw [← h.contents]
    exact List.map_congr_left fun b _ => hr.pair_eq b

theorem next_modifyPtr (dqht : DequeueHashTable K V) (a : Addr) (value : V) (b : Addr) :
    (dqht.withEntries (dqht.ht.entries.modify a fun e => { e with ptr := value })).next b =
      dqht.next b := by
  rcases eq_or_ne b a with rfl | hne
  · simp only [DequeueHashTable.next, withEntries, Entries.modify_self]
    cases dqht.ht.entries b <;> rfl
  · simp only [DequeueHashTable.next, withEntries, Entries.modify_of_ne _ _ hne]

theorem prev_modifyPtr (dqht : DequeueHashTable K V) (a : Addr) (value : V) (b : Addr) :
    (dqht.withEntries (dqht.ht.entries.modify a fun e => { e with ptr := value })).prev b =
      dqht.prev b := by
  rcases eq_or_ne b a with rfl | hne
  · simp only [DequeueHashTable.prev, withEntries, Entries.modify_self]
    cases dqht.ht.entries b <;> rfl
  · simp only [DequeueHashTable.prev, withEntries, Entries.modify_of_ne _ _ hne]

theorem Holds.modifyPtr (h : Holds dqht (before ++ a :: after) (l1 ++ (key, old) :: l2))
    (hbefore : before.map dqht.pair = l1.map some) (ha : dqht.pair a = some (key, old))
    (hafter : after.map dqht.pair = l2.map some) (value : V) :
    Holds (dqht.withEntries (dqht.ht.entries.modify a fun e => { e with ptr := value }))
      (before ++ a :: after) (l1 ++ (key, value) :: l2) := by
  have hother : ∀ b, b ≠ a →
      (dqht.withEntries (dqht.ht.entries.modify a fun e => { e with ptr := value })).pair b =
        dqht.pair b := by
    intro b hb
    simp only [pair, withEntries, Entries.modify_of_ne _ _ hb]
  have hnodup := List.nodup_cons.mp (List.nodup_middle.mp h.linked.nodup)
  have hne : ∀ b ∈ before ++ after, b ≠ a := fun b hb hba => hnodup.1 (hba ▸ hb)
  refine ⟨h.wf.modify a (fun _ => rfl) fun _ => rfl, ?_, ?_, ?_⟩
  · exact Dll.congr h.linked (fun b _ => next_modifyPtr dqht a value b)
      fun b _ => prev_modifyPtr dqht a value b
  · rintro b ⟨f, hf⟩
    refine h.nodes b ?_
    rcases eq_or_ne b a with rfl | hba
    · obtain ⟨e, he, -⟩ := Option.map_eq_some_iff.mp ha
      exact ⟨e, he⟩
    · exact ⟨f, (Entries.modify_of_ne dqht.ht.entries _ hba).symm.trans hf⟩
  · rw [List.map_append, List.map_cons, List.map_append, List.map_cons, ← hbefore, ← hafter]
    obtain ⟨e, he, hpair⟩ := Option.map_eq_some_iff.mp ha
    cases hpair
    congr 1
    · exact List.map_congr_left fun b hb => hother b (hne b (by simp [hb]))
    · congr 1
      · simp [pair, withEntries, Entries.modify_self, he]
      · exact List.map_congr_left fun b hb => hother b (hne b (by simp [hb]))

/-! ### An entry at its end of the deque -/

/-- The last entry, unlinked and linked again. -/
theorem Holds.relinkLast (h : Holds dqht (before ++ [a]) l) :
    Holds (dqhtLinkLast (dqhtUnlink dqht a) a) (before ++ [a]) l := by
  have hr := (relinked_unlink dqht a).trans (relinked_linkLast (dqhtUnlink dqht a) a)
  refine h.relinked hr ?_
  have hunlinked := h.linked.unlink fun b hb => h.live hb
  rw [List.append_nil] at hunlinked
  have hnext : dqht.next a = none := Dll.next_eq h.linked
  have hprev : dqht.prev a = before.getLast? := Dll.prev_eq h.linked
  have hfresh : a ∉ before := by
    have := h.linked.nodup
    simp only [List.nodup_append, List.mem_singleton] at this
    exact fun hb => this.2.2 a hb a rfl rfl
  have hlive : ∀ b, dqht.prev a = some b → dqht.Live b := fun b hb =>
    h.live (by simp [List.mem_of_getLast? (hprev.symm.trans hb)])
  refine hunlinked.linkLast hfresh ?_ ?_ ?_
  · intro b hb
    refine (relinked_unlink dqht a).live (h.live ?_)
    simpa [or_comm] using hb
  · rw [next_unlink hlive, hnext, ite_self]
  · rintro rfl
    rw [prev_unlink (by simp [hnext]), hnext, if_neg (by simp), hprev]
    rfl

/-- The first entry, unlinked and linked again. -/
theorem Holds.relinkFirst (h : Holds dqht (a :: after) l) :
    Holds (dqhtLinkFirst (dqhtUnlink dqht a) a) (a :: after) l := by
  have hr := (relinked_unlink dqht a).trans (relinked_linkFirst (dqhtUnlink dqht a) a)
  refine h.relinked hr ?_
  have hlinked : dqht.Linked ([] ++ a :: after) := h.linked
  have hunlinked := hlinked.unlink fun b hb => h.live hb
  have hnext : dqht.next a = after.head? := Dll.next_eq hlinked
  have hprev : dqht.prev a = none := Dll.prev_eq hlinked
  have hlive : ∀ b, dqht.next a = some b → dqht.Live b := fun b hb =>
    h.live (by simp [List.mem_of_head? (hnext.symm.trans hb)])
  refine Linked.linkFirst hunlinked (List.nodup_cons.mp h.linked.nodup).1 ?_ ?_ ?_
  · intro b hb
    exact (relinked_unlink dqht a).live (h.live (by simpa using hb))
  · rw [prev_unlink hlive, hprev, ite_self]
  · rintro rfl
    rw [next_unlink (by simp [hprev]), hprev, if_neg (by simp), hnext]
    rfl

/-! ### An entry that is not at its end -/

/-- In a set of nodes that the links do not leave, the listing does not end. -/
theorem listingEnds_eq_false {next : Addr → Option Addr} {nodes : Set Addr}
    (closed : ∀ b ∈ nodes, ∃ c ∈ nodes, next b = some c) (n : Nat) {b : Addr} (hb : b ∈ nodes) :
    listingEnds next n (some b) = false := by
  induction n generalizing b with
  | zero => rfl
  | succ n ih =>
    obtain ⟨c, hc, hbc⟩ := closed b hb
    rw [listingEnds, hbc]
    exact ih hc

/-- Behind the tail, an entry that was not the last one closes a cycle. -/
theorem Holds.printTable_relinkLast (h : Holds dqht (before ++ a :: after) l)
    (hafter : after ≠ []) : dqhtPrintTable (dqhtLinkLast (dqhtUnlink dqht a) a) = none := by
  have hunlinked := h.linked.unlink fun b hb => h.live hb
  have hnodup := List.nodup_cons.mp (List.nodup_middle.mp h.linked.nodup)
  have hprev : dqht.prev a = before.getLast? := Dll.prev_eq h.linked
  obtain ⟨first, hfirst⟩ : ∃ first, after.head? = some first :=
    Option.ne_none_iff_exists'.mp (by simpa using hafter)
  have hlive : ∀ b, dqht.prev a = some b → dqht.Live b := fun b hb =>
    h.live (by simp [List.mem_of_getLast? (hprev.symm.trans hb)])
  have hnext : (dqhtUnlink dqht a).next a = some first := by
    rw [next_unlink hlive, if_neg, (Dll.next_eq h.linked : dqht.next a = after.head?), hfirst]
    rw [hprev]
    exact fun ha => hnodup.1 (by simp [List.mem_of_getLast? ha])
  obtain ⟨tail, htail⟩ : ∃ tail, (before ++ after).getLast? = some tail :=
    Option.ne_none_iff_exists'.mp (by simp [hafter])
  obtain ⟨head, hhead⟩ : ∃ head, (before ++ after).head? = some head :=
    Option.ne_none_iff_exists'.mp (by simp [hafter])
  have hne : a ≠ tail := fun hat => hnodup.1 (hat ▸ List.mem_of_getLast? htail)
  obtain ⟨e, he⟩ := (relinked_unlink dqht a).live
    (h.live (show tail ∈ before ++ a :: after by
      have := List.mem_of_getLast? htail
      simp only [List.mem_append, List.mem_cons] at this ⊢
      tauto))
  have hrelinked : dqhtLinkLast (dqhtUnlink dqht a) a =
      { ((dqhtUnlink dqht a).setNext tail (some a)).setPrev a (some tail) with tail := some a } := by
    rw [dqhtLinkLast, (Dll.tail_eq hunlinked).trans htail]
  have hlinks : ∀ b, (dqhtLinkLast (dqhtUnlink dqht a) a).next b =
      if b = tail then some a else (dqhtUnlink dqht a).next b := by
    intro b
    rw [hrelinked, next_withEnds, next_setPrev, next_setNext he, Function.update_apply]
  have hstart : (dqhtLinkLast (dqhtUnlink dqht a) a).head = some head := by
    rw [hrelinked]
    exact (Dll.head_eq hunlinked).trans hhead
  have closed : ∀ b ∈ {b | b ∈ a :: (before ++ after)},
      ∃ c ∈ {b | b ∈ a :: (before ++ after)},
        (dqhtLinkLast (dqhtUnlink dqht a) a).next b = some c := by
    rintro b (hb : b ∈ a :: (before ++ after))
    rw [hlinks]
    rcases List.mem_cons.mp hb with rfl | hb
    · exact ⟨first, by simp [List.mem_of_head? hfirst], by rw [if_neg hne, hnext]⟩
    · split
      · exact ⟨a, by simp, rfl⟩
      · rename_i hbt
        obtain ⟨c, hc, hbc⟩ := Linked.Path.next_of_ne_last hunlinked.forward hb
          (by rw [htail]; exact fun hlast => hbt (Option.some.inj hlast).symm)
        exact ⟨c, List.mem_cons_of_mem _ hc, hbc⟩
  rw [dqhtPrintTable, hstart, listingEnds_eq_false closed _
    (List.mem_cons_of_mem _ (List.mem_of_head? hhead))]
  rfl

/-- Before the head, an entry that was not the first one keeps its link backwards. -/
theorem Holds.not_linked_relinkFirst (h : Holds dqht (before ++ a :: after) l)
    (hbefore : before ≠ []) (order : List Addr) :
    ¬(dqhtLinkFirst (dqhtUnlink dqht a) a).Linked order := by
  intro hlinked
  have hunlinked := h.linked.unlink fun b hb => h.live hb
  have hnodup := List.nodup_cons.mp (List.nodup_middle.mp h.linked.nodup)
  have hnext : dqht.next a = after.head? := Dll.next_eq h.linked
  have hlive : ∀ b, dqht.next a = some b → dqht.Live b := fun b hb =>
    h.live (by simp [List.mem_of_head? (hnext.symm.trans hb)])
  obtain ⟨last, hlast⟩ : ∃ last, before.getLast? = some last :=
    Option.ne_none_iff_exists'.mp (by simpa using hbefore)
  have hprev : (dqhtUnlink dqht a).prev a = some last := by
    rw [prev_unlink hlive, if_neg, (Dll.prev_eq h.linked : dqht.prev a = before.getLast?), hlast]
    rw [hnext]
    exact fun ha => hnodup.1 (by simp [List.mem_of_head? ha])
  obtain ⟨head, hhead⟩ : ∃ head, (before ++ after).head? = some head :=
    Option.ne_none_iff_exists'.mp (by simp [hbefore])
  have hne : a ≠ head := fun hah => hnodup.1 (hah ▸ List.mem_of_head? hhead)
  obtain ⟨e, he⟩ := (relinked_unlink dqht a).live
    (h.live (show head ∈ before ++ a :: after by
      have := List.mem_of_head? hhead
      simp only [List.mem_append, List.mem_cons] at this ⊢
      tauto))
  have hrelinked : dqhtLinkFirst (dqhtUnlink dqht a) a =
      { ((dqhtUnlink dqht a).setPrev head (some a)).setNext a (some head) with head := some a } := by
    rw [dqhtLinkFirst, (Dll.head_eq hunlinked).trans hhead]
  have hback : (dqhtLinkFirst (dqhtUnlink dqht a) a).prev a = some last := by
    rw [hrelinked, prev_withEnds, prev_setNext, prev_setPrev he, Function.update_of_ne hne, hprev]
  have hstart : (dqhtLinkFirst (dqhtUnlink dqht a) a).head = some a := by
    rw [hrelinked]
  have horder := (Dll.head_eq hlinked).symm.trans hstart
  obtain ⟨rest, rfl⟩ := List.head?_eq_some_iff.mp horder
  have hnone : (dqhtLinkFirst (dqhtUnlink dqht a) a).prev a = ([] : List Addr).getLast? :=
    Dll.prev_eq (show (dqhtLinkFirst (dqhtUnlink dqht a) a).Linked ([] ++ a :: rest) from hlinked)
  rw [hback] at hnone
  simp at hnone

end DequeueHashTable

/-! ### The insertions -/

section Keys

variable [TableKey K]

/-- Where `ht_insert` has to resize, the new array can be had. -/
def Resizable (ok : Alloc) (ht : HashTable K V) : Prop :=
  ht.size / 2 ≤ ht.count → ok.items = true

/-- `ht_insert` finds the entry in slot `i`: a resize has put every entry where probing reaches it,
and otherwise probing does so already. -/
def Reached (ht : HashTable K V) (key : K) (i : Nat) : Prop :=
  ht.size / 2 ≤ ht.count ∨ Reach ht.items ht.size (TableKey.hash key % ht.size) i

/-- `ht_insert` finds the entry of the key, where there is one. -/
def FindsKey (ht : HashTable K V) (key : K) : Prop :=
  ∀ a e, ht.Has key a e → Reached ht key e.index

theorem htInsert_notResizable {ok : Alloc} {ht : HashTable K V} (h : ¬Resizable ok ht) (key : K)
    (value : V) : htInsert ok ht key (some value) =
      some { code := -1, table := ht, entryAtIndex := none, overridden := none } := by
  obtain ⟨hfull, hok⟩ := Classical.not_imp.mp h
  have hresize : htResize ok ht = some (-1, ht) := by
    simp [htResize, hok]
  simp [htInsert, hfull, hresize]

/-- `ht_insert` of a key that the table has, where it finds the entry. -/
theorem htInsert_present [EquivTableKey K] {ok : Alloc} {ht : HashTable K V} (wf : ht.WF)
    (separated : ht.Separated) {key : K} {a : Addr} {e : DQHTEntry K V} (has : ht.Has key a e)
    (hok : Resizable ok ht) (reached : Reached ht key e.index) (value : V) :
    ∃ ht', Moved ht ht' ∧ htInsert ok ht key (some value) = some {
      code := 1
      table := { ht' with entries := ht'.entries.modify a fun e => { e with ptr := value } }
      entryAtIndex := some a
      overridden := some e.ptr } := by
  obtain ⟨ht', heq, hmoved, -, hreach⟩ := htInsert_eq ok wf separated hok key value
  obtain ⟨he, hkey⟩ := has
  obtain ⟨i, hi⟩ := hmoved.same a
  rw [he, Option.map_some] at hi
  have hreached : Reach ht'.items ht'.size (TableKey.hash key % ht'.size) i := by
    have hslot := hmoved.wf.slot hi
    rcases hreach with ⟨rfl, hlt⟩ | hresized
    · rw [he, Option.some_inj] at hi
      rw [hi] at reached
      exact reached.resolve_left (by omega)
    · rw [← hkey]
      have := hresized.reach i a _ hslot hi
      exact this
  have hequal : ∀ f : DQHTEntry K V, f.key = key → TableKey.cmp key f.key = 0 := by
    rintro f rfl
    exact EquivTableKey.equivalence.refl _
  refine ⟨ht', hmoved, ?_⟩
  rw [heq, htInsertSlot_reached ok hmoved.wf value hi (hequal _ hkey) ?_ hreached]
  intro b f hf hcmp
  exact (hmoved.separated separated a b _ f hi hf (by rw [← hkey] at hcmp; exact hcmp)).symm

/-- The call returns 0 and leaves the pairs `l`. -/
def Leaves (r : Option (DqhtInserted K V)) (l : List (K × V)) : Prop :=
  ∃ i order, r = some i ∧ i.code = 0 ∧ Holds i.table order l

/-- The deque holds the pairs `l`, no two keys compare equal, and probing from its hash reaches
every key. -/
structure Probed (dqht : DequeueHashTable K V) (l : List (K × V)) : Prop where
  holds : ∃ order, Holds dqht order l
  separated : dqht.ht.Separated
  reaching : dqht.ht.Reaching

theorem Probed.create (size : Nat) (hsize : 0 < size) (comparator : Option (KeyComparator K V)) :
    Probed (dqhtCreate size comparator) [] where
  holds := ⟨[], htCreate_wf hsize _, Dll.empty, by simp [Live, dqhtCreate, htCreate], rfl⟩
  separated := by simp [Separated, dqhtCreate, htCreate]
  reaching := by simp [Reaching, dqhtCreate, htCreate]

/-- Insertions of absent keys keep every key reached. -/
theorem Probed.insert [LawfulTableKey K] {dqht : DequeueHashTable K V} {l : List (K × V)}
    (h : Probed dqht l) {key : K}
    (foreign : ∀ x ∈ l, TableKey.cmp key x.1 ≠ 0) (value : V) :
    ∃ r, dqhtInsert {} dqht key (some value) = some r ∧
      Probed r.table (l ++ [(key, value)]) := by
  obtain ⟨order, hl⟩ := h.holds
  obtain ⟨r, hr, -, -, -, ⟨order', hholds⟩, hreaching⟩ := hl.insert h.separated foreign value
  exact ⟨r, hr, ⟨order', hholds⟩, hholds.wf.separated, hreaching h.reaching⟩

variable {dqht : DequeueHashTable K V} {l1 l2 : List (K × V)} {key : K} {old : V}
  {link : DequeueHashTable K V → Addr → DequeueHashTable K V}

theorem not_leaves_of_notResizable {ok : Alloc} (h : ¬Resizable ok dqht.ht) (value : V)
    (l : List (K × V)) : ¬Leaves (dqhtInsertWith link ok dqht key (some value)) l := by
  rintro ⟨i, order, hi, hcode, -⟩
  rw [dqhtInsertWith, htInsert_notResizable h, Option.bind_some] at hi
  rw [if_pos rfl, Option.some_inj] at hi
  rw [← hi] at hcode
  exact absurd hcode (show (-1 : Int) ≠ 0 by decide)

/-- An insertion of a key that the deque has links its entry again. -/
theorem dqhtInsertWith_present [EquivTableKey K] {order : List Addr}
    (h : Holds dqht order (l1 ++ (key, old) :: l2)) (separated : dqht.ht.Separated)
    {ok : Alloc} (hok : Resizable ok dqht.ht) (finds : FindsKey dqht.ht key) (value : V) :
    ∃ dqht' before a after, Holds dqht' (before ++ a :: after) (l1 ++ (key, value) :: l2) ∧
      (before = [] ↔ l1 = []) ∧ (after = [] ↔ l2 = []) ∧
      SameComparators dqht dqht' ∧
      ∀ link, dqhtInsertWith link ok dqht key (some value) =
        (dqhtPrintTable (link (dqhtUnlink dqht' a) a)).map fun _ =>
          { code := 0, table := link (dqhtUnlink dqht' a) a, overridden := some old } := by
  obtain ⟨before, a, after, rfl, hbefore, ha, hafter⟩ := h.split
  obtain ⟨e, he, hpair⟩ := Option.map_eq_some_iff.mp ha
  cases hpair
  obtain ⟨ht, hmoved, heq⟩ := htInsert_present h.wf separated ⟨he, rfl⟩ hok
    (finds a e ⟨he, rfl⟩) value
  have hpairs : ∀ b, DequeueHashTable.pair { dqht with ht } b = dqht.pair b := by
    intro b
    obtain ⟨i, hi⟩ := hmoved.same b
    simp only [pair, hi]
    cases dqht.ht.entries b <;> rfl
  have hholds := (h.moved hmoved).modifyPtr
    (hbefore ▸ List.map_congr_left fun b _ => hpairs b) (ha ▸ hpairs a)
    (hafter ▸ List.map_congr_left fun b _ => hpairs b) value
  refine ⟨_, before, a, after, hholds, ?_, ?_, ⟨rfl, hmoved.comparator_eq⟩, fun link => ?_⟩
  · simpa using congrArg (· = []) hbefore
  · simpa using congrArg (· = []) hafter
  · simp only [dqhtInsertWith, heq, Option.bind_some]
    rw [if_neg (by decide)]
    rfl

/-- `dqht_insert` of a key that the deque has. -/
theorem insert_present_iff [EquivTableKey K] {order : List Addr}
    (h : Holds dqht order (l1 ++ (key, old) :: l2)) (separated : dqht.ht.Separated) {ok : Alloc}
    (hok : Resizable ok dqht.ht) (finds : FindsKey dqht.ht key) (value : V) :
    Leaves (dqhtInsert ok dqht key (some value)) (l1 ++ l2 ++ [(key, value)]) ↔ l2 = [] := by
  obtain ⟨dqht', before, a, after, hholds, -, hnil, -, heq⟩ :=
    dqhtInsertWith_present h separated hok finds value
  rw [dqhtInsert, heq dqhtLinkLast]
  constructor
  · rintro ⟨i, order', hi, -⟩
    by_contra hl2
    rw [hholds.printTable_relinkLast (fun hafter => hl2 (hnil.mp hafter))] at hi
    simp at hi
  · rintro rfl
    obtain rfl := hnil.mpr rfl
    have hlast := hholds.relinkLast
    rw [hlast.printTable]
    exact ⟨_, _, rfl, rfl, by simpa using hlast⟩

/-- `dqht_push_front` of a key that the deque has. -/
theorem pushFront_present_iff [EquivTableKey K] {order : List Addr}
    (h : Holds dqht order (l1 ++ (key, old) :: l2)) (separated : dqht.ht.Separated) {ok : Alloc}
    (hok : Resizable ok dqht.ht) (finds : FindsKey dqht.ht key) (value : V) :
    Leaves (dqhtPushFront ok dqht key (some value)) ((key, value) :: (l1 ++ l2)) ↔ l1 = [] := by
  obtain ⟨dqht', before, a, after, hholds, hnil, -, -, heq⟩ :=
    dqhtInsertWith_present h separated hok finds value
  rw [dqhtPushFront, heq dqhtLinkFirst]
  constructor
  · rintro ⟨i, order', hi, -, hi'⟩
    by_contra hl1
    obtain ⟨-, -, rfl⟩ := Option.map_eq_some_iff.mp hi
    exact hholds.not_linked_relinkFirst (fun hbefore => hl1 (hnil.mp hbefore)) _ hi'.linked
  · rintro rfl
    obtain rfl := hnil.mpr rfl
    have hfirst := hholds.relinkFirst
    rw [hfirst.printTable]
    exact ⟨_, _, rfl, rfl, by simpa using hfirst⟩

/-- Where an empty slot comes before the entry of the key, `ht_insert` makes a second one. -/
theorem htInsert_duplicate [EquivTableKey K] {ht : HashTable K V} (wf : ht.WF)
    (separated : ht.Separated) {key : K} (hfinds : ¬FindsKey ht key) (ok : Alloc) (value : V) :
    ∃ index, htInsert ok ht key (some value) = some (if ok.entry = false then
        { code := -1, table := ht, entryAtIndex := none, overridden := none }
      else {
        code := 0, table := htCreateAt ht index key value, entryAtIndex := some ht.fresh
        overridden := none }) := by
  obtain ⟨a, e, ⟨he, rfl⟩, hreached⟩ : ∃ a e, ht.Has key a e ∧ ¬Reached ht key e.index := by
    simpa [FindsKey] using hfinds
  obtain ⟨hfull, hreach⟩ := not_or.mp hreached
  have hload := wf.load
  obtain ⟨index, -, -, -, hslot⟩ := htInsertSlot_stops ok wf.toShape e.key value (by omega)
    fun i b f hb hf hprobe hcmp => hreach (by
      obtain rfl := separated a b e f he hf hcmp
      obtain rfl := Option.some.inj (he.symm.trans hf)
      rw [wf.indexed i a e hb hf]
      exact hprobe)
  exact ⟨index, by rw [← hslot]; simp [htInsert, hfull]⟩

/-- The second entry is the last of the deque. -/
theorem insert_duplicate [EquivTableKey K] {order : List Addr} (h : Holds dqht order l)
    (separated : dqht.ht.Separated) (hfinds : ¬FindsKey dqht.ht key) (value : V) :
    ∃ i, dqhtInsert {} dqht key (some value) = some i ∧ i.code = 0 ∧ i.overridden = none ∧
      i.table.ht.count = dqht.ht.count + 1 := by
  obtain ⟨index, heq⟩ := htInsert_duplicate h.wf separated hfinds {} value
  rw [if_neg (show ¬({} : Alloc).entry = false by decide)] at heq
  obtain ⟨hlinked, hfresh, hlive, hnext, hprev⟩ := h.created key value index
  have hr := relinked_linkLast { dqht with ht := htCreateAt dqht.ht index key value } dqht.ht.fresh
  have hlast := hlinked.linkLast hfresh hlive hnext fun _ => hprev
  refine ⟨⟨0, dqhtLinkLast { dqht with ht := htCreateAt dqht.ht index key value } dqht.ht.fresh,
    none⟩, ?_, rfl, rfl, hr.count_eq⟩
  have hsize : (dqhtLinkLast { dqht with ht := htCreateAt dqht.ht index key value }
      dqht.ht.fresh).ht.fresh = dqht.ht.fresh + 1 := by
    rw [hr.ht]
    rfl
  have hlength := h.length_le
  have hprint : dqhtPrintTable (dqhtLinkLast
      { dqht with ht := htCreateAt dqht.ht index key value } dqht.ht.fresh) = some () := by
    rw [dqhtPrintTable, if_pos (Holds.listingEnds_of_path hlast.forward (by
      rw [hsize, List.length_append, List.length_singleton]
      omega))]
  simp only [dqhtInsert, dqhtInsertWith, heq, Option.bind_some]
  rw [if_neg (by decide), if_neg (by decide), hprint, Option.map_some]

/-- An insertion that does not find the entry of the key adds a second entry, or fails. -/
theorem not_leaves_of_not_findsKey [EquivTableKey K] {order : List Addr} {l l' : List (K × V)}
    (h : Holds dqht order l) (separated : dqht.ht.Separated) {ok : Alloc}
    (hfinds : ¬FindsKey dqht.ht key) (hlength : l'.length = l.length) (value : V) :
    ¬Leaves (dqhtInsert ok dqht key (some value)) l' := by
  rintro ⟨i, order', hi, hcode, hl'⟩
  obtain ⟨index, heq⟩ := htInsert_duplicate h.wf separated hfinds ok value
  have hcount := h.count_eq
  have hcount' := hl'.count_eq
  by_cases hentry : ok.entry = false
  · rw [if_pos hentry] at heq
    rw [dqhtInsert, dqhtInsertWith, heq, Option.bind_some, if_pos rfl, Option.some_inj] at hi
    rw [← hi] at hcode
    exact absurd hcode (show (-1 : Int) ≠ 0 by decide)
  · rw [if_neg hentry] at heq
    simp only [dqhtInsert, dqhtInsertWith, heq, Option.bind_some] at hi
    rw [if_neg (by decide), if_neg (by decide)] at hi
    obtain ⟨-, -, rfl⟩ := Option.map_eq_some_iff.mp hi
    have hkept := (relinked_linkLast
      { dqht with ht := htCreateAt dqht.ht index key value } dqht.ht.fresh).count_eq
    have hone : (htCreateAt dqht.ht index key value).count = dqht.ht.count + 1 := rfl
    have := hcount'.symm.trans (hkept.trans hone)
    omega

end Keys

end SearchCache
