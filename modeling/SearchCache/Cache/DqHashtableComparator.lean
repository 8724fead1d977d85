import SearchCache.Cache.DqHashtableInsert
import SearchCache.Lib.Runs
import Mathlib.Data.List.Pairwise

/-! Deques with a comparator of their own.  Lookups and removals ask the comparator, insertions ask
`key_cmp`: the two agree in a run whose insertions meet no stored key that the comparator accepts,
or find their very key at the back. -/

namespace SearchCache

open DequeueHashTable HashTable

variable {K V : Type}

/-- Up to its third argument, the comparator decides the equivalence `same`. -/
structure Equates (comparator : KeyComparator K V) (same : K → K → Prop) : Prop where
  iff : ∀ a b e, comparator a b e = 0 ↔ same a b
  equivalence : Equivalence same

inductive TableCall (K V : Type)
  | insert (key : K) (value : V)
  | remove (key : K)
  | popFront
  | popLast

variable [TableKey K]

namespace TableCall

/-- A call, where allocations succeed. -/
def run (dqht : DequeueHashTable K V) : TableCall K V → Option (DequeueHashTable K V)
  | insert key value => (dqhtInsert {} dqht key (some value)).map DqhtInserted.table
  | remove key => some (dqhtRemove dqht key).2.2
  | popFront => some (dqhtPopFront dqht).2
  | popLast => some (dqhtPopLast dqht).2

/-- No stored key equals the inserted one, by the comparator or by `key_cmp`; or the inserted key
itself is stored last, where the insertion finds it. -/
def Agrees (same : K → K → Prop) (dqht : DequeueHashTable K V) : TableCall K V → Prop
  | insert key _ =>
    (∀ a e, dqht.ht.entries a = some e → ¬same key e.key ∧ TableKey.cmp key e.key ≠ 0) ∨
    (FindsKey dqht.ht key ∧ ∃ a e, dqht.tail = some a ∧ dqht.ht.Has key a e)
  | _ => True

omit [TableKey K] in
/-- The call neither inserts nor removes a key that equals `key`, and pops no such key. -/
def Spares (same : K → K → Prop) (key : K) (dqht : DequeueHashTable K V) : TableCall K V → Prop
  | insert key' _ => ¬same key key'
  | remove key' => ¬same key key'
  | popFront => ∀ a e, dqht.head = some a → dqht.ht.entries a = some e → ¬same key e.key
  | popLast => ∀ a e, dqht.tail = some a → dqht.ht.entries a = some e → ¬same key e.key

omit [TableKey K] in
/-- What the calls do to a list of pairs. -/
def Changes (same : K → K → Prop) (l l' : List (K × V)) : TableCall K V → Prop
  | insert key value =>
    (∀ x ∈ l, ¬same key x.1) ∧ l' = l ++ [(key, value)] ∨
      ∃ l1 old, l = l1 ++ [(key, old)] ∧ l' = l1 ++ [(key, value)]
  | remove key =>
    (∀ x ∈ l, ¬same key x.1) ∧ l' = l ∨
      ∃ l1 x l2, l = l1 ++ x :: l2 ∧ same key x.1 ∧ l' = l1 ++ l2
  | popFront => l' = l.tail
  | popLast => l' = l.dropLast

end TableCall

def tableRun (dqht : DequeueHashTable K V) (calls : List (TableCall K V)) :
    Option (DequeueHashTable K V) :=
  Runs.run TableCall.run dqht calls

def RunAgrees (same : K → K → Prop) (dqht : DequeueHashTable K V) (calls : List (TableCall K V)) :
    Prop :=
  Runs.Regular TableCall.run (TableCall.Agrees same) dqht calls

def RunSpares (same : K → K → Prop) (key : K) (dqht : DequeueHashTable K V)
    (calls : List (TableCall K V)) : Prop :=
  Runs.Regular TableCall.run (TableCall.Spares same key) dqht calls

/-- The deque holds the pairs `l`, and no two of their keys are equal by the comparator or by
`key_cmp`. -/
structure Compares (dqht : DequeueHashTable K V) (same : K → K → Prop) (l : List (K × V)) : Prop where
  keyComparator : Equates dqht.keyComparator same
  comparator : Equates dqht.ht.comparator same
  holds : ∃ order, Holds dqht order l
  separated : l.Pairwise fun x y => TableKey.cmp x.1 y.1 ≠ 0
  apart : l.Pairwise fun x y => ¬same x.1 y.1

namespace Compares

variable {dqht dqht' : DequeueHashTable K V} {same : K → K → Prop} {l l' : List (K × V)}
  {key k : K} {value v : V}

omit [TableKey K] in
/-- Pairwise different pairs have different keys in the table. -/
theorem entries_apart {order : List Addr} (h : Holds dqht order l) {r : K → K → Prop}
    (symm : ∀ {x y}, r x y → r y x) (hl : l.Pairwise fun x y => ¬r x.1 y.1) {a b : Addr}
    {e f : DQHTEntry K V} (he : dqht.ht.entries a = some e) (hf : dqht.ht.entries b = some f)
    (hr : r e.key f.key) : a = b := by
  have hx := h.mem_iff.mpr ⟨a, e, ⟨he, rfl⟩, rfl⟩
  have hy := h.mem_iff.mpr ⟨b, f, ⟨hf, rfl⟩, rfl⟩
  by_cases hxy : ((e.key, e.ptr) : K × V) = (f.key, f.ptr)
  · exact h.wf.distinct a b e f he hf (congrArg Prod.fst hxy)
  · have : Std.Symm fun x y : K × V => ¬r x.1 y.1 := ⟨fun x y hxy hyx => hxy (symm hyx)⟩
    exact absurd hr (hl.forall hx hy hxy)

theorem tableSeparated [EquivTableKey K] (h : Compares dqht same l) : dqht.ht.Separated := by
  obtain ⟨order, hl⟩ := h.holds
  exact fun a b e f he hf hcmp =>
    entries_apart (r := fun a b => TableKey.cmp a b = 0) hl EquivTableKey.equivalence.symm
      h.separated he hf hcmp

theorem tableApart (h : Compares dqht same l) {a b : Addr} {e f : DQHTEntry K V}
    (he : dqht.ht.entries a = some e) (hf : dqht.ht.entries b = some f)
    (hsame : same e.key f.key) : a = b := by
  obtain ⟨order, hl⟩ := h.holds
  exact entries_apart (r := same) hl h.comparator.equivalence.symm h.apart he hf hsame

theorem create {size : Nat} (hsize : 0 < size) {comparator : KeyComparator K V}
    (hc : Equates comparator same) : Compares (dqhtCreate size (some comparator)) same [] where
  keyComparator := hc
  comparator := hc
  holds := ⟨[], htCreate_wf hsize _, Linked.Dll.empty, by simp [Live, dqhtCreate, htCreate], rfl⟩
  separated := .nil
  apart := .nil

/-- A scan for a key finds the entry of the equal key. -/
theorem lookup (h : Compares dqht same l) {comparator : KeyComparator K V}
    (hc : Equates comparator same) {a : Addr} {e : DQHTEntry K V}
    (he : dqht.ht.entries a = some e) (hsame : same key e.key) :
    htLookup dqht.ht comparator key = some (e.index, a) := by
  obtain ⟨order, hl⟩ := h.holds
  refine htLookup_of_only hl.wf.toShape (hl.wf.slot he) he ((hc.iff _ _ _).mpr hsame) fun b f hf hf' => ?_
  exact h.tableApart hf he (hc.equivalence.trans
    (hc.equivalence.symm ((hc.iff _ _ _).mp hf')) hsame)

theorem get (h : Compares dqht same l) (hmem : (k, v) ∈ l) (hsame : same key k) :
    dqhtGet dqht key = some v := by
  obtain ⟨order, hl⟩ := h.holds
  obtain ⟨a, e, ⟨he, rfl⟩, rfl⟩ := hl.mem_iff.mp hmem
  simp [dqhtGet, htGet, h.lookup h.comparator he hsame, ptr, he]

/-- A deque with some of the pairs. -/
theorem sublist (h : Compares dqht same l) (hcomparators : SameComparators dqht dqht')
    (hsub : l'.Sublist l) {order' : List Addr} (hl' : Holds dqht' order' l') :
    Compares dqht' same l' where
  keyComparator := hcomparators.1 ▸ h.keyComparator
  comparator := hcomparators.2 ▸ h.comparator
  holds := ⟨order', hl'⟩
  separated := h.separated.sublist hsub
  apart := h.apart.sublist hsub

/-- A call of a run. -/
theorem remove (h : Compares dqht same l) (key : K) :
    ∃ l', Compares (dqhtRemove dqht key).2.2 same l' ∧
      TableCall.Changes same l l' (.remove key) := by
  obtain ⟨order, hl⟩ := h.holds
  by_cases hkey : ∃ x ∈ l, same key x.1
  · obtain ⟨x, hx, hsame⟩ := hkey
    obtain ⟨l1, l2, rfl⟩ := List.append_of_mem hx
    obtain ⟨dqht', order', heq, hcomparators, hl'⟩ := hl.remove fun a e has => by
      rw [← has.2] at hsame
      exact h.lookup h.keyComparator has.1 hsame
    refine ⟨l1 ++ l2, ?_, .inr ⟨l1, x, l2, rfl, hsame, rfl⟩⟩
    rw [heq]
    exact h.sublist hcomparators (by simp) hl'
  · have hnone : ∀ x ∈ l, ¬same key x.1 := fun x hx hsame => hkey ⟨x, hx, hsame⟩
    refine ⟨l, ?_, .inl ⟨hnone, rfl⟩⟩
    rw [dqhtRemove, htLookup_of_none fun a e he hcmp => hnone _
      (hl.mem_iff.mpr ⟨a, e, ⟨he, rfl⟩, rfl⟩) ((h.keyComparator.iff _ _ _).mp hcmp)]
    exact h

theorem popFront (h : Compares dqht same l) : Compares (dqhtPopFront dqht).2 same l.tail := by
  obtain ⟨order, hl⟩ := h.holds
  cases l with
  | nil =>
    rw [hl.popFront_nil]
    exact h
  | cons x l =>
    obtain ⟨dqht', order', heq, hcomparators, hl'⟩ := hl.popFront
    rw [heq]
    exact h.sublist hcomparators (List.tail_sublist _) hl'

theorem popLast (h : Compares dqht same l) : Compares (dqhtPopLast dqht).2 same l.dropLast := by
  obtain ⟨order, hl⟩ := h.holds
  rcases List.eq_nil_or_concat l with rfl | ⟨l, x, rfl⟩
  · rw [hl.popLast_nil]
    exact h
  · rw [List.concat_eq_append] at h hl ⊢
    obtain ⟨dqht', order', heq, hcomparators, hl'⟩ := hl.popLast
    rw [heq, List.dropLast_concat]
    exact h.sublist hcomparators (List.sublist_append_left _ _) hl'

omit [TableKey K] in
/-- The key of the last pair is that of the tail. -/
theorem getLast_key {order : List Addr} (h : Holds dqht order l) {a : Addr} {e : DQHTEntry K V}
    (htail : dqht.tail = some a) (he : dqht.ht.entries a = some e) :
    ∃ l1, l = l1 ++ [(e.key, e.ptr)] := by
  have hlast := (Linked.Dll.tail_eq h.linked).symm.trans htail
  have hc := congrArg List.getLast? h.contents
  rw [List.getLast?_map, List.getLast?_map, hlast, Option.map_some] at hc
  obtain ⟨x, hx, hxa⟩ := Option.map_eq_some_iff.mp hc.symm
  obtain ⟨l1, rfl⟩ := List.getLast?_eq_some_iff.mp hx
  simp only [pair, he, Option.map_some, Option.some_inj] at hxa
  exact ⟨l1, by rw [hxa]⟩

theorem insert [EquivTableKey K] (h : Compares dqht same l)
    (agrees : (TableCall.insert key value).Agrees same dqht) :
    ∃ dqht' l', (TableCall.insert key value).run dqht = some dqht' ∧ Compares dqht' same l' ∧
      TableCall.Changes same l l' (.insert key value) := by
  obtain ⟨order, hl⟩ := h.holds
  rcases agrees with hnone | ⟨hfinds, a, e, htail, he, rfl⟩
  · have hl1 : ∀ x ∈ l, ¬same key x.1 ∧ TableKey.cmp key x.1 ≠ 0 := by
      intro x hx
      obtain ⟨a, e, ⟨he, hkey⟩, -⟩ := hl.mem_iff.mp (show (x.1, x.2) ∈ l from hx)
      exact hkey ▸ hnone a e he
    obtain ⟨r, hr, -, -, hcomparators, ⟨order', hl'⟩, -⟩ :=
      hl.insert h.tableSeparated (fun x hx => (hl1 x hx).2) value
    refine ⟨r.table, l ++ [(key, value)], by rw [TableCall.run, hr]; rfl, ?_,
      .inl ⟨fun x hx => (hl1 x hx).1, rfl⟩⟩
    refine ⟨hcomparators.1 ▸ h.keyComparator, hcomparators.2 ▸ h.comparator, ⟨order', hl'⟩, ?_, ?_⟩
    · refine List.pairwise_append.mpr ⟨h.separated, List.pairwise_singleton _ _, ?_⟩
      rintro x hx y hy hcmp
      obtain rfl := List.mem_singleton.mp hy
      exact (hl1 x hx).2 (EquivTableKey.equivalence.symm hcmp)
    · refine List.pairwise_append.mpr ⟨h.apart, List.pairwise_singleton _ _, ?_⟩
      rintro x hx y hy hsame
      obtain rfl := List.mem_singleton.mp hy
      exact (hl1 x hx).1 (h.comparator.equivalence.symm hsame)
  · obtain ⟨l1, rfl⟩ := getLast_key hl htail he
    obtain ⟨dqht1, before, b, after, hholds, -, hnil, hcomparators, heq⟩ :=
      dqhtInsertWith_present hl h.tableSeparated (show Resizable {} dqht.ht from fun _ => rfl) hfinds
        value
    obtain rfl := hnil.mpr rfl
    have hlast := hholds.relinkLast
    have hsame2 : SameComparators dqht (dqhtLinkLast (dqhtUnlink dqht1 b) b) := by
      have := ((relinked_unlink dqht1 b).trans (relinked_linkLast _ b)).sameComparators
      exact ⟨this.1.trans hcomparators.1, this.2.trans hcomparators.2⟩
    refine ⟨dqhtLinkLast (dqhtUnlink dqht1 b) b, l1 ++ [(e.key, value)], ?_, ?_,
      .inr ⟨l1, e.ptr, rfl, rfl⟩⟩
    · rw [TableCall.run, dqhtInsert, heq dqhtLinkLast, hlast.printTable]
      rfl
    · refine ⟨hsame2.1 ▸ h.keyComparator, hsame2.2 ▸ h.comparator, ⟨_, hlast⟩, ?_, ?_⟩
      · have := h.separated
        rw [List.pairwise_append] at this ⊢
        exact ⟨this.1, List.pairwise_singleton _ _, by simpa using this.2.2⟩
      · have := h.apart
        rw [List.pairwise_append] at this ⊢
        exact ⟨this.1, List.pairwise_singleton _ _, by simpa using this.2.2⟩

/-- A call of a run. -/
theorem step [EquivTableKey K] (h : Compares dqht same l) {call : TableCall K V}
    (agrees : call.Agrees same dqht) :
    ∃ dqht' l', call.run dqht = some dqht' ∧ Compares dqht' same l' ∧ call.Changes same l l' := by
  cases call with
  | insert key value => exact h.insert agrees
  | remove key =>
    obtain ⟨l', hl', hchanges⟩ := h.remove key
    exact ⟨_, l', rfl, hl', hchanges⟩
  | popFront => exact ⟨_, _, rfl, h.popFront, rfl⟩
  | popLast => exact ⟨_, _, rfl, h.popLast, rfl⟩

/-- A call that spares a key keeps the pair of the key. -/
theorem keeps (h : Compares dqht same l) {call : TableCall K V} (hchanges : call.Changes same l l')
    (spares : call.Spares same k dqht) (hmem : (k, v) ∈ l) : (k, v) ∈ l' := by
  obtain ⟨order, hl⟩ := h.holds
  cases call with
  | insert key value =>
    rcases hchanges with ⟨-, rfl⟩ | ⟨l1, old, rfl, rfl⟩
    · simp [hmem]
    · have hne : k ≠ key := fun hk => spares (hk ▸ h.comparator.equivalence.refl _)
      simp only [List.mem_append, List.mem_singleton, Prod.mk.injEq, hne, false_and, or_false]
        at hmem ⊢
      exact hmem
  | remove key =>
    rcases hchanges with ⟨-, rfl⟩ | ⟨l1, x, l2, rfl, hsame, rfl⟩
    · exact hmem
    · have hne : (k, v) ≠ x := by
        rintro rfl
        exact spares (h.comparator.equivalence.symm hsame)
      simp only [List.mem_append, List.mem_cons, hne, false_or] at hmem ⊢
      exact hmem
  | popFront =>
    obtain rfl : l' = l.tail := hchanges
    cases l with
    | nil => simp at hmem
    | cons x l =>
      obtain ⟨before, a, after, rfl, hbefore, ha, -⟩ :=
        (show Holds dqht order ([] ++ (x.1, x.2) :: l) from hl).split
      obtain rfl : before = [] := by simpa using hbefore
      obtain ⟨e, he, hpair⟩ := Option.map_eq_some_iff.mp ha
      have hhead : dqht.head = some a := Linked.Dll.head_eq hl.linked
      have hne : (k, v) ≠ x := by
        rintro rfl
        refine spares a e hhead he ?_
        rw [show e.key = k from congrArg Prod.fst hpair]
        exact h.comparator.equivalence.refl _
      exact (List.mem_cons.mp hmem).resolve_left hne
  | popLast =>
    obtain rfl : l' = l.dropLast := hchanges
    rcases List.eq_nil_or_concat l with rfl | ⟨l, x, rfl⟩
    · simp at hmem
    · rw [List.concat_eq_append] at hmem hl ⊢
      rw [List.dropLast_concat]
      obtain ⟨before, a, after, rfl, -, ha, hafter⟩ :=
        (show Holds dqht order (l ++ (x.1, x.2) :: []) from hl).split
      obtain rfl : after = [] := by simpa using hafter
      obtain ⟨e, he, hpair⟩ := Option.map_eq_some_iff.mp ha
      have htail : dqht.tail = some a := by
        rw [Linked.Dll.tail_eq hl.linked, List.getLast?_concat]
      have hne : (k, v) ≠ x := by
        rintro rfl
        refine spares a e htail he ?_
        rw [show e.key = k from congrArg Prod.fst hpair]
        exact h.comparator.equivalence.refl _
      simp only [List.mem_append, List.mem_singleton, hne, or_false] at hmem
      exact hmem

/-- A run that agrees returns. -/
theorem run [EquivTableKey K] (h : Compares dqht same l) {calls : List (TableCall K V)}
    (agrees : RunAgrees same dqht calls) :
    ∃ dqht' l', tableRun dqht calls = some dqht' ∧ Compares dqht' same l' ∧
      ∀ k v, (k, v) ∈ l → RunSpares same k dqht calls → (k, v) ∈ l' := by
  induction calls generalizing dqht l with
  | nil => exact ⟨dqht, l, rfl, h, fun _ _ hmem _ => hmem⟩
  | cons call calls ih =>
    obtain ⟨dqht1, l1, hrun, h1, hchanges⟩ := h.step agrees.1
    obtain ⟨dqht2, l2, hrest, h2, hkeeps⟩ := ih h1 (agrees.2 dqht1 hrun)
    refine ⟨dqht2, l2, (Runs.run_cons hrun).trans hrest, h2, fun k v hmem spares => ?_⟩
    exact hkeeps k v (h.keeps hchanges spares.1 hmem) (spares.2 dqht1 hrun)

end Compares

/-- The keys differ at most in the order of their terms. -/
def swapEq (key1 key2 : Key) : Prop :=
  key1 = key2 ∨ key1.op = key2.op ∧ some key1.term1 = key2.term2 ∧ key1.term2 = some key2.term1

instance : DecidableRel swapEq := fun _ _ => inferInstanceAs (Decidable (_ ∨ _))

def swapComparator : KeyComparator Key Nat := fun key1 key2 _ => if swapEq key1 key2 then 0 else 1

theorem equates_swapEq : Equates swapComparator swapEq where
  iff key1 key2 e := by simp [swapComparator]
  equivalence := {
    refl := fun _ => .inl rfl
    symm := by
      rintro a b (rfl | ⟨h1, h2, h3⟩)
      · exact .inl rfl
      · exact .inr ⟨h1.symm, h3.symm, h2.symm⟩
    trans := by
      rintro a b c (rfl | ⟨h1, h2, h3⟩) hbc
      · exact hbc
      · rcases hbc with rfl | ⟨h1', h2', h3'⟩
        · exact .inr ⟨h1, h2, h3⟩
        · refine .inl ?_
          have hterm1 : a.term1 = c.term1 := Option.some.inj (h2.trans h3')
          have hterm2 : a.term2 = c.term2 := h3.trans h2'
          cases a; cases c
          simp_all }

def keyAnd (term1 term2 : UInt8) (h1 : term1 ≠ 0) (h2 : term2 ≠ 0) : Key where
  op := 94
  term1 := [term1]
  term2 := some [term2]
  single_iff := by simp [SINGLE_OP]
  nonzero1 := by simpa using h1.symm
  nonzero2 := by simpa using h2.symm
  short1 := by simp
  short2 := by simp

end SearchCache
