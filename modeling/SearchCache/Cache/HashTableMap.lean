import SearchCache.Cache.HashTableOperations
import Mathlib.Data.Set.Card

/-! Runs of the hash table against a finite map.  A deletion empties a slot in the middle of a probe
chain, and `ht_insert` stops at the first empty slot, so it finds the key of a stored entry only
when no empty slot stands between the hash of the key and the entry.  A run whose insertions all
meet this condition is a run of the map. -/

namespace SearchCache

open Slots HashTable

variable {V : Type}

inductive HtOp (V : Type)
  | insert (key : Key) (value : V)
  | delete (key : Key)
  | get (key : Key)

/-- What an operation returns: the code and the old value of an insertion, the value of a deleted
entry, and the value of the entry that a lookup finds. -/
inductive HtReply (V : Type)
  | inserted (code : Int) (overridden : Option V)
  | deleted (value : Option V)
  | got (value : Option V)

namespace HtOp

/-- An operation on the table, where allocations succeed. -/
def run (ht : HashTable Key V) : HtOp V → Option (HtReply V × HashTable Key V)
  | insert key value =>
    (htInsert {} ht key (some value)).map fun r => (.inserted r.code r.overridden, r.table)
  | delete key =>
    let (value, ht) := htDelete ht key
    some (.deleted value, ht)
  | get key => some (.got ((htGet ht key).bind fun a => (ht.entries a).map DQHTEntry.ptr), ht)

/-- The operation on a map. -/
def onMap (m : Key → Option V) : HtOp V → HtReply V × (Key → Option V)
  | insert key value =>
    (.inserted (if (m key).isSome then 1 else 0) (m key), Function.update m key (some value))
  | delete key => (.deleted (m key), Function.update m key none)
  | get key => (.got (m key), m)

/-- An insertion resizes the table first, or probing from the hash of its key reaches the entry
with that key, if there is one. -/
def ReachesKey (ht : HashTable Key V) : HtOp V → Prop
  | insert key _ => ht.size / 2 ≤ ht.count ∨ ∀ i a e, ht.items i = some a →
      ht.entries a = some e → e.key = key →
      Reach ht.items ht.size (TableKey.hash key % ht.size) i
  | delete _ => True
  | get _ => True

end HtOp

def htRun (ht : HashTable Key V) : List (HtOp V) → Option (List (HtReply V) × HashTable Key V)
  | [] => some ([], ht)
  | op :: ops =>
    match op.run ht with
    | none => none
    | some (reply, ht) => (htRun ht ops).map fun (replies, ht) => (reply :: replies, ht)

def mapRun (m : Key → Option V) : List (HtOp V) → List (HtReply V) × (Key → Option V)
  | [] => ([], m)
  | op :: ops =>
    let (reply, m) := op.onMap m
    let (replies, m) := mapRun m ops
    (reply :: replies, m)

/-- Every insertion of a run resizes the table first or reaches the entry with its key. -/
def RunReachesKeys (ht : HashTable Key V) : List (HtOp V) → Prop
  | [] => True
  | op :: ops => op.ReachesKey ht ∧
      ∀ reply ht', op.run ht = some (reply, ht') → RunReachesKeys ht' ops

/-- A run from a table of `size` slots returns what the run on a map returns, and ends in a table
in which no two slots hold one key and `count` counts the keys of the map. -/
def RefinesMap (size : Nat) (ops : List (HtOp V)) : Prop :=
  ∃ ht, htRun (htCreate size defaultComparator) ops =
      some ((mapRun (fun _ => none) ops).1, ht) ∧
    (∀ i j a b e f, ht.items i = some a → ht.items j = some b → ht.entries a = some e →
      ht.entries b = some f → e.key = f.key → i = j) ∧
    ht.count = {key | ((mapRun (fun _ => none) ops).2 key).isSome}.ncard

/-- The table holds the entries of the map. -/
structure HoldsMap (ht : HashTable Key V) (m : Key → Option V) : Prop where
  wf : ht.WF
  comparator : ht.comparator = defaultComparator
  holds : ∀ key value, m key = some value ↔ ∃ a e, ht.Has key a e ∧ e.ptr = value

namespace HoldsMap

variable {ht : HashTable Key V} {m : Key → Option V}

theorem create {size : Nat} (hsize : 0 < size) :
    HoldsMap (htCreate size defaultComparator) (fun _ => (none : Option V)) where
  wf := htCreate_wf hsize _
  comparator := rfl
  holds := by simp [htCreate, Has]

theorem exact (h : HoldsMap ht m) : Exact ht.comparator := by
  rw [h.comparator]
  exact exact_default

theorem eq_some (h : HoldsMap ht m) {key : Key} {a : Addr} {e : DQHTEntry Key V}
    (has : ht.Has key a e) : m key = some e.ptr := (h.holds key e.ptr).mpr ⟨a, e, has, rfl⟩

theorem absent (h : HoldsMap ht m) {key : Key} (hm : m key = none) :
    ∀ a e, ¬ht.Has key a e := by
  intro a e has
  simp [h.eq_some has] at hm

theorem moved (h : HoldsMap ht m) {ht' : HashTable Key V} (hmoved : Moved ht ht') :
    HoldsMap ht' m where
  wf := hmoved.wf
  comparator := hmoved.comparator_eq.trans h.comparator
  holds key value := by
    rw [h.holds]
    constructor
    · rintro ⟨a, e, ⟨he, hkey⟩, hptr⟩
      obtain ⟨i, hi⟩ := hmoved.same a
      rw [he] at hi
      exact ⟨a, _, ⟨hi, hkey⟩, hptr⟩
    · rintro ⟨a, e, ⟨he, hkey⟩, hptr⟩
      obtain ⟨f, hf, hef⟩ := hmoved.of_entry he
      exact ⟨a, f, ⟨hf, by rw [← hkey, hef]⟩, by rw [← hptr, hef]⟩

/-- The number of entries is the number of keys. -/
theorem count_eq (h : HoldsMap ht m) : ht.count = {key | (m key).isSome}.ncard := by
  classical
  let keyAt (i : Nat) : Option Key :=
    (ht.items i).bind fun a => (ht.entries a).map DQHTEntry.key
  have hkeyAt : ∀ i a e, ht.items i = some a → ht.entries a = some e → keyAt i = some e.key := by
    intro i a e hi he
    simp [keyAt, hi, he]
  have himage : some '' {key | (m key).isSome} =
      ((occupied ht.items ht.size).image keyAt : Finset (Option Key)) := by
    ext o
    simp only [Set.mem_image, Set.mem_ofPred_eq, Finset.coe_image, Finset.mem_coe]
    constructor
    · rintro ⟨key, hkey, rfl⟩
      obtain ⟨value, hvalue⟩ := Option.isSome_iff_exists.mp hkey
      obtain ⟨a, e, ⟨he, rfl⟩, -⟩ := (h.holds key value).mp hvalue
      have hslot := h.wf.slot he
      exact ⟨e.index, mem_occupied.mpr ⟨h.wf.bound _ a hslot, a, hslot⟩, hkeyAt _ a e hslot he⟩
    · rintro ⟨i, hi, rfl⟩
      obtain ⟨-, a, ha⟩ := mem_occupied.mp hi
      obtain ⟨e, he⟩ := h.wf.live i a ha
      exact ⟨e.key, by rw [h.eq_some ⟨he, rfl⟩]; rfl, (hkeyAt i a e ha he).symm⟩
  have hinj : Set.InjOn keyAt (occupied ht.items ht.size) := by
    intro i hi j hj hij
    obtain ⟨-, a, ha⟩ := mem_occupied.mp (Finset.mem_coe.mp hi)
    obtain ⟨-, b, hb⟩ := mem_occupied.mp (Finset.mem_coe.mp hj)
    obtain ⟨e, he⟩ := h.wf.live i a ha
    obtain ⟨f, hf⟩ := h.wf.live j b hb
    rw [hkeyAt i a e ha he, hkeyAt j b f hb hf, Option.some.injEq] at hij
    exact h.wf.inj i j a ha (h.wf.distinct a b e f he hf hij ▸ hb)
  rw [h.wf.count_eq, ← Finset.card_image_of_injOn hinj, ← Set.ncard_coe_finset, ← himage,
    Set.ncard_image_of_injective _ (Option.some_injective Key)]

theorem insert_absent (h : HoldsMap ht m) {key : Key} {value : V} {index : Nat}
    (hm : m key = none) (wf : (htCreateAt ht index key value).WF) :
    HoldsMap (htCreateAt ht index key value) (Function.update m key (some value)) where
  wf := wf
  comparator := h.comparator
  holds key' value' := by
    have hfresh : ∀ a e, ht.entries a = some e → a ≠ ht.fresh := by
      rintro a e he rfl
      exact Nat.lt_irrefl _ (h.wf.fresh _ e he)
    have hold : ∀ {a e}, ht.entries a = some e →
        (htCreateAt ht index key value).entries a = some e := by
      intro a e he
      simpa [htCreateAt, Function.update_of_ne (hfresh a e he)] using he
    rcases eq_or_ne key' key with rfl | hne
    · rw [Function.update_self]
      constructor
      · rintro ⟨⟩
        exact ⟨ht.fresh, { dqhtentryCreate key' value with index },
          ⟨by simp [htCreateAt], rfl⟩, rfl⟩
      · rintro ⟨a, e, ⟨he, hkey⟩, rfl⟩
        simp only [htCreateAt, Function.update_apply] at he
        split at he
        · rw [← Option.some.inj he]
          rfl
        · exact absurd ⟨he, hkey⟩ (h.absent hm a e)
    · rw [Function.update_of_ne hne, h.holds]
      constructor
      · rintro ⟨a, e, ⟨he, hkey⟩, hptr⟩
        exact ⟨a, e, ⟨hold he, hkey⟩, hptr⟩
      · rintro ⟨a, e, ⟨he, hkey⟩, hptr⟩
        simp only [htCreateAt, Function.update_apply] at he
        split at he
        · rw [← Option.some.inj he] at hkey
          exact absurd hkey.symm hne
        · exact ⟨a, e, ⟨he, hkey⟩, hptr⟩

theorem insert_present (h : HoldsMap ht m) {key : Key} {value : V} {a : Addr}
    {e : DQHTEntry Key V} (has : ht.Has key a e) :
    HoldsMap { ht with entries := ht.entries.modify a fun e => { e with ptr := value } }
      (Function.update m key (some value)) where
  wf := h.wf.modify a (fun _ => rfl) (fun _ => rfl)
  comparator := h.comparator
  holds key' value' := by
    rcases eq_or_ne key' key with rfl | hne
    · rw [Function.update_self]
      constructor
      · rintro ⟨⟩
        exact ⟨a, { e with ptr := value }, ⟨by simp [Entries.modify_self, has.1], has.2⟩, rfl⟩
      · rintro ⟨b, f, ⟨hf, hkey⟩, rfl⟩
        rcases eq_or_ne b a with rfl | hba
        · simp only [Entries.modify_self, has.1, Option.map_some, Option.some.injEq] at hf
          rw [← hf]
        · simp only [Entries.modify_of_ne _ _ hba] at hf
          exact absurd (h.wf.has_unique ⟨hf, hkey⟩ has).1 hba
    · rw [Function.update_of_ne hne, h.holds]
      constructor
      · rintro ⟨b, f, ⟨hf, hkey⟩, hptr⟩
        have hba : b ≠ a := by
          rintro rfl
          rw [has.1, Option.some.injEq] at hf
          exact hne (hkey ▸ hf ▸ has.2)
        exact ⟨b, f, ⟨by simpa [Entries.modify_of_ne _ _ hba] using hf, hkey⟩, hptr⟩
      · rintro ⟨b, f, ⟨hf, hkey⟩, hptr⟩
        rcases eq_or_ne b a with rfl | hba
        · simp only [Entries.modify_self, has.1, Option.map_some, Option.some.injEq] at hf
          exact absurd (by rw [← hkey, ← hf]; exact has.2) hne
        · simp only [Entries.modify_of_ne _ _ hba] at hf
          exact ⟨b, f, ⟨hf, hkey⟩, hptr⟩

theorem delete (h : HoldsMap ht m) (key : Key) :
    (htDelete ht key).1 = m key ∧ HoldsMap (htDelete ht key).2 (Function.update m key none) := by
  cases hl : htLookup ht ht.comparator key with
  | none =>
    have habsent := (htLookup_eq_none h.wf h.exact).mp hl
    have hm : m key = none := by
      cases hm : m key with
      | none => rfl
      | some value =>
        obtain ⟨a, e, has, -⟩ := (h.holds key value).mp hm
        exact absurd has (habsent a e)
    rw [htDelete, hl, hm]
    refine ⟨rfl, ?_⟩
    rwa [← hm, Function.update_eq_self]
  | some found =>
    obtain ⟨i, a⟩ := found
    obtain ⟨e, has, rfl⟩ := (htLookup_eq_some h.wf h.exact).mp hl
    obtain ⟨heq, hwf⟩ := htDeleteEntry_wf h.wf has.1
    rw [htDelete, hl]
    simp only
    rw [heq] at hwf ⊢
    refine ⟨(h.eq_some has).symm, hwf, h.comparator, fun key' value' => ?_⟩
    rcases eq_or_ne key' key with rfl | hne
    · rw [Function.update_self]
      constructor
      · rintro ⟨⟩
      · rintro ⟨b, f, ⟨hf, hkey⟩, -⟩
        simp only [Function.update_apply] at hf
        split at hf
        · simp at hf
        · rename_i hba
          exact absurd (h.wf.has_unique ⟨hf, hkey⟩ has).1 hba
    · rw [Function.update_of_ne hne, h.holds]
      constructor
      · rintro ⟨b, f, ⟨hf, hkey⟩, hptr⟩
        have hba : b ≠ a := by
          rintro rfl
          rw [has.1, Option.some.injEq] at hf
          exact hne (hkey ▸ hf ▸ has.2)
        exact ⟨b, f, ⟨by simpa [Function.update_of_ne hba] using hf, hkey⟩, hptr⟩
      · rintro ⟨b, f, ⟨hf, hkey⟩, hptr⟩
        simp only [Function.update_apply] at hf
        split at hf
        · simp at hf
        · exact ⟨b, f, ⟨hf, hkey⟩, hptr⟩

theorem get (h : HoldsMap ht m) (key : Key) :
    ((htGet ht key).bind fun a => (ht.entries a).map DQHTEntry.ptr) = m key := by
  cases hg : htGet ht key with
  | none =>
    have habsent := (htGet_eq_none h.wf h.exact).mp hg
    cases hm : m key with
    | none => rfl
    | some value =>
      obtain ⟨a, e, has, -⟩ := (h.holds key value).mp hm
      exact absurd has (habsent a e)
  | some a =>
    obtain ⟨e, has⟩ := (htGet_eq_some h.wf.toShape h.wf.distinct h.exact).mp hg
    rw [h.eq_some has, Option.bind_some, has.1]
    rfl

/-- An insertion that resizes or reaches its key is an insertion into the map. -/
theorem insert (h : HoldsMap ht m) {key : Key} {value : V}
    (reaches : (HtOp.insert key value).ReachesKey ht) :
    ∃ r, htInsert {} ht key (some value) = some r ∧
      r.code = (if (m key).isSome then 1 else 0) ∧ r.overridden = m key ∧
      HoldsMap r.table (Function.update m key (some value)) := by
  obtain ⟨ht', heq, hmoved, hroom, hreach⟩ := htInsert_eq {} h.wf h.wf.separated (fun _ => rfl) key value
  have h' := h.moved hmoved
  refine ⟨_, heq, ?_⟩
  cases hm : m key with
  | none =>
    obtain ⟨index, hwf, -, hslot⟩ := htInsertSlot_absent {} rfl h'.wf value hroom
      (h'.absent hm) fun _ _ => foreign_of_absent (h'.absent hm)
    rw [hslot]
    exact ⟨rfl, rfl, h'.insert_absent hm hwf⟩
  | some old =>
    obtain ⟨a, e, has, rfl⟩ := (h'.holds key old).mp hm
    have hslot := h'.wf.slot has.1
    have hreached : Reach ht'.items ht'.size (TableKey.hash key % ht'.size) e.index := by
      rcases hreach with ⟨rfl, hlt⟩ | hresized
      · rcases reaches with hfull | hreaches
        · omega
        · exact hreaches _ a e hslot has.1 has.2
      · rw [← has.2]
        exact hresized.reach _ a e hslot has.1
    rw [htInsertSlot_reached {} h'.wf value has.1 ((LawfulTableKey.cmp_eq_zero _ _).mpr has.2.symm)
      (fun _ _ => h'.wf.only has) hreached]
    exact ⟨rfl, rfl, h'.insert_present has⟩

/-- One operation of a run. -/
theorem step (h : HoldsMap ht m) {op : HtOp V} (reaches : op.ReachesKey ht) :
    ∃ ht', op.run ht = some ((op.onMap m).1, ht') ∧ HoldsMap ht' (op.onMap m).2 := by
  cases op with
  | insert key value =>
    obtain ⟨r, hr, hcode, hoverridden, hholds⟩ := h.insert reaches
    exact ⟨r.table, by simp [HtOp.run, HtOp.onMap, hr, hcode, hoverridden], hholds⟩
  | delete key =>
    obtain ⟨hvalue, hholds⟩ := h.delete key
    exact ⟨(htDelete ht key).2, by simp [HtOp.run, HtOp.onMap, hvalue], hholds⟩
  | get key => exact ⟨ht, by simp [HtOp.run, HtOp.onMap, h.get], h⟩

theorem run (h : HoldsMap ht m) {ops : List (HtOp V)} (reaches : RunReachesKeys ht ops) :
    ∃ ht', htRun ht ops = some ((mapRun m ops).1, ht') ∧ HoldsMap ht' (mapRun m ops).2 := by
  induction ops generalizing ht m with
  | nil => exact ⟨ht, rfl, h⟩
  | cons op ops ih =>
    obtain ⟨ht1, hrun, h1⟩ := h.step reaches.1
    obtain ⟨ht2, hrest, h2⟩ := ih h1 (reaches.2 _ _ hrun)
    exact ⟨ht2, by simp [htRun, mapRun, hrun, hrest], h2⟩

end HoldsMap

end SearchCache
