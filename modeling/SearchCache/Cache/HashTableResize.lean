import SearchCache.Cache.HashTableMap
import SearchCache.Lib.Runs

/-! Resizes that fail.  Without the memory for the new array a resize leaves the table as it was.  A
resize that meets a key for the second time has by then given new indices to entries that stay in
the old array; it meets one where an insertion has not found the entry of its key. -/

namespace SearchCache

open Slots HashTable

variable {V : Type}

/-- A call that changes a table. -/
inductive HtCall (V : Type)
  | insert (key : Key) (value : V) (ok : Alloc)
  | delete (key : Key)

namespace HtCall

def run (ht : HashTable Key V) : HtCall V → Option (HashTable Key V)
  | insert key value ok => (htInsert ok ht key (some value)).map Inserted.table
  | delete key => some (htDelete ht key).2

/-- An insertion resizes the table first, or reaches the entry with its key, if there is one. -/
def ReachesKey (ht : HashTable Key V) : HtCall V → Prop
  | insert key value _ => (HtOp.insert key value).ReachesKey ht
  | delete _ => True

end HtCall

namespace HashTable

variable {ht ht' : HashTable Key V} {key : Key} {value : V} {ok : Alloc}

/-- Where an insertion that resizes does not get the array, it does nothing. -/
theorem htInsert_noArray (hfull : ht.size / 2 ≤ ht.count) (hok : ok.items = false) :
    htInsert ok ht key (some value) =
      some { code := -1, table := ht, entryAtIndex := none, overridden := none } := by
  have hresize : htResize ok ht = some (-1, ht) := by
    rw [htResize]
    simp [hok]
  simp [htInsert, hfull, hresize]

theorem WF.insert (h : ht.WF) (reaches : (HtOp.insert key value).ReachesKey ht) (ok : Alloc) :
    ∃ r, htInsert ok ht key (some value) = some r ∧ r.table.WF := by
  by_cases hok : ht.size / 2 ≤ ht.count → ok.items = true
  · obtain ⟨ht', heq, hmoved, hroom, hreach⟩ := htInsert_eq ok h h.separated hok key value
    have hwf := hmoved.wf
    refine ⟨_, heq, ?_⟩
    by_cases habsent : ∀ a e, ¬ht'.Has key a e
    · obtain ⟨index, hindex, hempty, -, hslot⟩ := htInsertSlot_stops ok hwf.toShape key value (by omega)
        fun _ _ _ _ he _ => foreign_of_absent habsent he
      rw [hslot]
      split
      · exact hwf
      · exact htCreateAt_wf hwf value hroom hindex hempty habsent
    · simp only [not_forall, not_not] at habsent
      obtain ⟨a, e, has⟩ := habsent
      have hslot := hwf.slot has.1
      have hreached : Reach ht'.items ht'.size (TableKey.hash key % ht'.size) e.index := by
        rcases hreach with ⟨rfl, hlt⟩ | hresized
        · exact (reaches.resolve_left (by omega)) _ a e hslot has.1 has.2
        · rw [← has.2]
          exact hresized.reach _ a e hslot has.1
      rw [htInsertSlot_reached ok hwf value has.1
        ((LawfulTableKey.cmp_eq_zero _ _).mpr has.2.symm) (fun _ _ => hwf.only has) hreached]
      exact WF.modify (f := fun e => { e with ptr := value }) hwf a (fun _ => rfl) fun _ => rfl
  · simp only [Classical.not_imp, Bool.not_eq_true] at hok
    exact ⟨_, htInsert_noArray hok.1 hok.2, h⟩

theorem WF.delete (h : ht.WF) (key : Key) : (htDelete ht key).2.WF := by
  rw [htDelete]
  cases hl : htLookup ht ht.comparator key with
  | none => exact h
  | some found =>
    obtain ⟨i, a⟩ := found
    obtain ⟨hslot, e, he, -⟩ := htFind_some hl
    rw [← h.indexed i a e hslot he]
    exact (htDeleteEntry_wf h he).2

/-- A resize that returns -1 has left the slots, and the index of every entry, as they were. -/
def FailsCleanly (ht : HashTable Key V) : Prop :=
  ∀ ok ht', htResize ok ht = some (-1, ht') →
    ht'.size = ht.size ∧ ht'.count = ht.count ∧ ht'.items = ht.items ∧
      (∀ a, (ht'.entries a).map DQHTEntry.index = (ht.entries a).map DQHTEntry.index) ∧
      ht'.Indexed

theorem WF.failsCleanly (h : ht.WF) : ht.FailsCleanly := by
  intro ok ht' hresize
  cases hok : ok.items with
  | true =>
    obtain ⟨ht'', heq, -⟩ := htResize_spec ok hok h.toShape h.distinct h.separated
    simp [heq] at hresize
  | false =>
    rw [htResize] at hresize
    simp only [hok, if_true] at hresize
    split at hresize <;>
      simp only [Option.some.injEq, Prod.mk.injEq, true_and] at hresize <;>
      exact hresize ▸ ⟨rfl, rfl, rfl, fun _ => rfl, h.indexed⟩

end HashTable

end SearchCache
