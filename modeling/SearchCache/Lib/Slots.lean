import Mathlib.Data.Finset.Card
import Mathlib.Data.Finset.Image
import Mathlib.Data.Finset.Range
import Mathlib.Data.Nat.Find
import Mathlib.Data.Nat.ModEq

/-! Arrays of slots, as functions from indices to optional contents, and cyclic probing: the slot at
displacement `d` from `home` in an array of `size` slots is `(home + d) % size`. -/

namespace Slots

variable {A : Type}

/-- The occupied slots below `size`. -/
def occupied (items : Nat → Option A) (size : Nat) : Finset Nat :=
  (Finset.range size).filter fun i => (items i).isSome

theorem mem_occupied {items : Nat → Option A} {size i : Nat} :
    i ∈ occupied items size ↔ i < size ∧ ∃ a, items i = some a := by
  simp [occupied, Option.isSome_iff_exists]

theorem card_occupied_le (items : Nat → Option A) (size : Nat) :
    (occupied items size).card ≤ size := by
  calc (occupied items size).card ≤ (Finset.range size).card := Finset.card_filter_le _ _
    _ = size := Finset.card_range size

/-- Every slot of an array of NULL pointers is empty. -/
theorem occupied_none (size : Nat) : occupied (fun _ => (none : Option A)) size = ∅ := by
  ext i
  simp [mem_occupied]

theorem card_occupied_insert {items : Nat → Option A} {size i : Nat} (a : A) (hi : i < size)
    (empty : items i = none) :
    (occupied (Function.update items i (some a)) size).card = (occupied items size).card + 1 := by
  have hset : occupied (Function.update items i (some a)) size =
      insert i (occupied items size) := by
    ext j
    rcases eq_or_ne j i with rfl | hne
    · simp [mem_occupied, hi]
    · simp [mem_occupied, hne]
  rw [hset, Finset.card_insert_of_notMem]
  simp [mem_occupied, empty]

theorem card_occupied_clear {items : Nat → Option A} {size i : Nat} {a : A} (hi : i < size)
    (full : items i = some a) :
    (occupied (Function.update items i none) size).card = (occupied items size).card - 1 := by
  have hset : occupied (Function.update items i none) size = (occupied items size).erase i := by
    ext j
    rcases eq_or_ne j i with rfl | hne
    · simp [mem_occupied]
    · simp [mem_occupied, hne]
  rw [hset, Finset.card_erase_of_mem (mem_occupied.mpr ⟨hi, a, full⟩)]

theorem update_none_of_empty {items : Nat → Option A} {i : Nat} (empty : items i = none) :
    Function.update items i none = items := by
  rw [← empty]
  exact Function.update_eq_self i items

/-- Each content stands in one slot only. -/
def Injective (items : Nat → Option A) : Prop :=
  ∀ i j a, items i = some a → items j = some a → i = j

theorem Injective.update {items : Nat → Option A} (h : Injective items) {i : Nat} {a : A}
    (fresh : ∀ j, items j ≠ some a) : Injective (Function.update items i (some a)) := by
  intro j k b hj hk
  simp only [Function.update_apply] at hj hk
  split at hj <;> split at hk
  · omega
  · exact absurd (by simp at hj; exact hj ▸ hk) (fresh k)
  · exact absurd (by simp at hk; exact hk ▸ hj) (fresh j)
  · exact h j k b hj hk

theorem Injective.clear {items : Nat → Option A} (h : Injective items) (i : Nat) :
    Injective (Function.update items i none) := by
  intro j k b hj hk
  simp only [Function.update_apply] at hj hk
  split at hj
  · simp at hj
  · split at hk
    · simp at hk
    · exact h j k b hj hk

/-- An array whose contents all stand in another one has no more occupied slots. -/
theorem card_occupied_le_of_subset {items items' : Nat → Option A} {size size' : Nat}
    (inj : Injective items) (bound : ∀ i a, items' i = some a → i < size')
    (sub : ∀ i a, items i = some a → ∃ j, items' j = some a) :
    (occupied items size).card ≤ (occupied items' size').card := by
  classical
  have himage : (occupied items size).image items ⊆ (occupied items' size').image items' := by
    intro o ho
    obtain ⟨i, hi, rfl⟩ := Finset.mem_image.mp ho
    obtain ⟨-, a, ha⟩ := mem_occupied.mp hi
    obtain ⟨j, hj⟩ := sub i a ha
    exact Finset.mem_image.mpr ⟨j, mem_occupied.mpr ⟨bound j a hj, a, hj⟩, hj.trans ha.symm⟩
  have hinj : Set.InjOn items (occupied items size) := by
    intro i hi j _ hij
    obtain ⟨-, a, ha⟩ := mem_occupied.mp hi
    exact inj i j a ha (hij ▸ ha)
  calc (occupied items size).card = ((occupied items size).image items).card :=
        (Finset.card_image_of_injOn hinj).symm
    _ ≤ ((occupied items' size').image items').card := Finset.card_le_card himage
    _ ≤ (occupied items' size').card := Finset.card_image_le

theorem exists_empty {items : Nat → Option A} {size : Nat}
    (h : (occupied items size).card < size) : ∃ i < size, items i = none := by
  by_contra hfull
  have : Finset.range size ⊆ occupied items size := by
    intro i hi
    have hi' := Finset.mem_range.mp hi
    refine mem_occupied.mpr ⟨hi', Option.ne_none_iff_exists'.mp fun hn => hfull ⟨i, hi', hn⟩⟩
  have := Finset.card_le_card this
  simp at this
  omega

/-! ### Probing -/

/-- Every slot has a displacement from every home. -/
theorem exists_displacement {size i : Nat} (home : Nat) (hi : i < size) :
    ∃ d < size, (home + d) % size = i := by
  have hh := Nat.mod_lt home (show 0 < size by omega)
  refine ⟨(i + size - home % size) % size, Nat.mod_lt _ (by omega), ?_⟩
  rw [Nat.add_mod, Nat.mod_mod, ← Nat.add_mod, Nat.add_comm, ← Nat.add_mod_mod,
    show i + size - home % size + home % size = i + size by omega, Nat.add_mod_right,
    Nat.mod_eq_of_lt hi]

/-- The slots at two displacements below `size` differ. -/
theorem displacement_unique {size home c d : Nat} (hc : c < size) (hd : d < size)
    (h : (home + c) % size = (home + d) % size) : c = d :=
  Nat.ModEq.eq_of_lt_of_lt (Nat.ModEq.add_left_cancel' home h) hc hd

theorem step (size index d : Nat) : ((index + 1) % size + d) % size = (index + (d + 1)) % size := by
  rw [Nat.mod_add_mod]
  congr 1
  omega

/-- Probing from `home` reaches slot `i` without crossing an empty slot. -/
def Reach (items : Nat → Option A) (size home i : Nat) : Prop :=
  ∃ d < size, (home + d) % size = i ∧ ∀ c < d, ∃ a, items ((home + c) % size) = some a

/-- Filling a slot keeps what probing reaches. -/
theorem Reach.update {items : Nat → Option A} {size home i : Nat} (h : Reach items size home i)
    (j : Nat) (a : A) : Reach (Function.update items j (some a)) size home i := by
  obtain ⟨d, hd, hi, hfull⟩ := h
  refine ⟨d, hd, hi, fun c hc => ?_⟩
  rw [Function.update_apply]
  split
  · exact ⟨a, rfl⟩
  · exact hfull c hc

/-- In an array with an empty slot, probing reaches a first one. -/
theorem exists_first_empty {items : Nat → Option A} {size : Nat} (home : Nat)
    (h : ∃ i < size, items i = none) :
    ∃ d < size, items ((home + d) % size) = none ∧
      ∀ c < d, ∃ a, items ((home + c) % size) = some a := by
  obtain ⟨i, hi, hempty⟩ := h
  obtain ⟨d, hd, hdi⟩ := exists_displacement home hi
  have hex : ∃ d, d < size ∧ items ((home + d) % size) = none := ⟨d, hd, by rw [hdi, hempty]⟩
  classical
  refine ⟨Nat.find hex, (Nat.find_spec hex).1, (Nat.find_spec hex).2, fun c hc => ?_⟩
  have hmin := Nat.find_min hex hc
  have hc' := (Nat.find_spec hex).1
  exact Option.ne_none_iff_exists'.mp fun hn => hmin ⟨by omega, hn⟩

end Slots
