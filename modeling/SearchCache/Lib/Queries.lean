import Mathlib.Data.Set.Basic
import Mathlib.Data.Set.Insert

/-! Searches for the documents that have all of some terms, or any of them.  One search narrows
another where its answers are answers of the other whatever the documents are; which terms the two
have decides it. -/

namespace Queries

variable {T : Type} {S S' : Set T} {s t : T}

/-- The documents that have a term. -/
abbrev Index (T D : Type) := T → Set D

inductive Query (T : Type)
  | all (terms : Set T)
  | any (terms : Set T)

namespace Query

def answers {D : Type} (I : Index T D) : Query T → Set D
  | all terms => {d | ∀ t ∈ terms, d ∈ I t}
  | any terms => {d | ∃ t ∈ terms, d ∈ I t}

/-- The answers of the first are answers of the second in every index. -/
def Narrows (q q' : Query T) : Prop := ∀ {D : Type} (I : Index T D), q.answers I ⊆ q'.answers I

/-- The two have the same answers in every index. -/
def Same (q q' : Query T) : Prop := ∀ {D : Type} (I : Index T D), q.answers I = q'.answers I

variable {q q' q'' : Query T}

theorem same_iff : Same q q' ↔ Narrows q q' ∧ Narrows q' q := by
  constructor
  · intro h
    exact ⟨fun I => (h I).subset, fun I => (h I).superset⟩
  · rintro ⟨h, h'⟩ D I
    exact (h I).antisymm (h' I)

theorem Same.symm (h : Same q q') : Same q' q := fun I => (h I).symm

theorem Same.trans (h : Same q q') (h' : Same q' q'') : Same q q'' := fun I => (h I).trans (h' I)

theorem narrows_congr_right (h : Same q' q'') : Narrows q q' ↔ Narrows q q'' := by
  constructor
  · intro hn D I
    exact h I ▸ hn I
  · intro hn D I
    exact (h I).symm ▸ hn I

/-- A search for one term. -/
theorem any_singleton (t : T) : Same (any {t}) (all {t}) := by
  intro D I
  ext d
  simp [answers]

/-! ### The index of one document that has the terms of a set -/

theorem mem_answers_all (terms : Set T) :
    () ∈ (all S).answers (fun t => {_d : Unit | t ∈ terms}) ↔ S ⊆ terms := Iff.rfl

theorem mem_answers_any (terms : Set T) :
    () ∈ (any S).answers (fun t => {_d : Unit | t ∈ terms}) ↔ (S ∩ terms).Nonempty := Iff.rfl

theorem all_narrows_all : Narrows (all S) (all S') ↔ S' ⊆ S := by
  constructor
  · intro h
    exact h (fun t => {_d : Unit | t ∈ S}) ((mem_answers_all S).mpr subset_rfl)
  · intro h D I d hd t ht
    exact hd t (h ht)

theorem any_narrows_any : Narrows (any S) (any S') ↔ S ⊆ S' := by
  constructor
  · intro h t ht
    have hmem := h (fun u => {_d : Unit | u ∈ ({t} : Set T)}) ((mem_answers_any _).mpr ⟨t, ht, rfl⟩)
    obtain ⟨u, hu, rfl⟩ := (mem_answers_any _).mp hmem
    exact hu
  · rintro h D I d ⟨t, ht, hd⟩
    exact ⟨t, h ht, hd⟩

theorem all_narrows_any : Narrows (all S) (any S') ↔ (S' ∩ S).Nonempty := by
  constructor
  · intro h
    exact h (fun t => {_d : Unit | t ∈ S}) ((mem_answers_all S).mpr subset_rfl)
  · rintro ⟨t, ht', ht⟩ D I d hd
    exact ⟨t, ht', hd t ht⟩

theorem any_narrows_all : Narrows (any S) (all S') ↔ ∀ s ∈ S, ∀ t ∈ S', t = s := by
  constructor
  · intro h s hs t ht
    exact h (fun u => {_d : Unit | u ∈ ({s} : Set T)}) ((mem_answers_any _).mpr ⟨s, hs, rfl⟩) t ht
  · rintro h D I d ⟨s, hs, hd⟩ t ht
    exact h s hs t ht ▸ hd

theorem all_same_all : Same (all S) (all S') ↔ S = S' := by
  rw [same_iff, all_narrows_all, all_narrows_all]
  exact ⟨fun h => h.2.antisymm h.1, fun h => ⟨h.superset, h.subset⟩⟩

theorem any_same_any : Same (any S) (any S') ↔ S = S' := by
  rw [same_iff, any_narrows_any, any_narrows_any]
  exact ⟨fun h => h.1.antisymm h.2, fun h => ⟨h.subset, h.superset⟩⟩

/-- Where the two kinds agree there is one term. -/
theorem all_same_any : Same (all S) (any S') ↔ ∃ t, S = {t} ∧ S' = {t} := by
  rw [same_iff, all_narrows_any, any_narrows_all]
  constructor
  · rintro ⟨⟨t, ht', ht⟩, h⟩
    refine ⟨t, Set.eq_singleton_iff_unique_mem.mpr ⟨ht, fun u hu => h t ht' u hu⟩,
      Set.eq_singleton_iff_unique_mem.mpr ⟨ht', fun u hu => ?_⟩⟩
    exact (h u hu t ht).symm
  · rintro ⟨t, rfl, rfl⟩
    exact ⟨⟨t, rfl, rfl⟩, by simp⟩

end Query
end Queries
