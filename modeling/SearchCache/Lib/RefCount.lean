import Mathlib.Data.Multiset.Count
import Mathlib.Logic.Function.Basic

/-! Reference counting.  `Counted count holders` says that the counter of every live object is the
number of its holders, which is positive, and that a destroyed object has none. -/

namespace RefCount

variable {R : Type} [DecidableEq R]

/-- `count r` is the counter of `r`, or `none` when there is no object at `r`. -/
structure Counted (count : R → Option Nat) (holders : Multiset R) : Prop where
  eq : ∀ r n, count r = some n → n = holders.count r
  pos : ∀ r n, count r = some n → 0 < n
  live : ∀ r ∈ holders, ∃ n, count r = some n

variable {count : R → Option Nat} {holders : Multiset R} {r : R} {n : Nat}

theorem Counted.notMem (h : Counted count holders) (hr : count r = none) : r ∉ holders := by
  intro hmem
  obtain ⟨n, hn⟩ := h.live r hmem
  simp [hr] at hn

/-- A live object has a holder. -/
theorem Counted.mem (h : Counted count holders) (hr : count r = some n) : r ∈ holders := by
  rw [← Multiset.count_pos, ← h.eq r n hr]
  exact h.pos r n hr

/-- A new object, with its creator as the only holder. -/
theorem Counted.create (h : Counted count holders) (hr : count r = none) :
    Counted (Function.update count r (some 1)) (r ::ₘ holders) where
  eq s n hs := by
    rcases eq_or_ne s r with rfl | hne
    · have := Multiset.count_eq_zero_of_notMem (h.notMem hr)
      rw [Function.update_self, Option.some.injEq] at hs
      rw [Multiset.count_cons_self, this, ← hs]
    · rw [Function.update_of_ne hne] at hs
      rw [Multiset.count_cons_of_ne hne, ← h.eq s n hs]
  pos s n hs := by
    rcases eq_or_ne s r with rfl | hne
    · rw [Function.update_self, Option.some.injEq] at hs
      omega
    · rw [Function.update_of_ne hne] at hs
      exact h.pos s n hs
  live s hs := by
    rcases eq_or_ne s r with rfl | hne
    · exact ⟨1, Function.update_self ..⟩
    · rw [Function.update_of_ne hne]
      exact h.live s ((Multiset.mem_cons.mp hs).resolve_left hne)

/-- One more holder. -/
theorem Counted.retain (h : Counted count holders) (hr : count r = some n) :
    Counted (Function.update count r (some (n + 1))) (r ::ₘ holders) where
  eq s m hs := by
    rcases eq_or_ne s r with rfl | hne
    · rw [Function.update_self, Option.some.injEq] at hs
      rw [Multiset.count_cons_self, ← h.eq s n hr, hs]
    · rw [Function.update_of_ne hne] at hs
      rw [Multiset.count_cons_of_ne hne, ← h.eq s m hs]
  pos s m hs := by
    rcases eq_or_ne s r with rfl | hne
    · rw [Function.update_self, Option.some.injEq] at hs
      omega
    · rw [Function.update_of_ne hne] at hs
      exact h.pos s m hs
  live s hs := by
    rcases eq_or_ne s r with rfl | hne
    · exact ⟨n + 1, Function.update_self ..⟩
    · rw [Function.update_of_ne hne]
      exact h.live s ((Multiset.mem_cons.mp hs).resolve_left hne)

/-- One holder less.  The last one takes the object with it. -/
theorem Counted.release (h : Counted count (r ::ₘ holders)) (hr : count r = some n) :
    Counted (Function.update count r (if n - 1 = 0 then none else some (n - 1))) holders where
  eq s m hs := by
    rcases eq_or_ne s r with rfl | hne
    · have := h.eq s n hr
      rw [Multiset.count_cons_self] at this
      rw [Function.update_self] at hs
      split at hs
      · simp at hs
      · have := Option.some.inj hs
        omega
    · rw [Function.update_of_ne hne] at hs
      rw [h.eq s m hs, Multiset.count_cons_of_ne hne]
  pos s m hs := by
    rcases eq_or_ne s r with rfl | hne
    · rw [Function.update_self] at hs
      split at hs
      · simp at hs
      · have := Option.some.inj hs
        omega
    · rw [Function.update_of_ne hne] at hs
      exact h.pos s m hs
  live s hs := by
    rcases eq_or_ne s r with rfl | hne
    · have hcount := h.eq s n hr
      have hpos := Multiset.count_pos.mpr hs
      rw [Multiset.count_cons_self] at hcount
      exact ⟨n - 1, by rw [Function.update_self, if_neg (by omega)]⟩
    · rw [Function.update_of_ne hne]
      exact h.live s (Multiset.mem_cons_of_mem hs)

end RefCount
