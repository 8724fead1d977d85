import Mathlib.Tactic.TypeStar

/-! Runs of a partial step function, where the steps meet a condition on the state and the action.
An invariant of the steps is one of the runs, and where every step returns so does every run. -/

namespace Runs

variable {S A : Type*}

def run (step : S → A → Option S) (s : S) : List A → Option S
  | [] => some s
  | a :: actions =>
    match step s a with
    | none => none
    | some s => run step s actions

/-- Every step of the run meets the condition `ok`. -/
def Regular (step : S → A → Option S) (ok : S → A → Prop) (s : S) : List A → Prop
  | [] => True
  | a :: actions => ok s a ∧ ∀ s', step s a = some s' → Regular step ok s' actions

instance decidableRegular (step : S → A → Option S) (ok : S → A → Prop)
    [∀ s a, Decidable (ok s a)] : ∀ s actions, Decidable (Regular step ok s actions)
  | _, [] => .isTrue trivial
  | s, a :: actions =>
    match h : step s a with
    | none => decidable_of_iff (ok s a) (by simp [Regular, h])
    | some s' =>
      have := decidableRegular step ok s' actions
      decidable_of_iff (ok s a ∧ Regular step ok s' actions) (by simp [Regular, h])

variable {step : S → A → Option S} {ok : S → A → Prop} {inv : S → Prop} {s s' : S}
  {actions : List A}

theorem run_cons {a : A} (h : step s a = some s') :
    run step s (a :: actions) = run step s' actions := by
  simp only [run, h]

theorem run_append (step : S → A → Option S) (s : S) (actions rest : List A) :
    run step s (actions ++ rest) = (run step s actions).bind fun s => run step s rest := by
  induction actions generalizing s with
  | nil => rfl
  | cons a actions ih =>
    simp only [List.cons_append, run]
    split
    · rfl
    · exact ih _

theorem Regular.append {rest : List A} (h : Regular step ok s (actions ++ rest)) :
    Regular step ok s actions ∧ ∀ s', run step s actions = some s' → Regular step ok s' rest := by
  induction actions generalizing s with
  | nil =>
    refine ⟨trivial, fun s' hs' => ?_⟩
    obtain rfl := Option.some.inj hs'
    exact h
  | cons a actions ih =>
    refine ⟨⟨h.1, fun s' hs' => (ih (h.2 s' hs')).1⟩, fun s' hs' => ?_⟩
    rw [run] at hs'
    split at hs'
    · simp at hs'
    · rename_i s1 h1
      exact (ih (h.2 s1 h1)).2 s' hs'

/-- Every run meets the condition that always holds. -/
theorem regular_true (s : S) : Regular step (fun _ _ => True) s actions := by
  induction actions generalizing s with
  | nil => exact trivial
  | cons a actions ih => exact ⟨trivial, fun s' _ => ih s'⟩

/-- What the steps preserve, the run preserves. -/
theorem run_preserves
    (preserves : ∀ s a s', inv s → ok s a → step s a = some s' → inv s') (h : inv s)
    (regular : Regular step ok s actions) (hrun : run step s actions = some s') : inv s' := by
  induction actions generalizing s with
  | nil =>
    obtain rfl := Option.some.inj hrun
    exact h
  | cons a actions ih =>
    rw [run] at hrun
    split at hrun
    · simp at hrun
    · rename_i s1 h1
      exact ih (preserves s a s1 h regular.1 h1) (regular.2 s1 h1) hrun

/-- A run returns where every step does. -/
theorem run_returns
    (preserves : ∀ s a s', inv s → ok s a → step s a = some s' → inv s')
    (returns : ∀ s a, inv s → ok s a → ∃ s', step s a = some s') (h : inv s)
    (regular : Regular step ok s actions) : ∃ s', run step s actions = some s' := by
  induction actions generalizing s with
  | nil => exact ⟨s, rfl⟩
  | cons a actions ih =>
    obtain ⟨s1, h1⟩ := returns s a h regular.1
    obtain ⟨s2, h2⟩ := ih (preserves s a s1 h regular.1 h1) (regular.2 s1 h1)
    exact ⟨s2, by rw [run_cons h1, h2]⟩

end Runs
