/-! Loops over a state, with a bound on the number of iterations.  A loop that a body leaves neither
by ending it nor by failing uses up any bound. -/

namespace Loop

variable {S : Type}

/-- What one iteration does: it ends the loop, or goes on with a new state. -/
inductive Step (S : Type)
  | done (s : S)
  | next (s : S)

/-- The state that an iteration leaves. -/
def Step.state : Step S → S
  | .done s => s
  | .next s => s

def run (body : S → Option (Step S)) : Nat → S → Option S
  | 0, _ => none
  | n + 1, s =>
    match body s with
    | none => none
    | some (.done s) => some s
    | some (.next s) => run body n s

variable {body : S → Option (Step S)} {n : Nat} {s t : S}

theorem run_done (h : body s = some (.done t)) : run body (n + 1) s = some t := by
  simp only [run, h]

theorem run_next (h : body s = some (.next t)) : run body (n + 1) s = run body n t := by
  simp only [run, h]

/-- A loop whose iterations all go on never returns. -/
theorem run_eq_none {I : S → Prop}
    (step : ∀ s, I s → body s = none ∨ ∃ t, body s = some (.next t) ∧ I t) (h : I s) :
    run body n s = none := by
  induction n generalizing s with
  | zero => rfl
  | succ n ih =>
    rcases step s h with hnone | ⟨t, hnext, ht⟩
    · simp only [run, hnone]
    · rw [run_next hnext]
      exact ih ht

/-- What every iteration keeps holds of the state that the loop returns. -/
theorem run_keeps {I : S → Prop} (step : ∀ s r, I s → body s = some r → I r.state) (h : I s)
    (ht : run body n s = some t) : I t := by
  induction n generalizing s with
  | zero => simp [run] at ht
  | succ n ih =>
    unfold run at ht
    split at ht
    · cases ht
    · rename_i hdone
      cases ht
      exact step s _ h hdone
    · rename_i hnext
      exact ih (step s _ h hnext) ht

/-- Two bodies that agree on the states that come up. -/
theorem run_congr {body' : S → Option (Step S)} {I : S → Prop} (same : ∀ s, I s → body s = body' s)
    (step : ∀ s r, I s → body s = some r → I r.state) (h : I s) : run body n s = run body' n s := by
  induction n generalizing s with
  | zero => rfl
  | succ n ih =>
    unfold run
    rw [← same s h]
    cases hbody : body s with
    | none => rfl
    | some r =>
      cases r with
      | done t => rfl
      | next t => exact ih (step s _ h hbody)

section Rel

variable {A B C D : Type} {r : A → B → Prop} {x : Option A} {y : Option B}

theorem of_rel_some {b : B} (h : Option.Rel r x (some b)) : ∃ a, x = some a ∧ r a b := by
  cases h with
  | some hab => exact ⟨_, rfl, hab⟩

theorem some_of_rel {a : A} (h : Option.Rel r x y) (hx : x = some a) :
    ∃ b, y = some b ∧ r a b := by
  subst hx
  cases h with
  | some hab => exact ⟨_, rfl, hab⟩

/-- Two computations that both fail or have related results, one after the other. -/
theorem rel_bind {q : C → D → Prop} {f : A → Option C} {g : B → Option D} (h : Option.Rel r x y)
    (hfg : ∀ a b, x = some a → y = some b → r a b → Option.Rel q (f a) (g b)) :
    Option.Rel q (x.bind f) (y.bind g) := by
  cases h with
  | none => exact .none
  | some hab => exact hfg _ _ rfl rfl hab

end Rel

end Loop
