import SearchCache.Lib.Runs

/-! Partial step functions that answer.  Two of them that give the same answers to the calls that one
permits, in related states, give the same answers to a whole run. -/

namespace Servers

variable {S T A O : Type*}

/-- The answers to a run of calls, with the state after it. -/
def serve (step : S → A → Option (O × S)) (s : S) : List A → Option (List O × S)
  | [] => some ([], s)
  | a :: calls =>
    match step s a with
    | none => none
    | some (o, s) => (serve step s calls).map fun r => (o :: r.1, r.2)

/-- Every call of the run is permitted. -/
def Permitted (step : S → A → Option (O × S)) (ok : S → A → Prop) (s : S) (calls : List A) : Prop :=
  Runs.Regular (fun s a => (step s a).map Prod.snd) ok s calls

variable {step : S → A → Option (O × S)} {step' : T → A → Option (O × T)} {ok : S → A → Prop}
  {related : S → T → Prop} {s s' : S} {t t' : T} {calls : List A}

theorem serve_cons {a : A} {o : O} {answers : List O} (h : step s a = some (o, s'))
    {s'' : S} (h' : serve step s' calls = some (answers, s'')) :
    serve step s (a :: calls) = some (o :: answers, s'') := by
  simp only [serve, h, h', Option.map_some]

theorem Permitted.next {a : A} {o : O} (h : Permitted step ok s (a :: calls))
    (hstep : step s a = some (o, s')) : Permitted step ok s' calls :=
  h.2 s' (congrArg (Option.map Prod.snd) hstep)

theorem serve_followed {rest : List A} {answers answers' : List O} {s'' : S}
    (h : serve step s calls = some (answers, s')) (h' : serve step s' rest = some (answers', s'')) :
    serve step s (calls ++ rest) = some (answers ++ answers', s'') := by
  induction calls generalizing s answers with
  | nil =>
    cases h
    exact h'
  | cons a calls ih =>
    rw [serve] at h
    split at h
    · simp at h
    · rename_i o s1 h1
      obtain ⟨⟨answers1, s2⟩, hrest, heq⟩ := Option.map_eq_some_iff.mp h
      cases heq
      exact serve_cons h1 (ih hrest)

theorem serve_append {rest : List A} {answers : List O} {s'' : S}
    (h : serve step s (calls ++ rest) = some (answers, s'')) :
    ∃ first last s', serve step s calls = some (first, s') ∧ serve step s' rest = some (last, s'') ∧
      answers = first ++ last := by
  induction calls generalizing s answers with
  | nil => exact ⟨[], answers, s, rfl, h, rfl⟩
  | cons a calls ih =>
    rw [List.cons_append, serve] at h
    split at h
    · simp at h
    · rename_i o s1 h1
      obtain ⟨⟨answers1, s2⟩, hrest, heq⟩ := Option.map_eq_some_iff.mp h
      cases heq
      obtain ⟨first, last, s', hfirst, hlast, rfl⟩ := ih hrest
      exact ⟨o :: first, last, s', serve_cons h1 hfirst, hlast, rfl⟩

/-- A step function under other names for the calls and the answers. -/
theorem serve_map {A' O' : Type*} {step' : S → A' → Option (O' × S)} {f : A → A'} {g : O → O'}
    (h : ∀ s a, step' s (f a) = (step s a).map fun r => (g r.1, r.2)) (s : S) (calls : List A) :
    serve step' s (calls.map f) = (serve step s calls).map fun r => (r.1.map g, r.2) := by
  induction calls generalizing s with
  | nil => rfl
  | cons a calls ih =>
    rw [List.map_cons, serve, h, serve]
    cases step s a with
    | none => rfl
    | some r => simp [ih, Function.comp_def]

/-- By induction on the calls, in related states. -/
theorem serve_agree
    (agree : ∀ s t a, related s t → ok s a →
      ∃ o s' t', step s a = some (o, s') ∧ step' t a = some (o, t') ∧ related s' t')
    (h : related s t) (permitted : Permitted step ok s calls) :
    ∃ answers s' t', serve step s calls = some (answers, s') ∧
      serve step' t calls = some (answers, t') ∧ related s' t' := by
  induction calls generalizing s t with
  | nil => exact ⟨[], s, t, rfl, rfl, h⟩
  | cons a calls ih =>
    obtain ⟨o, s1, t1, hs, ht, h1⟩ := agree s t a h permitted.1
    obtain ⟨answers, s', t', hs', ht', h'⟩ := ih h1 (permitted.next hs)
    exact ⟨o :: answers, s', t', serve_cons hs hs', serve_cons ht ht', h'⟩

/-- Where one step may fail with the other one, so may the run. -/
theorem serve_match
    (agree : ∀ s t a, related s t → ok s a → (step s a = none ∧ step' t a = none) ∨
      ∃ o s' t', step s a = some (o, s') ∧ step' t a = some (o, t') ∧ related s' t')
    (h : related s t) (permitted : Permitted step ok s calls) :
    (serve step s calls).map Prod.fst = (serve step' t calls).map Prod.fst := by
  induction calls generalizing s t with
  | nil => rfl
  | cons a calls ih =>
    rcases agree s t a h permitted.1 with ⟨hs, ht⟩ | ⟨o, s1, t1, hs, ht, h1⟩
    · simp only [serve, hs, ht, Option.map_none]
    · have hrest := ih h1 (permitted.next hs)
      simp only [serve, hs, ht, Option.map_map]
      have hcons := congrArg (Option.map (o :: ·)) hrest
      simpa [Function.comp_def] using hcons

end Servers
