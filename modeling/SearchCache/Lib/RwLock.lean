import SearchCache.Lib.Servers
import Mathlib.Data.Finset.Erase
import Mathlib.Data.Finset.Insert
import Mathlib.Logic.Function.Basic
import Mathlib.Logic.Relation

/-! Threads that call operations on a state behind a lock for readers and writers.  An operation runs
in small steps between those of the other threads.  The calls have the answers, in the order in which
they return, of the operations run whole, one after another. -/

namespace RwLock

variable {T A O S L : Type*}

/-- Operations in small steps, each with a local state.  A step that does not exist is stuck. -/
structure Bodies (A O S L : Type*) where
  /-- The operation takes the lock for writing. -/
  exclusive : A → Bool
  start : A → L
  step : L → S → Option (L × S)
  answer : L → Option O

/-! ### One operation -/

namespace Bodies

def Small (B : Bodies A O S L) (x y : L × S) : Prop :=
  B.answer x.1 = none ∧ B.step x.1 x.2 = some y

def Reaches (B : Bodies A O S L) : L × S → L × S → Prop := Relation.ReflTransGen B.Small

/-- The whole operation from `s` answers `o` and leaves `s'`. -/
def Computes (B : Bodies A O S L) (a : A) (s : S) (o : O) (s' : S) : Prop :=
  ∃ l, B.Reaches (B.start a, s) (l, s') ∧ B.answer l = some o

/-- The whole operations are those of a function. -/
def Implements (B : Bodies A O S L) (f : S → A → Option (O × S)) : Prop :=
  ∀ s a o s', f s a = some (o, s') → B.Computes a s o s'

/-- An operation that shares the lock leaves the state alone. -/
def ReadsOnly (B : Bodies A O S L) : Prop :=
  ∀ a s l l' s', B.exclusive a = false → B.Reaches (B.start a, s) (l, s) →
    B.step l s = some (l', s') → s' = s

variable {B : Bodies A O S L} {a : A} {s s1 s2 s' : S} {l l1 l2 : L} {o o1 o2 : O}

theorem small_unique : Relator.RightUnique B.Small := by
  intro x y z hy hz
  exact Option.some.inj (hy.2.symm.trans hz.2)

/-- Nothing follows an answer. -/
theorem Reaches.of_answer {y : L × S} (h : B.Reaches (l, s) y) (ho : B.answer l = some o) :
    y = (l, s) := by
  rcases Relation.ReflTransGen.cases_head h with rfl | ⟨z, hz, -⟩
  · rfl
  · have := hz.1
    simp [ho] at this

/-- An operation that can answer has the answer ahead of it. -/
theorem Reaches.ahead (h : B.Reaches (B.start a, s) (l, s1)) (hc : B.Computes a s o s') :
    ∃ l', B.Reaches (l, s1) (l', s') ∧ B.answer l' = some o := by
  obtain ⟨l', hl', ho⟩ := hc
  rcases Relation.ReflTransGen.total_of_right_unique small_unique h hl' with hahead | hback
  · exact ⟨l', hahead, ho⟩
  · have hsame := Reaches.of_answer hback ho
    exact ⟨l', by rw [hsame]; exact .refl, ho⟩

theorem Computes.unique (h1 : B.Computes a s o1 s1) (h2 : B.Computes a s o2 s2) :
    o1 = o2 ∧ s1 = s2 := by
  obtain ⟨l1, hl1, ho1⟩ := h1
  obtain ⟨l2, hl2, ho2⟩ := hl1.ahead h2
  have hsame := hl2.of_answer ho1
  rw [Prod.mk.injEq] at hsame
  obtain ⟨rfl, rfl⟩ := hsame
  exact ⟨Option.some.inj (ho1.symm.trans ho2), rfl⟩

/-- The operations run one after another. -/
def Serial (B : Bodies A O S L) : S → List (A × O) → S → Prop
  | s, [], s' => s' = s
  | s, (a, o) :: calls, s' => ∃ s1, B.Computes a s o s1 ∧ B.Serial s1 calls s'

theorem Serial.snoc {calls : List (A × O)} (h : B.Serial s calls s1) (hc : B.Computes a s1 o s') :
    B.Serial s (calls ++ [(a, o)]) s' := by
  induction calls generalizing s with
  | nil =>
    obtain rfl : s1 = s := h
    exact ⟨s', hc, rfl⟩
  | cons c calls ih =>
    obtain ⟨s2, hc2, hrest⟩ := h
    exact ⟨s2, hc2, ih hrest⟩

/-- Where the run of the function returns, it is the run of the operations. -/
theorem Serial.serve {f : S → A → Option (O × S)} (hf : B.Implements f) {calls : List (A × O)}
    (h : B.Serial s calls s') {r : List O × S}
    (hr : Servers.serve f s (calls.map Prod.fst) = some r) : r = (calls.map Prod.snd, s') := by
  induction calls generalizing s r with
  | nil =>
    obtain rfl : s' = s := h
    simpa [Servers.serve] using hr.symm
  | cons c calls ih =>
    obtain ⟨s1, hc, hrest⟩ := h
    rw [List.map_cons, Servers.serve] at hr
    split at hr
    · simp at hr
    · rename_i o1 s2 hstep
      obtain ⟨rfl, rfl⟩ := hc.unique (hf _ _ _ _ hstep)
      obtain ⟨r1, hr1, rfl⟩ := Option.map_eq_some_iff.mp hr
      rw [ih hrest hr1]
      rfl

end Bodies

/-! ### Threads -/

inductive Phase (A L : Type*)
  | idle
  | waiting (a : A)
  | inside (a : A) (l : L)

/-- A call that has returned.  Without the lock it has no answer. -/
structure Return (T A O : Type*) where
  thread : T
  op : A
  answer : Option O

/-- The lock, the state behind it, the threads, and the calls that have returned in their order. -/
structure System (T A O S L : Type*) where
  writer : Option T
  readers : Finset T
  shared : S
  phase : T → Phase A L
  returned : List (Return T A O)

inductive Act (T A : Type*)
  | call (t : T) (a : A)
  | enter (t : T)
  | refuse (t : T)
  | advance (t : T)
  | leave (t : T)

namespace System

def create (s : S) : System T A O S L := ⟨none, ∅, s, fun _ => .idle, []⟩

/-- The calls that have held the lock, with their answers. -/
def answered (s : System T A O S L) : List (A × O) :=
  s.returned.filterMap fun r => r.answer.map fun o => (r.op, o)

variable [DecidableEq T]

def step (B : Bodies A O S L) (s : System T A O S L) : Act T A → Option (System T A O S L)
  | .call t a =>
    match s.phase t with
    | .idle => some { s with phase := Function.update s.phase t (.waiting a) }
    | _ => none
  | .enter t =>
    match s.phase t with
    | .waiting a =>
      let phase := Function.update s.phase t (.inside a (B.start a))
      if B.exclusive a then
        if s.writer = none ∧ s.readers = ∅ then some { s with writer := some t, phase } else none
      else if s.writer = none then some { s with readers := insert t s.readers, phase } else none
    | _ => none
  | .refuse t =>
    match s.phase t with
    | .waiting a => some {
        s with
        phase := Function.update s.phase t .idle
        returned := s.returned ++ [⟨t, a, none⟩] }
    | _ => none
  | .advance t =>
    match s.phase t with
    | .inside a l =>
      match B.answer l with
      | some _ => none
      | none => (B.step l s.shared).map fun (l, shared) =>
        { s with shared, phase := Function.update s.phase t (.inside a l) }
    | _ => none
  | .leave t =>
    match s.phase t with
    | .inside a l => (B.answer l).map fun o => {
        s with
        writer := if s.writer = some t then none else s.writer
        readers := s.readers.erase t
        phase := Function.update s.phase t .idle
        returned := s.returned ++ [⟨t, a, some o⟩] }
    | _ => none

/-- The lock knows whether the thread `t` is inside, and what runs there has come from `base`. -/
def Fits (B : Bodies A O S L) (base : S) (writer : Option T) (readers : Finset T) (shared : S) (t : T) :
    Phase A L → Prop
  | .inside a l => B.Reaches (B.start a, base) (l, shared) ∧
    (B.exclusive a = true ↔ writer = some t) ∧ (B.exclusive a = false ↔ t ∈ readers)
  | _ => writer ≠ some t ∧ t ∉ readers

/-- The operations inside have come from the state `base`, which the shared state still is unless
there is a writer. -/
structure Consistent (B : Bodies A O S L) (s : System T A O S L) (base : S) : Prop where
  unwritten : s.writer = none → s.shared = base
  alone : s.writer ≠ none → s.readers = ∅
  fits : ∀ t, Fits B base s.writer s.readers s.shared t (s.phase t)

section Fits

variable {B : Bodies A O S L} {base base' shared shared' : S} {writer writer' : Option T}
  {readers readers' : Finset T} {t : T} {p : Phase A L}

omit [DecidableEq T] in
theorem Fits.of_inside {a : A} {l : L} (h : Fits B base writer readers shared t (.inside a l)) :
    writer = some t ∨ t ∈ readers := by
  cases hx : B.exclusive a
  · exact .inr (h.2.2.mp hx)
  · exact .inl (h.2.1.mp hx)

omit [DecidableEq T] in
theorem Fits.congr (h : Fits B base writer readers shared t p)
    (hwriter : writer' = some t ↔ writer = some t) (hreaders : t ∈ readers' ↔ t ∈ readers)
    (hbase : writer = some t ∨ t ∈ readers → base' = base ∧ shared' = shared) :
    Fits B base' writer' readers' shared' t p := by
  cases p with
  | inside a l =>
    obtain ⟨rfl, rfl⟩ := hbase h.of_inside
    exact ⟨h.1, h.2.1.trans hwriter.symm, h.2.2.trans hreaders.symm⟩
  | idle => exact ⟨fun hw => h.1 (hwriter.mp hw), fun hr => h.2 (hreaders.mp hr)⟩
  | waiting a => exact ⟨fun hw => h.1 (hwriter.mp hw), fun hr => h.2 (hreaders.mp hr)⟩

end Fits

namespace Consistent

variable {B : Bodies A O S L} {s s' : System T A O S L} {base : S} {t : T} {a : A} {l : L} {o : O}

omit [DecidableEq T] in
theorem create (s : S) : (create s : System T A O S L).Consistent B s :=
  ⟨fun _ => rfl, fun h => absurd rfl h, fun _ => ⟨nofun, Finset.notMem_empty _⟩⟩

theorem call (h : s.Consistent B base) (hstep : s.step B (.call t a) = some s') :
    s'.Consistent B base ∧ s'.answered = s.answered := by
  rw [step] at hstep
  split at hstep
  case h_2 => simp at hstep
  rename_i hphase
  cases hstep
  have ht := h.fits t
  rw [hphase] at ht
  exact ⟨⟨h.unwritten, h.alone, Function.forall_update_iff _ _ |>.mpr ⟨ht, fun u _ => h.fits u⟩⟩, rfl⟩

theorem refuse (h : s.Consistent B base) (hstep : s.step B (.refuse t) = some s') :
    s'.Consistent B base ∧ s'.answered = s.answered := by
  rw [step] at hstep
  split at hstep
  case h_2 => simp at hstep
  rename_i a hphase
  cases hstep
  have ht := h.fits t
  rw [hphase] at ht
  refine ⟨⟨h.unwritten, h.alone, Function.forall_update_iff _ _ |>.mpr ⟨ht, fun u _ => h.fits u⟩⟩, ?_⟩
  simp [answered]

theorem enter (h : s.Consistent B base) (hstep : s.step B (.enter t) = some s') :
    s'.Consistent B base ∧ s'.answered = s.answered := by
  rw [step] at hstep
  split at hstep
  case h_2 => simp at hstep
  rename_i a hphase
  dsimp only at hstep
  split at hstep
  · rename_i hexclusive
    split at hstep
    case isFalse => simp at hstep
    rename_i hfree
    cases hstep
    refine ⟨⟨nofun, fun _ => hfree.2, Function.forall_update_iff _ _ |>.mpr ⟨?_, fun u hut => ?_⟩⟩, rfl⟩
    · rw [h.unwritten hfree.1]
      exact ⟨.refl, by simp [hexclusive], by simp [hexclusive, hfree.2]⟩
    · exact (h.fits u).congr (by simp [hfree.1, Ne.symm hut]) Iff.rfl fun _ => ⟨rfl, rfl⟩
  · rename_i hshares
    rw [Bool.not_eq_true] at hshares
    split at hstep
    case isFalse => simp at hstep
    rename_i hfree
    cases hstep
    refine ⟨⟨h.unwritten, fun hw => absurd hfree hw,
      Function.forall_update_iff _ _ |>.mpr ⟨?_, fun u hut => ?_⟩⟩, rfl⟩
    · rw [h.unwritten hfree]
      exact ⟨.refl, by simp [hshares, hfree], by simp [hshares]⟩
    · exact (h.fits u).congr Iff.rfl (by simp [hut]) fun _ => ⟨rfl, rfl⟩

/-- A step inside changes the state for the writer only. -/
theorem advance (h : s.Consistent B base) (hreads : B.ReadsOnly)
    (hstep : s.step B (.advance t) = some s') : s'.Consistent B base ∧ s'.answered = s.answered := by
  rw [step] at hstep
  split at hstep
  case h_2 => simp at hstep
  rename_i a l hphase
  split at hstep
  · simp at hstep
  rename_i hanswer
  obtain ⟨⟨l', shared'⟩, hsmall, rfl⟩ := Option.map_eq_some_iff.mp hstep
  have ht := h.fits t
  rw [hphase] at ht
  have hreaches := ht.1.tail ⟨hanswer, hsmall⟩
  cases hexclusive : B.exclusive a with
  | true =>
    have hwriter := ht.2.1.mp hexclusive
    have halone := h.alone (by simp [hwriter])
    refine ⟨⟨fun hw => ?_, h.alone, Function.forall_update_iff _ _ |>.mpr
      ⟨⟨hreaches, ht.2⟩, fun u hut => (h.fits u).congr Iff.rfl Iff.rfl fun hu => ?_⟩⟩, rfl⟩
    · simp [hwriter] at hw
    · simp [hwriter, halone, Ne.symm hut] at hu
  | false =>
    have hwriter : s.writer = none := by
      by_contra hw
      have hreader := ht.2.2.mp hexclusive
      simp [h.alone hw] at hreader
    have hshared := h.unwritten hwriter
    have hback := ht.1
    rw [hshared] at hback hsmall
    obtain rfl := hreads a base l l' shared' hexclusive hback hsmall
    exact ⟨⟨fun _ => rfl, h.alone, Function.forall_update_iff _ _ |>.mpr
      ⟨⟨hreaches, ht.2⟩, fun u _ => (h.fits u).congr Iff.rfl Iff.rfl fun _ => ⟨rfl, hshared.symm⟩⟩⟩, rfl⟩

/-- The thread that leaves has computed its answer from `base`. -/
theorem leave (h : s.Consistent B base) (hstep : s.step B (.leave t) = some s') :
    ∃ a o base', s'.answered = s.answered ++ [(a, o)] ∧ B.Computes a base o base' ∧
      s'.Consistent B base' := by
  rw [step] at hstep
  split at hstep
  case h_2 => simp at hstep
  rename_i a l hphase
  obtain ⟨o, hanswer, rfl⟩ := Option.map_eq_some_iff.mp hstep
  have ht := h.fits t
  rw [hphase] at ht
  refine ⟨a, o, s.shared, by simp [answered], ⟨l, ht.1, hanswer⟩, fun _ => rfl, fun hw => ?_,
    Function.forall_update_iff _ _ |>.mpr ⟨⟨?_, Finset.notMem_erase _ _⟩, fun u hut => ?_⟩⟩
  · by_cases hwriter : s.writer = some t
    · simp [hwriter] at hw
    · rw [if_neg hwriter] at hw
      simp [h.alone hw]
  · by_cases hwriter : s.writer = some t <;> simp [hwriter]
  · refine (h.fits u).congr ?_ (by simp [hut]) fun hu => ⟨?_, rfl⟩
    · by_cases hwriter : s.writer = some t <;> simp [hwriter, Ne.symm hut]
    · by_cases hwriter : s.writer = none
      · exact h.unwritten hwriter
      -- another thread inside beside a writer that leaves
      · have halone := h.alone hwriter
        have hexclusive := ht.of_inside
        simp only [halone, Finset.notMem_empty, or_false] at hexclusive hu
        rw [hexclusive, Option.some_inj] at hu
        exact absurd hu.symm hut

/-- One step. -/
theorem step {act : Act T A} (h : s.Consistent B base) (hreads : B.ReadsOnly)
    (hstep : s.step B act = some s') :
    (s'.answered = s.answered ∧ s'.Consistent B base) ∨
    ∃ a o base', s'.answered = s.answered ++ [(a, o)] ∧ B.Computes a base o base' ∧
      s'.Consistent B base' := by
  cases act with
  | call t a => exact .inl (h.call hstep).symm
  | enter t => exact .inl (h.enter hstep).symm
  | refuse t => exact .inl (h.refuse hstep).symm
  | advance t => exact .inl (h.advance hreads hstep).symm
  | leave t => exact .inr (h.leave hstep)

end Consistent

/-- In every interleaving, the calls have the answers of the operations run one after another in the
order in which they return. -/
theorem run_serial {B : Bodies A O S L} {s₀ : S} {s' : System T A O S L} {acts : List (Act T A)}
    (hreads : B.ReadsOnly) (hrun : Runs.run (step B) (create s₀) acts = some s') :
    ∃ base, B.Serial s₀ s'.answered base ∧ s'.Consistent B base := by
  let inv : System T A O S L → Prop := fun s => ∃ base, B.Serial s₀ s.answered base ∧ s.Consistent B base
  have hstart : inv (create s₀) := ⟨s₀, rfl, Consistent.create s₀⟩
  have preserves : ∀ s act s', inv s → s.step B act = some s' → inv s' := by
    rintro s act s' ⟨base, hserial, hconsistent⟩ hstep
    rcases hconsistent.step hreads hstep with ⟨hanswered, h'⟩ | ⟨a, o, base', hanswered, hcomputes, h'⟩
    · exact ⟨base, hanswered ▸ hserial, h'⟩
    · exact ⟨base', hanswered ▸ hserial.snoc hcomputes, h'⟩
  show inv s'
  exact Runs.run_preserves (fun s act s' h _ hstep => preserves s act s' h hstep) hstart
    (Runs.regular_true _) hrun

/-- Where the operations inside have answers to come to, somebody waiting or inside can go on. -/
theorem Consistent.progress {B : Bodies A O S L} {s : System T A O S L} {base : S}
    (h : s.Consistent B base)
    (returns : ∀ t a l, s.phase t = .inside a l → ∃ o base', B.Computes a base o base') :
    (∀ t, s.phase t = .idle) ∨
      ∃ t, ∃ act ∈ [Act.enter t, Act.advance t, Act.leave t], ∃ s', s.step B act = some s' := by
  by_cases hinside : ∃ t a l, s.phase t = .inside a l
  · obtain ⟨t, a, l, hphase⟩ := hinside
    obtain ⟨o, base', hcomputes⟩ := returns t a l hphase
    have ht := h.fits t
    rw [hphase] at ht
    obtain ⟨l', hahead, hanswer⟩ := ht.1.ahead hcomputes
    right
    rcases Relation.ReflTransGen.cases_head hahead with hsame | ⟨⟨l1, s1⟩, hsmall, -⟩
    · rw [Prod.mk.injEq] at hsame
      obtain ⟨rfl, -⟩ := hsame
      refine ⟨t, .leave t, by simp, Option.isSome_iff_exists.mp ?_⟩
      simp [System.step, hphase, hanswer]
    · obtain ⟨hnone, hsmall⟩ := hsmall
      dsimp only at hnone hsmall
      refine ⟨t, .advance t, by simp, Option.isSome_iff_exists.mp ?_⟩
      simp [System.step, hphase, hnone, hsmall]
  · -- a lock with nobody inside is free
    have hfree : s.writer = none ∧ s.readers = ∅ := by
      have hnobody : ∀ t, s.writer ≠ some t ∧ t ∉ s.readers := by
        intro t
        have ht := h.fits t
        cases hphase : s.phase t with
        | inside a l => exact absurd ⟨t, a, l, hphase⟩ hinside
        | idle => rwa [hphase] at ht
        | waiting a => rwa [hphase] at ht
      exact ⟨Option.eq_none_iff_forall_ne_some.mpr fun t => (hnobody t).1,
        Finset.eq_empty_of_forall_notMem fun t => (hnobody t).2⟩
    by_cases hwaiting : ∃ t a, s.phase t = .waiting a
    · obtain ⟨t, a, hphase⟩ := hwaiting
      refine .inr ⟨t, .enter t, by simp, ?_⟩
      rw [System.step, hphase]
      cases hexclusive : B.exclusive a <;> simp [hexclusive, hfree.1, hfree.2]
    · left
      intro t
      cases hphase : s.phase t with
      | idle => rfl
      | waiting a => exact absurd ⟨t, a, hphase⟩ hwaiting
      | inside a l => exact absurd ⟨t, a, l, hphase⟩ hinside

end System

end RwLock
