import Mathlib.Data.List.Nodup
import Mathlib.Data.Option.Basic

/-! Linked lists through partial functions.  `Path next p xs q` follows `next` from the pointer `p`
through `xs` to the pointer `q`, and `Dll` is a doubly linked list with its two ends.  The theorems
state what unlinking a node and linking one at either end do to such a list, for any change of the
two link functions that agrees with the old ones elsewhere. -/

namespace Linked

variable {A : Type}

/-- Following `next` from `p` visits `xs` in order and arrives at `q`. -/
def Path (next : A → Option A) : Option A → List A → Option A → Prop
  | p, [], q => p = q
  | p, x :: xs, q => p = some x ∧ Path next (next x) xs q

@[simp] theorem path_nil {next : A → Option A} {p q : Option A} : Path next p [] q ↔ p = q :=
  Iff.rfl

@[simp] theorem path_cons {next : A → Option A} {p q : Option A} {x : A} {xs : List A} :
    Path next p (x :: xs) q ↔ p = some x ∧ Path next (next x) xs q := Iff.rfl

theorem path_append {next : A → Option A} {p q : Option A} {xs ys : List A} :
    Path next p (xs ++ ys) q ↔ ∃ m, Path next p xs m ∧ Path next m ys q := by
  induction xs generalizing p with
  | nil => simp
  | cons x xs ih => simp [ih, and_assoc]

/-- A path depends on the links of its own nodes only. -/
theorem Path.congr {next next' : A → Option A} {p q : Option A} {xs : List A}
    (h : Path next p xs q) (same : ∀ x ∈ xs, next' x = next x) : Path next' p xs q := by
  induction xs generalizing p with
  | nil => exact h
  | cons x xs ih =>
    refine ⟨h.1, ?_⟩
    rw [same x (by simp)]
    exact ih h.2 fun y hy => same y (by simp [hy])

/-- The nodes of a path that ends are determined by where it starts. -/
theorem Path.unique {next : A → Option A} {p : Option A} {xs ys : List A}
    (hx : Path next p xs none) (hy : Path next p ys none) : xs = ys := by
  induction xs generalizing p ys with
  | nil =>
    cases ys with
    | nil => rfl
    | cons y ys => simp [path_nil.mp hx] at hy
  | cons x xs ih =>
    cases ys with
    | nil => simp [path_nil.mp hy] at hx
    | cons y ys =>
      have hxy : x = y := by simpa using hx.1.symm.trans hy.1
      subst hxy
      rw [ih hx.2 hy.2]

/-- A path that ends visits no node twice. -/
theorem Path.nodup {next : A → Option A} {p : Option A} {xs : List A}
    (h : Path next p xs none) : xs.Nodup := by
  induction xs generalizing p with
  | nil => simp
  | cons x xs ih =>
    refine List.nodup_cons.mpr ⟨fun hx => ?_, ih h.2⟩
    obtain ⟨before, after, rfl⟩ := List.append_of_mem hx
    obtain ⟨m, -, hm, hafter⟩ := path_append.mp h.2
    have hlen := congrArg List.length (Path.unique h.2 hafter)
    simp at hlen
    omega

theorem Path.head_eq {next : A → Option A} {p : Option A} {xs : List A}
    (h : Path next p xs none) : p = xs.head? := by
  cases xs with
  | nil => exact h
  | cons x xs => exact h.1

/-- In a path that ends, the link of a node leads to the node after it. -/
theorem Path.next_eq {next : A → Option A} {p : Option A} {before after : List A} {x : A}
    (h : Path next p (before ++ x :: after) none) : next x = after.head? := by
  obtain ⟨m, -, -, hafter⟩ := path_append.mp h
  exact hafter.head_eq

theorem Path.next_of_ne_last {next : A → Option A} {p : Option A} {xs : List A} {x : A}
    (h : Path next p xs none) (hx : x ∈ xs) (hlast : xs.getLast? ≠ some x) :
    ∃ y ∈ xs, next x = some y := by
  obtain ⟨before, after, rfl⟩ := List.append_of_mem hx
  cases after with
  | nil => simp at hlast
  | cons y after => exact ⟨y, by simp, h.next_eq⟩

/-- Unlinking `x`: the node before it, or the start, takes the link of `x`. -/
theorem Path.unlink {next next' : A → Option A} {p p' q : Option A} {before after : List A}
    {x : A} (h : Path next p (before ++ x :: after) q) (nodup : (before ++ x :: after).Nodup)
    (start : p' = if before = [] then next x else p)
    (last : ∀ y, before.getLast? = some y → next' y = next x)
    (same : ∀ y ∈ before ++ after, before.getLast? ≠ some y → next' y = next y) :
    Path next' p' (before ++ after) q := by
  induction before generalizing p p' with
  | nil =>
    obtain ⟨-, hafter⟩ := h
    subst start
    exact hafter.congr fun y hy => same y hy (by simp)
  | cons y before ih =>
    obtain ⟨rfl, hrest⟩ := h
    refine ⟨by simp [start], ih hrest (List.nodup_cons.mp nodup).2 ?_ ?_ ?_⟩
    · cases before with
      | nil => simpa using last y (by simp)
      | cons z before =>
        have hne : (y :: z :: before).getLast? ≠ some y := by
          intro he
          have hmem := List.mem_of_getLast? (by simpa using he : (z :: before).getLast? = some y)
          exact (List.nodup_cons.mp nodup).1 (by simp at hmem ⊢; tauto)
        simpa using same y (by simp) hne
    · intro z hz
      refine last z ?_
      cases before with
      | nil => simp at hz
      | cons w before => simpa using hz
    · intro z hz hne
      refine same z (by simp at hz ⊢; tauto) ?_
      cases before with
      | nil =>
        intro he
        have : y = z := by simpa using he
        subst this
        exact (List.nodup_cons.mp nodup).1 (by simp at hz ⊢; tauto)
      | cons w before => simpa using hne

/-- Linking `x` after the last node. -/
theorem Path.snoc {next next' : A → Option A} {p p' : Option A} {xs : List A} {x : A}
    (h : Path next p xs none)
    (start : p' = if xs = [] then some x else p) (last : ∀ y, xs.getLast? = some y → next' y = some x)
    (fresh : next' x = none)
    (same : ∀ y ∈ xs, xs.getLast? ≠ some y → next' y = next y) :
    Path next' p' (xs ++ [x]) none := by
  have nodup := h.nodup
  induction xs generalizing p p' with
  | nil => exact ⟨by simpa using start, fresh⟩
  | cons y xs ih =>
    obtain ⟨rfl, hrest⟩ := h
    refine ⟨by simp [start], ih hrest ?_ ?_ ?_ (List.nodup_cons.mp nodup).2⟩
    · cases xs with
      | nil => simpa using last y (by simp)
      | cons z xs =>
        have hne : (y :: z :: xs).getLast? ≠ some y := by
          intro he
          have hmem := List.mem_of_getLast? (by simpa using he : (z :: xs).getLast? = some y)
          exact (List.nodup_cons.mp nodup).1 hmem
        simpa using same y (by simp) hne
    · intro z hz
      refine last z ?_
      cases xs with
      | nil => simp at hz
      | cons w xs => simpa using hz
    · intro z hz hne
      refine same z (by simp [hz]) ?_
      cases xs with
      | nil => simp at hz
      | cons w xs => simpa using hne

/-- A doubly linked list: `next` leads from `head` through `xs`, and `prev` leads from `tail`
through `xs` backwards. -/
structure Dll (next prev : A → Option A) (head tail : Option A) (xs : List A) : Prop where
  forward : Path next head xs none
  backward : Path prev tail xs.reverse none

namespace Dll

variable {next prev next' prev' : A → Option A} {head tail head' tail' : Option A} {xs : List A}

theorem empty : Dll next prev none none [] := ⟨rfl, rfl⟩

theorem nodup (h : Dll next prev head tail xs) : xs.Nodup := h.forward.nodup

theorem head_eq (h : Dll next prev head tail xs) : head = xs.head? := h.forward.head_eq

theorem tail_eq (h : Dll next prev head tail xs) : tail = xs.getLast? := by
  rw [h.backward.head_eq, List.head?_reverse]

theorem next_eq {before after : List A} {x : A}
    (h : Dll next prev head tail (before ++ x :: after)) : next x = after.head? :=
  h.forward.next_eq

theorem prev_eq {before after : List A} {x : A}
    (h : Dll next prev head tail (before ++ x :: after)) : prev x = before.getLast? := by
  have hb := h.backward
  rw [List.reverse_append, List.reverse_cons, List.append_assoc, List.singleton_append] at hb
  rw [hb.next_eq, List.head?_reverse]

theorem congr (h : Dll next prev head tail xs) (hn : ∀ x ∈ xs, next' x = next x)
    (hp : ∀ x ∈ xs, prev' x = prev x) : Dll next' prev' head tail xs :=
  ⟨h.forward.congr hn, h.backward.congr fun x hx => hp x (by simpa using hx)⟩

/-- Taking `x` out of a list.  Its neighbours, or the ends where it has none, take its links. -/
theorem unlink {before after : List A} {x : A}
    (h : Dll next prev head tail (before ++ x :: after))
    (hhead : head' = if before = [] then next x else head)
    (htail : tail' = if after = [] then prev x else tail)
    (hnext : ∀ y, before.getLast? = some y → next' y = next x)
    (hprev : ∀ y, after.head? = some y → prev' y = prev x)
    (sameNext : ∀ y ∈ before ++ after, before.getLast? ≠ some y → next' y = next y)
    (samePrev : ∀ y ∈ before ++ after, after.head? ≠ some y → prev' y = prev y) :
    Dll next' prev' head' tail' (before ++ after) := by
  refine ⟨h.forward.unlink h.nodup hhead hnext sameNext, ?_⟩
  have hb := h.backward
  rw [List.reverse_append, List.reverse_cons, List.append_assoc, List.singleton_append] at hb
  rw [List.reverse_append]
  refine hb.unlink hb.nodup (by simpa using htail) ?_ ?_
  · intro y hy
    exact hprev y (by simpa using hy)
  · intro y hy hne
    exact samePrev y (by simp at hy ⊢; tauto) (by simpa using hne)

/-- Linking a new node `x` at the back. -/
theorem pushBack {x : A} (h : Dll next prev head tail xs)
    (hhead : head' = if xs = [] then some x else head)
    (hnext : ∀ y, xs.getLast? = some y → next' y = some x) (hx : next' x = none)
    (hprev : prev' x = tail)
    (sameNext : ∀ y ∈ xs, xs.getLast? ≠ some y → next' y = next y)
    (samePrev : ∀ y ∈ xs, prev' y = prev y) :
    Dll next' prev' head' (some x) (xs ++ [x]) := by
  refine ⟨h.forward.snoc hhead hnext hx sameNext, ?_⟩
  rw [List.reverse_append]
  refine ⟨rfl, ?_⟩
  rw [hprev]
  exact h.backward.congr fun y hy => samePrev y (by simpa using hy)

/-- Linking a new node `x` at the front. -/
theorem pushFront {x : A} (h : Dll next prev head tail xs)
    (htail : tail' = if xs = [] then some x else tail)
    (hprev : ∀ y, xs.head? = some y → prev' y = some x) (hx : prev' x = none)
    (hnext : next' x = head)
    (samePrev : ∀ y ∈ xs, xs.head? ≠ some y → prev' y = prev y)
    (sameNext : ∀ y ∈ xs, next' y = next y) :
    Dll next' prev' (some x) tail' (x :: xs) := by
  refine ⟨⟨rfl, ?_⟩, ?_⟩
  · rw [hnext]
    exact h.forward.congr sameNext
  · rw [List.reverse_cons]
    refine h.backward.snoc (by simpa using htail) (fun y hy => hprev y (by simpa using hy)) hx ?_
    intro y hy hne
    exact samePrev y (by simpa using hy) (by simpa using hne)

end Dll

end Linked
