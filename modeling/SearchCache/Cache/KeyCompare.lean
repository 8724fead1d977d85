import SearchCache.Cache.Key
import SearchCache.Lib.Queries

/-! `key_compare` of `main.c`, the comparison of a search with the key of a cached result.  A match
means that the two have the same answers, or, where partial matches are asked for, that a term of the
cached result has only documents that answer the search. -/

namespace SearchCache

open Queries

def AND_OP : UInt8 := 94

def OR_OP : UInt8 := 124

/-- What `key_compare` reads of a `Result`. -/
structure Result where
  term1Found : Bool
  term2Found : Bool

/-- `strcmp`, where the bytes differ first. -/
def strcmp : List UInt8 → List UInt8 → Int
  | [], [] => 0
  | [], _ :: _ => -1
  | _ :: _, [] => 1
  | a :: s, b :: t => if a < b then -1 else if b < a then 1 else strcmp s t

/-- `key_get_term2` of a key that has two terms. -/
def secondTerm (key : List UInt8) : List UInt8 := (keyGetTerm2 key).getD []

/-- `key_compare` of two keys that are not NULL. -/
def keyCompare (partialCacheMatches : Int) (key1 key2 : List UInt8) (key2Result : Result) : Int :=
  let key1Op := keyGetOp key1
  let key2Op := keyGetOp key2
  if key1Op = AND_OP then
    if key2Op = AND_OP then
      if strcmp (keyGetTerm1 key1) (keyGetTerm1 key2) = 0 ∧ strcmp (secondTerm key1) (secondTerm key2) = 0
        ∨ strcmp (keyGetTerm1 key1) (secondTerm key2) = 0 ∧ strcmp (secondTerm key1) (keyGetTerm1 key2) = 0
      then 0 else 1
    else 1
  else if key1Op = OR_OP then
    if key2Op = AND_OP ∧ partialCacheMatches = 2 then
      if strcmp (keyGetTerm1 key1) (keyGetTerm1 key2) = 0
        ∨ strcmp (keyGetTerm1 key1) (secondTerm key2) = 0
        ∨ strcmp (secondTerm key1) (keyGetTerm1 key2) = 0
        ∨ strcmp (secondTerm key1) (secondTerm key2) = 0
      then 0 else 1
    else if key2Op = OR_OP then
      if partialCacheMatches = 2 then
        if (strcmp (keyGetTerm1 key1) (keyGetTerm1 key2) = 0
            ∨ strcmp (secondTerm key1) (keyGetTerm1 key2) = 0) ∧ key2Result.term1Found
          ∨ (strcmp (keyGetTerm1 key1) (secondTerm key2) = 0
            ∨ strcmp (secondTerm key1) (secondTerm key2) = 0) ∧ key2Result.term2Found
        then 0 else 1
      else if strcmp (keyGetTerm1 key1) (keyGetTerm1 key2) = 0 ∧ strcmp (secondTerm key1) (secondTerm key2) = 0
        ∨ strcmp (keyGetTerm1 key1) (secondTerm key2) = 0 ∧ strcmp (secondTerm key1) (keyGetTerm1 key2) = 0
      then 0 else 1
    else if key2Op = SINGLE_OP ∧ partialCacheMatches = 2 then
      if strcmp (keyGetTerm1 key1) (keyGetTerm1 key2) = 0 ∨ strcmp (secondTerm key1) (keyGetTerm1 key2) = 0
      then 0 else 1
    else 1
  else if key1Op = SINGLE_OP then
    if key2Op = AND_OP ∧ partialCacheMatches = 2 then
      if strcmp (keyGetTerm1 key1) (keyGetTerm1 key2) = 0 ∨ strcmp (keyGetTerm1 key1) (secondTerm key2) = 0
      then 0 else 1
    else if key2Op = OR_OP ∧ 1 ≤ partialCacheMatches then
      if strcmp (keyGetTerm1 key1) (keyGetTerm1 key2) = 0 ∧ key2Result.term1Found
        ∨ strcmp (keyGetTerm1 key1) (secondTerm key2) = 0 ∧ key2Result.term2Found
      then 0 else 1
    else if key2Op = SINGLE_OP then strcmp (keyGetTerm1 key1) (keyGetTerm1 key2)
    else 1
  else 1

theorem strcmp_eq_zero (s t : List UInt8) : strcmp s t = 0 ↔ s = t := by
  induction s generalizing t with
  | nil => cases t <;> simp [strcmp]
  | cons a s ih =>
    cases t with
    | nil => simp [strcmp]
    | cons b t =>
      rw [strcmp, List.cons.injEq, ← ih t]
      by_cases hab : a = b
      · simp [hab]
      · rcases UInt8.lt_or_lt_of_ne hab with hlt | hlt
        · simp [hlt, hab]
        · simp [hlt, UInt8.lt_asymm hlt, hab]

/-! ### Searches -/

namespace Key

variable {k k1 k2 : Key}

/-- The terms of a key. -/
def terms (k : Key) : Set (List UInt8) := {t | t = k.term1 ∨ k.term2 = some t}

/-- The search that a key stands for. -/
def query (k : Key) : Query (List UInt8) := if k.op = OR_OP then .any k.terms else .all k.terms

/-- The operator is one of the three. -/
def Searches (k : Key) : Prop := k.op = AND_OP ∨ k.op = OR_OP ∨ k.op = SINGLE_OP

/-- The terms of a cached key whose documents are in its result. -/
def found (k : Key) (result : Result) : Set (List UInt8) :=
  if k.op = OR_OP then
    {t | t = k.term1 ∧ result.term1Found ∨ k.term2 = some t ∧ result.term2Found}
  else k.terms

theorem exists_term2 (h : k.op ≠ SINGLE_OP) : ∃ t, k.term2 = some t :=
  Option.ne_none_iff_exists'.mp fun hnone => h (k.single_iff.mp hnone)

theorem secondTerm_bytes {t : List UInt8} (h : k.term2 = some t) : secondTerm k.bytes = t := by
  rw [secondTerm, keyGetTerm2_bytes, h, Option.getD_some]

theorem terms_pair {t : List UInt8} (h : k.term2 = some t) : k.terms = {k.term1, t} := by
  ext u
  simp [terms, h, eq_comm]

theorem terms_single (h : k.op = SINGLE_OP) : k.terms = {k.term1} := by
  ext u
  simp [terms, k.single_iff.mpr h]

/-- The terms are the same, in the same order or not. -/
theorem terms_eq_iff {s t : List UInt8} (hs : k1.term2 = some s) (ht : k2.term2 = some t) :
    k1.terms = k2.terms ↔ k1.term1 = k2.term1 ∧ s = t ∨ k1.term1 = t ∧ s = k2.term1 := by
  rw [terms_pair hs, terms_pair ht, Set.pair_eq_pair_iff]

/-- A set has a term of a key. -/
theorem meets_iff (k : Key) {s : List UInt8} (hs : k.term2 = some s) {S : Set (List UInt8)} :
    (k.terms ∩ S).Nonempty ↔ k.term1 ∈ S ∨ s ∈ S := by
  rw [terms_pair hs, Set.insert_eq, Set.union_inter_distrib_right, Set.union_nonempty,
    Set.singleton_inter_nonempty, Set.singleton_inter_nonempty]

/-- The search is matched in part. -/
def Partly (partialCacheMatches : Int) (k1 k2 : Key) : Prop :=
  k1.op = OR_OP ∧ partialCacheMatches = 2 ∨
    k1.op = SINGLE_OP ∧ (k2.op = AND_OP ∧ partialCacheMatches = 2 ∨
      k2.op = OR_OP ∧ 1 ≤ partialCacheMatches)

/-- A term has only documents that answer the search for any of the terms of the key. -/
theorem term_narrows (h : k.op = OR_OP ∨ k.op = SINGLE_OP) (t : List UInt8) :
    Query.Narrows (.all {t}) k.query ↔ t ∈ k.terms := by
  have hany : Query.Same k.query (.any k.terms) := by
    rcases h with h | h
    · rw [query, if_pos h]
      exact fun I => rfl
    · rw [query, h, if_neg (by decide), terms_single h]
      exact Query.Same.symm (Query.any_singleton _)
  rw [Query.narrows_congr_right hany, Query.all_narrows_any, Set.inter_singleton_nonempty]

theorem not_single (h : k.op ≠ SINGLE_OP) (hne : k.term2 ≠ some k.term1) (t : List UInt8) :
    k.terms ≠ {t} := by
  intro hterms
  obtain ⟨s, hs⟩ := exists_term2 h
  have h1 : k.term1 ∈ k.terms := .inl rfl
  have h2 : s ∈ k.terms := .inr hs
  rw [hterms, Set.mem_singleton_iff] at h1 h2
  exact hne (by rw [hs, h1, h2])

theorem query_all (h : k.op ≠ OR_OP) : k.query = .all k.terms := if_neg h

theorem query_any (h : k.op = OR_OP) : k.query = .any k.terms := if_pos h

/-- Searches for one term or for two different ones have the same answers only where the operators and
the terms are the same. -/
theorem same_query_iff (h1 : k1.Searches) (h2 : k2.Searches) (hne1 : k1.term2 ≠ some k1.term1)
    (hne2 : k2.term2 ≠ some k2.term1) :
    Query.Same k1.query k2.query ↔ k1.op = k2.op ∧ k1.terms = k2.terms := by
  constructor
  · intro h
    have hor : OR_OP ≠ SINGLE_OP := by decide
    have hand : AND_OP ≠ SINGLE_OP := by decide
    by_cases hop1 : k1.op = OR_OP <;> by_cases hop2 : k2.op = OR_OP
    · rw [query_any hop1, query_any hop2, Query.any_same_any] at h
      exact ⟨hop1.trans hop2.symm, h⟩
    · rw [query_any hop1, query_all hop2] at h
      obtain ⟨t, -, ht⟩ := Query.all_same_any.mp h.symm
      exact (not_single (by rw [hop1]; exact hor) hne1 t ht).elim
    · rw [query_all hop1, query_any hop2] at h
      obtain ⟨t, -, ht⟩ := Query.all_same_any.mp h
      exact (not_single (by rw [hop2]; exact hor) hne2 t ht).elim
    · rw [query_all hop1, query_all hop2, Query.all_same_all] at h
      refine ⟨?_, h⟩
      -- a search for two terms is none for one
      rcases h1 with h1 | h1 | h1 <;> rcases h2 with h2 | h2 | h2 <;> try contradiction
      · exact h1.trans h2.symm
      · exact (not_single (by rw [h1]; exact hand) hne1 _ (h.trans (terms_single h2))).elim
      · exact (not_single (by rw [h2]; exact hand) hne2 _ (h.symm.trans (terms_single h1))).elim
      · exact h1.trans h2.symm
  · rintro ⟨hop, hterms⟩ D I
    rw [query, query, hop, hterms]

end Key

/-! ### What a match means -/

theorem match_iff (c : Prop) [Decidable c] : (if c then (0 : Int) else 1) = 0 ↔ c := by
  by_cases h : c <;> simp [h]

section Matches

variable {k1 k2 : Key} {partialCacheMatches : Int} {result : Result}

theorem keyCompare_and (h1 : k1.op = AND_OP) :
    keyCompare partialCacheMatches k1.bytes k2.bytes result = 0 ↔
      k2.op = AND_OP ∧ k1.terms = k2.terms := by
  obtain ⟨s, hs⟩ := Key.exists_term2 (k := k1) (by rw [h1]; decide)
  by_cases h2 : k2.op = AND_OP
  · obtain ⟨t, ht⟩ := Key.exists_term2 (k := k2) (by rw [h2]; decide)
    simp only [keyCompare, keyGetOp_bytes, h1, h2, if_true, match_iff, keyGetTerm1_bytes,
      Key.secondTerm_bytes hs, Key.secondTerm_bytes ht, strcmp_eq_zero, true_and]
    exact (Key.terms_eq_iff hs ht).symm
  · simp [keyCompare, h1, h2]

/-- A search for any of two terms that is not to be matched in part. -/
theorem keyCompare_or (h1 : k1.op = OR_OP) (hp : partialCacheMatches ≠ 2) :
    keyCompare partialCacheMatches k1.bytes k2.bytes result = 0 ↔
      k2.op = OR_OP ∧ k1.terms = k2.terms := by
  have hne : OR_OP ≠ AND_OP := by decide
  obtain ⟨s, hs⟩ := Key.exists_term2 (k := k1) (by rw [h1]; decide)
  by_cases h2 : k2.op = OR_OP
  · obtain ⟨t, ht⟩ := Key.exists_term2 (k := k2) (by rw [h2]; decide)
    simp only [keyCompare, keyGetOp_bytes, h1, h2, hne, hp, and_false, if_true, if_false, match_iff,
      keyGetTerm1_bytes, Key.secondTerm_bytes hs, Key.secondTerm_bytes ht, strcmp_eq_zero, true_and]
    exact (Key.terms_eq_iff hs ht).symm
  · simp [keyCompare, h1, h2, hp, hne]

/-- A search for one term that is not to be matched in part. -/
theorem keyCompare_single (h1 : k1.op = SINGLE_OP)
    (hand : ¬(k2.op = AND_OP ∧ partialCacheMatches = 2))
    (hor : ¬(k2.op = OR_OP ∧ 1 ≤ partialCacheMatches)) :
    keyCompare partialCacheMatches k1.bytes k2.bytes result = 0 ↔
      k2.op = SINGLE_OP ∧ k1.terms = k2.terms := by
  have hop : SINGLE_OP ≠ AND_OP ∧ SINGLE_OP ≠ OR_OP := by decide
  by_cases h2 : k2.op = SINGLE_OP
  · rw [Key.terms_single h1, Key.terms_single h2, Set.singleton_eq_singleton_iff]
    simp [keyCompare, h1, h2, hop, keyGetTerm1_bytes, strcmp_eq_zero]
  · simp only [keyCompare, keyGetOp_bytes, h1, h2, hop, hand, hor, if_true, if_false, one_ne_zero,
      false_and]

/-- A search for any of two terms that may be matched in part. -/
theorem keyCompare_or_partial (h1 : k1.op = OR_OP) (h2 : k2.Searches) :
    keyCompare 2 k1.bytes k2.bytes result = 0 ↔ (k1.terms ∩ k2.found result).Nonempty := by
  have hne : OR_OP ≠ AND_OP := by decide
  have hsingle : SINGLE_OP ≠ AND_OP ∧ SINGLE_OP ≠ OR_OP := by decide
  obtain ⟨s, hs⟩ := Key.exists_term2 (k := k1) (by rw [h1]; decide)
  rw [k1.meets_iff hs]
  rcases h2 with h2 | h2 | h2
  · obtain ⟨t, ht⟩ := Key.exists_term2 (k := k2) (by rw [h2]; decide)
    simp only [keyCompare, keyGetOp_bytes, h1, h2, hne, and_true, if_true, if_false, match_iff,
      keyGetTerm1_bytes, Key.secondTerm_bytes hs, Key.secondTerm_bytes ht, strcmp_eq_zero,
      Key.found, hne.symm, Key.terms_pair ht, Set.mem_insert_iff, Set.mem_singleton_iff, or_assoc]
  · obtain ⟨t, ht⟩ := Key.exists_term2 (k := k2) (by rw [h2]; decide)
    simp only [keyCompare, keyGetOp_bytes, h1, h2, hne, false_and, if_true, if_false, match_iff,
      keyGetTerm1_bytes, Key.secondTerm_bytes hs, Key.secondTerm_bytes ht, strcmp_eq_zero,
      Key.found, ht, Option.some.injEq, Set.mem_ofPred_eq, eq_comm (a := t)]
    tauto
  · simp only [keyCompare, keyGetOp_bytes, h1, h2, hne, hsingle, and_true, if_true, if_false,
      match_iff, keyGetTerm1_bytes, Key.secondTerm_bytes hs, strcmp_eq_zero, Key.found,
      Key.terms_single h2, Set.mem_singleton_iff, false_and]

/-- A search for one term that may be matched in part. -/
theorem keyCompare_single_partial (h1 : k1.op = SINGLE_OP)
    (h2 : k2.op = AND_OP ∧ partialCacheMatches = 2 ∨ k2.op = OR_OP ∧ 1 ≤ partialCacheMatches) :
    keyCompare partialCacheMatches k1.bytes k2.bytes result = 0 ↔
      (k1.terms ∩ k2.found result).Nonempty := by
  have hand : SINGLE_OP ≠ AND_OP := by decide
  have hor : SINGLE_OP ≠ OR_OP := by decide
  have hne : OR_OP ≠ AND_OP := by decide
  rw [Key.terms_single h1, Set.singleton_inter_nonempty]
  rcases h2 with ⟨h2, hp⟩ | ⟨h2, hp⟩
  · obtain ⟨t, ht⟩ := Key.exists_term2 (k := k2) (by rw [h2]; decide)
    simp only [keyCompare, keyGetOp_bytes, h1, h2, hp, hand, hor, hne.symm, and_true, if_true,
      if_false, match_iff, keyGetTerm1_bytes, Key.secondTerm_bytes ht, strcmp_eq_zero, Key.found,
      Key.terms_pair ht, Set.mem_insert_iff, Set.mem_singleton_iff]
  · obtain ⟨t, ht⟩ := Key.exists_term2 (k := k2) (by rw [h2]; decide)
    simp only [keyCompare, keyGetOp_bytes, h1, h2, hp, hand, hor, hne, and_true, false_and, if_true,
      if_false, match_iff, keyGetTerm1_bytes, Key.secondTerm_bytes ht, strcmp_eq_zero, Key.found,
      ht, Option.some.injEq, Set.mem_ofPred_eq, eq_comm (a := t)]

/-- A search that is not matched in part matches the keys of the same search. -/
theorem keyCompare_whole (h1 : k1.Searches) (hwhole : ¬k1.Partly partialCacheMatches k2) :
    keyCompare partialCacheMatches k1.bytes k2.bytes result = 0 ↔
      k1.op = k2.op ∧ k1.terms = k2.terms := by
  simp only [Key.Partly, not_or] at hwhole
  rcases h1 with h1 | h1 | h1
  · rw [keyCompare_and h1, h1, eq_comm (b := k2.op)]
  · rw [keyCompare_or h1 fun hp => hwhole.1 ⟨h1, hp⟩, h1, eq_comm (b := k2.op)]
  · have hp := not_or.mp fun hp => hwhole.2 ⟨h1, hp⟩
    rw [keyCompare_single h1 hp.1 hp.2, h1, eq_comm (b := k2.op)]

end Matches

/-- A search that is matched as a whole matches a key only where the two have the same answers in
every index, and matches each such key whose terms differ. -/
theorem keyCompare_same {k1 k2 : Key} {partialCacheMatches : Int} {result : Result}
    (h1 : k1.Searches) (h2 : k2.Searches) (hwhole : ¬k1.Partly partialCacheMatches k2) :
    (keyCompare partialCacheMatches k1.bytes k2.bytes result = 0 → Query.Same k1.query k2.query) ∧
    (k1.term2 ≠ some k1.term1 → k2.term2 ≠ some k2.term1 → Query.Same k1.query k2.query →
      keyCompare partialCacheMatches k1.bytes k2.bytes result = 0) := by
  rw [keyCompare_whole h1 hwhole]
  constructor
  · rintro ⟨hop, hterms⟩ D I
    rw [Key.query, Key.query, hop, hterms]
  · intro hne1 hne2 hsame
    exact (Key.same_query_iff h1 h2 hne1 hne2).mp hsame

/-- A key with two terms. -/
def Key.pair (op : UInt8) (term1 term2 : List UInt8) (two : op ≠ SINGLE_OP)
    (h1 : 0 ∉ term1 ∧ term1.length < 127) (h2 : 0 ∉ term2 ∧ term2.length < 127) : Key where
  op
  term1
  term2 := some term2
  single_iff := by simpa using two
  nonzero1 := h1.1
  nonzero2 := by simpa using h2.1
  short1 := h1.2
  short2 := by simpa using h2.2

/-- The order of the terms does not matter. -/
theorem keyCompare_same_swapped :
    Query.Same (Key.pair AND_OP [97] [98] (by decide) (by decide) (by decide)).query
      (Key.pair AND_OP [98] [97] (by decide) (by decide) (by decide)).query :=
  (@keyCompare_same _ _ 0 ⟨false, false⟩ (.inl rfl) (.inl rfl) (by unfold Key.Partly; decide)).1
    (by decide +kernel)

end SearchCache
