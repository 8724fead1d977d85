import Mathlib.Data.Finset.Card
import Mathlib.Data.Finset.Erase
import Mathlib.Data.List.Dedup
import Mathlib.Data.List.DropRight
import Mathlib.Tactic.Linarith
import Mathlib.Tactic.Ring

/-! Caches that hold the most recently used keys.  The keys that such a cache holds are the last
distinct ones, so that a larger cache holds those of a smaller one.  No way to choose which key leaves,
even with the later accesses known, has fewer misses than a cache of the most recent keys by more than
a factor. -/

namespace Recency

variable {K : Type*} [DecidableEq K]

/-! ### The last distinct keys -/

/-- The last `c` distinct keys of a list, in the order of their last occurrence. -/
def recent (c : Nat) (ks : List K) : List K := ks.dedup.rtake c

/-- An access: the key becomes the most recent one, and the oldest one leaves a cache that is full. -/
def touch (c : Nat) (l : List K) (k : K) : List K := (l.erase k ++ [k]).rtake c

section

variable {c d : Nat} {l ks : List K} {k : K}

omit [DecidableEq K] in
theorem rtake_append {l1 l2 : List K} (h : c ≤ l2.length) : (l1 ++ l2).rtake c = l2.rtake c := by
  rw [List.rtake, List.rtake, List.length_append, List.drop_append,
    List.drop_eq_nil_of_le (by omega), List.nil_append]
  congr 1
  omega

omit [DecidableEq K] in
theorem rtake_of_length_le (h : l.length ≤ c) : l.rtake c = l := by
  rw [List.rtake, Nat.sub_eq_zero_of_le h, List.drop_zero]

theorem dedup_snoc (ks : List K) (k : K) : (ks ++ [k]).dedup = ks.dedup.erase k ++ [k] := by
  induction ks with
  | nil => rfl
  | cons j ks ih =>
    rw [List.cons_append, List.dedup_cons, List.dedup_cons, ih]
    by_cases hj : j ∈ ks
    · rw [if_pos hj, if_pos (by simp [hj])]
    · rw [if_neg hj]
      by_cases hjk : j = k
      · subst hjk
        rw [if_pos (by simp), List.erase_cons_head, List.erase_of_not_mem (by simpa using hj)]
      · rw [if_neg (by simp [hj, hjk]), List.erase_cons_tail (by simpa using hjk), List.cons_append]

/-- An access drops what a cache of the size does not hold anyway. -/
theorem touch_rtake (h : l.Nodup) (k : K) : touch c (l.rtake c) k = touch c l k := by
  cases c with
  | zero => simp [touch]
  | succ c =>
    rw [touch, touch, List.rtake_concat_succ, List.rtake_concat_succ]
    congr 1
    obtain ⟨before, last, hsplit, hlast⟩ : ∃ before last, l = before ++ last ∧ l.rtake (c + 1) = last :=
      ⟨l.take (l.length - (c + 1)), l.rtake (c + 1), (List.take_append_drop ..).symm, rfl⟩
    rw [hlast]
    by_cases hshort : l.length ≤ c + 1
    · rw [← hlast, rtake_of_length_le hshort]
    · have hlength : last.length = c + 1 := by
        rw [← hlast, List.rtake, List.length_drop]
        omega
      subst hsplit
      by_cases hk : k ∈ last
      · have hbefore : k ∉ before := fun hmem => (List.nodup_append.mp h).2.2 k hmem k hk rfl
        rw [List.erase_append_right _ hbefore, rtake_append (by rw [List.length_erase_of_mem hk]; omega)]
      · rw [List.erase_of_not_mem hk]
        by_cases hbefore : k ∈ before
        · rw [List.erase_append_left _ hbefore, rtake_append (by omega)]
        · rw [List.erase_append_right _ hbefore, List.erase_of_not_mem hk, rtake_append (by omega)]

theorem recent_snoc (c : Nat) (ks : List K) (k : K) :
    recent c (ks ++ [k]) = touch c (recent c ks) k := by
  rw [recent, recent, touch_rtake ks.nodup_dedup, dedup_snoc, touch]

/-- A larger cache holds the keys of a smaller one, as its most recent ones. -/
theorem recent_suffix (h : c ≤ d) (ks : List K) : recent c ks <:+ recent d ks :=
  List.drop_suffix_drop_left _ (by omega)

end

/-! ### Hits -/

/-- Which accesses find their key, after the accesses `seen`. -/
def hits (c : Nat) (seen : List K) : List K → List Bool
  | [] => []
  | k :: ks => decide (k ∈ recent c seen) :: hits c (seen ++ [k]) ks

section

variable {c d : Nat} {seen ks : List K}

theorem hits_getElem? (i : Nat) :
    (hits c seen ks)[i]? = ks[i]?.map fun k => decide (k ∈ recent c (seen ++ ks.take i)) := by
  induction ks generalizing seen i with
  | nil => simp [hits]
  | cons k ks ih =>
    cases i with
    | zero => simp [hits]
    | succ i =>
      rw [hits, List.getElem?_cons_succ, List.getElem?_cons_succ, List.take_succ_cons, ih]
      congr! 3
      rw [List.append_assoc, List.singleton_append]

/-- What a smaller cache finds, a larger one finds. -/
theorem hits_mono (h : c ≤ d) :
    List.Forall₂ (fun a b => a = true → b = true) (hits c seen ks) (hits d seen ks) := by
  induction ks generalizing seen with
  | nil => exact .nil
  | cons k ks ih =>
    refine .cons (fun hk => ?_) ih
    rw [decide_eq_true_eq] at hk ⊢
    exact (recent_suffix h seen).subset hk

end

/-! ### Loops -/

section

variable {c : Nat} {l l' turn seen done ks : List K} {k : K}

theorem hits_append (c : Nat) (seen ks js : List K) :
    hits c seen (ks ++ js) = hits c seen ks ++ hits c (seen ++ ks) js := by
  induction ks generalizing seen with
  | nil => simp [hits]
  | cons k ks ih => simp [hits, ih]

omit [DecidableEq K] in
/-- A key goes behind those of a turn that are held, which are fewer than the turn has. -/
theorem suffix_turn (h : l <:+ turn) (hl : l' <:+ l) (hlt : l'.length < turn.length) (k : K) :
    l' ++ [k] <:+ (turn ++ [k]).tail := by
  cases turn with
  | nil => simp at hlt
  | cons x turn =>
    rcases List.suffix_cons_iff.mp (hl.trans h) with rfl | ⟨first, rfl⟩
    · simp at hlt
    · exact ⟨first, by simp⟩

/-- After a miss, the keys held are still those that come last in turn. -/
theorem touch_turn (h : l <:+ turn) (hk : k ∉ turn) (hc : c ≤ turn.length) :
    touch c l k <:+ (turn ++ [k]).tail := by
  rw [touch, List.erase_of_not_mem fun hmem => hk (h.subset hmem)]
  cases c with
  | zero => simp
  | succ c =>
    rw [List.rtake_concat_succ]
    have hlength : (l.rtake c).length ≤ c := by
      rw [List.rtake, List.length_drop]
      omega
    have hsuffix : l.rtake c <:+ l := List.drop_suffix _ _
    exact suffix_turn h hsuffix (by omega) k

/-- Keys that come in turn, of which there are more than the cache holds, are not found. -/
theorem hits_turn (nodup : (ks ++ done).Nodup) (hc : c < (ks ++ done).length)
    (h : recent c seen <:+ (ks ++ done).tail) :
    hits c seen ks = List.replicate ks.length false ∧
      recent c (seen ++ ks) <:+ (done ++ ks).tail := by
  induction ks generalizing seen done with
  | nil => simpa [hits] using h
  | cons k ks ih =>
    rw [List.cons_append, List.nodup_cons] at nodup
    rw [List.cons_append, List.length_cons] at hc
    rw [List.cons_append, List.tail_cons] at h
    have hperm : (ks ++ (done ++ [k])).Perm (k :: (ks ++ done)) := by
      rw [← List.append_assoc]
      exact List.perm_append_singleton k _
    have hnext := touch_turn h nodup.1 (show c ≤ (ks ++ done).length by omega)
    rw [← recent_snoc, List.append_assoc] at hnext
    obtain ⟨hhits, hlast⟩ := ih (hperm.nodup_iff.mpr (List.nodup_cons.mpr nodup))
      (by rw [hperm.length_eq, List.length_cons]; omega) hnext
    constructor
    · rw [hits, hhits, decide_eq_false fun hmem => nodup.1 (h.subset hmem), List.length_cons,
        List.replicate_succ]
    · simpa using hlast

/-- A loop over more keys than the cache holds finds none of them. -/
theorem hits_loop (nodup : ks.Nodup) (hc : c < ks.length) (h : recent c seen <:+ ks.tail) (n : Nat) :
    hits c seen (List.replicate n ks).flatten = List.replicate (n * ks.length) false := by
  induction n generalizing seen with
  | zero => simp [hits]
  | succ n ih =>
    obtain ⟨hround, hlast⟩ := @hits_turn K _ c seen [] ks (by simpa using nodup) (by simpa using hc)
      (by simpa using h)
    rw [List.replicate_succ, List.flatten_cons, hits_append, hround, ih hlast, Nat.succ_mul,
      Nat.add_comm, List.replicate_add]

end

/-! ### Any other cache -/

/-- A cache of `h` keys, of which it holds `C`, serves the accesses with `n` misses.  It keeps the keys
that it misses, and lets go whichever it likes, one for a miss. -/
inductive Serves (h : Nat) : Finset K → List K → Nat → Prop
  | nil (C : Finset K) : Serves h C [] 0
  | hit {C : Finset K} {k : K} {ks : List K} {n : Nat} :
    k ∈ C → Serves h C ks n → Serves h C (k :: ks) n
  | room {C : Finset K} {k : K} {ks : List K} {n : Nat} :
    k ∉ C → C.card < h → Serves h (insert k C) ks n → Serves h C (k :: ks) (n + 1)
  | evict {C : Finset K} {k y : K} {ks : List K} {n : Nat} :
    k ∉ C → y ∈ C → Serves h (insert k (C.erase y)) ks n → Serves h C (k :: ks) (n + 1)

/-- The misses of the cache of the most recent keys, of which it holds `l`. -/
def misses (c : Nat) (l : List K) : List K → Nat
  | [] => 0
  | k :: ks => (if k ∈ l then 0 else 1) + misses c (touch c l k) ks

/-- The keys of `l` that are not in `C`, each counted as often as its distance from leaving. -/
def potential (c : Nat) (C : Finset K) : List K → Nat
  | [] => 0
  | x :: l => (if x ∈ C then 0 else c - l.length) + potential c C l

/-- What empty places count. -/
def gaps : Nat → Nat
  | 0 => 0
  | n + 1 => n + 1 + gaps n

def total (c : Nat) (C : Finset K) (l : List K) : Nat := potential c C l + gaps (c - l.length)

section

variable {c h n : Nat} {C : Finset K} {l ks seen : List K} {k y : K}

theorem two_mul_gaps (n : Nat) : 2 * gaps n = n * (n + 1) := by
  induction n with
  | zero => rfl
  | succ n ih => rw [gaps, Nat.mul_add, ih]; ring

theorem count_hits : (hits c seen ks).count false = misses c (recent c seen) ks := by
  induction ks generalizing seen with
  | nil => rfl
  | cons k ks ih =>
    rw [hits, misses, List.count_cons, ih, recent_snoc, add_comm]
    by_cases hk : k ∈ recent c seen <;> simp [hk]

theorem potential_insert_le : potential c (insert k C) l ≤ potential c C l := by
  induction l with
  | nil => exact le_rfl
  | cons x l ih =>
    simp only [potential, Finset.mem_insert]
    split <;> split <;> simp_all; omega

theorem potential_erase_le (h : l.Nodup) : potential c (C.erase y) l ≤ potential c C l + c := by
  induction l with
  | nil => simp [potential]
  | cons x l ih =>
    obtain ⟨hx, hl⟩ := List.nodup_cons.mp h
    by_cases hxy : x = y
    · subst hxy
      have hsame : ∀ l' : List K, x ∉ l' → potential c (C.erase x) l' = potential c C l' := by
        intro l' hx'
        induction l' with
        | nil => rfl
        | cons z l' ih' =>
          simp only [List.mem_cons, not_or] at hx'
          simp [potential, Ne.symm hx'.1, ih' hx'.2]
      rw [potential, potential, hsame l hx]
      split <;> split <;> omega
    · simp only [potential, Finset.mem_erase, hxy, ne_eq, not_false_eq_true, true_and]
      have := ih hl
      omega

/-- Where a key that the other cache holds comes in, the others are one step nearer to leaving. -/
theorem potential_snoc (hk : k ∈ C) (hlength : l.length < c) :
    potential c C (l ++ [k]) + l.countP (· ∉ C) = potential c C l := by
  induction l with
  | nil => simp [potential, hk]
  | cons x l ih =>
    rw [List.length_cons] at hlength
    have hrest := ih (by omega)
    rw [List.cons_append, potential, potential, List.countP_cons, List.length_append,
      List.length_singleton]
    by_cases hx : x ∈ C
    · simp only [hx, if_true, not_true_eq_false, decide_false, Bool.false_eq_true, if_false]
      omega
    · simp only [hx, if_false, not_false_eq_true, decide_true, if_true]
      omega

theorem potential_hit (hk : k ∈ C) (hmem : k ∈ l) (hlength : l.length ≤ c) :
    potential c C (l.erase k ++ [k]) ≤ potential c C l := by
  induction l with
  | nil => simp at hmem
  | cons x l ih =>
    rw [List.length_cons] at hlength
    by_cases hxk : x = k
    · subst hxk
      have := potential_snoc hk (show l.length < c by omega)
      rw [List.erase_cons_head, potential, if_pos hk]
      omega
    · have hrest : k ∈ l := by simpa [Ne.symm hxk] using hmem
      have hpos := List.length_pos_of_mem hrest
      have := ih hrest (by omega)
      rw [List.erase_cons_tail (by simpa using hxk), List.cons_append, potential, potential,
        List.length_append, List.length_erase_of_mem hrest, List.length_singleton]
      rw [show l.length - 1 + 1 = l.length by omega]
      omega

/-- The other cache holds the key, so that it lacks most of those that are held here. -/
theorem length_le_countP (hl : l.Nodup) (hk : k ∈ C) (hmem : k ∉ l) :
    l.length + 1 ≤ l.countP (· ∉ C) + C.card := by
  have hsub : (l.filter (· ∈ C)).toFinset ⊆ C.erase k := by
    intro x hx
    simp only [List.mem_toFinset, List.mem_filter, decide_eq_true_eq] at hx
    exact Finset.mem_erase.mpr ⟨fun hxk => hmem (hxk ▸ hx.1), hx.2⟩
  have hcard := Finset.card_le_card hsub
  rw [List.toFinset_card_of_nodup (hl.filter _), Finset.card_erase_of_mem hk] at hcard
  have hsplit := List.length_eq_countP_add_countP (fun x => decide (x ∈ C)) (l := l)
  rw [List.countP_eq_length_filter] at hsplit
  have hpos := Finset.card_pos.mpr ⟨k, hk⟩
  simp only [decide_eq_true_eq] at hsplit
  omega

theorem touch_nodup (hl : l.Nodup) (k : K) : (touch c l k).Nodup := by
  refine List.Nodup.sublist (List.drop_sublist _ _) (List.nodup_append.mpr
    ⟨hl.erase k, List.nodup_singleton k, fun x hx y hy => ?_⟩)
  obtain rfl := List.mem_singleton.mp hy
  exact fun hxy => hl.not_mem_erase (hxy ▸ hx)

theorem touch_length_le : (touch c l k).length ≤ c := by
  rw [touch, List.rtake, List.length_drop]
  omega

theorem touch_mem (hmem : k ∈ l) (hlength : l.length ≤ c) : touch c l k = l.erase k ++ [k] := by
  have hpos := List.length_pos_of_mem hmem
  refine rtake_of_length_le ?_
  rw [List.length_append, List.length_erase_of_mem hmem, List.length_singleton]
  omega

theorem touch_notMem_room (hmem : k ∉ l) (hlength : l.length < c) : touch c l k = l ++ [k] := by
  rw [touch, List.erase_of_not_mem hmem]
  exact rtake_of_length_le (by simpa using Nat.succ_le_of_lt hlength)

theorem touch_notMem_full {x : K} (hmem : k ∉ x :: l) (hlength : l.length + 1 = c) :
    touch c (x :: l) k = l ++ [k] := by
  rw [touch, List.erase_of_not_mem hmem, List.cons_append, ← List.singleton_append]
  rw [rtake_append (by simp [← hlength])]
  exact rtake_of_length_le (by simp [hlength])

/-- An access to a key that the other cache holds.  A miss pays. -/
theorem total_touch (hl : l.Nodup) (hlength : l.length ≤ c) (hk : k ∈ C) (hC : C.card ≤ h)
    (hc : h ≤ c) :
    (c - h + 1) * (if k ∈ l then 0 else 1) + total c C (touch c l k) ≤ total c C l := by
  have hpos := Finset.card_pos.mpr ⟨k, hk⟩
  by_cases hmem : k ∈ l
  · have hsame : (l.erase k ++ [k]).length = l.length := by
      have := List.length_pos_of_mem hmem
      rw [List.length_append, List.length_erase_of_mem hmem, List.length_singleton]
      omega
    rw [if_pos hmem, Nat.mul_zero, Nat.zero_add, touch_mem hmem hlength, total, total, hsame]
    exact Nat.add_le_add_right (potential_hit hk hmem hlength) _
  · have hcount := length_le_countP hl hk hmem
    rw [if_neg hmem, Nat.mul_one]
    rcases Nat.lt_or_ge l.length c with hroom | hfull
    · have hsnoc := potential_snoc hk hroom
      obtain ⟨m, hm⟩ : ∃ m, c - l.length = m + 1 := ⟨c - l.length - 1, by omega⟩
      rw [touch_notMem_room hmem hroom, total, total, List.length_append, List.length_singleton, hm,
        show c - (l.length + 1) = m by omega, gaps]
      omega
    · cases l with
      | nil =>
        rw [List.length_nil] at hfull
        omega
      | cons x l =>
        rw [List.length_cons] at hlength hfull hcount
        have hsnoc := potential_snoc hk (show l.length < c by omega)
        rw [touch_notMem_full hmem (by omega), total, total, List.length_append,
          List.length_singleton, List.length_cons, potential]
        rw [List.countP_cons] at hcount
        by_cases hx : x ∈ C
        · simp only [hx, if_true, not_true_eq_false, decide_false, Bool.false_eq_true, if_false] at hcount ⊢
          omega
        · simp only [hx, if_false, not_false_eq_true, decide_true, if_true] at hcount ⊢
          omega

/-- By induction on what the other cache does: a miss of its own raises the potential by the size at
most, and every miss here lowers it. -/
theorem Serves.misses_le (hserves : Serves h C ks n) (hC : C.card ≤ h) (hc : h ≤ c) (hl : l.Nodup)
    (hlength : l.length ≤ c) : (c - h + 1) * misses c l ks ≤ c * n + total c C l := by
  -- one access, after which the other cache holds `D`
  have access : ∀ {D : Finset K} {k : K} {ks : List K} {m : Nat} {l : List K}, l.Nodup →
      l.length ≤ c → k ∈ D → D.card ≤ h →
      ((touch c l k).Nodup → (touch c l k).length ≤ c →
        (c - h + 1) * misses c (touch c l k) ks ≤ c * m + total c D (touch c l k)) →
      (c - h + 1) * misses c l (k :: ks) ≤ c * m + total c D l := by
    intro D k ks m l hl hlength hk hD ih
    have hstep := total_touch hl hlength hk hD hc
    have hrest := ih (touch_nodup hl k) touch_length_le
    rw [misses, Nat.mul_add]
    omega
  induction hserves generalizing l with
  | nil => simp [misses]
  | hit hk _ ih => exact access hl hlength hk hC (ih hC)
  | @room C k ks n hk hcard _ ih =>
    have hD : (insert k C).card ≤ h := (Finset.card_insert_le k C).trans hcard
    have hbound := access hl hlength (Finset.mem_insert_self k C) hD (ih hD)
    have hinsert := @potential_insert_le K _ c C l k
    rw [total] at hbound ⊢
    rw [Nat.mul_add]
    omega
  | @evict C k y ks n hk hy _ ih =>
    have hD : (insert k (C.erase y)).card ≤ h := by
      have := Finset.card_insert_le k (C.erase y)
      have := Finset.card_pos.mpr ⟨y, hy⟩
      rw [Finset.card_erase_of_mem hy] at *
      omega
    have hbound := access hl hlength (Finset.mem_insert_self k _) hD (ih hD)
    have hinsert := @potential_insert_le K _ c (C.erase y) l k
    have herase := @potential_erase_le K _ c C l y hl
    rw [total] at hbound ⊢
    rw [Nat.mul_add]
    omega

/-- No cache of at most `c` keys does better than by the factor `c / (c - h + 1)`. -/
theorem Serves.count_hits_le (hserves : Serves h C ks n) (hC : C.card ≤ h) (hc : h ≤ c) :
    2 * ((c - h + 1) * (hits c [] ks).count false) ≤ 2 * (c * n) + c * (c + 1) := by
  have hbound := hserves.misses_le hC hc List.nodup_nil (Nat.zero_le c)
  rw [count_hits, ← two_mul_gaps]
  simp only [total, potential, List.length_nil, Nat.sub_zero, Nat.zero_add] at hbound
  simp only [recent, List.dedup_nil, List.rtake_nil]
  omega

end

end Recency
