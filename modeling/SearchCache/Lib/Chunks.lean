import Mathlib.Data.List.Chain
import Mathlib.Data.Set.Insert

/-! Chunks that tile a region of memory, each with `o` bytes before its payload.  Joining a chunk with
a free one after it and cutting a chunk in two keep the tiling, the sizes and the used chunks, and
joining leaves no two free neighbours. -/

namespace Chunks

structure Chunk where
  addr : Nat
  size : Nat
  used : Bool
  deriving DecidableEq

/-- The address after the payload. -/
def Chunk.stop (o : Nat) (c : Chunk) : Nat := c.addr + o + c.size

/-- The chunks lie one after another from the first address to the second. -/
def Tiles (o : Nat) : Nat → List Chunk → Nat → Prop
  | a, [], b => a = b
  | a, c :: l, b => c.addr = a ∧ Tiles o (c.stop o) l b

/-- The payloads are not empty, and their sizes are multiples of `o`. -/
def Sized (o : Nat) (l : List Chunk) : Prop := ∀ c ∈ l, o ≤ c.size ∧ o ∣ c.size

/-- No two neighbours are both free. -/
def Coalesced (l : List Chunk) : Prop := l.IsChain fun c d => c.used ∨ d.used

def Used (l : List Chunk) : Set Chunk := {c | c ∈ l ∧ c.used}

variable {o a b : Nat} {c d : Chunk} {l before after : List Chunk}

@[simp] theorem tiles_nil : Tiles o a [] b ↔ a = b := Iff.rfl

@[simp] theorem tiles_cons : Tiles o a (c :: l) b ↔ c.addr = a ∧ Tiles o (c.stop o) l b := Iff.rfl

theorem tiles_append : Tiles o a (before ++ after) b ↔
    ∃ m, Tiles o a before m ∧ Tiles o m after b := by
  induction before generalizing a with
  | nil => simp
  | cons c before ih => simp [ih, and_assoc]

theorem Tiles.le (h : Tiles o a l b) : a ≤ b := by
  induction l generalizing a with
  | nil => exact le_of_eq h
  | cons c l ih =>
    have hstop := ih h.2
    have haddr := h.1
    simp only [Chunk.stop] at hstop
    omega

theorem Tiles.bounds (h : Tiles o a l b) (hc : c ∈ l) : a ≤ c.addr ∧ c.stop o ≤ b := by
  obtain ⟨before, after, rfl⟩ := List.append_of_mem hc
  obtain ⟨m, hbefore, hmid⟩ := tiles_append.mp h
  obtain ⟨rfl, hafter⟩ := hmid
  exact ⟨hbefore.le, hafter.le⟩

theorem Tiles.pairwise (h : Tiles o a l b) : l.Pairwise fun c d => c.stop o ≤ d.addr := by
  induction l generalizing a with
  | nil => exact .nil
  | cons c l ih => exact .cons (fun d hd => (h.2.bounds hd).1) (ih h.2)

theorem Tiles.apart (h : Tiles o a l b) (hc : c ∈ l) (hd : d ∈ l) :
    c = d ∨ c.stop o ≤ d.addr ∨ d.stop o ≤ c.addr := by
  obtain ⟨before, after, rfl⟩ := List.append_of_mem hc
  obtain ⟨-, hmid, hcross⟩ := List.pairwise_append.mp h.pairwise
  rcases List.mem_append.mp hd with hd | hd
  · exact .inr (.inr (hcross d hd c (by simp)))
  · rcases List.mem_cons.mp hd with rfl | hd
    · exact .inl rfl
    · exact .inr (.inl ((List.pairwise_cons.mp hmid).1 d hd))

/-- The chunks before and after `c` do not overlap it. -/
theorem Tiles.apart_mid (h : Tiles o a (before ++ c :: after) b) (hd : d ∈ before ++ after) :
    c.stop o ≤ d.addr ∨ d.stop o ≤ c.addr := by
  obtain ⟨-, hmid, hcross⟩ := List.pairwise_append.mp h.pairwise
  rcases List.mem_append.mp hd with hd | hd
  · exact .inr (hcross d hd c (by simp))
  · exact .inl ((List.pairwise_cons.mp hmid).1 d hd)

theorem Tiles.eq_of_addr (h : Tiles o a l b) (ho : 0 < o) (hc : c ∈ l) (hd : d ∈ l)
    (heq : c.addr = d.addr) : c = d := by
  rcases h.apart hc hd with rfl | hle | hle
  · rfl
  · simp only [Chunk.stop] at hle
    omega
  · simp only [Chunk.stop] at hle
    omega

theorem Sized.of_subset (h : Sized o l) {l' : List Chunk} (hsub : ∀ c ∈ l', c ∈ l) : Sized o l' :=
  fun c hc => h c (hsub c hc)

theorem sized_append : Sized o (before ++ after) ↔ Sized o before ∧ Sized o after :=
  List.forall_mem_append

theorem sized_cons : Sized o (c :: l) ↔ (o ≤ c.size ∧ o ∣ c.size) ∧ Sized o l := by
  simp [Sized]

theorem Tiles.dvd (h : Tiles o a l b) (hsized : Sized o l) (ha : o ∣ a) :
    (∀ c ∈ l, o ∣ c.addr) ∧ o ∣ b := by
  induction l generalizing a with
  | nil =>
    obtain rfl := h
    exact ⟨by simp, ha⟩
  | cons c l ih =>
    obtain ⟨rfl, htail⟩ := h
    have hsize := (sized_cons.mp hsized).1.2
    have hstop : o ∣ c.stop o := Nat.dvd_add (Nat.dvd_add ha (Nat.dvd_refl o)) hsize
    obtain ⟨hdvd, hb⟩ := ih htail (sized_cons.mp hsized).2 hstop
    exact ⟨by simpa [ha] using hdvd, hb⟩

theorem coalesced_append : Coalesced (before ++ after) ↔ Coalesced before ∧ Coalesced after ∧
    ∀ c, before.getLast? = some c → ∀ d, after.head? = some d → c.used ∨ d.used :=
  List.isChain_append

theorem coalesced_cons :
    Coalesced (c :: l) ↔ Coalesced l ∧ ∀ d, l.head? = some d → c.used ∨ d.used := by
  have := @coalesced_append [c] l
  simpa [Coalesced] using this

@[simp] theorem used_nil : Used [] = ∅ := by simp [Used]

theorem used_append : Used (before ++ after) = Used before ∪ Used after := by
  ext c
  simp [Used, or_and_right]

theorem used_cons_of_used (h : c.used) : Used (c :: l) = insert c (Used l) := by
  ext d
  simp only [Used, List.mem_cons, Set.mem_ofPred_eq, Set.mem_insert_iff]
  constructor
  · rintro ⟨rfl | hd, hused⟩
    · exact .inl rfl
    · exact .inr ⟨hd, hused⟩
  · rintro (rfl | ⟨hd, hused⟩)
    · exact ⟨.inl rfl, h⟩
    · exact ⟨.inr hd, hused⟩

theorem used_cons_of_free (h : c.used = false) : Used (c :: l) = Used l := by
  ext d
  simp only [Used, List.mem_cons, Set.mem_ofPred_eq]
  constructor
  · rintro ⟨rfl | hd, hused⟩
    · simp [h] at hused
    · exact ⟨hd, hused⟩
  · rintro ⟨hd, hused⟩
    exact ⟨.inr hd, hused⟩

theorem used_mid (h : c.used) : Used (before ++ c :: after) = insert c (Used (before ++ after)) := by
  rw [used_append, used_cons_of_used h, used_append, Set.union_insert]

/-- The used chunks other than `c`. -/
theorem used_others (h : Tiles o a (before ++ c :: after) b) (ho : 0 < o) :
    Used (before ++ after) = Used (before ++ c :: after) \ {c} := by
  ext d
  simp only [Used, Set.mem_sdiff, Set.mem_ofPred_eq, Set.mem_singleton_iff]
  constructor
  · rintro ⟨hd, hused⟩
    refine ⟨⟨?_, hused⟩, ?_⟩
    · simp only [List.mem_append, List.mem_cons] at hd ⊢
      exact hd.imp_right .inr
    · rintro rfl
      have hapart := h.apart_mid hd
      simp only [Chunk.stop] at hapart
      omega
  · rintro ⟨⟨hd, hused⟩, hne⟩
    refine ⟨?_, hused⟩
    simp only [List.mem_append, List.mem_cons] at hd ⊢
    exact hd.imp_right fun hd => hd.resolve_left hne

/-! ### Joining a chunk with a free one after it -/

def absorb (o : Nat) (c d : Chunk) : Chunk := { c with size := c.size + o + d.size }

def joinNext (o : Nat) (c : Chunk) : List Chunk → List Chunk
  | [] => [c]
  | d :: after => if d.used then c :: d :: after else absorb o c d :: after

@[simp] theorem absorb_addr : (absorb o c d).addr = c.addr := rfl

@[simp] theorem absorb_used : (absorb o c d).used = c.used := rfl

theorem le_absorb (o : Nat) (c d : Chunk) : c.size ≤ (absorb o c d).size := by
  simp only [absorb]
  omega

theorem absorb_stop (h : d.addr = c.stop o) : (absorb o c d).stop o = d.stop o := by
  simp only [Chunk.stop] at h ⊢
  simp only [absorb]
  omega

theorem joinNext_of_free (h : d.used = false) :
    joinNext o c (d :: after) = absorb o c d :: after := by
  simp [joinNext, h]

/-- The size of a chunk with the next one, if that is free. -/
def joinSize (o : Nat) (c : Chunk) : List Chunk → Nat
  | [] => c.size
  | d :: _ => if d.used then c.size else c.size + o + d.size

/-- What is left after the join. -/
def joinRest : List Chunk → List Chunk
  | [] => []
  | d :: after => if d.used then d :: after else after

theorem joinNext_eq (o : Nat) (c : Chunk) (after : List Chunk) :
    joinNext o c after = { c with size := joinSize o c after } :: joinRest after := by
  cases after with
  | nil => rfl
  | cons d after =>
    simp only [joinNext, joinSize, joinRest]
    split <;> rfl

theorem le_joinSize : c.size ≤ joinSize o c after := by
  cases after with
  | nil => exact le_rfl
  | cons d after =>
    simp only [joinSize]
    split <;> omega

theorem used_joinRest : Used (joinRest after) = Used after := by
  cases after with
  | nil => rfl
  | cons d after =>
    by_cases hd : d.used
    · simp [joinRest, hd]
    · have hfree : d.used = false := by simpa using hd
      simp [joinRest, hfree, used_cons_of_free hfree]

/-- The chunk after a join is used. -/
theorem coalesced_joinRest (h : Coalesced after) :
    Coalesced (joinRest after) ∧ ∀ d, (joinRest after).head? = some d → d.used := by
  cases after with
  | nil => simp [joinRest, Coalesced]
  | cons d after =>
    obtain ⟨hafter, hnext⟩ := coalesced_cons.mp h
    by_cases hd : d.used
    · simpa [joinRest, hd] using h
    · refine ⟨by simpa [joinRest, hd] using hafter, fun e he => ?_⟩
      simpa [hd] using hnext e (by simpa [joinRest, hd] using he)

theorem tiles_joinNext (h : Tiles o a (c :: after) b) : Tiles o a (joinNext o c after) b := by
  cases after with
  | nil => exact h
  | cons d after =>
    by_cases hd : d.used
    · simpa [joinNext, hd] using h
    · simp only [joinNext, hd, Bool.false_eq_true, ↓reduceIte, tiles_cons, absorb_addr] at h ⊢
      rw [absorb_stop h.2.1]
      exact ⟨h.1, h.2.2⟩

theorem sized_joinNext (h : Sized o (c :: after)) : Sized o (joinNext o c after) := by
  cases after with
  | nil => exact h
  | cons d after =>
    by_cases hd : d.used
    · simpa [joinNext, hd] using h
    · simp only [joinNext, hd, Bool.false_eq_true, ↓reduceIte]
      obtain ⟨⟨hle, hdvd⟩, hrest⟩ := sized_cons.mp h
      obtain ⟨⟨-, hdvd'⟩, hafter⟩ := sized_cons.mp hrest
      refine sized_cons.mpr ⟨⟨?_, ?_⟩, hafter⟩
      · simp only [absorb]
        omega
      · exact Nat.dvd_add (Nat.dvd_add hdvd (Nat.dvd_refl o)) hdvd'

theorem used_joinNext_of_free (h : c.used = false) : Used (joinNext o c after) = Used after := by
  rw [joinNext_eq, used_cons_of_free (by exact h), used_joinRest]

/-- Joining with the next chunk leaves no two free neighbours. -/
theorem coalesced_joinNext (h : Coalesced after) : Coalesced (joinNext o c after) := by
  obtain ⟨hrest, hnext⟩ := coalesced_joinRest h
  rw [joinNext_eq]
  exact coalesced_cons.mpr ⟨hrest, fun d hd => .inr (hnext d hd)⟩

/-! ### Cutting a chunk -/

/-- The rest of a chunk whose payload is cut to `s` bytes. -/
def remainder (o s : Nat) (c : Chunk) : Chunk := ⟨c.addr + o + s, c.size - s - o, false⟩

/-- Cuts a chunk to `s` bytes where the rest is large enough for a chunk of its own. -/
def cut (o s : Nat) (c : Chunk) (after : List Chunk) : List Chunk :=
  if c.size < s + o + o then c :: after else { c with size := s } :: joinNext o (remainder o s c) after

/-- The size that a chunk is cut to. -/
def cutSize (o s : Nat) (c : Chunk) : Nat := if c.size < s + o + o then c.size else s

/-- What is left after the chunk. -/
def cutRest (o s : Nat) (c : Chunk) (after : List Chunk) : List Chunk :=
  if c.size < s + o + o then after else joinNext o (remainder o s c) after

theorem cut_eq (o s : Nat) (c : Chunk) (after : List Chunk) :
    cut o s c after = { c with size := cutSize o s c } :: cutRest o s c after := by
  unfold cut cutSize cutRest
  split <;> rfl

theorem le_cutSize {s : Nat} (h : s ≤ c.size) : s ≤ cutSize o s c := by
  unfold cutSize
  split
  · exact h
  · exact le_rfl

theorem cutSize_le {s : Nat} (h : s ≤ c.size) : cutSize o s c ≤ c.size := by
  unfold cutSize
  split
  · exact le_rfl
  · exact h

theorem used_cutRest {s : Nat} : Used (cutRest o s c after) = Used after := by
  unfold cutRest
  split
  · rfl
  · exact used_joinNext_of_free rfl

theorem tiles_cut {s : Nat} (h : Tiles o a (c :: after) b) : Tiles o a (cut o s c after) b := by
  unfold cut
  split
  · exact h
  · rename_i hlarge
    refine ⟨h.1, tiles_joinNext ⟨rfl, ?_⟩⟩
    have hstop : (remainder o s c).stop o = c.stop o := by
      simp only [remainder, Chunk.stop]
      omega
    rw [hstop]
    exact h.2

theorem sized_cut {s : Nat} (h : Sized o (c :: after)) (hle : o ≤ s) (hdvd : o ∣ s) :
    Sized o (cut o s c after) := by
  unfold cut
  split
  · exact h
  · rename_i hlarge
    obtain ⟨⟨-, hsize⟩, hafter⟩ := sized_cons.mp h
    refine sized_cons.mpr ⟨⟨hle, hdvd⟩, sized_joinNext (sized_cons.mpr ⟨⟨?_, ?_⟩, hafter⟩)⟩
    · simp only [remainder]
      omega
    · exact Nat.dvd_sub (Nat.dvd_sub hsize hdvd) (Nat.dvd_refl o)

theorem coalesced_cutRest {s : Nat} (h : Coalesced after) : Coalesced (cutRest o s c after) := by
  unfold cutRest
  split
  · exact h
  · exact coalesced_joinNext h

/-! ### What the used chunks determine -/

variable {l' : List Chunk} {c' : Chunk}

/-- A free chunk reaches up to the next used one, which the other tiling has too. -/
theorem Tiles.stop_le (h : Tiles o a (c :: l) b) (h' : Tiles o a (c' :: l') b)
    (hcoalesced : Coalesced (c :: l)) (hc : c.used = false) (hc' : c'.used = false)
    (hsub : Used (c :: l) ⊆ Used (c' :: l')) : c'.stop o ≤ c.stop o := by
  cases l with
  | nil =>
    obtain rfl : c.stop o = b := h.2
    exact h'.2.le
  | cons d l =>
    have hd : d.used := by
      have := (coalesced_cons.mp hcoalesced).2 d rfl
      simpa [hc] using this
    have hmem : d ∈ Used (c' :: l') := hsub ⟨by simp, hd⟩
    rw [used_cons_of_free hc'] at hmem
    exact (h'.2.bounds hmem.1).1.trans_eq h.2.1

/-- A used chunk at the bottom of one tiling is at the bottom of the other. -/
theorem Tiles.head_eq_of_used (h : Tiles o a (c :: l) b) (h' : Tiles o a (c' :: l') b) (ho : 0 < o)
    (hc : c.used) (hsub : Used (c :: l) ⊆ Used (c' :: l')) : c = c' :=
  h'.eq_of_addr ho (hsub ⟨by simp, hc⟩).1 (by simp) (h.1.trans h'.1.symm)

/-- Where no two neighbours are free, the used chunks determine the tiling. -/
theorem Tiles.unique (h : Tiles o a l b) (h' : Tiles o a l' b) (ho : 0 < o) (hcoalesced : Coalesced l)
    (hcoalesced' : Coalesced l') (hused : Used l = Used l') : l = l' := by
  induction l generalizing a l' with
  | nil =>
    cases l' with
    | nil => rfl
    | cons c' l' =>
      obtain rfl : a = b := h
      have hle := h'.2.le
      have haddr := h'.1
      simp only [Chunk.stop] at hle
      omega
  | cons c l ih =>
    cases l' with
    | nil =>
      obtain rfl : a = b := h'
      have hle := h.2.le
      have haddr := h.1
      simp only [Chunk.stop] at hle
      omega
    | cons c' l' =>
      have hhead : c = c' := by
        by_cases hc : c.used
        · exact h.head_eq_of_used h' ho hc hused.subset
        by_cases hc' : c'.used
        · exact (h'.head_eq_of_used h ho hc' hused.superset).symm
        have hfree : c.used = false := by simpa using hc
        have hfree' : c'.used = false := by simpa using hc'
        have hle := h.stop_le h' hcoalesced hfree hfree' hused.subset
        have hle' := h'.stop_le h hcoalesced' hfree' hfree hused.superset
        have haddr : c.addr = c'.addr := h.1.trans h'.1.symm
        simp only [Chunk.stop] at hle hle'
        obtain ⟨x, m, u⟩ := c
        obtain ⟨x', m', u'⟩ := c'
        simp only [Chunk.mk.injEq]
        exact ⟨haddr, by dsimp only at *; omega, hfree.trans hfree'.symm⟩
      subst hhead
      have hrest : Used l = Used (c :: l) \ {c} := @used_others o a b c [] l h ho
      have hrest' : Used l' = Used (c :: l') \ {c} := @used_others o a b c [] l' h' ho
      rw [ih h.2 h'.2 (coalesced_cons.mp hcoalesced).1 (coalesced_cons.mp hcoalesced').1
        (by rw [hrest, hrest', hused])]

/-- A coalesced tiling without used chunks has one chunk at most. -/
theorem Tiles.eq_singleton (h : Tiles o a l b) (hcoalesced : Coalesced l) (hused : Used l = ∅)
    (hne : l ≠ []) : ∃ m, l = [⟨a, m, false⟩] ∧ b = a + o + m := by
  have hfree : ∀ c ∈ l, c.used = false := by
    intro c hc
    by_contra hcused
    have hmem : c ∈ Used l := ⟨hc, by simpa using hcused⟩
    simp [hused] at hmem
  cases l with
  | nil => exact absurd rfl hne
  | cons c l =>
    obtain ⟨x, m, u⟩ := c
    obtain rfl : x = a := h.1
    obtain rfl : u = false := hfree ⟨x, m, u⟩ (by simp)
    cases l with
    | nil => exact ⟨m, rfl, h.2.symm⟩
    | cons d l =>
      have hnext := (coalesced_cons.mp hcoalesced).2 d rfl
      simp [hfree d (by simp)] at hnext

end Chunks
