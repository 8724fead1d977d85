import Mathlib.Algebra.Group.Nat.Defs
import Mathlib.Data.Option.Basic

/-! The layout of the heap, without its memory: which address holds a block, of which size, and
whether it and its physical predecessor are free.  A tiling of the pools is preserved by marking,
splitting and absorbing blocks, and one without adjacent free blocks is determined by its used
blocks. -/

namespace Htfh

/-- A pool: `payload` bytes of blocks behind the first header, with a sentinel after them. -/
structure Pool where
  mem : Nat
  payload : Nat
  deriving DecidableEq

namespace Pool

/-- The address of the first header, whose first field lies before the pool. -/
def first (P : Pool) : Nat := P.mem - 8

/-- The address of the sentinel. -/
def last (P : Pool) : Nat := P.mem + P.payload

structure Fits (P : Pool) : Prop where
  low : 32 ≤ P.mem
  high : P.mem + P.payload + 16 ≤ 2 ^ 64
  aligned : P.mem % 4 = 0
  payload_aligned : P.payload % 4 = 0
  payload_ge : 24 ≤ P.payload
  payload_lt : P.payload < 2 ^ 30

def Apart (P Q : Pool) : Prop := P.last + 8 ≤ Q.first ∨ Q.last + 8 ≤ P.first

theorem Fits.last_eq {P : Pool} (h : P.Fits) : P.last = P.first + 8 + P.payload := by
  have := h.low
  simp only [first, last]
  omega

end Pool

/-- What a header says of its block; `size` is that of the payload. -/
@[ext] structure Block where
  size : Nat
  free : Bool
  prevFree : Bool
  deriving DecidableEq

/-- The blocks by the addresses of their headers. -/
abbrev Layout := Nat → Option Block

/-- The blocks of a layout tile the pools, each pool up to its sentinel. -/
structure Tiling (pools : List Pool) (L : Layout) : Prop where
  fits : ∀ P ∈ pools, P.Fits
  separate : ∀ P ∈ pools, ∀ Q ∈ pools, P ≠ Q → P.Apart Q
  sized : ∀ a x, L a = some x → x.size = 0 ∧ x.free = false ∨ x.size % 4 = 0 ∧ 24 ≤ x.size
  apart : ∀ a b x y, L a = some x → L b = some y → a < b → a + 8 + x.size ≤ b
  next : ∀ a x, L a = some x → x.size ≠ 0 →
    ∃ y, L (a + 8 + x.size) = some y ∧ y.prevFree = x.free
  within : ∀ a x, L a = some x → ∃ P ∈ pools, P.first ≤ a ∧ a % 4 = 0 ∧
    (x.size ≠ 0 ∧ a + 8 + x.size ≤ P.last ∨ x.size = 0 ∧ a = P.last)
  first : ∀ P ∈ pools, ∃ x, L P.first = some x ∧ x.prevFree = false
  last : ∀ P ∈ pools, ∃ x, L P.last = some x ∧ x.size = 0

namespace Tiling

variable {pools : List Pool} {L L' : Layout} {a b : Nat} {x y : Block}

theorem size_ne_zero (h : Tiling pools L) (ha : L a = some x) (hfree : x.free = true) :
    x.size ≠ 0 := by
  rcases h.sized a x ha with ⟨-, hused⟩ | ⟨-, hmin⟩
  · rw [hfree] at hused
    simp at hused
  · omega

theorem size_ge (h : Tiling pools L) (ha : L a = some x) (hsize : x.size ≠ 0) :
    x.size % 4 = 0 ∧ 24 ≤ x.size := by
  rcases h.sized a x ha with ⟨hzero, -⟩ | hsized
  · omega
  · exact hsized

/-- A block lies in the address space, off its first bytes, and is smaller than the largest class. -/
theorem bounds (h : Tiling pools L) (ha : L a = some x) :
    24 ≤ a ∧ a % 4 = 0 ∧ a + 16 + x.size ≤ 2 ^ 64 ∧ x.size < 2 ^ 30 := by
  obtain ⟨P, hP, hfirst, halign, hend⟩ := h.within a x ha
  have hfits := h.fits P hP
  have hlast := hfits.last_eq
  have hlow := hfits.low
  have hhigh := hfits.high
  have hlt := hfits.payload_lt
  simp only [Pool.first, Pool.last] at *
  refine ⟨by omega, halign, ?_, ?_⟩ <;> rcases hend with ⟨-, hend⟩ | ⟨hzero, hend⟩ <;> omega

/-- After a block there is room for the next header. -/
theorem end_le (h : Tiling pools L) (ha : L a = some x) (hsize : x.size ≠ 0) :
    a + 24 + x.size ≤ 2 ^ 64 := by
  obtain ⟨P, hP, -, -, hend⟩ := h.within a x ha
  have hhigh := (h.fits P hP).high
  simp only [Pool.last] at hend
  omega

theorem size_mod (h : Tiling pools L) (ha : L a = some x) : x.size % 4 = 0 := by
  rcases h.sized a x ha with ⟨hzero, -⟩ | ⟨hmod, -⟩
  · simp [hzero]
  · exact hmod

/-- Two blocks have disjoint spans. -/
theorem disjoint (h : Tiling pools L) (ha : L a = some x) (hb : L b = some y) (hne : a ≠ b) :
    a + 8 + x.size ≤ b ∨ b + 8 + y.size ≤ a := by
  rcases Nat.lt_or_gt_of_ne hne with hlt | hlt
  · exact .inl (h.apart a b x y ha hb hlt)
  · exact .inr (h.apart b a y x hb ha hlt)

/-- No block starts inside another one. -/
theorem eq_none (h : Tiling pools L) (ha : L a = some x) (hb : a < b) (hend : b < a + 8 + x.size) :
    L b = none := by
  rcases hL : L b with _ | y
  · rfl
  · have := h.apart a b x y ha hL hb
    omega

/-- Within a pool only the sentinel is empty. -/
theorem size_ne_zero_of_lt (h : Tiling pools L) {P : Pool} (hP : P ∈ pools) (ha : L a = some x)
    (hfirst : P.first ≤ a) (hlast : a < P.last) : x.size ≠ 0 := by
  intro hzero
  obtain ⟨Q, hQ, hQfirst, -, hend⟩ := h.within a x ha
  by_cases hPQ : P = Q
  · subst hPQ
    omega
  · have hQlast := (h.fits Q hQ).last_eq
    rcases h.separate P hP Q hQ hPQ with hapart | hapart <;> omega

/-- No block comes before the first one of a pool. -/
theorem first_ne_next (h : Tiling pools L) {P : Pool} (hP : P ∈ pools) (ha : L a = some x)
    (hsize : x.size ≠ 0) : P.first ≠ a + 8 + x.size := by
  obtain ⟨Q, hQ, hfirst, -, hend⟩ := h.within a x ha
  have hPlast := (h.fits P hP).last_eq
  have hQlast := (h.fits Q hQ).last_eq
  by_cases hPQ : P = Q
  · subst hPQ
    omega
  · rcases h.separate P hP Q hQ hPQ with hapart | hapart <;> omega

/-- From any block of a pool the blocks lead to every later one. -/
theorem exists_prev_from (h : Tiling pools L) {P : Pool} (hP : P ∈ pools) (hb : L b = some y)
    (hlast : b ≤ P.last) (n : Nat) :
    ∀ a x, L a = some x → P.first ≤ a → a < b → b - a ≤ n →
      ∃ c z, L c = some z ∧ z.size ≠ 0 ∧ c + 8 + z.size = b := by
  induction n with
  | zero => intros; omega
  | succ n ih =>
    intro a x ha hfirst hlt hn
    have hne := h.size_ne_zero_of_lt hP ha hfirst (by omega)
    have hle := h.apart a b x y ha hb hlt
    rcases Nat.eq_or_lt_of_le hle with heq | hlt'
    · exact ⟨a, x, ha, hne, heq⟩
    · obtain ⟨z, hz, -⟩ := h.next a x ha hne
      exact ih _ z hz (by omega) hlt' (by omega)

/-- A block is the first of its pool or has a predecessor. -/
theorem exists_prev (h : Tiling pools L) (hb : L b = some y) :
    (∃ P ∈ pools, b = P.first) ∨ ∃ a x, L a = some x ∧ x.size ≠ 0 ∧ a + 8 + x.size = b := by
  obtain ⟨P, hP, hfirst, -, hend⟩ := h.within b y hb
  have hlast := (h.fits P hP).last_eq
  rcases Nat.eq_or_lt_of_le hfirst with heq | hlt
  · exact .inl ⟨P, hP, heq.symm⟩
  · obtain ⟨x, hx, -⟩ := h.first P hP
    exact .inr (h.exists_prev_from hP hb (by omega) _ _ x hx (Nat.le_refl _) hlt (Nat.le_refl _))

/-- A block whose predecessor is marked free has a free predecessor. -/
theorem prev_of_prevFree (h : Tiling pools L) (hb : L b = some y) (hprev : y.prevFree = true) :
    ∃ a x, L a = some x ∧ x.free = true ∧ a + 8 + x.size = b := by
  rcases h.exists_prev hb with ⟨P, hP, rfl⟩ | ⟨a, x, ha, hne, rfl⟩
  · obtain ⟨z, hz, hzprev⟩ := h.first P hP
    obtain rfl : y = z := Option.some.inj (hb.symm.trans hz)
    rw [hprev] at hzprev
    simp at hzprev
  · obtain ⟨z, hz, hzprev⟩ := h.next a x ha hne
    obtain rfl : y = z := Option.some.inj (hb.symm.trans hz)
    exact ⟨a, x, ha, by rw [← hzprev, hprev], rfl⟩

end Tiling

/-- Two physically adjacent blocks are both free only where `bad` allows it. -/
def CoalescedBut (bad : Nat → Nat → Prop) (L : Layout) : Prop :=
  ∀ a x y, L a = some x → L (a + 8 + x.size) = some y → x.free = true → y.free = true →
    bad a (a + 8 + x.size)

/-- No two physically adjacent blocks are both free. -/
def Coalesced (L : Layout) : Prop := CoalescedBut (fun _ _ => False) L

namespace Layout

/-- The sizes of the used blocks. -/
def used (L : Layout) (a : Nat) : Option Nat :=
  (L a).bind fun x => if x.free then none else some x.size

theorem used_eq_some {L : Layout} {a s : Nat} :
    L.used a = some s ↔ ∃ x, L a = some x ∧ x.free = false ∧ x.size = s := by
  simp only [used, Option.bind_eq_some_iff]
  refine exists_congr fun x => and_congr_right fun _ => ?_
  cases x.free <;> simp

theorem used_of_eq {L : Layout} {a : Nat} {x : Block} (h : L a = some x) :
    L.used a = if x.free then none else some x.size := by
  simp [used, h]

end Layout

section Unique

variable {pools : List Pool} {L L' : Layout} {a : Nat} {x : Block}

/-- A used block of one tiling is one of any other with the same used blocks. -/
theorem exists_used_of_used_eq (hused : L.used = L'.used) (ha : L a = some x)
    (hx : x.free = false) : ∃ x', L' a = some x' ∧ x'.size = x.size ∧ x'.free = x.free := by
  obtain ⟨x', hx', hfree, hsize⟩ :=
    Layout.used_eq_some.mp ((congrFun hused a).symm.trans (Layout.used_eq_some.mpr ⟨x, ha, hx, rfl⟩))
  exact ⟨x', hx', hsize, by rw [hfree, hx]⟩

/-- The block after a free one is used. -/
theorem next_used (h : Tiling pools L) (hc : Coalesced L) (ha : L a = some x)
    (hfree : x.free = true) : ∃ y, L (a + 8 + x.size) = some y ∧ y.free = false := by
  obtain ⟨y, hy, -⟩ := h.next a x ha (h.size_ne_zero ha hfree)
  refine ⟨y, hy, ?_⟩
  cases hyfree : y.free
  · rfl
  · exact (hc a x y ha hy hfree hyfree).elim

/-- A free block does not reach past where one of another tiling ends. -/
theorem size_le_of_used_eq (h : Tiling pools L) (h' : Tiling pools L') (hc : Coalesced L')
    (hused : L.used = L'.used) {x' : Block} (ha : L a = some x) (ha' : L' a = some x')
    (hx' : x'.free = true) : x.size ≤ x'.size := by
  obtain ⟨y', hy', hyused⟩ := next_used h' hc ha' hx'
  obtain ⟨y, hy, -, -⟩ := exists_used_of_used_eq hused.symm hy' hyused
  have := h.apart a _ x y ha hy (by omega)
  omega

/-- Every block of a tiling without adjacent free blocks is one of any other such tiling with the
same used blocks. -/
theorem exists_of_used_eq (h : Tiling pools L) (h' : Tiling pools L') (hc : Coalesced L)
    (hc' : Coalesced L') (hused : L.used = L'.used) (ha : L a = some x) :
    ∃ x', L' a = some x' ∧ x'.size = x.size ∧ x'.free = x.free := by
  cases hx : x.free with
  | false => simpa [hx] using exists_used_of_used_eq hused ha hx
  | true =>
    obtain ⟨x', hx'⟩ : ∃ x', L' a = some x' := by
      rcases h.exists_prev ha with ⟨P, hP, rfl⟩ | ⟨b, y, hb, hne, rfl⟩
      · obtain ⟨x', hx', -⟩ := h'.first P hP
        exact ⟨x', hx'⟩
      · -- the predecessor is used, hence a block of both tilings
        have hy : y.free = false := by
          cases hy : y.free
          · rfl
          · exact (hc b y x hb ha hy hx).elim
        obtain ⟨y', hy', hsize, -⟩ := exists_used_of_used_eq hused hb hy
        obtain ⟨x', hx', -⟩ := h'.next b y' hy' (by omega)
        exact ⟨x', by rw [← hsize, hx']⟩
    have hfree : x'.free = true := by
      cases hfree : x'.free
      · obtain ⟨z, hz, -, hzfree⟩ := exists_used_of_used_eq hused.symm hx' hfree
        obtain rfl : x = z := Option.some.inj (ha.symm.trans hz)
        rw [hx, hfree] at hzfree
        simp at hzfree
      · rfl
    have hle := size_le_of_used_eq h h' hc' hused ha hx' hfree
    have hge := size_le_of_used_eq h' h hc hused.symm hx' ha hx
    exact ⟨x', hx', by omega, hfree⟩

/-- Whether the predecessor of a block is free is determined too. -/
theorem eq_some_of_used_eq (h : Tiling pools L) (h' : Tiling pools L') (hc : Coalesced L)
    (hc' : Coalesced L') (hused : L.used = L'.used) (ha : L a = some x) : L' a = some x := by
  obtain ⟨x', hx', hsize, hfree⟩ := exists_of_used_eq h h' hc hc' hused ha
  rw [hx']
  refine congrArg some (Block.ext hsize hfree ?_)
  rcases h.exists_prev ha with ⟨P, hP, rfl⟩ | ⟨b, y, hb, hne, rfl⟩
  · obtain ⟨z, hz, hzprev⟩ := h.first P hP
    obtain ⟨z', hz', hzprev'⟩ := h'.first P hP
    rw [Option.some.inj (ha.symm.trans hz), Option.some.inj (hx'.symm.trans hz'), hzprev, hzprev']
  · obtain ⟨y', hy', hysize, hyfree⟩ := exists_of_used_eq h h' hc hc' hused hb
    obtain ⟨z, hz, hzprev⟩ := h.next b y hb hne
    obtain ⟨z', hz', hzprev'⟩ := h'.next b y' hy' (by omega)
    rw [hysize] at hz'
    rw [Option.some.inj (ha.symm.trans hz), Option.some.inj (hx'.symm.trans hz'), hzprev, hzprev',
      hyfree]

/-- The used blocks determine a tiling without adjacent free blocks. -/
theorem Tiling.unique (h : Tiling pools L) (h' : Tiling pools L') (hc : Coalesced L)
    (hc' : Coalesced L') (hused : L.used = L'.used) : L = L' := by
  refine funext fun a => Option.ext fun x => ⟨?_, ?_⟩
  · exact eq_some_of_used_eq h h' hc hc' hused
  · exact eq_some_of_used_eq h' h hc' hc hused.symm

end Unique

end Htfh
