import SearchCache.Heap.Layout
import Mathlib.Logic.Function.Basic
import Mathlib.Logic.Relation
import Mathlib.Tactic.SplitIfs

/-! What the allocator does to a layout: marking a block, splitting a free block and absorbing a free
block into the free block before it, and adding a pool.  Each preserves the tiling. -/

namespace Htfh

namespace Layout

/-- Marks the block at `b`, in its own header and in that of the next block. -/
def mark (L : Layout) (b : Nat) (f : Bool) : Layout := fun a =>
  match L b with
  | none => L a
  | some x =>
    if a = b then some { x with free := f }
    else if a = b + 8 + x.size then (L a).map fun y => { y with prevFree := f }
    else L a

/-- Cuts the block at `b` down to `s` bytes, with a free block after it. -/
def split (L : Layout) (b s : Nat) : Layout := fun a =>
  match L b with
  | none => L a
  | some x =>
    if a = b then some { x with size := s }
    else if a = b + 8 + s then some ⟨x.size - 8 - s, true, x.free⟩
    else L a

/-- Joins the block at `b` with the next one. -/
def absorb (L : Layout) (b : Nat) : Layout := fun a =>
  match L b with
  | none => L a
  | some x =>
    match L (b + 8 + x.size) with
    | none => L a
    | some y =>
      if a = b then some { x with size := x.size + 8 + y.size }
      else if a = b + 8 + x.size then none
      else L a

/-- A new pool is one free block before a sentinel. -/
def addPool (L : Layout) (P : Pool) : Layout := fun a =>
  if a = P.first then some ⟨P.payload, true, false⟩
  else if a = P.last then some ⟨0, false, true⟩
  else L a

/-- One change to the blocks of the pools.  Blocks are cut down to sizes that `ok` allows only. -/
inductive Change (ok : Nat → Prop) : Layout → Layout → Prop
  | mark {L : Layout} {b : Nat} {x : Block} (f : Bool) : L b = some x → Change ok L (L.mark b f)
  | split {L : Layout} {b s : Nat} {x : Block} : L b = some x → s + 32 ≤ x.size → ok s →
      Change ok L (L.split b s)
  | absorb {L : Layout} {b : Nat} {x y : Block} : L b = some x → L (b + 8 + x.size) = some y →
      Change ok L (L.absorb b)

theorem Change.mono {ok ok' : Nat → Prop} {L L' : Layout} (h : Change ok L L')
    (himp : ∀ n, ok n → ok' n) : Change ok' L L' := by
  cases h with
  | mark f hb => exact .mark f hb
  | split hb hs hok => exact .split hb hs (himp _ hok)
  | absorb hb hn => exact .absorb hb hn

/-- Any number of changes. -/
abbrev Changes (ok : Nat → Prop) : Layout → Layout → Prop := Relation.ReflTransGen (Change ok)

theorem Changes.mono {ok ok' : Nat → Prop} {L L' : Layout} (h : Changes ok L L')
    (himp : ∀ n, ok n → ok' n) : Changes ok' L L' :=
  Relation.ReflTransGen.mono (fun _ _ (hchange : Change ok _ _) => hchange.mono himp) _ _ h

variable {L : Layout} {b : Nat} {x y : Block}

theorem mark_eq (hb : L b = some x) (f : Bool) (a : Nat) :
    L.mark b f a = if a = b then some { x with free := f }
      else if a = b + 8 + x.size then (L a).map fun y => { y with prevFree := f } else L a := by
  simp only [mark, hb]

theorem split_eq (hb : L b = some x) (s a : Nat) :
    L.split b s a = if a = b then some { x with size := s }
      else if a = b + 8 + s then some ⟨x.size - 8 - s, true, x.free⟩ else L a := by
  simp only [split, hb]

theorem absorb_eq (hb : L b = some x) (hn : L (b + 8 + x.size) = some y) (a : Nat) :
    L.absorb b a = if a = b then some { x with size := x.size + 8 + y.size }
      else if a = b + 8 + x.size then none else L a := by
  simp only [absorb, hb, hn]

end Layout

section Mark

variable {pools : List Pool} {L : Layout} {b : Nat} {x y : Block}

/-- A block of a marked layout is one of the layout, up to the two bits. -/
theorem mark_cases (hb : L b = some x) {f : Bool} {a : Nat} {z : Block}
    (h : L.mark b f a = some z) :
    ∃ w, L a = some w ∧ w.size = z.size ∧ z.free = (if a = b then f else w.free) ∧
      z.prevFree = (if a = b + 8 + x.size then f else w.prevFree) := by
  rw [Layout.mark_eq hb] at h
  split_ifs at h with h1 h2
  · subst h1
    obtain rfl := Option.some.inj h
    exact ⟨x, hb, rfl, by simp, by rw [if_neg (by omega)]⟩
  · obtain ⟨w, hw, rfl⟩ := Option.map_eq_some_iff.mp h
    exact ⟨w, hw, rfl, by simp [h1], by simp [h2]⟩
  · exact ⟨z, h, rfl, by simp [h1], by simp [h2]⟩

theorem exists_mark (hb : L b = some x) {a : Nat} {w : Block} (h : L a = some w) (f : Bool) :
    ∃ z, L.mark b f a = some z ∧ z.size = w.size ∧ z.free = (if a = b then f else w.free) ∧
      z.prevFree = (if a = b + 8 + x.size then f else w.prevFree) := by
  rw [Layout.mark_eq hb]
  by_cases h1 : a = b
  · subst h1
    obtain rfl := Option.some.inj (h.symm.trans hb)
    exact ⟨{ w with free := f }, by simp [show ¬ a = a + 8 + w.size by omega]⟩
  · by_cases h2 : a = b + 8 + x.size
    · refine ⟨{ w with prevFree := f }, ?_⟩
      subst h2
      simp [h, h1]
    · exact ⟨w, by simp [h, h1, h2]⟩

theorem Tiling.mark (h : Tiling pools L) (hb : L b = some x) (hsize : x.size ≠ 0) (f : Bool) :
    Tiling pools (L.mark b f) where
  fits := h.fits
  separate := h.separate
  sized a z hz := by
    obtain ⟨w, hw, hws, hfree, -⟩ := mark_cases hb hz
    rcases h.sized a w hw with ⟨hzero, hused⟩ | ⟨hmod, hmin⟩
    · have hne : a ≠ b := by
        rintro rfl
        obtain rfl := Option.some.inj (hw.symm.trans hb)
        exact hsize hzero
      exact .inl ⟨by omega, by rw [hfree, if_neg hne, hused]⟩
    · exact .inr ⟨by omega, by omega⟩
  apart a c z w hz hw hlt := by
    obtain ⟨z', hz', hzs, -, -⟩ := mark_cases hb hz
    obtain ⟨w', hw', -, -, -⟩ := mark_cases hb hw
    have := h.apart a c z' w' hz' hw' hlt
    omega
  next a z hz hne := by
    obtain ⟨z', hz', hzs, hfree, -⟩ := mark_cases hb hz
    obtain ⟨w, hw, hprev⟩ := h.next a z' hz' (by omega)
    obtain ⟨w', hw', -, -, hprev'⟩ := exists_mark hb hw f
    refine ⟨w', by rw [← hzs, hw'], ?_⟩
    rw [hprev', hfree]
    by_cases hab : a = b
    · subst hab
      obtain rfl := Option.some.inj (hz'.symm.trans hb)
      rw [if_pos rfl, if_pos rfl]
    · have hne' : a + 8 + z'.size ≠ b + 8 + x.size := by
        rcases h.disjoint hz' hb hab with hle | hle <;> omega
      rw [if_neg hne', if_neg hab, hprev]
  within a z hz := by
    obtain ⟨z', hz', hzs, -, -⟩ := mark_cases hb hz
    rw [← hzs]
    exact h.within a z' hz'
  first P hP := by
    obtain ⟨z, hz, hprev⟩ := h.first P hP
    obtain ⟨z', hz', -, -, hprev'⟩ := exists_mark hb hz f
    refine ⟨z', hz', ?_⟩
    rw [hprev', if_neg (h.first_ne_next hP hb hsize), hprev]
  last P hP := by
    obtain ⟨z, hz, hzero⟩ := h.last P hP
    obtain ⟨z', hz', hsize', -, -⟩ := exists_mark hb hz f
    exact ⟨z', hz', by omega⟩

end Mark

section Split

variable {pools : List Pool} {L : Layout} {b s : Nat} {x : Block}

theorem split_cases (hb : L b = some x) {a : Nat} {z : Block} (h : L.split b s a = some z) :
    (a = b ∧ z = { x with size := s }) ∨ (a = b + 8 + s ∧ z = ⟨x.size - 8 - s, true, x.free⟩) ∨
      (a ≠ b ∧ a ≠ b + 8 + s ∧ L a = some z) := by
  rw [Layout.split_eq hb] at h
  split_ifs at h with h1 h2
  · exact .inl ⟨h1, (Option.some.inj h).symm⟩
  · exact .inr (.inl ⟨h2, (Option.some.inj h).symm⟩)
  · exact .inr (.inr ⟨h1, h2, h⟩)

theorem split_self (hb : L b = some x) : L.split b s b = some { x with size := s } := by
  rw [Layout.split_eq hb, if_pos rfl]

theorem split_rest (hb : L b = some x) :
    L.split b s (b + 8 + s) = some ⟨x.size - 8 - s, true, x.free⟩ := by
  rw [Layout.split_eq hb, if_neg (by omega), if_pos rfl]

theorem split_of_ne (hb : L b = some x) {a : Nat} (h1 : a ≠ b) (h2 : a ≠ b + 8 + s) :
    L.split b s a = L a := by
  rw [Layout.split_eq hb, if_neg h1, if_neg h2]

theorem Tiling.split (h : Tiling pools L) (hb : L b = some x) (hfree : x.free = true)
    (hmod : s % 4 = 0) (hmin : 24 ≤ s) (hs : s + 32 ≤ x.size) : Tiling pools (L.split b s) where
  fits := h.fits
  separate := h.separate
  sized a z hz := by
    have hxmod := h.size_mod hb
    rcases split_cases hb hz with ⟨-, rfl⟩ | ⟨-, rfl⟩ | ⟨-, -, hz⟩
    · exact .inr ⟨hmod, hmin⟩
    · exact .inr ⟨by dsimp only; omega, by dsimp only; omega⟩
    · exact h.sized a z hz
  apart a c z w hz hw hlt := by
    rcases split_cases hb hz with ⟨rfl, rfl⟩ | ⟨rfl, rfl⟩ | ⟨ha, -, hz'⟩
    · rcases split_cases hb hw with ⟨rfl, rfl⟩ | ⟨rfl, rfl⟩ | ⟨hc, -, hw⟩
      · omega
      · exact Nat.le_refl _
      · have := h.apart a c x w hb hw hlt
        dsimp only
        omega
    · rcases split_cases hb hw with ⟨rfl, rfl⟩ | ⟨rfl, rfl⟩ | ⟨hc, -, hw⟩
      · omega
      · omega
      · have := h.disjoint hb hw (Ne.symm hc)
        dsimp only
        omega
    · rcases split_cases hb hw with ⟨rfl, rfl⟩ | ⟨rfl, rfl⟩ | ⟨-, -, hw⟩
      · exact h.apart a c z x hz' hb hlt
      · have := h.disjoint hz' hb ha
        omega
      · exact h.apart a c z w hz' hw hlt
  next a z hz hne := by
    rcases split_cases hb hz with ⟨rfl, rfl⟩ | ⟨rfl, rfl⟩ | ⟨ha, hr, hz⟩
    · exact ⟨_, split_rest hb, rfl⟩
    · -- the free rest ends where the block did
      obtain ⟨y, hy, hprev⟩ := h.next b x hb (by omega)
      refine ⟨y, ?_, by rw [hprev, hfree]⟩
      dsimp only
      rw [show b + 8 + s + 8 + (x.size - 8 - s) = b + 8 + x.size by omega,
        split_of_ne hb (by omega) (by omega), hy]
    · obtain ⟨y, hy, hprev⟩ := h.next a z hz hne
      by_cases hn : a + 8 + z.size = b
      · rw [hn] at hy ⊢
        obtain rfl := Option.some.inj (hy.symm.trans hb)
        exact ⟨_, split_self hb, hprev⟩
      · have hapart := h.disjoint hz hb ha
        exact ⟨y, by rw [split_of_ne hb hn (by omega), hy], hprev⟩
  within a z hz := by
    obtain ⟨P, hP, hfirst, halign, hend⟩ := h.within b x hb
    rcases split_cases hb hz with ⟨rfl, rfl⟩ | ⟨rfl, rfl⟩ | ⟨-, -, hz⟩
    · exact ⟨P, hP, hfirst, halign, .inl ⟨by dsimp only; omega, by dsimp only; omega⟩⟩
    · exact ⟨P, hP, by omega, by omega, .inl ⟨by dsimp only; omega, by dsimp only; omega⟩⟩
    · exact h.within a z hz
  first P hP := by
    obtain ⟨z, hz, hprev⟩ := h.first P hP
    by_cases hPb : P.first = b
    · rw [hPb] at hz ⊢
      obtain rfl := Option.some.inj (hz.symm.trans hb)
      exact ⟨_, split_self hb, hprev⟩
    · have hapart := h.disjoint hz hb hPb
      exact ⟨z, by rw [split_of_ne hb hPb (by omega), hz], hprev⟩
  last P hP := by
    obtain ⟨z, hz, hzero⟩ := h.last P hP
    have hPb : P.last ≠ b := by
      intro hPb
      rw [hPb] at hz
      obtain rfl := Option.some.inj (hz.symm.trans hb)
      omega
    have hapart := h.disjoint hz hb hPb
    exact ⟨z, by rw [split_of_ne hb hPb (by omega), hz], hzero⟩

end Split

section Absorb

variable {pools : List Pool} {L : Layout} {b : Nat} {x y : Block}

theorem absorb_cases (hb : L b = some x) (hn : L (b + 8 + x.size) = some y) {a : Nat} {z : Block}
    (h : L.absorb b a = some z) :
    (a = b ∧ z = { x with size := x.size + 8 + y.size }) ∨
      (a ≠ b ∧ a ≠ b + 8 + x.size ∧ L a = some z) := by
  rw [Layout.absorb_eq hb hn] at h
  split_ifs at h with h1 h2
  · exact .inl ⟨h1, (Option.some.inj h).symm⟩
  · exact .inr ⟨h1, h2, h⟩

theorem absorb_self (hb : L b = some x) (hn : L (b + 8 + x.size) = some y) :
    L.absorb b b = some { x with size := x.size + 8 + y.size } := by
  rw [Layout.absorb_eq hb hn, if_pos rfl]

theorem absorb_of_ne (hb : L b = some x) (hn : L (b + 8 + x.size) = some y) {a : Nat}
    (h1 : a ≠ b) (h2 : a ≠ b + 8 + x.size) : L.absorb b a = L a := by
  rw [Layout.absorb_eq hb hn, if_neg h1, if_neg h2]

theorem Tiling.absorb (h : Tiling pools L) (hb : L b = some x) (hn : L (b + 8 + x.size) = some y)
    (hxfree : x.free = true) (hyfree : y.free = true) : Tiling pools (L.absorb b) where
  fits := h.fits
  separate := h.separate
  sized a z hz := by
    have hx := h.size_ge hb (h.size_ne_zero hb hxfree)
    have hy := h.size_ge hn (h.size_ne_zero hn hyfree)
    rcases absorb_cases hb hn hz with ⟨-, rfl⟩ | ⟨-, -, hz⟩
    · exact .inr ⟨by dsimp only; omega, by dsimp only; omega⟩
    · exact h.sized a z hz
  apart a c z w hz hw hlt := by
    rcases absorb_cases hb hn hz with ⟨rfl, rfl⟩ | ⟨ha, har, hz'⟩
    · rcases absorb_cases hb hn hw with ⟨rfl, rfl⟩ | ⟨hc, hcr, hw⟩
      · omega
      · have hx := h.apart a c x w hb hw hlt
        have hy := h.disjoint hn hw (Ne.symm hcr)
        dsimp only
        omega
    · rcases absorb_cases hb hn hw with ⟨rfl, rfl⟩ | ⟨-, -, hw⟩
      · exact h.apart a c z x hz' hb hlt
      · exact h.apart a c z w hz' hw hlt
  next a z hz hne := by
    have hy0 := h.size_ne_zero hn hyfree
    rcases absorb_cases hb hn hz with ⟨rfl, rfl⟩ | ⟨ha, har, hz⟩
    · obtain ⟨w, hw, hprev⟩ := h.next _ y hn hy0
      refine ⟨w, ?_, by rw [hprev, hyfree, hxfree]⟩
      dsimp only
      rw [show a + 8 + (x.size + 8 + y.size) = a + 8 + x.size + 8 + y.size by omega,
        absorb_of_ne hb hn (by omega) (by omega), hw]
    · obtain ⟨w, hw, hprev⟩ := h.next a z hz hne
      by_cases hn' : a + 8 + z.size = b
      · rw [hn'] at hw ⊢
        obtain rfl := Option.some.inj (hw.symm.trans hb)
        exact ⟨_, absorb_self hb hn, hprev⟩
      · have hapart := h.disjoint hz hb ha
        exact ⟨w, by rw [absorb_of_ne hb hn hn' (by omega), hw], hprev⟩
  within a z hz := by
    rcases absorb_cases hb hn hz with ⟨rfl, rfl⟩ | ⟨-, -, hz⟩
    · obtain ⟨P, hP, hfirst, halign, hend⟩ := h.within a x hb
      obtain ⟨Q, hQ, hQfirst, -, hQend⟩ := h.within _ y hn
      have hx0 := h.size_ne_zero hb hxfree
      have hy0 := h.size_ne_zero hn hyfree
      have hQlast := (h.fits Q hQ).last_eq
      have hPlast := (h.fits P hP).last_eq
      -- the two blocks lie in one pool
      have hPQ : P = Q := by
        by_contra hPQ
        rcases h.separate P hP Q hQ hPQ with hapart | hapart <;> omega
      subst hPQ
      exact ⟨P, hP, hfirst, halign, .inl ⟨by dsimp only; omega, by dsimp only; omega⟩⟩
    · exact h.within a z hz
  first P hP := by
    obtain ⟨z, hz, hprev⟩ := h.first P hP
    by_cases hPb : P.first = b
    · rw [hPb] at hz ⊢
      obtain rfl := Option.some.inj (hz.symm.trans hb)
      exact ⟨_, absorb_self hb hn, hprev⟩
    · have hne := h.first_ne_next hP hb (h.size_ne_zero hb hxfree)
      exact ⟨z, by rw [absorb_of_ne hb hn hPb hne, hz], hprev⟩
  last P hP := by
    obtain ⟨z, hz, hzero⟩ := h.last P hP
    have hx0 := h.size_ne_zero hb hxfree
    have hy0 := h.size_ne_zero hn hyfree
    have hPb : P.last ≠ b := by
      intro hPb
      rw [hPb] at hz
      obtain rfl := Option.some.inj (hz.symm.trans hb)
      omega
    have hPn : P.last ≠ b + 8 + x.size := by
      intro hPn
      rw [hPn] at hz
      obtain rfl := Option.some.inj (hz.symm.trans hn)
      omega
    exact ⟨z, by rw [absorb_of_ne hb hn hPb hPn, hz], hzero⟩

end Absorb

section AddPool

variable {pools : List Pool} {L : Layout} {P : Pool}

theorem addPool_cases {a : Nat} {z : Block} (h : L.addPool P a = some z) :
    (a = P.first ∧ z = ⟨P.payload, true, false⟩) ∨ (a = P.last ∧ z = ⟨0, false, true⟩) ∨
      L a = some z := by
  simp only [Layout.addPool] at h
  split_ifs at h with h1 h2
  · exact .inl ⟨h1, (Option.some.inj h).symm⟩
  · exact .inr (.inl ⟨h2, (Option.some.inj h).symm⟩)
  · exact .inr (.inr h)

theorem addPool_first : L.addPool P P.first = some ⟨P.payload, true, false⟩ := by
  simp [Layout.addPool]

theorem addPool_last (hP : P.Fits) : L.addPool P P.last = some ⟨0, false, true⟩ := by
  have hlast := hP.last_eq
  rw [Layout.addPool, if_neg (by omega), if_pos rfl]

/-- The blocks of the other pools lie apart from a new one. -/
theorem Tiling.apart_pool (h : Tiling pools L) (hnew : ∀ Q ∈ pools, P.Apart Q) {a : Nat}
    {x : Block} (ha : L a = some x) : P.last + 8 ≤ a ∨ a + 8 + x.size ≤ P.first := by
  obtain ⟨Q, hQ, hfirst, -, hend⟩ := h.within a x ha
  rcases hnew Q hQ with hapart | hapart
  · exact .inl (by omega)
  · exact .inr (by omega)

theorem addPool_of_some (h : Tiling pools L) (hP : P.Fits) (hnew : ∀ Q ∈ pools, P.Apart Q)
    {a : Nat} {x : Block} (ha : L a = some x) : L.addPool P a = some x := by
  have hlast := hP.last_eq
  have hapart := h.apart_pool hnew ha
  rw [Layout.addPool, if_neg (by omega), if_neg (by omega), ha]

theorem Tiling.addPool (h : Tiling pools L) (hP : P.Fits) (hnew : ∀ Q ∈ pools, P.Apart Q) :
    Tiling (P :: pools) (L.addPool P) where
  fits Q hQ := by
    rcases List.mem_cons.mp hQ with rfl | hQ
    · exact hP
    · exact h.fits Q hQ
  separate Q hQ R hR hne := by
    rcases List.mem_cons.mp hQ with rfl | hQ' <;> rcases List.mem_cons.mp hR with rfl | hR'
    · exact (hne rfl).elim
    · exact hnew R hR'
    · exact (hnew Q hQ').symm
    · exact h.separate Q hQ' R hR' hne
  sized a z hz := by
    rcases addPool_cases hz with ⟨-, rfl⟩ | ⟨-, rfl⟩ | hz
    · exact .inr ⟨hP.payload_aligned, hP.payload_ge⟩
    · exact .inl ⟨rfl, rfl⟩
    · exact h.sized a z hz
  apart a c z w hz hw hlt := by
    have hlast := hP.last_eq
    rcases addPool_cases hz with ⟨rfl, rfl⟩ | ⟨rfl, rfl⟩ | hz' <;>
      rcases addPool_cases hw with ⟨rfl, rfl⟩ | ⟨rfl, rfl⟩ | hw'
    · omega
    · dsimp only
      omega
    · have := h.apart_pool hnew hw'
      dsimp only
      omega
    · omega
    · omega
    · have := h.apart_pool hnew hw'
      dsimp only
      omega
    · have := h.apart_pool hnew hz'
      omega
    · have := h.apart_pool hnew hz'
      omega
    · exact h.apart a c z w hz' hw' hlt
  next a z hz hne := by
    rcases addPool_cases hz with ⟨rfl, rfl⟩ | ⟨rfl, rfl⟩ | hz
    · exact ⟨_, by rw [← hP.last_eq, addPool_last hP], rfl⟩
    · exact (hne rfl).elim
    · obtain ⟨w, hw, hprev⟩ := h.next a z hz hne
      exact ⟨w, addPool_of_some h hP hnew hw, hprev⟩
  within a z hz := by
    have hlast := hP.last_eq
    have hmod := hP.aligned
    have hmod' := hP.payload_aligned
    have hlow := hP.low
    rcases addPool_cases hz with ⟨rfl, rfl⟩ | ⟨rfl, rfl⟩ | hz
    · have hge := hP.payload_ge
      refine ⟨P, List.mem_cons_self, Nat.le_refl _, ?_, .inl ⟨?_, ?_⟩⟩
      · unfold Pool.first
        omega
      · dsimp only
        omega
      · dsimp only
        omega
    · refine ⟨P, List.mem_cons_self, by omega, ?_, .inr ⟨rfl, rfl⟩⟩
      unfold Pool.last
      omega
    · obtain ⟨Q, hQ, hin⟩ := h.within a z hz
      exact ⟨Q, List.mem_cons_of_mem _ hQ, hin⟩
  first Q hQ := by
    rcases List.mem_cons.mp hQ with rfl | hQ
    · exact ⟨_, addPool_first, rfl⟩
    · obtain ⟨x, hx, hprev⟩ := h.first Q hQ
      exact ⟨x, addPool_of_some h hP hnew hx, hprev⟩
  last Q hQ := by
    rcases List.mem_cons.mp hQ with rfl | hQ
    · exact ⟨_, addPool_last hP, rfl⟩
    · obtain ⟨x, hx, hzero⟩ := h.last Q hQ
      exact ⟨x, addPool_of_some h hP hnew hx, hzero⟩

theorem tiling_nil : Tiling [] fun _ => none := by
  constructor <;> simp

end AddPool

/-! ### Adjacent free blocks -/

section Coalesced

variable {pools : List Pool} {L : Layout} {b s : Nat} {x y : Block} {bad bad' : Nat → Nat → Prop}

theorem CoalescedBut.mono (h : CoalescedBut bad L)
    (himp : ∀ a z w, L a = some z → L (a + 8 + z.size) = some w → z.free = true → w.free = true →
      bad a (a + 8 + z.size) → bad' a (a + 8 + z.size)) : CoalescedBut bad' L :=
  fun a z w hz hw hzf hwf => himp a z w hz hw hzf hwf (h a z w hz hw hzf hwf)

theorem CoalescedBut.markFree (h : Coalesced L) (hb : L b = some x) :
    CoalescedBut (fun a n => a = b ∨ n = b) (L.mark b true) := by
  intro a z w hz hw hzf hwf
  obtain ⟨z', hz', hzs, hzfree, -⟩ := mark_cases hb hz
  obtain ⟨w', hw', -, hwfree, -⟩ := mark_cases hb hw
  by_contra hne
  rw [not_or] at hne
  rw [if_neg hne.1, hzf] at hzfree
  rw [if_neg hne.2, hwf] at hwfree
  rw [← hzs] at hw'
  exact h a z' w' hz' hw' hzfree.symm hwfree.symm

theorem CoalescedBut.markUsed (h : CoalescedBut (fun a n => a = b ∨ n = b) L) (hb : L b = some x) :
    Coalesced (L.mark b false) := by
  intro a z w hz hw hzf hwf
  obtain ⟨z', hz', hzs, hzfree, -⟩ := mark_cases hb hz
  obtain ⟨w', hw', -, hwfree, -⟩ := mark_cases hb hw
  have hab : a ≠ b := by
    intro hab
    rw [if_pos hab, hzf] at hzfree
    simp at hzfree
  have hnb : a + 8 + z.size ≠ b := by
    intro hnb
    rw [if_pos hnb, hwf] at hwfree
    simp at hwfree
  rw [if_neg hab, hzf] at hzfree
  rw [if_neg hnb, hwf] at hwfree
  rw [← hzs] at hw' hnb
  exact (h a z' w' hz' hw' hzfree.symm hwfree.symm).elim hab hnb

/-- Splitting a free block adds one pair of adjacent free blocks. -/
theorem CoalescedBut.split (h : CoalescedBut bad L) (ht : Tiling pools L) (hb : L b = some x)
    (hfree : x.free = true) (hs : s + 32 ≤ x.size) :
    CoalescedBut (fun a n => a = b ∨ a ≠ b ∧ bad a n ∨ a = b + 8 + s ∧ bad b n) (L.split b s) := by
  intro a z w hz hw hzf hwf
  rcases split_cases hb hz with ⟨rfl, rfl⟩ | ⟨rfl, rfl⟩ | ⟨ha, har, hz⟩
  · exact .inl rfl
  · dsimp only at hw ⊢
    rw [show b + 8 + s + 8 + (x.size - 8 - s) = b + 8 + x.size by omega] at hw ⊢
    rw [split_of_ne hb (by omega) (by omega)] at hw
    exact .inr (.inr ⟨rfl, h b x w hb hw hfree hwf⟩)
  · refine .inr (.inl ⟨ha, ?_⟩)
    rcases split_cases hb hw with ⟨heq, rfl⟩ | ⟨heq, rfl⟩ | ⟨-, -, hw⟩
    · exact h a z x hz (by rw [heq, hb]) hzf hfree
    · have := ht.disjoint hz hb ha
      omega
    · exact h a z w hz hw hzf hwf

/-- Absorbing the next block removes one. -/
theorem CoalescedBut.absorb (h : CoalescedBut bad L) (hb : L b = some x)
    (hn : L (b + 8 + x.size) = some y) (hxfree : x.free = true) (hyfree : y.free = true) :
    CoalescedBut (fun a n => a ≠ b ∧ bad a n ∨ a = b ∧ bad (b + 8 + x.size) n) (L.absorb b) := by
  intro a z w hz hw hzf hwf
  rcases absorb_cases hb hn hz with ⟨rfl, rfl⟩ | ⟨ha, har, hz⟩
  · dsimp only at hw ⊢
    rw [show a + 8 + (x.size + 8 + y.size) = a + 8 + x.size + 8 + y.size by omega] at hw ⊢
    rw [absorb_of_ne hb hn (by omega) (by omega)] at hw
    exact .inr ⟨rfl, h _ y w hn hw hyfree hwf⟩
  · refine .inl ⟨ha, ?_⟩
    rcases absorb_cases hb hn hw with ⟨heq, rfl⟩ | ⟨-, -, hw⟩
    · exact h a z x hz (by rw [heq, hb]) hzf hxfree
    · exact h a z w hz hw hzf hwf

theorem Coalesced.addPool {P : Pool} (h : Coalesced L) (ht : Tiling pools L) (hP : P.Fits)
    (hnew : ∀ Q ∈ pools, P.Apart Q) : Coalesced (L.addPool P) := by
  intro a z w hz hw hzf hwf
  have hlast := hP.last_eq
  rcases addPool_cases hz with ⟨rfl, rfl⟩ | ⟨rfl, rfl⟩ | hz
  · -- the block after the new free one is the sentinel
    dsimp only at hw
    rw [← hlast, addPool_last hP] at hw
    obtain rfl := Option.some.inj hw
    simp at hwf
  · simp at hzf
  · obtain ⟨w', hw', -⟩ := ht.next a z hz (ht.size_ne_zero hz hzf)
    obtain rfl := Option.some.inj (hw.symm.trans (addPool_of_some ht hP hnew hw'))
    exact h a z w hz hw' hzf hwf

end Coalesced

/-! ### Used blocks -/

section Used

variable {pools : List Pool} {L : Layout} {b s : Nat} {x y : Block}

theorem used_mark (hb : L b = some x) (f : Bool) :
    (L.mark b f).used = Function.update L.used b (if f then none else some x.size) := by
  funext a
  by_cases hab : a = b
  · subst hab
    rw [Function.update_self, Layout.used, Layout.mark_eq hb, if_pos rfl]
    rfl
  · rw [Function.update_of_ne hab, Layout.used, Layout.used, Layout.mark_eq hb, if_neg hab]
    split_ifs with hn
    · cases L a <;> rfl
    · rfl

theorem used_split (h : Tiling pools L) (hb : L b = some x) (hfree : x.free = true)
    (hs : s + 32 ≤ x.size) : (L.split b s).used = L.used := by
  funext a
  rw [Layout.used, Layout.used, Layout.split_eq hb]
  split_ifs with h1 h2
  · simp [h1, hb, hfree]
  · simp [h.eq_none hb (show b < a by omega) (by omega)]
  · rfl

theorem used_absorb (hb : L b = some x) (hn : L (b + 8 + x.size) = some y)
    (hxfree : x.free = true) (hyfree : y.free = true) : (L.absorb b).used = L.used := by
  funext a
  rw [Layout.used, Layout.used, Layout.absorb_eq hb hn]
  split_ifs with h1 h2
  · simp [h1, hb, hxfree]
  · simp [h2, hn, hyfree]
  · rfl

theorem used_addPool {P : Pool} (h : Tiling pools L) (hP : P.Fits)
    (hnew : ∀ Q ∈ pools, P.Apart Q) :
    (L.addPool P).used = Function.update L.used P.last (some 0) := by
  have hlast := hP.last_eq
  funext a
  by_cases hl : a = P.last
  · rw [hl, Function.update_self, Layout.used_of_eq (addPool_last hP)]
    rfl
  · rw [Function.update_of_ne hl]
    by_cases hf : a = P.first
    · have hnone : L P.first = none := by
        rcases hL : L P.first with _ | z
        · rfl
        · have := h.apart_pool hnew hL
          omega
      rw [hf, Layout.used_of_eq addPool_first, Layout.used, hnone]
      rfl
    · rw [Layout.used, Layout.used, Layout.addPool, if_neg hf, if_neg hl]

end Used

end Htfh
