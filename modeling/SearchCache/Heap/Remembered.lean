import SearchCache.Heap.ControllerSpecs

/-! What remains of a freed block in the free block that it is merged into: its header stays where
it was and says that the block is free, until a list or a new header takes its place. -/

namespace Htfh

open Memory

/-- The block at `b`, of `t` bytes, is a free block or lies behind the links of one. -/
def Swallowed (L : Layout) (b t : Nat) : Prop :=
  ∃ f x, L f = some x ∧ x.free = true ∧ (f = b ∨ f + 24 ≤ b) ∧ b + t ≤ f + x.size

/-- A freed block of which there still is a header that says so. -/
structure Remembers (L : Layout) (a : Allocator) (b t : Nat) : Prop where
  swallowed : Swallowed L b t
  size_ge : 24 ≤ t
  flag : blockIsFree a.mem b = true

section Swallowed

variable {pools : List Pool} {L L' : Layout} {b c t w : Nat} {x y : Block}

/-- The header word of the block lies where no list stores to. -/
theorem Swallowed.solid (h : Swallowed L b t) (ht : 24 ≤ t) (hlow : b + 8 ≤ w) (hhigh : w < b + 16) :
    L.Solid w := by
  obtain ⟨f, x, hf, hfree, rfl | hfb, hle⟩ := h
  · exact .inr ⟨f, x, hf, hlow, hhigh⟩
  · exact .inl ⟨f, x, hf, hfree, by omega, by omega⟩

theorem Swallowed.mark (h : Swallowed L b t) (hc : L c = some x) : Swallowed (L.mark c true) b t := by
  obtain ⟨f, y, hf, hfree, hfb, hle⟩ := h
  obtain ⟨z, hz, hsize, hzfree, -⟩ := exists_mark hc hf true
  refine ⟨f, z, hz, ?_, hfb, by omega⟩
  rw [hzfree, hfree, ite_self]

theorem Swallowed.absorb (h : Swallowed L b t) (ht : Tiling pools L) (hc : L c = some x)
    (hn : L (c + 8 + x.size) = some y) (hfree : x.free = true) : Swallowed (L.absorb c) b t := by
  obtain ⟨f, z, hf, hzfree, hfb, hle⟩ := h
  have hsize := ht.size_ge hc (ht.size_ne_zero hc hfree)
  by_cases hfc : f = c
  · subst hfc
    obtain rfl := Option.some.inj (hc.symm.trans hf)
    exact ⟨f, _, absorb_self hc hn, hfree, hfb, by dsimp only; omega⟩
  by_cases hfn : f = c + 8 + x.size
  · subst hfn
    obtain rfl := Option.some.inj (hn.symm.trans hf)
    exact ⟨c, _, absorb_self hc hn, hfree, .inr (by omega), by dsimp only; omega⟩
  · exact ⟨f, z, by rw [absorb_of_ne hc hn hfc hfn, hf], hzfree, hfb, hle⟩

theorem Swallowed.merged (h : Swallowed L b t) (ht : Tiling pools L) (hm : Merged L c L') :
    Swallowed L' b t := by
  rcases hm with rfl | ⟨x, y, hc, hn, hfree, rfl⟩
  · exact h
  · exact h.absorb ht hc hn hfree

end Swallowed

section Remembers

variable {H F : List Nat} {pools : List Pool} {L L' : Layout} {cls : Classes} {a a' : Allocator}
  {b c t : Nat} {x : Block}

theorem Remembers.congr (h : Remembers L a b t) (hmem : a'.mem = a.mem) : Remembers L a' b t :=
  ⟨h.swallowed, h.size_ge, by rw [hmem, h.flag]⟩

/-- The header is that of a free block or lies inside of one, where nothing is stored to. -/
theorem Remembers.next (h : Remembers L a b t) (hrep : RepBut H F pools L' cls a') (hH : b ∉ H)
    (hswallowed : Swallowed L' b t) (hstays : Stays (fun w => L.Solid w ∧ L'.Inside w) a a') :
    Remembers L' a' b t := by
  refine ⟨hswallowed, h.size_ge, ?_⟩
  have hsize := h.size_ge
  obtain ⟨f, x, hf, hfree, rfl | hfb, hle⟩ := hswallowed
  · rw [hrep.blockIsFree_eq hf hH, hfree]
  · have hword : Htfh.size a'.mem b = Htfh.size a.mem b := read64_congr fun w hlow hhigh =>
      hstays w ⟨h.swallowed.solid hsize hlow (by omega), f, x, hf, hfree, by omega, by omega⟩
    rw [blockIsFree, hword]
    exact h.flag

/-- A block that is marked as free is remembered itself. -/
theorem Remembers.of_mark (h : Rep pools (L.mark b true) cls a) (hb : L b = some x)
    (hsize : x.size ≠ 0) : Remembers (L.mark b true) a b x.size := by
  have hmark : L.mark b true b = some { x with free := true } := by rw [Layout.mark_eq hb, if_pos rfl]
  have hge := h.tiling.size_ge hmark hsize
  refine ⟨⟨b, _, hmark, rfl, .inl rfl, ?_⟩, hge.2, h.blockIsFree_eq hmark (by simp)⟩
  exact Nat.le_refl _

end Remembers

end Htfh
