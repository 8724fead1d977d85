import SearchCache.Heap.Represents

/-! The bytes inside of the free blocks, which hold what was there before the blocks were freed: no
function stores to them but by cutting a block out of a free one. -/

namespace Htfh

open Memory

/-- The bytes of a free block behind its links and before the back link to it. -/
def Layout.Inside (L : Layout) (w : Nat) : Prop :=
  ∃ f x, L f = some x ∧ x.free = true ∧ f + 32 ≤ w ∧ w < f + 8 + x.size

/-- The bytes that no list stores to: those inside of free blocks and the size words. -/
def Layout.Solid (L : Layout) (w : Nat) : Prop :=
  L.Inside w ∨ ∃ c y, L c = some y ∧ c + 8 ≤ w ∧ w < c + 16

section Layouts

variable {pools : List Pool} {L L' : Layout} {cls : Classes} {a : Allocator} {H F : List Nat}
  {b c s w : Nat} {x y : Block}

/-- No header lies inside of a free block. -/
theorem Layout.Inside.off_header (hw : L.Inside w) (h : Tiling pools L) (hc : L c = some y) :
    w < c ∨ c + 16 ≤ w := by
  obtain ⟨f, x, hf, -, hlow, hhigh⟩ := hw
  by_cases hcf : c = f
  · omega
  · have := h.disjoint hc hf hcf
    omega

/-- Neither does the back link of a free block. -/
theorem Layout.Inside.off_foot (hw : L.Inside w) (h : Tiling pools L) (hc : L c = some y) :
    w < c + 8 + y.size ∨ c + 16 + y.size ≤ w := by
  obtain ⟨f, x, hf, -, hlow, hhigh⟩ := hw
  by_cases hcf : c = f
  · obtain rfl := Option.some.inj ((hcf ▸ hc).symm.trans hf)
    omega
  · have := h.disjoint hc hf hcf
    omega

/-- Nor does any byte of a used block. -/
theorem Layout.Inside.off_block (hw : L.Inside w) (h : Tiling pools L) (hc : L c = some y)
    (hused : y.free = false) : w < c + 16 ∨ c + 16 + y.size ≤ w := by
  obtain ⟨f, x, hf, hfree, hlow, hhigh⟩ := hw
  have hcf : c ≠ f := by
    rintro rfl
    obtain rfl := Option.some.inj (hc.symm.trans hf)
    simp [hused] at hfree
  have := h.disjoint hc hf hcf
  omega

theorem Layout.Solid.offLinks (hw : L.Solid w) (h : RepBut H F pools L cls a) {cls' : Classes}
    (hl : ListedIn L cls') : OffLinks cls' a.controller.blockNull w := by
  rcases hw with ⟨f, x, hf, hfree, hlow, hhigh⟩ | ⟨c, y, hc, hlow, hhigh⟩
  · refine ⟨?_, fun d k hd => ?_⟩
    · have := h.null_apart_block hf
      simp only [sizeofController] at this
      omega
    · obtain ⟨z, hz, hzfree, -⟩ := hl d k hd
      have hsize := h.tiling.size_ge hz (h.tiling.size_ne_zero hz hzfree)
      by_cases hdf : d = f
      · omega
      · have := h.tiling.disjoint hz hf hdf
        omega
  · exact h.offLinks_header hl hc ⟨hlow, hhigh⟩

theorem Layout.Inside.mark (hw : L.Inside w) (hb : L b = some x) : (L.mark b true).Inside w := by
  obtain ⟨f, y, hf, hfree, hlow, hhigh⟩ := hw
  obtain ⟨z, hz, hsize, hzfree, -⟩ := exists_mark hb hf true
  refine ⟨f, z, hz, ?_, hlow, by omega⟩
  rw [hzfree]
  split
  · rfl
  · exact hfree

theorem Layout.Inside.of_mark (hb : L b = some x) (hw : (L.mark b false).Inside w) : L.Inside w := by
  obtain ⟨f, z, hf, hfree, hlow, hhigh⟩ := hw
  obtain ⟨y, hy, hsize, hzfree, -⟩ := mark_cases hb hf
  refine ⟨f, y, hy, ?_, hlow, by omega⟩
  rw [hfree] at hzfree
  split at hzfree
  · simp at hzfree
  · exact hzfree.symm

theorem Layout.Inside.of_split (hb : L b = some x) (hfree : x.free = true) (hs : s + 32 ≤ x.size)
    (hw : (L.split b s).Inside w) : L.Inside w := by
  obtain ⟨f, z, hf, hzfree, hlow, hhigh⟩ := hw
  rcases split_cases hb hf with ⟨rfl, rfl⟩ | ⟨rfl, rfl⟩ | ⟨-, -, hf⟩
  · dsimp only at hhigh
    exact ⟨f, x, hb, hfree, hlow, by omega⟩
  · dsimp only at hhigh
    exact ⟨b, x, hb, hfree, by omega, by omega⟩
  · exact ⟨f, z, hf, hzfree, hlow, hhigh⟩

theorem Layout.Inside.absorb (hw : L.Inside w) (hb : L b = some x)
    (hn : L (b + 8 + x.size) = some y) (hfree : x.free = true) : (L.absorb b).Inside w := by
  obtain ⟨f, z, hf, hzfree, hlow, hhigh⟩ := hw
  by_cases hfb : f = b
  · subst hfb
    obtain rfl := Option.some.inj (hb.symm.trans hf)
    exact ⟨f, _, absorb_self hb hn, hzfree, hlow, by dsimp only; omega⟩
  by_cases hfn : f = b + 8 + x.size
  · subst hfn
    obtain rfl := Option.some.inj (hn.symm.trans hf)
    exact ⟨b, _, absorb_self hb hn, hfree, by omega, by dsimp only; omega⟩
  · exact ⟨f, z, by rw [absorb_of_ne hb hn hfb hfn, hf], hzfree, hlow, hhigh⟩

end Layouts

/-- The bytes that `P` holds of stay as they are. -/
def Stays (P : Nat → Prop) (a a' : Allocator) : Prop := ∀ w, P w → a'.mem.byte w = a.mem.byte w

namespace Stays

variable {P Q : Nat → Prop} {a a' a'' : Allocator}

theorem refl (P : Nat → Prop) (a : Allocator) : Stays P a a := fun _ _ => rfl

theorem trans (h : Stays P a a') (h' : Stays P a' a'') : Stays P a a'' :=
  fun w hw => (h' w hw).trans (h w hw)

theorem mono (h : Stays P a a') (himp : ∀ w, Q w → P w) : Stays Q a a' := fun w hw => h w (himp w hw)

theorem ofSameHeap (h : SameHeap a a') : Stays P a a' := fun w _ => by rw [h.mem]

end Stays

/-- A function keeps what a frame keeps and what is inside of the free blocks. -/
structure Framed (L : Layout) (a a' : Allocator) : Prop where
  frame : Frame L.used a a'
  stays : Stays L.Inside a a'

theorem Framed.trans {L : Layout} {a a' a'' : Allocator} (h : Framed L a a') (h' : Framed L a' a'') :
    Framed L a a'' := ⟨h.frame.trans h'.frame, h.stays.trans h'.stays⟩

namespace RepBut

variable {H F : List Nat} {pools : List Pool} {L : Layout} {cls : Classes} {a : Allocator} {b : Nat}
  {x : Block}

theorem framed_setSize (h : RepBut H F pools L cls a) (hb : L b = some x) {f : Mem → Mem} {v : Nat}
    (hf : f a.mem = setSize b v a.mem) : Framed L a (setMem f a) := by
  refine ⟨.setMem f ?_, fun w hw => ?_⟩
  · rw [hf]
    exact keeps_setSize h.tiling hb v a.mem
  · show (f a.mem).byte w = a.mem.byte w
    rw [hf]
    have := hw.off_header h.tiling hb
    exact byte_write64_of_disjoint (by omega)

theorem framed_setPrevPhysBlock (h : RepBut H F pools L cls a) (hb : L b = some x)
    (hfree : x.free = true) (v : Nat) :
    Framed L a (setMem (setPrevPhysBlock (b + 8 + x.size) v) a) := by
  refine ⟨.setMem _ (keeps_setPrevPhysBlock h.tiling hb hfree v a.mem), fun w hw => ?_⟩
  have := hw.off_foot h.tiling hb
  exact byte_write64_of_disjoint (by omega)

end RepBut

end Htfh
