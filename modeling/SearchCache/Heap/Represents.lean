import SearchCache.Heap.FreeLists
import SearchCache.Heap.Headers
import SearchCache.Heap.SizeClass

/-! When an allocator represents a layout.  Headers and back links are stored at every block, but for
the lists of exceptions that a function of the source leaves in between its stores; the free lists
hold the blocks that have a class. -/

namespace Htfh

open Memory

/-- The classes of the free blocks of a layout. -/
def Layout.classOf (L : Layout) : Classes := fun b =>
  (L b).bind fun x => if x.free then some (mappingInsert x.size) else none

/-- Only free blocks have a class, and the one of their size. -/
def ListedIn (L : Layout) (cls : Classes) : Prop :=
  ∀ b k, cls b = some k → ∃ x, L b = some x ∧ x.free = true ∧ mappingInsert x.size = k

/-- `a` stores the layout `L` and lists the blocks that `cls` gives a class.  The headers in `H` and
the back links of the blocks in `F` may be wrong. -/
structure RepBut (H F : List Nat) (pools : List Pool) (L : Layout) (cls : Classes)
    (a : Allocator) : Prop where
  tiling : Tiling pools L
  header : ∀ b x, L b = some x → b ∉ H → size a.mem b = header x.size x.free x.prevFree
  foot : ∀ b x, L b = some x → x.free = true → b ∉ F → prevPhysBlock a.mem (b + 8 + x.size) = b
  listed : ListedIn L cls
  index : Index cls a.mem a.controller
  null_pos : 0 < a.controller.blockNull ∧ a.controller.blockNull + sizeofController ≤ 2 ^ 64
  null_apart : ∀ P ∈ pools, P.last + 16 ≤ a.controller.blockNull ∨
    a.controller.blockNull + sizeofController ≤ P.mem

abbrev Rep := RepBut [] []

namespace RepBut

variable {H F : List Nat} {pools : List Pool} {L L' : Layout} {cls : Classes} {a a' : Allocator}
  {b c : Nat} {x y : Block}

/-- The controller lies apart from every block. -/
theorem null_apart_block (h : RepBut H F pools L cls a) (hb : L b = some x) :
    b + 16 + x.size ≤ a.controller.blockNull ∨
      a.controller.blockNull + sizeofController ≤ b + 8 := by
  obtain ⟨P, hP, hfirst, -, hend⟩ := h.tiling.within b x hb
  have hfits := h.tiling.fits P hP
  have hlow := hfits.low
  have hlast := hfits.last_eq
  rcases h.null_apart P hP with hapart | hapart
  · exact .inl (by omega)
  · exact .inr (by simp only [Pool.first] at hfirst; omega)

theorem spaced (h : RepBut H F pools L cls a) {cls' : Classes} (hl : ListedIn L cls') :
    Spaced cls' a.controller.blockNull where
  apart b c j k hj hk hne := by
    obtain ⟨x, hx, hxfree, -⟩ := hl b j hj
    obtain ⟨y, hy, hyfree, -⟩ := hl c k hk
    have hxsize := h.tiling.size_ge hx (h.tiling.size_ne_zero hx hxfree)
    have hysize := h.tiling.size_ge hy (h.tiling.size_ne_zero hy hyfree)
    have := h.tiling.disjoint hx hy hne
    omega
  null_apart b k hk := by
    obtain ⟨x, hx, -, -⟩ := hl b k hk
    have := h.null_apart_block hx
    simp only [sizeofController] at this
    omega
  pos b k hk := by
    obtain ⟨x, hx, -, -⟩ := hl b k hk
    have := h.tiling.bounds hx
    omega
  null_pos := by
    have := h.null_pos
    simp only [sizeofController] at this
    omega

/-- The size word of a block is no link word. -/
theorem offLinks_header (h : RepBut H F pools L cls a) {cls' : Classes} (hl : ListedIn L cls')
    (hb : L b = some x) {w : Nat}
    (hw : b + 8 ≤ w ∧ w < b + 16) : OffLinks cls' a.controller.blockNull w := by
  refine ⟨?_, fun c k hk => ?_⟩
  · have := h.null_apart_block hb
    simp only [sizeofController] at this
    omega
  · obtain ⟨y, hy, hyfree, -⟩ := hl c k hk
    have hsize := h.tiling.size_ge hy (h.tiling.size_ne_zero hy hyfree)
    by_cases hbc : b = c
    · omega
    · have := h.tiling.disjoint hb hy hbc
      omega

/-- Neither is the last word of a block. -/
theorem offLinks_foot (h : RepBut H F pools L cls a) {cls' : Classes} (hl : ListedIn L cls')
    (hb : L b = some x) (hsize : x.size ≠ 0)
    {w : Nat} (hw : b + 8 + x.size ≤ w ∧ w < b + 16 + x.size) :
    OffLinks cls' a.controller.blockNull w := by
  have hmin := h.tiling.size_ge hb hsize
  refine ⟨?_, fun c k hk => ?_⟩
  · have := h.null_apart_block hb
    simp only [sizeofController] at this
    omega
  · obtain ⟨y, hy, hyfree, -⟩ := hl c k hk
    have hsize := h.tiling.size_ge hy (h.tiling.size_ne_zero hy hyfree)
    by_cases hbc : b = c
    · subst hbc
      omega
    · have := h.tiling.disjoint hb hy hbc
      omega

/-- Nor is a word in the payload of a used block. -/
theorem offLinks_used (h : RepBut H F pools L cls a) {cls' : Classes} (hl : ListedIn L cls')
    (hb : L b = some x) (hused : x.free = false)
    {w : Nat} (hw : b + 16 ≤ w ∧ w < b + 16 + x.size) : OffLinks cls' a.controller.blockNull w := by
  refine ⟨?_, fun c k hk => ?_⟩
  · have := h.null_apart_block hb
    simp only [sizeofController] at this
    omega
  · obtain ⟨y, hy, hyfree, -⟩ := hl c k hk
    have hsize := h.tiling.size_ge hy (h.tiling.size_ne_zero hy hyfree)
    have hbc : b ≠ c := by
      rintro rfl
      obtain rfl := Option.some.inj (hb.symm.trans hy)
      simp [hused] at hyfree
    have := h.tiling.disjoint hb hy hbc
    omega

/-- Only memory and controller matter. -/
theorem congr (h : RepBut H F pools L cls a) (hmem : a'.mem = a.mem)
    (hcontroller : a'.controller = a.controller) : RepBut H F pools L cls a' where
  tiling := h.tiling
  header := by rw [hmem]; exact h.header
  foot := by rw [hmem]; exact h.foot
  listed := h.listed
  index := by rw [hmem, hcontroller]; exact h.index
  null_pos := by rw [hcontroller]; exact h.null_pos
  null_apart := by rw [hcontroller]; exact h.null_apart

theorem sameHeap (h : RepBut H F pools L cls a) (hsame : SameHeap a a') :
    RepBut H F pools L cls a' := h.congr hsame.mem hsame.controller

/-- Other stores to link words, with another index of the same layout. -/
theorem reindex (h : RepBut H F pools L cls a) {cls' cls'' : Classes} {m : Mem} {c : Controller}
    (hindex : Index cls' m c) (hnull : c.blockNull = a.controller.blockNull)
    (hl : ListedIn L cls') (hl' : ListedIn L cls'')
    (hframe : ∀ w, OffLinks cls'' a.controller.blockNull w → m.byte w = a.mem.byte w) :
    RepBut H F pools L cls' { a with mem := m, controller := c } where
  tiling := h.tiling
  header b x hb hH := by
    rw [← h.header b x hb hH]
    exact read64_congr fun w hw hlt => hframe w (h.offLinks_header hl' hb (by omega))
  foot b x hb hfree hF := by
    have hsize := h.tiling.size_ne_zero hb hfree
    refine Eq.trans ?_ (h.foot b x hb hfree hF)
    exact read64_congr fun w hw hlt => hframe w (h.offLinks_foot hl' hb hsize (by omega))
  listed := hl
  index := hindex
  null_pos := hnull ▸ h.null_pos
  null_apart := by
    show ∀ P ∈ pools, P.last + 16 ≤ c.blockNull ∨ c.blockNull + sizeofController ≤ P.mem
    rw [hnull]
    exact h.null_apart

/-- Another layout is represented too, up to the blocks where the two differ. -/
theorem relayout (h : RepBut H F pools L cls a) {H' F' : List Nat} (ht : Tiling pools L')
    (hheader : ∀ b x, L' b = some x → b ∉ H' → b ∉ H ∧ L b = some x)
    (hfoot : ∀ b x, L' b = some x → x.free = true → b ∉ F' →
      b ∉ F ∧ ∃ y, L b = some y ∧ y.free = true ∧ y.size = x.size)
    (hlisted : ∀ b k x, cls b = some k → L b = some x → x.free = true →
      ∃ y, L' b = some y ∧ y.free = true ∧ y.size = x.size) : RepBut H' F' pools L' cls a where
  tiling := ht
  header b x hb hH := by
    obtain ⟨hH, hb⟩ := hheader b x hb hH
    exact h.header b x hb hH
  foot b x hb hfree hF := by
    obtain ⟨hF, y, hy, hyfree, hsize⟩ := hfoot b x hb hfree hF
    rw [← hsize]
    exact h.foot b y hy hyfree hF
  listed b k hk := by
    obtain ⟨x, hx, hfree, hclass⟩ := h.listed b k hk
    obtain ⟨y, hy, hyfree, hsize⟩ := hlisted b k x hk hx hfree
    exact ⟨y, hy, hyfree, by rw [hsize, hclass]⟩
  index := h.index
  null_pos := h.null_pos
  null_apart := h.null_apart

/-! ### Stores to headers and back links -/

/-- No byte of the payloads of used blocks changes. -/
def Keeps (used : Nat → Option Nat) (m m' : Mem) : Prop :=
  ∀ u s, used u = some s → ∀ w, u + 16 ≤ w → w < u + 16 + s → m'.byte w = m.byte w

theorem keeps_setSize (h : Tiling pools L) (hb : L b = some x) (v : Nat) (m : Mem) :
    Keeps L.used m (setSize b v m) := by
  intro u s hu w hw hlt
  obtain ⟨y, hy, -, rfl⟩ := Layout.used_eq_some.mp hu
  refine byte_write64_of_disjoint ?_
  by_cases hbu : b = u
  · omega
  · have := h.disjoint hb hy hbu
    omega

theorem keeps_setPrevPhysBlock (h : Tiling pools L) (hb : L b = some x) (hfree : x.free = true)
    (v : Nat) (m : Mem) : Keeps L.used m (setPrevPhysBlock (b + 8 + x.size) v m) := by
  intro u s hu w hw hlt
  obtain ⟨y, hy, hused, rfl⟩ := Layout.used_eq_some.mp hu
  have hbu : b ≠ u := by
    rintro rfl
    obtain rfl := Option.some.inj (hb.symm.trans hy)
    simp [hused] at hfree
  have := h.disjoint hb hy hbu
  exact byte_write64_of_disjoint (by omega)

/-- A store within the size word of a block changes no other word of interest. -/
theorem read64_setSize (h : Tiling pools L) (hb : L b = some x) (hc : L c = some y) {v w : Nat}
    {m : Mem} (hw : c + 8 ≤ w ∧ w + 8 ≤ c + 16 + y.size) (hne : b = c → b + 16 ≤ w) :
    read64 (setSize b v m) w = read64 m w := by
  refine read64_write64_of_disjoint ?_
  by_cases hbc : b = c
  · have := hne hbc
    omega
  · have := h.disjoint hb hc hbc
    omega

theorem read64_setPrevPhysBlock (h : Tiling pools L) (hb : L b = some x) (hc : L c = some y)
    {v w : Nat} {m : Mem} (hw : c + 8 ≤ w ∧ w + 8 ≤ c + 16 + y.size)
    (hne : b = c → w + 8 ≤ b + 8 + x.size) :
    read64 (setPrevPhysBlock (b + 8 + x.size) v m) w = read64 m w := by
  refine read64_write64_of_disjoint ?_
  by_cases hbc : b = c
  · have := hne hbc
    omega
  · have := h.disjoint hb hc hbc
    omega

/-- The lists of exceptions may grow. -/
theorem mono (h : RepBut H F pools L cls a) {G E : List Nat} (hH : ∀ b ∈ H, b ∈ G)
    (hF : ∀ b ∈ F, b ∈ E) : RepBut G E pools L cls a where
  tiling := h.tiling
  header b x hb hb' := h.header b x hb fun hmem => hb' (hH b hmem)
  foot b x hb hfree hb' := h.foot b x hb hfree fun hmem => hb' (hF b hmem)
  listed := h.listed
  index := h.index
  null_pos := h.null_pos
  null_apart := h.null_apart

/-- A header that is right is no exception. -/
theorem resolve (h : RepBut (b :: H) F pools L cls a) (hb : L b = some x)
    (hsize : size a.mem b = Htfh.header x.size x.free x.prevFree) :
    RepBut H F pools L cls a where
  tiling := h.tiling
  header c y hc hH := by
    by_cases hbc : c = b
    · subst hbc
      obtain rfl := Option.some.inj (hb.symm.trans hc)
      exact hsize
    · exact h.header c y hc (by simp [hbc, hH])
  foot := h.foot
  listed := h.listed
  index := h.index
  null_pos := h.null_pos
  null_apart := h.null_apart

/-- Storing anything to the header of a block. -/
theorem clobber (h : RepBut (b :: H) F pools L cls a) (hb : L b = some x) (v : Nat) :
    RepBut (b :: H) F pools L cls (setMem (setSize b v) a) where
  tiling := h.tiling
  header c y hc hH := by
    have hbc : c ≠ b := fun heq => hH (by simp [heq])
    rw [← h.header c y hc hH]
    exact read64_setSize h.tiling hb hc (by omega) fun heq => (hbc heq.symm).elim
  foot c y hc hfree hF := by
    have hsize := h.tiling.size_ge hc (h.tiling.size_ne_zero hc hfree)
    refine Eq.trans ?_ (h.foot c y hc hfree hF)
    exact read64_setSize h.tiling hb hc (by omega) (by omega)
  listed := h.listed
  index := by
    refine h.index.congr (fun c k hk => ?_) fun c k hk => ?_ <;>
    · obtain ⟨y, hy, hfree, -⟩ := h.listed c k hk
      have hsize := h.tiling.size_ge hy (h.tiling.size_ne_zero hy hfree)
      exact read64_setSize h.tiling hb hy (by omega) (by omega)
  null_pos := h.null_pos
  null_apart := h.null_apart

/-- Storing the header of a block. -/
theorem storeSize (h : RepBut (b :: H) F pools L cls a) (hb : L b = some x) :
    RepBut H F pools L cls (setMem (setSize b (Htfh.header x.size x.free x.prevFree)) a) := by
  refine (h.clobber hb _).resolve hb ?_
  show read64 (setSize b _ a.mem) (b + 8) = _
  rw [setSize, read64_write64_same, Nat.mod_eq_of_lt (header_lt (h.tiling.bounds hb).2.2.2)]

/-- Storing the back link of a free block. -/
theorem storeFoot (h : RepBut H (b :: F) pools L cls a) (hb : L b = some x)
    (hfree : x.free = true) :
    RepBut H F pools L cls (setMem (setPrevPhysBlock (b + 8 + x.size) b) a) where
  tiling := h.tiling
  header c y hc hH := by
    have hsize := h.tiling.size_ge hb (h.tiling.size_ne_zero hb hfree)
    rw [← h.header c y hc hH]
    exact read64_setPrevPhysBlock h.tiling hb hc (by omega) (by omega)
  foot c y hc hcfree hF := by
    by_cases hbc : c = b
    · subst hbc
      obtain rfl := Option.some.inj (hb.symm.trans hc)
      have hlt := (h.tiling.bounds hb).2.2.1
      show read64 (setPrevPhysBlock _ c a.mem) _ = _
      rw [setPrevPhysBlock, read64_write64_same, Nat.mod_eq_of_lt (by omega)]
    · refine Eq.trans ?_ (h.foot c y hc hcfree (by simp [hbc, hF]))
      exact read64_setPrevPhysBlock h.tiling hb hc (by omega) fun heq => (hbc heq.symm).elim
  listed := h.listed
  index := by
    have hbsize := h.tiling.size_ge hb (h.tiling.size_ne_zero hb hfree)
    refine h.index.congr (fun c k hk => ?_) fun c k hk => ?_ <;>
    · obtain ⟨y, hy, hyfree, -⟩ := h.listed c k hk
      have hsize := h.tiling.size_ge hy (h.tiling.size_ne_zero hy hyfree)
      refine read64_setPrevPhysBlock h.tiling hb hy (by omega) ?_
      rintro rfl
      omega
  null_pos := h.null_pos
  null_apart := h.null_apart

end RepBut

/-- What every function keeps: the count of the lock and the payloads of the used blocks. -/
structure Frame (used : Nat → Option Nat) (a a' : Allocator) : Prop where
  mutex : a'.mutex = a.mutex
  keeps : RepBut.Keeps used a.mem a'.mem

namespace Frame

variable {used used' : Nat → Option Nat} {a a' a'' : Allocator}

theorem refl (used : Nat → Option Nat) (a : Allocator) : Frame used a a :=
  ⟨rfl, fun _ _ _ _ _ _ => rfl⟩

theorem trans (h : Frame used a a') (h' : Frame used a' a'') : Frame used a a'' where
  mutex := h'.mutex.trans h.mutex
  keeps u s hu w hw hlt := (h'.keeps u s hu w hw hlt).trans (h.keeps u s hu w hw hlt)

theorem mono (h : Frame used a a') (hsub : ∀ u s, used' u = some s → used u = some s) :
    Frame used' a a' := ⟨h.mutex, fun u s hu => h.keeps u s (hsub u s hu)⟩

theorem ofSameHeap (h : SameHeap a a') : Frame used a a' :=
  ⟨h.mutex, fun _ _ _ _ _ _ => by rw [h.mem]⟩

/-- One store. -/
theorem setMem (f : Mem → Mem) (h : RepBut.Keeps used a.mem (f a.mem)) :
    Frame used a (Htfh.setMem f a) := ⟨rfl, h⟩

end Frame

end Htfh
