import SearchCache.Heap.Controller
import SearchCache.Lib.Linked
import Mathlib.Logic.Function.Basic

/-! The segregated free lists.  `Index cls m c` says that the lists of the controller `c` in the
memory `m` hold the blocks that `cls` gives a class, each in the list of its class, and that the
bitmaps tell which lists are not empty.  Removing a block takes its class away and inserting one
gives it. -/

namespace Htfh

open Memory Linked

/-- The classes of the blocks that are in a list. -/
abbrev Classes := Nat → Option (Nat × Nat)

/-- A link of a free list, which ends at the null block. -/
def link (null v : Nat) : Option Nat := if v = null then none else some v

theorem link_eq_some {null v b : Nat} (h : link null v = some b) : v = b := by
  unfold link at h
  split at h
  · simp at h
  · exact Option.some.inj h

theorem link_of_ne {null v : Nat} (h : v ≠ null) : link null v = some v := if_neg h

theorem link_eq_none {null v : Nat} : link null v = none ↔ v = null := by
  unfold link
  split <;> simp_all

/-- The list from `head` visits `l`, with the back links in reverse. -/
abbrev FreeList (m : Mem) (null head : Nat) (l : List Nat) : Prop :=
  Dll (fun b => link null (nextFree m b)) (fun b => link null (prevFree m b)) (link null head)
    l.getLast? l

structure Index (cls : Classes) (m : Mem) (c : Controller) : Prop where
  list : ∀ fl sl, ∃ l, FreeList m c.blockNull (c.blocks fl sl) l ∧ ∀ b, b ∈ l ↔ cls b = some (fl, sl)
  slBit : ∀ fl sl, (c.slBitmap fl).getLsbD sl = true ↔ ∃ b, cls b = some (fl, sl)
  flBit : ∀ fl, c.flBitmap.getLsbD fl = true ↔ c.slBitmap fl ≠ 0

/-- The link words of the blocks in a list overlap neither each other nor those of the null block. -/
structure Spaced (cls : Classes) (null : Nat) : Prop where
  apart : ∀ b c j k, cls b = some j → cls c = some k → b ≠ c → b + 16 ≤ c ∨ c + 16 ≤ b
  null_apart : ∀ b k, cls b = some k → b + 16 ≤ null ∨ null + 16 ≤ b
  pos : ∀ b k, cls b = some k → 0 < b ∧ b < 2 ^ 64
  null_pos : 0 < null ∧ null < 2 ^ 64

/-- A byte that is in no list's link words. -/
def OffLinks (cls : Classes) (null w : Nat) : Prop :=
  (w < null + 16 ∨ null + 32 ≤ w) ∧ ∀ b k, cls b = some k → w < b + 16 ∨ b + 32 ≤ w

variable {cls : Classes} {m m' : Mem} {c : Controller}

/-- The free lists depend on the links of the blocks in them only. -/
theorem Index.congr (h : Index cls m c)
    (hn : ∀ b k, cls b = some k → nextFree m' b = nextFree m b)
    (hp : ∀ b k, cls b = some k → prevFree m' b = prevFree m b) : Index cls m' c where
  list fl sl := by
    obtain ⟨l, hl, hmem⟩ := h.list fl sl
    refine ⟨l, hl.congr ?_ ?_, hmem⟩
    · intro b hb
      rw [hn b _ ((hmem b).mp hb)]
    · intro b hb
      rw [hp b _ ((hmem b).mp hb)]
  slBit := h.slBit
  flBit := h.flBit

theorem Spaced.ne_null {null b : Nat} {k : Nat × Nat} (h : Spaced cls null) (hb : cls b = some k) :
    b ≠ null := by
  have := h.null_apart b k hb
  omega

/-! ### Removing a block -/

section Remove

variable {b fl sl : Nat}

def unlinkMem (prev next : Nat) (m : Mem) : Mem := setNextFree prev next (setPrevFree next prev m)

/-- What the link words hold: the null block or a block in a list. -/
def IsLink (cls : Classes) (null v : Nat) : Prop := v = null ∨ ∃ k, cls v = some k

theorem IsLink.of_link {null v : Nat} {l : List Nat} {o : Option Nat} (h : link null v = o)
    (ho : ∀ y, o = some y → y ∈ l) (hmem : ∀ b, b ∈ l ↔ cls b = some (fl, sl)) :
    IsLink cls null v := by
  by_cases hv : v = null
  · exact .inl hv
  · exact .inr ⟨_, (hmem v).mp (ho v (h ▸ link_of_ne hv))⟩

theorem IsLink.bounds {null v : Nat} (h : IsLink cls null v) (hs : Spaced cls null) :
    0 < v ∧ v < 2 ^ 64 := by
  rcases h with rfl | ⟨k, hk⟩
  · exact hs.null_pos
  · exact hs.pos v k hk

theorem IsLink.apart {null v a : Nat} {k : Nat × Nat} (h : IsLink cls null v)
    (hs : Spaced cls null) (ha : cls a = some k) (hne : a ≠ v) : a + 16 ≤ v ∨ v + 16 ≤ a := by
  rcases h with rfl | ⟨j, hj⟩
  · exact hs.null_apart a k ha
  · exact hs.apart a v k j ha hj hne

theorem IsLink.off {null v w : Nat} (h : IsLink cls null v) (hw : OffLinks cls null w) :
    w < v + 16 ∨ v + 32 ≤ w := by
  rcases h with rfl | ⟨j, hj⟩
  · exact hw.1
  · exact hw.2 v j hj

variable {null prev next : Nat}

theorem nextFree_unlinkMem (hs : Spaced cls null) (hprev : IsLink cls null prev)
    (hnext : IsLink cls null next) (hlt : next < 2 ^ 64) {a : Nat} {k : Nat × Nat}
    (ha : cls a = some k) :
    nextFree (unlinkMem prev next m) a = if a = prev then next else nextFree m a := by
  have hother : read64 (setPrevFree next prev m) (a + 16) = nextFree m a := by
    refine read64_write64_of_disjoint ?_
    by_cases h : a = next
    · omega
    · have := hnext.apart hs ha h
      omega
  by_cases h : a = prev
  · subst h
    rw [if_pos rfl, nextFree, unlinkMem, setNextFree, read64_write64_same, Nat.mod_eq_of_lt hlt]
  · have := hprev.apart hs ha h
    rw [if_neg h, nextFree, unlinkMem, setNextFree, read64_write64_of_disjoint (by omega), hother]

theorem prevFree_unlinkMem (hs : Spaced cls null) (hprev : IsLink cls null prev)
    (hnext : IsLink cls null next) (hlt : prev < 2 ^ 64) {a : Nat} {k : Nat × Nat}
    (ha : cls a = some k) :
    prevFree (unlinkMem prev next m) a = if a = next then prev else prevFree m a := by
  have hother : prevFree (unlinkMem prev next m) a = prevFree (setPrevFree next prev m) a := by
    refine read64_write64_of_disjoint ?_
    by_cases h : a = prev
    · omega
    · have := hprev.apart hs ha h
      omega
  by_cases h : a = next
  · subst h
    rw [if_pos rfl, hother, prevFree, setPrevFree, read64_write64_same, Nat.mod_eq_of_lt hlt]
  · have := hnext.apart hs ha h
    rw [if_neg h, hother, prevFree, setPrevFree, read64_write64_of_disjoint (by omega), prevFree]

theorem byte_unlinkMem (hprev : IsLink cls null prev) (hnext : IsLink cls null next) {w : Nat}
    (hw : OffLinks cls null w) : (unlinkMem prev next m).byte w = m.byte w := by
  have h1 := hprev.off hw
  have h2 := hnext.off hw
  rw [unlinkMem, setNextFree, byte_write64_of_disjoint (by omega), setPrevFree,
    byte_write64_of_disjoint (by omega)]

/-- Taking a block out of its list. -/
theorem FreeList.unlink {head : Nat} {l : List Nat} (h : FreeList m null head l)
    (hs : Spaced cls null) (hmem : ∀ a, a ∈ l ↔ cls a = some (fl, sl)) (hb : b ∈ l) :
    IsLink cls null (prevFree m b) ∧ IsLink cls null (nextFree m b) ∧
      ∃ l', FreeList (unlinkMem (prevFree m b) (nextFree m b) m) null
        (if head = b then nextFree m b else head) l' ∧ ∀ a, a ∈ l' ↔ a ∈ l ∧ a ≠ b := by
  obtain ⟨before, after, rfl⟩ := List.append_of_mem hb
  have hnodup := h.nodup
  have hnexteq : link null (nextFree m b) = after.head? := h.next_eq
  have hpreveq : link null (prevFree m b) = before.getLast? := h.prev_eq
  have hprev : IsLink cls null (prevFree m b) := .of_link hpreveq
    (fun y hy => by simp [List.mem_of_getLast? hy]) hmem
  have hnext : IsLink cls null (nextFree m b) := .of_link hnexteq
    (fun y hy => by simp [List.mem_of_head? hy]) hmem
  have hcls : ∀ a ∈ before ++ after, cls a = some (fl, sl) := by
    intro a ha
    refine (hmem a).mp ?_
    rcases List.mem_append.mp ha with ha | ha <;> simp [ha]
  have hnextlt := (hnext.bounds hs).2
  have hprevlt := (hprev.bounds hs).2
  refine ⟨hprev, hnext, before ++ after, ?_, ?_⟩
  · have hfirst : head = b ↔ before = [] := by
      have hhead : link null head = (before ++ b :: after).head? := h.head_eq
      cases before with
      | nil => simpa using link_eq_some hhead
      | cons c before =>
        have hc : head = c := link_eq_some hhead
        have hne : c ≠ b := by
          rintro rfl
          simp at hnodup
        simp [hc, hne]
    refine Dll.unlink h ?_ ?_ ?_ ?_ ?_ ?_
    · by_cases hbefore : before = []
      · simp [hfirst.mpr hbefore, hbefore]
      · simp [mt hfirst.mp hbefore, hbefore]
    · rw [hpreveq, List.getLast?_append, List.getLast?_append]
      cases after with
      | nil => simp
      | cons c after => simp
    · intro y hy
      have hy' : prevFree m b = y := link_eq_some (hpreveq.trans hy)
      have hmem' : y ∈ before ++ after := by simp [List.mem_of_getLast? hy]
      rw [nextFree_unlinkMem hs hprev hnext hnextlt (hcls y hmem'), if_pos hy'.symm]
    · intro y hy
      have hy' : nextFree m b = y := link_eq_some (hnexteq.trans hy)
      have hmem' : y ∈ before ++ after := by simp [List.mem_of_head? hy]
      rw [prevFree_unlinkMem hs hprev hnext hprevlt (hcls y hmem'), if_pos hy'.symm]
    · intro y hy hne
      rw [nextFree_unlinkMem hs hprev hnext hnextlt (hcls y hy), if_neg]
      rintro rfl
      exact hne (hpreveq.symm.trans (link_of_ne (hs.ne_null (hcls _ hy))))
    · intro y hy hne
      rw [prevFree_unlinkMem hs hprev hnext hprevlt (hcls y hy), if_neg]
      rintro rfl
      exact hne (hnexteq.symm.trans (link_of_ne (hs.ne_null (hcls _ hy))))
  · intro a
    simp only [List.mem_append, List.mem_cons]
    constructor
    · intro ha
      refine ⟨ha.imp_right .inr, ?_⟩
      rintro rfl
      rw [List.nodup_append] at hnodup
      rcases ha with ha | ha
      · exact hnodup.2.2 a ha a (by simp) rfl
      · exact (List.nodup_cons.mp hnodup.2.1).1 ha
    · rintro ⟨ha | ha | ha, hne⟩
      · exact .inl ha
      · exact (hne ha).elim
      · exact .inr ha

theorem update_none_mem {k : Nat × Nat} {a : Nat} :
    Function.update cls b none a = some k ↔ cls a = some k ∧ a ≠ b := by
  by_cases hab : a = b <;> simp [hab]

/-- The lists after a block has been taken out, with the new head of its list. -/
theorem Index.unlink (h : Index cls m c) (hs : Spaced cls c.blockNull)
    (hb : cls b = some (fl, sl)) {B : Nat → Nat → Nat}
    (hself : B fl sl = if c.blocks fl sl = b then nextFree m b else c.blocks fl sl)
    (hother : ∀ i j, (i, j) ≠ (fl, sl) → B i j = c.blocks i j) (i j : Nat) :
    ∃ l, FreeList (unlinkMem (prevFree m b) (nextFree m b) m) c.blockNull (B i j) l ∧
      ∀ a, a ∈ l ↔ Function.update cls b none a = some (i, j) := by
  obtain ⟨l, hl, hmem⟩ := h.list fl sl
  obtain ⟨hprev, hnext, l', hl', hmem'⟩ := hl.unlink hs hmem ((hmem b).mpr hb)
  by_cases hij : (i, j) = (fl, sl)
  · obtain ⟨rfl, rfl⟩ := Prod.mk.inj hij
    exact ⟨l', hself ▸ hl', fun a => by rw [hmem' a, hmem a, update_none_mem]⟩
  · -- the other lists hold neither the block nor its neighbours
    obtain ⟨k, hk, hkmem⟩ := h.list i j
    have hlt := (hprev.bounds hs).2
    have hlt' := (hnext.bounds hs).2
    have hne : ∀ a, a ∈ k → a ≠ b := by
      rintro a ha rfl
      exact hij (Option.some.inj (((hkmem a).mp ha).symm.trans hb))
    refine ⟨k, ?_, fun a => by
      rw [hkmem a, update_none_mem]
      exact ⟨fun ha => ⟨ha, hne a ((hkmem a).mpr ha)⟩, And.left⟩⟩
    rw [hother i j hij]
    have hneigh : ∀ a ∈ k, a ≠ prevFree m b ∧ a ≠ nextFree m b := by
      obtain ⟨before, after, rfl⟩ := List.append_of_mem ((hmem b).mpr hb)
      intro a ha
      have hacls := (hkmem a).mp ha
      constructor
      · rintro rfl
        have hlast := hl.prev_eq.symm.trans (link_of_ne (hs.ne_null hacls))
        have hin : prevFree m b ∈ before ++ b :: after := by simp [List.mem_of_getLast? hlast]
        exact hij (Option.some.inj (hacls.symm.trans ((hmem _).mp hin)))
      · rintro rfl
        have hhead := hl.next_eq.symm.trans (link_of_ne (hs.ne_null hacls))
        have hin : nextFree m b ∈ before ++ b :: after := by simp [List.mem_of_head? hhead]
        exact hij (Option.some.inj (hacls.symm.trans ((hmem _).mp hin)))
    refine hk.congr ?_ ?_
    · intro a ha
      rw [nextFree_unlinkMem hs hprev hnext hlt' ((hkmem a).mp ha), if_neg (hneigh a ha).1]
    · intro a ha
      rw [prevFree_unlinkMem hs hprev hnext hlt ((hkmem a).mp ha), if_neg (hneigh a ha).2]

/-- Where a block heads its list, its link tells whether the list holds another one. -/
theorem Index.next_eq_null_iff (h : Index cls m c)
    (hb : cls b = some (fl, sl)) (hhead : c.blocks fl sl = b) :
    nextFree m b = c.blockNull ↔ ¬ ∃ a, Function.update cls b none a = some (fl, sl) := by
  obtain ⟨l, hl, hmem⟩ := h.list fl sl
  cases l with
  | nil => exact absurd ((hmem b).mpr hb) (by simp)
  | cons x l =>
    have hx : c.blocks fl sl = x := link_eq_some hl.head_eq
    obtain rfl : b = x := by rw [← hhead, hx]
    have hnodup := List.nodup_cons.mp hl.nodup
    have hsplit : FreeList m c.blockNull (c.blocks fl sl) ([] ++ b :: l) := hl
    have hnext : link c.blockNull (nextFree m b) = l.head? := hsplit.next_eq
    simp only [← link_eq_none, hnext, update_none_mem]
    cases l with
    | nil =>
      simp only [List.head?_nil, true_iff, not_exists, not_and_not_right]
      intro a ha
      simpa using (hmem a).mpr ha
    | cons y l =>
      have hy : cls y = some (fl, sl) := (hmem y).mp (by simp)
      have hne : y ≠ b := by
        rintro rfl
        exact hnodup.1 (by simp)
      simp only [List.head?_cons, reduceCtorEq, false_iff, not_not]
      exact ⟨y, hy, hne⟩

theorem getLsbD_clear (v : BitVec 32) {i j : Nat} (hi : i < 32) :
    (v &&& ~~~(1#32 <<< i)).getLsbD j = (v.getLsbD j && decide (j ≠ i)) := by
  by_cases hj : j < 32
  · by_cases hij : j = i
    · subst hij
      simp [hj]
    · rcases Nat.lt_or_gt_of_ne hij with hlt | hlt
      · simp [hj, hij, hlt]
      · simp [hj, hij, show ¬ j < i by omega, show j - i ≠ 0 by omega]
  · simp [BitVec.getLsbD_of_ge _ _ (show 32 ≤ j by omega)]

theorem lt_of_getLsbD {v : BitVec 32} {i : Nat} (h : v.getLsbD i = true) : i < 32 := by
  by_contra hge
  rw [BitVec.getLsbD_of_ge _ _ (by omega)] at h
  simp at h

/-- Removing a block takes it out of the index, and stores to link words only. -/
theorem controllerRemoveFreeBlock_spec {a : Allocator} (h : Index cls a.mem a.controller)
    (hs : Spaced cls a.controller.blockNull) (hb : cls b = some (fl, sl)) :
    ∃ m' c', controllerRemoveFreeBlock b fl sl a = (0, { a with mem := m', controller := c' }) ∧
      c'.blockNull = a.controller.blockNull ∧ Index (Function.update cls b none) m' c' ∧
      ∀ w, OffLinks cls a.controller.blockNull w → m'.byte w = a.mem.byte w := by
  obtain ⟨l, hl, hmem⟩ := h.list fl sl
  obtain ⟨hprev, hnext, -⟩ := hl.unlink hs hmem ((hmem b).mpr hb)
  have hprev0 := (hprev.bounds hs).1
  have hnext0 := (hnext.bounds hs).1
  have hsl : sl < 32 := lt_of_getLsbD ((h.slBit fl sl).mpr ⟨b, hb⟩)
  have hfl : fl < 32 := by
    refine lt_of_getLsbD ((h.flBit fl).mpr fun hzero => ?_)
    have := (h.slBit fl sl).mpr ⟨b, hb⟩
    simp [hzero] at this
  have hother : ∀ i j, (i, j) ≠ (fl, sl) →
      ((∃ a, Function.update cls b none a = some (i, j)) ↔ ∃ a, cls a = some (i, j)) := by
    intro i j hij
    simp only [update_none_mem]
    refine exists_congr fun a => and_iff_left_of_imp ?_
    rintro ha rfl
    exact hij (Option.some.inj (ha.symm.trans hb))
  have hframe := fun w hw => byte_unlinkMem (m := a.mem) (w := w) hprev hnext hw
  unfold controllerRemoveFreeBlock
  dsimp only
  rw [if_neg (by omega), if_neg (by omega)]
  by_cases hhead : a.controller.blocks fl sl = b
  · rw [if_neg (by simpa [setMem] using hhead)]
    have hlists := h.unlink (B := fun i j =>
      if i = fl ∧ j = sl then nextFree a.mem b else a.controller.blocks i j) hs hb
      (by simp [hhead]) (by
        intro i j hij
        rw [if_neg]
        rintro ⟨rfl, rfl⟩
        exact hij rfl)
    have hnull := h.next_eq_null_iff hb hhead
    by_cases hempty : nextFree a.mem b = a.controller.blockNull
    · -- the list is empty now
      rw [if_neg (by simpa [setMem, setController, Controller.setBlocks] using hempty)]
      have hslBit : ∀ i j, ((if i = fl then a.controller.slBitmap fl &&& ~~~(1#32 <<< sl)
          else a.controller.slBitmap i).getLsbD j = true ↔
          ∃ a, Function.update cls b none a = some (i, j)) := by
        intro i j
        by_cases hi : i = fl
        · subst hi
          rw [if_pos rfl, getLsbD_clear _ hsl]
          by_cases hj : j = sl
          · subst hj
            simpa using hnull.mp hempty
          · rw [hother i j (by simpa using hj), ← h.slBit i j]
            simp [hj]
        · rw [if_neg hi, hother i j (by simp [hi]), h.slBit i j]
      by_cases hzero : a.controller.slBitmap fl &&& ~~~(1#32 <<< sl) = 0
      · rw [if_pos (by simpa [setMem, setController, Controller.setBlocks] using hzero)]
        refine ⟨_, _, rfl, rfl, ⟨hlists, hslBit, ?_⟩, hframe⟩
        intro i
        simp only [setMem, setController, Controller.setBlocks, Controller.setSlBitmap,
          Controller.setFlBitmap]
        rw [getLsbD_clear _ hfl]
        by_cases hi : i = fl
        · simp [hi, hzero]
        · simp [hi, h.flBit i]
      · rw [if_neg (by simpa [setMem, setController, Controller.setBlocks] using hzero)]
        refine ⟨_, _, rfl, rfl, ⟨hlists, hslBit, ?_⟩, hframe⟩
        intro i
        simp only [setMem, setController, Controller.setBlocks, Controller.setSlBitmap]
        rw [h.flBit i]
        by_cases hi : i = fl
        · subst hi
          rw [if_pos rfl]
          refine iff_of_true (fun h0 => hzero ?_) hzero
          simp [h0]
        · rw [if_neg hi]
    · rw [if_pos (by simpa [setMem, setController, Controller.setBlocks] using hempty)]
      refine ⟨_, _, rfl, rfl, ⟨hlists, ?_, h.flBit⟩, hframe⟩
      intro i j
      show (a.controller.slBitmap i).getLsbD j = true ↔ _
      rw [h.slBit i j]
      by_cases hij : (i, j) = (fl, sl)
      · obtain ⟨rfl, rfl⟩ := Prod.mk.inj hij
        exact iff_of_true ⟨b, hb⟩ (not_not.mp fun hno => hempty (hnull.mpr hno))
      · exact (hother i j hij).symm
  · rw [if_pos (by simpa [setMem] using hhead)]
    have hlists := h.unlink (B := a.controller.blocks) hs hb (by rw [if_neg hhead])
      fun _ _ _ => rfl
    refine ⟨_, _, rfl, rfl, ⟨hlists, ?_, h.flBit⟩, hframe⟩
    intro i j
    show (a.controller.slBitmap i).getLsbD j = true ↔ _
    rw [h.slBit i j]
    by_cases hij : (i, j) = (fl, sl)
    · obtain ⟨rfl, rfl⟩ := Prod.mk.inj hij
      refine iff_of_true ⟨b, hb⟩ ⟨a.controller.blocks i j, update_none_mem.mpr ⟨?_, hhead⟩⟩
      -- the head of the list is another block
      cases l with
      | nil => exact absurd ((hmem b).mpr hb) (by simp)
      | cons x l =>
        have hx : a.controller.blocks i j = x := link_eq_some hl.head_eq
        exact (hmem _).mp (by simp [hx])
    · exact (hother i j hij).symm

end Remove

/-! ### Inserting a block -/

section Insert

variable {b fl sl : Nat}

theorem alignPtr_alignSize {p : Nat} (hmod : p % 4 = 0) (hp : p < 2 ^ 64) (a : Allocator) :
    alignPtr p alignSize a = (p, a) := by
  have hmask : p + 3 < 2 ^ 64 := by omega
  have hround : (p + 3) &&& lnot 3 = (p + 3) / 4 * 4 := and_lnot_two_pow (k := 2) hmask (by decide)
  have hp' : add64 p 3 &&& lnot 3 = p := by
    rw [add64, Nat.mod_eq_of_lt hmask, hround]
    omega
  rw [alignPtr, if_neg (by decide)]
  exact congrArg (Prod.mk · a) hp'

def insertMem (null current b : Nat) (m : Mem) : Mem :=
  setPrevFree current b (setPrevFree b null (setNextFree b current m))

variable {null current : Nat}

theorem byte_insertMem {k : Nat × Nat} (hcurrent : IsLink cls null current) {w : Nat}
    (hnone : cls b = none) (hw : OffLinks (Function.update cls b (some k)) null w) :
    (insertMem null current b m).byte w = m.byte w := by
  have hb := hw.2 b k (by simp)
  have hc : w < current + 16 ∨ current + 32 ≤ w := by
    rcases hcurrent with rfl | ⟨j, hj⟩
    · exact hw.1
    · refine hw.2 current j ?_
      rw [Function.update_of_ne, hj]
      rintro rfl
      simp [hnone] at hj
  rw [insertMem, setPrevFree, byte_write64_of_disjoint (by omega), setPrevFree,
    byte_write64_of_disjoint (by omega), setNextFree, byte_write64_of_disjoint (by omega)]

theorem insertMem_self {k : Nat × Nat} (hs : Spaced (Function.update cls b (some k)) null)
    (hnone : cls b = none) (hcurrent : IsLink cls null current) (hlt : current < 2 ^ 64) :
    nextFree (insertMem null current b m) b = current ∧
      prevFree (insertMem null current b m) b = null := by
  have hnull := hs.null_apart b k (by simp)
  have hnulllt := hs.null_pos.2
  have hc : b + 16 ≤ current ∨ current + 16 ≤ b := by
    rcases hcurrent with rfl | ⟨j, hj⟩
    · exact hnull
    · have hne : current ≠ b := by
        rintro rfl
        simp [hnone] at hj
      exact hs.apart b current k j (by simp) (by simp [Function.update_of_ne hne, hj]) hne.symm
  constructor
  · rw [nextFree, insertMem, setPrevFree, read64_write64_of_disjoint (by omega), setPrevFree,
      read64_write64_of_disjoint (by omega), setNextFree, read64_write64_same,
      Nat.mod_eq_of_lt hlt]
  · rw [prevFree, insertMem, setPrevFree, read64_write64_of_disjoint (by omega), setPrevFree,
      read64_write64_same, Nat.mod_eq_of_lt hnulllt]

theorem insertMem_other {k : Nat × Nat} (hs : Spaced (Function.update cls b (some k)) null)
    (hnone : cls b = none) (hcurrent : IsLink cls null current) {a : Nat} {j : Nat × Nat}
    (ha : cls a = some j) :
    nextFree (insertMem null current b m) a = nextFree m a ∧
      prevFree (insertMem null current b m) a =
        if a = current then b else prevFree m a := by
  have hne : a ≠ b := by
    rintro rfl
    simp [hnone] at ha
  have ha' : Function.update cls b (some k) a = some j := by rw [Function.update_of_ne hne, ha]
  have hab := hs.apart a b j k ha' (by simp) hne
  have hblt := (hs.pos b k (by simp)).2
  have hac : a ≠ current → a + 16 ≤ current ∨ current + 16 ≤ a := by
    intro hac
    rcases hcurrent with rfl | ⟨i, hi⟩
    · exact hs.null_apart a j ha'
    · have hne' : current ≠ b := by
        rintro rfl
        simp [hnone] at hi
      exact hs.apart a current j i ha' (by rw [Function.update_of_ne hne', hi]) hac
  constructor
  · rw [nextFree, insertMem, setPrevFree, read64_write64_of_disjoint (by omega), setPrevFree,
      read64_write64_of_disjoint (by omega), setNextFree, read64_write64_of_disjoint (by omega),
      nextFree]
  · split
    · rename_i heq
      rw [heq, prevFree, insertMem, setPrevFree, read64_write64_same, Nat.mod_eq_of_lt hblt]
    · rename_i hac'
      have := hac hac'
      rw [prevFree, insertMem, setPrevFree, read64_write64_of_disjoint (by omega), setPrevFree,
        read64_write64_of_disjoint (by omega), setNextFree, read64_write64_of_disjoint (by omega),
        prevFree]

theorem getLsbD_set (v : BitVec 32) {i j : Nat} (hi : i < 32) :
    (v ||| 1#32 <<< i).getLsbD j = (v.getLsbD j || decide (j = i)) := by
  by_cases hj : j < 32
  · by_cases hij : j = i
    · subst hij
      simp [hj]
    · rcases Nat.lt_or_gt_of_ne hij with hlt | hlt
      · simp [hj, hij, hlt]
      · simp [hj, hij, show j - i ≠ 0 by omega]
  · simp [BitVec.getLsbD_of_ge _ _ (show 32 ≤ j by omega), show j ≠ i by omega]

theorem update_some_eq {k j : Nat × Nat} {a : Nat} (hnone : cls b = none) :
    Function.update cls b (some k) a = some j ↔ a = b ∧ j = k ∨ cls a = some j := by
  by_cases hab : a = b
  · subst hab
    simp [hnone, eq_comm]
  · simp [hab]

/-- Inserting a block puts it into the index, and stores to link words only. -/
theorem controllerInsertFreeBlock_spec {a : Allocator} (h : Index cls a.mem a.controller)
    (hs : Spaced (Function.update cls b (some (fl, sl))) a.controller.blockNull)
    (hnone : cls b = none) (hfl : fl < 32) (hsl : sl < 32) (hmod : b % 4 = 0)
    (hlt : b + 16 < 2 ^ 64) :
    ∃ m' c', controllerInsertFreeBlock b fl sl a = (0, { a with mem := m', controller := c' }) ∧
      c'.blockNull = a.controller.blockNull ∧
      Index (Function.update cls b (some (fl, sl))) m' c' ∧
      ∀ w, OffLinks (Function.update cls b (some (fl, sl))) a.controller.blockNull w →
        m'.byte w = a.mem.byte w := by
  obtain ⟨l, hl, hmem⟩ := h.list fl sl
  have hcurrent : IsLink cls a.controller.blockNull (a.controller.blocks fl sl) :=
    .of_link hl.head_eq (fun y hy => List.mem_of_head? hy) hmem
  have hbound : 0 < a.controller.blocks fl sl ∧ a.controller.blocks fl sl < 2 ^ 64 := by
    rcases hcurrent with heq | ⟨k, hk⟩
    · rw [heq]
      exact hs.null_pos
    · exact hs.pos _ k ((update_some_eq hnone).mpr (.inr hk))
  have hb0 := (hs.pos b _ (Function.update_self ..)).1
  have hbnull : b ≠ a.controller.blockNull := hs.ne_null (Function.update_self ..)
  have hptr : blockToPtr b = b + 16 := Nat.mod_eq_of_lt hlt
  unfold controllerInsertFreeBlock
  dsimp only
  rw [if_neg (by omega), if_neg (by omega), hptr,
    alignPtr_alignSize (show (b + 16) % 4 = 0 by omega) hlt]
  dsimp only
  rw [if_neg (by simp)]
  refine ⟨_, _, rfl, rfl, ⟨?_, ?_, ?_⟩, fun w hw => byte_insertMem hcurrent hnone hw⟩
  · intro i j
    by_cases hij : (i, j) = (fl, sl)
    · obtain ⟨rfl, rfl⟩ := Prod.mk.inj hij
      refine ⟨b :: l, ?_, fun x => by
        rw [List.mem_cons, update_some_eq hnone, hmem x]
        simp⟩
      obtain ⟨hself, hself'⟩ := insertMem_self (m := a.mem) hs hnone hcurrent hbound.2
      show FreeList (insertMem a.controller.blockNull (a.controller.blocks i j) b a.mem)
        a.controller.blockNull (if i = i ∧ j = j then b else a.controller.blocks i j) (b :: l)
      rw [if_pos ⟨rfl, rfl⟩, FreeList, link_of_ne hbnull]
      refine Dll.pushFront hl ?_ ?_ ?_ ?_ ?_ ?_
      · cases l with
        | nil => rfl
        | cons x l => rw [if_neg (by simp), List.getLast?_cons_cons]
      · intro y hy
        have hycls := (hmem y).mp (List.mem_of_head? hy)
        have hyhead : a.controller.blocks i j = y := link_eq_some (hl.head_eq.trans hy)
        rw [(insertMem_other hs hnone hcurrent hycls).2, if_pos hyhead.symm, link_of_ne hbnull]
      · rw [hself', link_eq_none]
      · rw [hself]
      · intro y hy hne
        have hycls := (hmem y).mp hy
        rw [(insertMem_other hs hnone hcurrent hycls).2, if_neg]
        rintro rfl
        refine hne (hl.head_eq.symm.trans (link_of_ne ?_))
        exact hs.ne_null ((update_some_eq hnone).mpr (.inr hycls))
      · intro y hy
        rw [(insertMem_other hs hnone hcurrent ((hmem y).mp hy)).1]
    · obtain ⟨k, hk, hkmem⟩ := h.list i j
      refine ⟨k, ?_, fun x => by
        rw [update_some_eq hnone, hkmem x]
        simp [hij]⟩
      show FreeList (insertMem a.controller.blockNull (a.controller.blocks fl sl) b a.mem)
        a.controller.blockNull (if i = fl ∧ j = sl then b else a.controller.blocks i j) k
      rw [if_neg (by simpa using hij)]
      refine hk.congr (fun x hx => ?_) fun x hx => ?_
      · rw [(insertMem_other hs hnone hcurrent ((hkmem x).mp hx)).1]
      · have hxcls := (hkmem x).mp hx
        rw [(insertMem_other hs hnone hcurrent hxcls).2, if_neg]
        rintro rfl
        have hin : a.controller.blocks fl sl ∈ l := by
          refine List.mem_of_head? (hl.head_eq.symm.trans (link_of_ne ?_))
          exact hs.ne_null ((update_some_eq hnone).mpr (.inr hxcls))
        exact hij (Option.some.inj (hxcls.symm.trans ((hmem _).mp hin)))
  · intro i j
    simp only [setMem, setController, Controller.setBlocks, Controller.setSlBitmap,
      Controller.setFlBitmap, update_some_eq hnone]
    by_cases hi : i = fl
    · subst hi
      rw [if_pos rfl, getLsbD_set _ hsl]
      by_cases hj : j = sl
      · simp [hj]
      · simp [hj, h.slBit]
    · rw [if_neg hi, h.slBit]
      simp [hi]
  · intro i
    simp only [setMem, setController, Controller.setBlocks, Controller.setSlBitmap,
      Controller.setFlBitmap]
    rw [getLsbD_set _ hfl]
    by_cases hi : i = fl
    · subst hi
      rw [if_pos rfl]
      refine iff_of_true (by simp) fun hzero => ?_
      have hbit := getLsbD_set (j := sl) (a.controller.slBitmap i) hsl
      simp [hzero] at hbit
    · simp [hi, h.flBit]

end Insert

/-! ### Searching for a block -/

/-- Two allocators that differ in their error codes only. -/
structure SameHeap (a a' : Allocator) : Prop where
  mem : a'.mem = a.mem
  controller : a'.controller = a.controller
  mutex : a'.mutex = a.mutex

theorem SameHeap.refl (a : Allocator) : SameHeap a a := ⟨rfl, rfl, rfl⟩

theorem sameHeap_setAllocErrno (err : AllocatorErrno) (a : Allocator) :
    SameHeap a (setAllocErrno err a) := ⟨rfl, rfl, rfl⟩

theorem getLsbD_htfhFfs {v : BitVec 32} (h : v ≠ 0) : v.getLsbD (htfhFfs v).toNat = true := by
  have hbit : ∃ i, i < 32 ∧ v.getLsbD i = true := by
    by_contra hno
    refine h (BitVec.eq_of_getLsbD_eq fun i hi => ?_)
    rw [BitVec.ofNat_eq_ofNat, BitVec.getLsbD_zero, Bool.eq_false_iff]
    exact fun hset => hno ⟨i, hi, hset⟩
  obtain ⟨i, hi, hset⟩ := hbit
  unfold htfhFfs
  split
  · rename_i j hj
    simpa using List.find?_some hj
  · rename_i hnone
    exact absurd hset (by simpa using List.find?_eq_none.mp hnone i (by simpa using hi))

/-- The head of a non-empty list is one of its blocks. -/
theorem Index.head {fl sl : Nat} (h : Index cls m c) (hne : (c.slBitmap fl).getLsbD sl = true) :
    cls (c.blocks fl sl) = some (fl, sl) := by
  obtain ⟨b, hb⟩ := (h.slBit fl sl).mp hne
  obtain ⟨l, hl, hmem⟩ := h.list fl sl
  cases l with
  | nil => exact absurd ((hmem b).mpr hb) (by simp)
  | cons x l =>
    have hx : c.blocks fl sl = x := link_eq_some hl.head_eq
    exact (hmem _).mp (by simp [hx])

/-- The search ends with an error code or finds a block that is in the list it names. -/
theorem controllerSearchSuitableBlock_spec {a : Allocator} (h : Index cls a.mem a.controller)
    (hs : Spaced cls a.controller.blockNull) (fl sl : Nat) :
    (∃ a', controllerSearchSuitableBlock fl sl a = (none, a') ∧ SameHeap a a') ∨
      ∃ b i j, controllerSearchSuitableBlock fl sl a = (some (b, i, j), a) ∧
        cls b = some (i, j) := by
  have hpick : ∀ i (v : BitVec 32), v ≠ 0 →
      (∀ j, v.getLsbD j = true → (a.controller.slBitmap i).getLsbD j = true) →
      ∃ b j, ((toPtr (a.controller.blocks i (htfhFfs v).toNat)).map fun block =>
        (block, i, (htfhFfs v).toNat)) = some (b, i, j) ∧ cls b = some (i, j) := by
    intro i v hv hsub
    have hhead := h.head (hsub _ (getLsbD_htfhFfs hv))
    have hpos := (hs.pos _ _ hhead).1
    exact ⟨_, _, by rw [toPtr, if_neg (by omega)]; rfl, hhead⟩
  unfold controllerSearchSuitableBlock
  dsimp only
  split
  · split
    · exact .inl ⟨_, rfl, sameHeap_setAllocErrno ..⟩
    · split
      · exact .inl ⟨_, rfl, sameHeap_setAllocErrno ..⟩
      · rename_i hne
        obtain ⟨b, j, heq, hb⟩ := hpick _ _ hne fun _ hj => hj
        exact .inr ⟨b, _, j, by rw [heq], hb⟩
  · rename_i hne
    obtain ⟨b, j, heq, hb⟩ := hpick fl _ hne fun j hj => by
      rw [BitVec.getLsbD_and, Bool.and_eq_true] at hj
      exact hj.1
    exact .inr ⟨b, fl, j, by rw [heq], hb⟩

/-- With an empty first-level bitmap nothing is found. -/
theorem controllerSearchSuitableBlock_of_empty {a : Allocator} (h : Index cls a.mem a.controller)
    (hempty : a.controller.flBitmap = 0) (fl sl : Nat) :
    ∃ a', controllerSearchSuitableBlock fl sl a = (none, a') ∧ SameHeap a a' := by
  have hsl : a.controller.slBitmap fl = 0 := by
    by_contra hne
    have := (h.flBit fl).mpr hne
    simp [hempty] at this
  exact ⟨setAllocErrno .heapFull a, by simp [controllerSearchSuitableBlock, hsl, hempty],
    sameHeap_setAllocErrno ..⟩

end Htfh
