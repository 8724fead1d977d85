import SearchCache.Heap.BlockSpecs
import Mathlib.Tactic.Convert

/-! What the functions of `controller.c` return and leave behind.  A block is detached when it is
the one free block that is in no list: the allocator's operations take a block out, reshape it and
its neighbours, and put what is left over back in. -/

namespace Htfh

open Memory

section Lists

variable {H F : List Nat} {pools : List Pool} {L : Layout} {cls : Classes} {a : Allocator}
  {b fl sl : Nat} {x : Block}

theorem listedIn_update_none (h : ListedIn L cls) : ListedIn L (Function.update cls b none) :=
  fun c k hk => h c k (update_none_mem.mp hk).1

theorem RepBut.removeFreeBlock (h : RepBut H F pools L cls a) (hcls : cls b = some (fl, sl)) :
    ∃ a', controllerRemoveFreeBlock b fl sl a = (0, a') ∧ Frame L.used a a' ∧
      RepBut H F pools L (Function.update cls b none) a' ∧ Stays L.Solid a a' := by
  obtain ⟨m, c, heq, hnull, hindex, hframe⟩ :=
    controllerRemoveFreeBlock_spec h.index (h.spaced h.listed) hcls
  refine ⟨_, heq, ⟨rfl, ?_⟩,
    h.reindex hindex hnull (listedIn_update_none h.listed) h.listed hframe,
    fun w hw => hframe w (hw.offLinks h h.listed)⟩
  intro u s hu w hw hlt
  obtain ⟨y, hy, hused, rfl⟩ := Layout.used_eq_some.mp hu
  exact hframe w (h.offLinks_used h.listed hy hused ⟨hw, hlt⟩)

theorem RepBut.blockRemove (h : RepBut H F pools L cls a) (hb : L b = some x) (hH : b ∉ H)
    (hcls : cls b ≠ none) :
    ∃ a', controllerBlockRemove b a = (0, a') ∧ Frame L.used a a' ∧
      RepBut H F pools L (Function.update cls b none) a' ∧ Stays L.Solid a a' := by
  obtain ⟨k, hk⟩ := Option.ne_none_iff_exists'.mp hcls
  obtain ⟨y, hy, -, hclass⟩ := h.listed b k hk
  obtain rfl := Option.some.inj (hb.symm.trans hy)
  obtain ⟨fl, sl⟩ := k
  rw [controllerBlockRemove, h.blockSize_eq hb hH, hclass]
  exact h.removeFreeBlock hk

theorem RepBut.blockInsert (h : RepBut H F pools L cls a) (hb : L b = some x) (hH : b ∉ H)
    (hfree : x.free = true) (hcls : cls b = none) :
    ∃ a', controllerBlockInsert b a = (0, a') ∧ Frame L.used a a' ∧
      RepBut H F pools L (Function.update cls b (some (mappingInsert x.size))) a' ∧
      Stays L.Solid a a' := by
  have hbounds := h.tiling.bounds hb
  have hl : ListedIn L (Function.update cls b (some (mappingInsert x.size))) := by
    intro c k hk
    rcases (update_some_eq hcls).mp hk with ⟨rfl, rfl⟩ | hk
    · exact ⟨x, hb, hfree, rfl⟩
    · exact h.listed c k hk
  have hclass := mappingInsert_lt hbounds.2.2.2
  simp only [flIndexCount, slIndexCount] at hclass
  have hsize := h.tiling.size_ge hb (h.tiling.size_ne_zero hb hfree)
  obtain ⟨m, c, heq, hnull, hindex, hframe⟩ := controllerInsertFreeBlock_spec h.index
    (h.spaced hl) hcls (Nat.lt_trans hclass.1 (by decide)) hclass.2 hbounds.2.1 (by omega)
  rw [controllerBlockInsert, h.blockSize_eq hb hH]
  refine ⟨_, heq, ⟨rfl, ?_⟩, h.reindex hindex hnull hl hl hframe,
    fun w hw => hframe w (hw.offLinks h hl)⟩
  intro u s hu w hw hlt
  obtain ⟨y, hy, hused, rfl⟩ := Layout.used_eq_some.mp hu
  exact hframe w (h.offLinks_used hl hy hused ⟨hw, hlt⟩)

end Lists

/-! ### The classes of a changed layout -/

section Classes

variable {pools : List Pool} {L : Layout} {b s : Nat} {x y : Block}

theorem classOf_of_eq (h : L b = some x) :
    L.classOf b = if x.free then some (mappingInsert x.size) else none := by
  simp [Layout.classOf, h]

theorem listedIn_classOf (L : Layout) : ListedIn L L.classOf := by
  intro b k hk
  obtain ⟨x, hx, hclass⟩ := Option.bind_eq_some_iff.mp hk
  split at hclass
  · exact ⟨x, hx, ‹_›, Option.some.inj hclass⟩
  · simp at hclass

theorem classOf_mark (hb : L b = some x) (f : Bool) {c : Nat} (hne : c ≠ b) :
    (L.mark b f).classOf c = L.classOf c := by
  rw [Layout.classOf, Layout.classOf, Layout.mark_eq hb, if_neg hne]
  split
  · cases L c <;> rfl
  · rfl

theorem classOf_markUsed (hb : L b = some x) :
    (L.mark b false).classOf = Function.update L.classOf b none := by
  funext c
  by_cases hne : c = b
  · subst hne
    rw [Function.update_self, Layout.classOf, Layout.mark_eq hb, if_pos rfl]
    rfl
  · rw [Function.update_of_ne hne, classOf_mark hb false hne]

theorem classOf_markFree (hb : L b = some x) (hused : x.free = false) :
    Function.update (L.mark b true).classOf b none = L.classOf := by
  funext c
  by_cases hne : c = b
  · subst hne
    rw [Function.update_self, classOf_of_eq hb, hused]
    rfl
  · rw [Function.update_of_ne hne, classOf_mark hb true hne]

theorem classOf_split (hb : L b = some x) {c : Nat}
    (hne : c ≠ b) (hrest : c ≠ b + 8 + s) : (L.split b s).classOf c = L.classOf c := by
  rw [Layout.classOf, Layout.classOf, Layout.split_eq hb, if_neg hne, if_neg hrest]

/-- Before a split there is no block where the rest will be. -/
theorem classOf_rest (h : Tiling pools L) (hb : L b = some x) (hs : s + 32 ≤ x.size) :
    L.classOf (b + 8 + s) = none := by
  rw [Layout.classOf, h.eq_none hb (by omega) (by omega)]
  rfl

/-- Listing the rest of a split block. -/
theorem classOf_split_rest (hb : L b = some x) :
    Function.update (Function.update L.classOf b none) (b + 8 + s)
      (some (mappingInsert (x.size - 8 - s))) = Function.update (L.split b s).classOf b none := by
  have hne : b ≠ b + 8 + s := by omega
  funext c
  by_cases hcb : c = b
  · rw [hcb, Function.update_self, Function.update_of_ne hne, Function.update_self]
  · by_cases hcr : c = b + 8 + s
    · rw [hcr, Function.update_of_ne hne.symm, Function.update_self,
        classOf_of_eq (split_rest hb), if_pos rfl]
    · rw [Function.update_of_ne hcb, Function.update_of_ne hcr, Function.update_of_ne hcb,
        classOf_split hb hcb hcr]

/-- Listing the first part of a split block. -/
theorem classOf_split_self (h : Tiling pools L) (hb : L b = some x) (hfree : x.free = true)
    (hs : s + 32 ≤ x.size) :
    Function.update (Function.update L.classOf b none) b (some (mappingInsert s)) =
      Function.update (L.split b s).classOf (b + 8 + s) none := by
  have hne : b ≠ b + 8 + s := by omega
  funext c
  by_cases hcb : c = b
  · rw [hcb, Function.update_of_ne hne, Function.update_self, classOf_of_eq (split_self hb), hfree,
      if_pos rfl]
  · rw [Function.update_of_ne hcb]
    by_cases hcr : c = b + 8 + s
    · rw [hcr, Function.update_self, Function.update_of_ne hne.symm, classOf_rest h hb hs]
    · rw [Function.update_of_ne hcr, Function.update_of_ne hcb, classOf_split hb hcb hcr]

theorem classOf_absorb (hb : L b = some x) (hn : L (b + 8 + x.size) = some y) :
    Function.update (Function.update L.classOf b none) (b + 8 + x.size) none =
      Function.update (L.absorb b).classOf b none := by
  funext c
  by_cases hne : c = b
  · subst hne
    rw [Function.update_of_ne (by omega), Function.update_self, Function.update_self]
  · rw [Function.update_of_ne hne]
    by_cases hcn : c = b + 8 + x.size
    · rw [hcn, Function.update_self, Layout.classOf, Layout.absorb_eq hb hn,
        if_neg (by omega), if_pos rfl]
      rfl
    · rw [Function.update_of_ne hcn, Function.update_of_ne hne, Layout.classOf, Layout.classOf,
        absorb_of_ne hb hn hne hcn]

end Classes

/-- The layout after a merge: as it was, or with the block after `b` absorbed. -/
def Merged (L : Layout) (b : Nat) (L' : Layout) : Prop :=
  L' = L ∨ ∃ x y, L b = some x ∧ L (b + 8 + x.size) = some y ∧ x.free = true ∧ L' = L.absorb b

/-- The layout after the end of a block is trimmed, and the block. -/
def Trimmed (L : Layout) (b s : Nat) (x : Block) (L' : Layout) (x' : Block) : Prop :=
  s + 32 ≤ x.size ∧ L' = L.split b s ∧ x' = { x with size := s } ∨
    ¬ s + 32 ≤ x.size ∧ L' = L ∧ x' = x

/-- The block that is left has the size that was asked for, or all of it. -/
theorem Trimmed.size_eq {L L' : Layout} {b s : Nat} {x x' : Block} (h : Trimmed L b s x L' x') :
    x'.size = s ∨ x'.size = x.size := by
  rcases h with ⟨-, -, rfl⟩ | ⟨-, -, rfl⟩
  · exact .inl rfl
  · exact .inr rfl

theorem Layout.Inside.of_markTrimmed {L L' : Layout} {b s w : Nat} {x x' : Block} (hb : L b = some x)
    (hfree : x.free = true) (h : Trimmed L b s x L' x') (hw : (L'.mark b false).Inside w) :
    L.Inside w := by
  rcases h with ⟨hs, rfl, rfl⟩ | ⟨-, rfl, rfl⟩
  · exact .of_split hb hfree hs (.of_mark (split_self hb) hw)
  · exact .of_mark hb hw

/-- `b` is the one free block that is in no list. -/
structure Detached (pools : List Pool) (L : Layout) (b : Nat) (x : Block) (a : Allocator) :
    Prop where
  rep : Rep pools L (Function.update L.classOf b none) a
  block : L b = some x
  free : x.free = true

namespace Detached

variable {pools : List Pool} {L : Layout} {a : Allocator} {b s : Nat} {x : Block}

theorem size_ge (h : Detached pools L b x a) : x.size % 4 = 0 ∧ 24 ≤ x.size :=
  h.rep.tiling.size_ge h.block (h.rep.tiling.size_ne_zero h.block h.free)

theorem sameHeap (h : Detached pools L b x a) {a' : Allocator} (hsame : SameHeap a a') :
    Detached pools L b x a' := ⟨RepBut.sameHeap h.rep hsame, h.block, h.free⟩

theorem size_lt (h : Detached pools L b x a) : x.size < 2 ^ 30 := (h.rep.tiling.bounds h.block).2.2.2

theorem used_eq_none (h : Detached pools L b x a) : L.used b = none := by
  rw [Layout.used_of_eq h.block, h.free]
  rfl

/-- Putting the block back into its list. -/
theorem insert (h : Detached pools L b x a) :
    ∃ a', controllerBlockInsert b a = (0, a') ∧ Frame L.used a a' ∧ Rep pools L L.classOf a' ∧
      Stays L.Solid a a' := by
  obtain ⟨a', heq, hframe, hrep, hstays⟩ :=
    RepBut.blockInsert h.rep h.block (by simp) h.free (Function.update_self ..)
  refine ⟨a', heq, hframe, ?_, hstays⟩
  have hclass : some (mappingInsert x.size) = L.classOf b := by
    rw [classOf_of_eq h.block, h.free, if_pos rfl]
  rwa [Function.update_idem, hclass, Function.update_eq_self] at hrep

/-- Merging with the previous block, which memory leads to. -/
theorem mergePrev (h : Detached pools L b x a)
    (hc : CoalescedBut (fun c n => c = b ∨ n = b) L) :
    ∃ a' b' L' x', controllerBlockMergePrev b a = (some b', a') ∧ Frame L.used a a' ∧
      Detached pools L' b' x' a' ∧ L'.used = L.used ∧ Layout.Changes (fun _ => False) L L' ∧
      CoalescedBut (fun c _ => c = b') L' ∧ Merged L b' L' ∧
      Stays (fun w => L.Solid w ∧ L'.Inside w) a a' := by
  have ht := h.rep.tiling
  rw [controllerBlockMergePrev, h.rep.blockIsPrevFree_eq h.block (by simp)]
  cases hprev : x.prevFree with
  | false =>
    refine ⟨a, b, L, x, rfl, .refl .., h, rfl, .refl, hc.mono ?_, .inl rfl,
      .refl _ a⟩
    -- the block before it is not free
    rintro c z w hz hw hzfree - (heq | heq)
    · exact heq
    · obtain ⟨w', hw', hprev'⟩ := ht.next c z hz (ht.size_ne_zero hz hzfree)
      rw [heq] at hw'
      obtain rfl := Option.some.inj (hw'.symm.trans h.block)
      rw [hprev, hzfree] at hprev'
      simp at hprev'
  | true =>
    obtain ⟨p, z, hp, hzfree, rfl⟩ := ht.prev_of_prevFree h.block hprev
    have hpne : p ≠ p + 8 + z.size := by omega
    have hbounds := ht.bounds hp
    have hprevPtr : blockPrev (p + 8 + z.size) a = (some p, a) := by
      simp only [blockPrev, h.rep.blockIsPrevFree_eq h.block (by simp), hprev,
        h.rep.prevPhysBlock_eq hp hzfree (by simp), toPtr, Bool.not_true, Bool.false_eq_true,
        if_false]
      rw [if_neg (by omega)]
    have hpcls : Function.update L.classOf (p + 8 + z.size) none p ≠ none := by
      rw [Function.update_of_ne hpne, classOf_of_eq hp, hzfree]
      simp
    obtain ⟨a1, hremove, hframe1, h1, hstays1⟩ := RepBut.blockRemove h.rep hp (by simp) hpcls
    obtain ⟨a2, habsorb, ⟨hframe2, hstays2⟩, h2⟩ := blockAbsorb_spec h1 hp h.block hzfree h.free
      (Function.update_self ..) (by rw [Function.update_of_ne hpne.symm, Function.update_self])
    rw [Function.update_comm hpne.symm, classOf_absorb hp h.block] at h2
    simp only [Bool.not_true, Bool.false_eq_true, if_false, hprevPtr,
      h.rep.blockIsFree_eq hp (by simp), hzfree, hremove, habsorb, ne_eq, not_true_eq_false]
    rw [used_absorb hp h.block hzfree h.free] at hframe2
    refine ⟨a2, p, L.absorb p, _, rfl, hframe1.trans hframe2,
      ⟨h2, absorb_self hp h.block, hzfree⟩, used_absorb hp h.block hzfree h.free,
      .single (.absorb hp h.block), (hc.absorb hp h.block hzfree h.free).mono ?_,
      .inr ⟨z, x, hp, h.block, hzfree, rfl⟩,
      (hstays1.mono fun _ hw => hw.1).trans (hstays2.mono fun _ hw => hw.2)⟩
    rintro c w v hw hv - - (⟨hcp, heq | heq⟩ | ⟨heq, -⟩)
    · rw [heq, Layout.absorb_eq hp h.block, if_neg hpne.symm, if_pos rfl] at hw
      simp at hw
    · rw [heq, Layout.absorb_eq hp h.block, if_neg hpne.symm, if_pos rfl] at hv
      simp at hv
    · exact heq

/-- Merging with the next block. -/
theorem mergeNext (h : Detached pools L b x a) (hc : CoalescedBut (fun c _ => c = b) L) :
    ∃ a' L' x', controllerBlockMergeNext b a = (some b, a') ∧ Frame L.used a a' ∧
      Detached pools L' b x' a' ∧ L'.used = L.used ∧ Layout.Changes (fun _ => False) L L' ∧
      Coalesced L' ∧ Merged L b L' ∧ Stays (fun w => L.Solid w ∧ L'.Inside w) a a' := by
  have ht := h.rep.tiling
  have hsize := ht.size_ne_zero h.block h.free
  obtain ⟨y, hy, -⟩ := ht.next b x h.block hsize
  rw [controllerBlockMergeNext, h.rep.blockNext_eq h.block (by simp) hsize]
  simp only [h.rep.blockIsFree_eq hy (by simp), h.rep.blockIsLast_eq h.block (by simp),
    decide_eq_false hsize]
  cases hyfree : y.free with
  | false =>
    refine ⟨a, L, x, rfl, .refl .., h, rfl, .refl, hc.mono ?_, .inl rfl, .refl _ a⟩
    rintro c z w hz hw - hwfree rfl
    obtain rfl := Option.some.inj (hz.symm.trans h.block)
    obtain rfl := Option.some.inj (hw.symm.trans hy)
    simp [hyfree] at hwfree
  | true =>
    have hne : b + 8 + x.size ≠ b := by omega
    have hncls : Function.update L.classOf b none (b + 8 + x.size) ≠ none := by
      rw [Function.update_of_ne hne, classOf_of_eq hy, hyfree]
      simp
    obtain ⟨a1, hremove, hframe1, h1, hstays1⟩ := RepBut.blockRemove h.rep hy (by simp) hncls
    obtain ⟨a2, habsorb, ⟨hframe2, hstays2⟩, h2⟩ := blockAbsorb_spec h1 h.block hy h.free hyfree
      (by rw [Function.update_of_ne hne.symm, Function.update_self]) (Function.update_self ..)
    rw [classOf_absorb h.block hy] at h2
    simp only [Bool.not_true, Bool.false_eq_true, if_false, hremove, habsorb, ne_eq,
      not_true_eq_false]
    rw [used_absorb h.block hy h.free hyfree] at hframe2
    refine ⟨a2, L.absorb b, _, rfl, hframe1.trans hframe2,
      ⟨h2, absorb_self h.block hy, h.free⟩, used_absorb h.block hy h.free hyfree,
      .single (.absorb h.block hy), (hc.absorb h.block hy h.free hyfree).mono ?_,
      .inr ⟨x, y, h.block, hy, h.free, rfl⟩,
      (hstays1.mono fun _ hw => hw.1).trans (hstays2.mono fun _ hw => hw.2)⟩
    rintro c w v - - - - (⟨hcb, heq⟩ | ⟨-, heq⟩)
    · exact hcb heq
    · exact hne heq

theorem canSplit_eq (h : Detached pools L b x a) (hs : s < 2 ^ 64 - 32) :
    blockCanSplit a.mem b s = decide (s + 32 ≤ x.size) := by
  rw [blockCanSplit, h.rep.blockSize_eq h.block (by simp), add64, sizeofBlockHeader,
    Nat.mod_eq_of_lt (by omega), Nat.add_comm]

/-- Trimming the end of the block. -/
theorem trimFree (h : Detached pools L b x a) (hc : CoalescedBut (fun _ n => n = b) L)
    (hmod : s % 4 = 0) (hmin : 24 ≤ s) (hs : s < 2 ^ 30) :
    ∃ a' L' x', controllerBlockTrimFree b s a = (0, a') ∧ Frame L.used a a' ∧
      Detached pools L' b x' a' ∧ Trimmed L b s x L' x' ∧ L'.used = L.used ∧
      Layout.Changes (fun n => n = s ∧ blockCanSplit a.mem b s = true) L L' ∧
      CoalescedBut (fun c n => c = b ∨ n = b) L' ∧ Stays L'.Inside a a' := by
  have ht := h.rep.tiling
  have hcan := h.canSplit_eq (s := s) (by omega)
  rw [controllerBlockTrimFree, h.rep.blockIsFree_eq h.block (by simp), h.free, hcan]
  by_cases hsplit : s + 32 ≤ x.size
  · have hxmod := h.size_ge.1
    have hne : b ≠ b + 8 + s := by omega
    have hused := used_split ht h.block h.free hsplit
    obtain ⟨a1, p, heq1, ⟨hframe1, hstays1⟩, h1, hword⟩ :=
      blockSplit_spec h.rep h.block h.free (Function.update_self ..) hmod hmin hsplit
    obtain ⟨a2, heq2, ⟨hframe2, hstays2⟩, h2, hsame⟩ :=
      RepBut.linkNext h1 h.block h.free (by simp; omega) hmin
    rw [← hsame _ _ (split_rest h.block)] at hword
    obtain ⟨h3, hframe3, hstays3⟩ := RepBut.setPrevFree h2 h.block h.free (by omega) hword
    -- the rest goes into its list
    have hnone : Function.update L.classOf b none (b + 8 + s) = none := by
      rw [Function.update_of_ne hne.symm, classOf_rest ht h.block hsplit]
    have hrest : L.split b s (b + 8 + s) = some ⟨x.size - 8 - s, true, x.free⟩ := split_rest h.block
    obtain ⟨a4, heq4, hframe4, h4, hstays4⟩ := RepBut.blockInsert h3 hrest (by simp) rfl hnone
    rw [hused] at hframe1 hframe2 hframe3 hframe4
    simp only [Bool.not_true, Bool.false_eq_true, if_false, decide_eq_true hsplit, heq1, heq2, heq4]
    dsimp only at h4
    rw [classOf_split_rest (s := s) h.block] at h4
    have hself : L.split b s b = some { x with size := s } := split_self h.block
    refine ⟨a4, L.split b s, { x with size := s }, rfl,
      ((hframe1.trans hframe2).trans hframe3).trans hframe4, ⟨h4, hself, h.free⟩,
      .inl ⟨hsplit, rfl, rfl⟩, hused, .single (.split h.block hsplit ⟨rfl, trivial⟩),
      (hc.split ht h.block h.free hsplit).mono ?_,
      ((hstays1.trans hstays2).trans hstays3).trans (hstays4.mono fun _ => .inl)⟩
    rintro c z w - - - - (heq | ⟨-, heq⟩ | ⟨-, heq⟩)
    · exact .inl heq
    · exact .inr heq
    · exact .inr heq
  · rw [decide_eq_false hsplit, if_neg (by simp), if_pos (by simp)]
    exact ⟨a, L, x, rfl, .refl .., h, .inr ⟨hsplit, rfl, rfl⟩, rfl, .refl,
      hc.mono fun _ _ _ _ _ _ _ heq => .inr heq, .refl _ a⟩

/-- Trimming the start of the block: the rest goes on as the detached one. -/
theorem trimFreeLeading (h : Detached pools L b x a) (hc : Coalesced L) {gap : Nat}
    (hmod : gap % 4 = 0) (hmin : 32 ≤ gap) (hlt : gap < 2 ^ 64 - 32) :
    ∃ a' L' b' x', controllerBlockTrimFreeLeading b gap a = (some b', a') ∧ Frame L.used a a' ∧
      Detached pools L' b' x' a' ∧
      (gap + 32 ≤ x.size ∧ b' = b + gap ∧ x'.size = x.size - gap ∧ L' = L.split b (gap - 8) ∨
        ¬ gap + 32 ≤ x.size ∧ b' = b ∧ x' = x ∧ L' = L) ∧ L'.used = L.used ∧ Layout.Changes (· = gap - 8) L L' ∧
      CoalescedBut (fun _ n => n = b') L' ∧ Stays L'.Inside a a' := by
  have ht := h.rep.tiling
  rw [controllerBlockTrimFreeLeading, h.canSplit_eq hlt]
  by_cases hsplit : gap + 32 ≤ x.size
  · have hxmod := h.size_ge.1
    have hsub : sub64 gap blockHeaderOverhead = gap - 8 := by
      simp only [sub64, blockHeaderOverhead]
      omega
    have hne : b ≠ b + 8 + (gap - 8) := by omega
    have hused := used_split ht h.block h.free (show gap - 8 + 32 ≤ x.size by omega)
    obtain ⟨a1, p, heq1, ⟨hframe1, hstays1⟩, h1, hword⟩ := blockSplit_spec h.rep h.block h.free
      (Function.update_self ..) (show (gap - 8) % 4 = 0 by omega) (by omega) (by omega)
    obtain ⟨h2, hframe2, hstays2⟩ := RepBut.setPrevFree h1 h.block h.free (by omega) hword
    obtain ⟨a3, heq3, ⟨hframe3, hstays3⟩, h3, -⟩ := RepBut.linkNext h2 h.block h.free (by simp) (by omega)
    -- the first block goes into its list
    have hself : L.split b (gap - 8) b = some { x with size := gap - 8 } := split_self h.block
    obtain ⟨a4, heq4, hframe4, h4, hstays4⟩ :=
      RepBut.blockInsert h3 hself (by simp) h.free (Function.update_self ..)
    rw [hused] at hframe1 hframe2 hframe3 hframe4
    simp only [decide_eq_true hsplit, Bool.not_true, Bool.false_eq_true, if_false, hsub, heq1, heq3,
      heq4, ne_eq, not_true_eq_false]
    dsimp only at h4
    rw [classOf_split_self (s := gap - 8) ht h.block h.free (by omega)] at h4
    have hrest : L.split b (gap - 8) (b + 8 + (gap - 8)) =
        some ⟨x.size - 8 - (gap - 8), true, x.free⟩ := split_rest h.block
    refine ⟨a4, L.split b (gap - 8), b + 8 + (gap - 8), ⟨x.size - 8 - (gap - 8), true, x.free⟩, rfl,
      ((hframe1.trans hframe2).trans hframe3).trans hframe4, ⟨h4, hrest, rfl⟩,
      .inl ⟨hsplit, by omega, by dsimp only; omega, rfl⟩, hused,
      .single (.split h.block (by omega) rfl),
      (hc.split ht h.block h.free (by omega)).mono ?_,
      ((hstays1.trans hstays2).trans hstays3).trans (hstays4.mono fun _ => .inl)⟩
    rintro c z w hz - - - (heq | ⟨-, hfalse⟩ | ⟨-, hfalse⟩)
    · rw [heq, split_self h.block] at hz
      obtain rfl := Option.some.inj hz
      rw [heq]
    · exact hfalse.elim
    · exact hfalse.elim
  · rw [decide_eq_false hsplit, if_pos (by simp)]
    exact ⟨a, L, b, x, rfl, .refl .., h, .inr ⟨hsplit, rfl, rfl, rfl⟩, rfl, .refl,
      hc.mono fun _ _ _ _ _ _ _ hfalse => hfalse.elim, .refl _ a⟩

/-- Marking the block as used, once its end is trimmed. -/
theorem markUsed (h : Detached pools L b x a) (hc : CoalescedBut (fun _ n => n = b) L)
    (hmod : s % 4 = 0) (hmin : 24 ≤ s) (hs : s < 2 ^ 30) :
    ∃ a' L' s', controllerBlockMarkUsed (some b) s a = (some (b + 16), a') ∧ Frame L.used a a' ∧
      Rep pools L' L'.classOf a' ∧ Coalesced L' ∧ L'.used = Function.update L.used b (some s') ∧
      (∃ L1 x', Trimmed L b s x L1 x' ∧ L' = L1.mark b false ∧ s' = x'.size) ∧ s' ≠ 0 ∧
      Layout.Changes (fun n => n = s ∧ blockCanSplit a.mem b s = true) L L' ∧
      Stays L'.Inside a a' := by
  obtain ⟨a1, L1, x1, heq1, hframe1, h1, htrimmed, hused, hchanges, hc1, hstays1⟩ :=
    h.trimFree hc hmod hmin hs
  have hmin1 := h1.size_ge
  obtain ⟨a2, heq2, ⟨hframe2, hstays2⟩, h2⟩ := blockMarkAsUsed_spec h1.rep h1.block (by omega)
    (Function.update_self ..)
  have hused2 := used_mark h1.block false
  rw [← classOf_markUsed h1.block] at h2
  simp only [controllerBlockMarkUsed, heq1, heq2, h1.rep.blockToPtr_eq h1.block (by omega)]
  rw [if_neg (by omega)]
  refine ⟨a2, L1.mark b false, x1.size, rfl, hframe1.trans (hframe2.mono ?_), h2,
    hc1.markUsed h1.block, ?_, ⟨L1, x1, htrimmed, rfl, rfl⟩, by omega,
    hchanges.tail (.mark _ h1.block), (hstays1.mono fun _ => .of_mark h1.block).trans hstays2⟩
  · intro u t hu
    rw [hused2, hused, Function.update_of_ne, hu]
    rintro rfl
    rw [h.used_eq_none] at hu
    simp at hu
  · rw [hused2, hused]
    rfl

end Detached

section FindFree

variable {pools : List Pool} {L : Layout} {a : Allocator} {s : Nat}

/-- The search ends with an error code, or takes a block that is large enough out of its list. -/
theorem controllerBlockFindFree_spec (h : Rep pools L L.classOf a) (s : Nat) :
    (∃ a', controllerBlockFindFree s a = (none, a') ∧ SameHeap a a') ∨
      ∃ b x a', controllerBlockFindFree s a = (some b, a') ∧ Frame L.used a a' ∧
        Detached pools L b x a' ∧ s ≤ x.size ∧ Stays L.Solid a a' := by
  unfold controllerBlockFindFree
  split
  · exact .inl ⟨a, rfl, .refl a⟩
  dsimp only
  split
  · exact .inl ⟨a, rfl, .refl a⟩
  rcases controllerSearchSuitableBlock_spec h.index (h.spaced h.listed) (mappingSearch s).1
    (mappingSearch s).2 with ⟨a', heq, hsame⟩ | ⟨b, fl, sl, heq, hcls⟩
  · rw [heq]
    exact .inl ⟨a', rfl, hsame⟩
  · obtain ⟨x, hb, hfree, -⟩ := h.listed b _ hcls
    rw [heq]
    dsimp only
    rw [h.blockSize_eq hb (by simp)]
    split
    · exact .inl ⟨_, rfl, sameHeap_setAllocErrno ..⟩
    · obtain ⟨a', hremove, hframe, hrep, hstays⟩ := RepBut.removeFreeBlock h hcls
      rw [hremove]
      exact .inr ⟨b, x, a', rfl, hframe, ⟨hrep, hb, hfree⟩, by omega, hstays⟩

/-- With nothing in the lists nothing is found. -/
theorem controllerBlockFindFree_of_empty (h : Rep pools L L.classOf a)
    (hempty : a.controller.flBitmap = 0) (s : Nat) :
    ∃ a', controllerBlockFindFree s a = (none, a') ∧ SameHeap a a' := by
  unfold controllerBlockFindFree
  split
  · exact ⟨a, rfl, .refl a⟩
  dsimp only
  split
  · exact ⟨a, rfl, .refl a⟩
  · obtain ⟨a', heq, hsame⟩ := controllerSearchSuitableBlock_of_empty h.index hempty
      (mappingSearch s).1 (mappingSearch s).2
    rw [heq]
    exact ⟨a', rfl, hsame⟩

end FindFree

end Htfh
