import SearchCache.Heap.HtfhSpecs

/-! What `htfh_add_pool` does: a pool that it accepts becomes one free block before a sentinel. -/

namespace Htfh

open Memory

variable {pools : List Pool} {L : Layout} {cls : Classes} {a : Allocator} {mem bytes : Nat}

/-- The pool in `bytes` bytes at `mem`. -/
def poolOf (mem bytes : Nat) : Pool := ⟨mem, sub64 bytes 16 / 4 * 4⟩

theorem poolBytes_eq (bytes : Nat) (a : Allocator) :
    poolBytes bytes a = (sub64 bytes 16 / 4 * 4, a) := by
  have hmask : sub64 bytes 16 &&& 3 = sub64 bytes 16 % 4 := Nat.and_two_pow_sub_one_eq_mod _ 2
  have hlt : sub64 bytes 16 < 2 ^ 64 := Nat.mod_lt _ (by decide)
  have hdown : sub64 (sub64 bytes 16) (sub64 bytes 16 &&& 3) = sub64 bytes 16 / 4 * 4 := by
    rw [hmask]
    generalize sub64 bytes 16 = n at hlt ⊢
    unfold sub64
    omega
  rw [poolBytes, alignDown, if_neg (by decide)]
  exact congrArg (Prod.mk · a) hdown

/-- Memory that a pool may be given: an object of its own, off the first bytes of the address
space, and smaller than the largest class. -/
structure Given (pools : List Pool) (a : Allocator) (mem bytes : Nat) : Prop where
  low : 32 ≤ mem
  high : mem + bytes ≤ 2 ^ 64
  apart : ∀ P ∈ pools, P.last + 16 ≤ mem ∨ mem + bytes ≤ P.mem
  null_apart : mem + bytes ≤ a.controller.blockNull ∨
    a.controller.blockNull + sizeofController ≤ mem
  small : (poolOf mem bytes).payload ≠ blockSizeMax

theorem Given.fits (h : Given pools a mem bytes) (hmem : mem % 4 = 0)
    (hmin : 24 ≤ (poolOf mem bytes).payload) (hmax : (poolOf mem bytes).payload ≤ 2 ^ 30) :
    (poolOf mem bytes).Fits ∧ (∀ Q ∈ pools, (poolOf mem bytes).Apart Q) ∧
      (poolOf mem bytes).last + 16 ≤ mem + bytes := by
  have hsmall := h.small
  have hhigh := h.high
  have hlow := h.low
  simp only [poolOf, sub64, blockSizeMax] at hmin hmax hsmall ⊢
  have hend : mem + (bytes + (2 ^ 64 - 16)) % 2 ^ 64 / 4 * 4 + 16 ≤ mem + bytes := by omega
  refine ⟨⟨hlow, by dsimp only; omega, hmem, by dsimp only; omega, hmin, by dsimp only; omega⟩,
    fun Q hQ => ?_, hend⟩
  have hapart := h.apart Q hQ
  simp only [Pool.Apart, Pool.first, Pool.last] at hapart ⊢
  omega

/-- A new pool is represented, but for its two headers and its back link. -/
theorem Rep.relayoutPool (h : Rep pools L cls a) {P : Pool} (hP : P.Fits)
    (hnew : ∀ Q ∈ pools, P.Apart Q) (hnull : P.last + 16 ≤ a.controller.blockNull ∨
      a.controller.blockNull + sizeofController ≤ P.mem) :
    RepBut [P.first, P.last] [P.first] (P :: pools) (L.addPool P) cls a where
  tiling := h.tiling.addPool hP hnew
  header b x hb hH := by
    rcases addPool_cases hb with ⟨rfl, -⟩ | ⟨rfl, -⟩ | hb
    · simp at hH
    · simp at hH
    · exact h.header b x hb (by simp)
  foot b x hb hfree hF := by
    rcases addPool_cases hb with ⟨rfl, -⟩ | ⟨-, rfl⟩ | hb
    · simp at hF
    · simp at hfree
    · exact h.foot b x hb hfree (by simp)
  listed b k hk := by
    obtain ⟨x, hx, hfree, hclass⟩ := h.listed b k hk
    exact ⟨x, addPool_of_some h.tiling hP hnew hx, hfree, hclass⟩
  index := h.index
  null_pos := h.null_pos
  null_apart Q hQ := by
    rcases List.mem_cons.mp hQ with rfl | hQ
    · exact hnull
    · exact h.null_apart Q hQ

theorem classOf_addPool (h : Tiling pools L) {P : Pool} (hP : P.Fits)
    (hnew : ∀ Q ∈ pools, P.Apart Q) :
    Function.update L.classOf P.first (some (mappingInsert P.payload)) = (L.addPool P).classOf := by
  have hlast := hP.last_eq
  funext b
  by_cases hfirst : b = P.first
  · rw [hfirst, Function.update_self, classOf_of_eq addPool_first, if_pos rfl]
  · rw [Function.update_of_ne hfirst]
    by_cases hbl : b = P.last
    · have hnone : L P.last = none := by
        rcases hL : L P.last with _ | z
        · rfl
        · have := h.apart_pool hnew hL
          omega
      rw [hbl, classOf_of_eq (addPool_last hP), Layout.classOf, hnone]
      rfl
    · rw [Layout.classOf, Layout.classOf, Layout.addPool, if_neg hfirst, if_neg hbl]

/-- Writing a header anew: its size and then the two bits. -/
theorem RepBut.storeHeader {H F : List Nat} {b : Nat} {x : Block}
    (h : RepBut (b :: H) F pools L cls a) (hb : L b = some x) {bit prevBit : Mem → Mem}
    (hbit : ∀ m s f p, size m b = Htfh.header s f p → s % 4 = 0 → s < 2 ^ 64 →
      bit m = setSize b (Htfh.header s x.free p) m)
    (hprevBit : ∀ m s f p, size m b = Htfh.header s f p → s % 4 = 0 → s < 2 ^ 64 →
      prevBit m = setSize b (Htfh.header s f x.prevFree) m) :
    Frame L.used a (setMem prevBit (setMem bit (setMem (blockSetSize b x.size) a))) ∧
      RepBut H F pools L cls (setMem prevBit (setMem bit (setMem (blockSetSize b x.size) a))) := by
  have hmod := h.tiling.size_mod hb
  have hlt := h.size_lt hb
  have hword : ∀ f p m, size (setSize b (Htfh.header x.size f p) m) b = Htfh.header x.size f p :=
    fun f p m => size_setSize_same (header_lt (h.tiling.bounds hb).2.2.2)
  obtain ⟨f, p, hold⟩ := exists_header (size a.mem b)
  have hset1 := blockSetSize_eq hold (by omega) hmod
  have h1 : RepBut (b :: H) F pools L cls (setMem (blockSetSize b x.size) a) := by
    rw [setMem, hset1]
    exact h.clobber hb _
  have hset2 := hbit (blockSetSize b x.size a.mem) x.size f p (by rw [hset1, hword]) hmod hlt
  have h2 : RepBut (b :: H) F pools L cls (setMem bit (setMem (blockSetSize b x.size) a)) := by
    rw [setMem, setMem_mem, hset2]
    exact h1.clobber hb _
  have hset3 := hprevBit (bit (blockSetSize b x.size a.mem)) x.size x.free p
    (by rw [hset2, hword]) hmod hlt
  exact ⟨(((h.framed_setSize hb hset1).trans (h1.framed_setSize hb hset2)).trans
    (h2.framed_setSize hb hset3)).frame, h2.storeSize_of hb hset3⟩

/-- The two headers of a new pool are stored, and its one block goes into its list. -/
theorem addPoolBlock_spec (h : Rep pools L L.classOf a) {P : Pool} (hP : P.Fits)
    (hnew : ∀ Q ∈ pools, P.Apart Q) (hnull : P.last + 16 ≤ a.controller.blockNull ∨
      a.controller.blockNull + sizeofController ≤ P.mem) :
    ∃ a', addPoolBlock P.mem P.payload a = unlockReturning (some P.mem) a' ∧
      Frame L.used a a' ∧ Rep (P :: pools) (L.addPool P) (L.addPool P).classOf a' := by
  have hlast := hP.last_eq
  have hblock : offsetToBlock P.mem (sub64 0 blockHeaderOverhead) = P.first := by
    have hlow := hP.low
    have hhigh := hP.high
    simp only [offsetToBlock, add64, sub64, blockHeaderOverhead, Pool.first]
    omega
  -- the first header, and the block into its list
  have h0 := Rep.relayoutPool h hP hnew hnull
  have hfirst : L.addPool P P.first = some ⟨P.payload, true, false⟩ := addPool_first
  obtain ⟨hframe1, h1⟩ := RepBut.storeHeader h0 hfirst
    (fun m s f p hword hmod _ => blockSetFree_eq hword hmod)
    (fun m s f p hword hmod hs => blockSetPrevUsed_eq hword hmod hs)
  have hnone : L.classOf P.first = none := by
    rcases hL : L P.first with _ | z
    · rw [Layout.classOf, hL]
      rfl
    · have := h.tiling.apart_pool hnew hL
      omega
  obtain ⟨a2, heq2, hframe2, h2, -⟩ := RepBut.blockInsert h1 hfirst (by simp; omega) rfl hnone
  rw [classOf_addPool h.tiling hP hnew] at h2
  -- the sentinel
  have hlink := RepBut.blockLinkNext_eq h2 hfirst (by simp; omega)
    (h2.tiling.size_ne_zero hfirst rfl)
  have h3 := RepBut.storeFoot h2 hfirst rfl
  have hframe3 := (RepBut.framed_setPrevPhysBlock h2 hfirst rfl P.first).frame
  dsimp only at hlink h3 hframe3
  rw [← hlast] at hlink h3 hframe3
  have hsentinel : L.addPool P P.last = some ⟨0, false, true⟩ := addPool_last hP
  obtain ⟨hframe4, h4⟩ := RepBut.storeHeader h3 hsentinel
    (fun m s f p hword hmod hs => blockSetUsed_eq hword hmod hs)
    (fun m s f p hword hmod _ => blockSetPrevFree_eq hword hmod)
  refine ⟨_, ?_, (((hframe1.trans hframe2).trans hframe3).trans hframe4).mono ?_, h4⟩
  · rw [addPoolBlock, hblock]
    dsimp only at heq2 ⊢
    rw [heq2]
    dsimp only
    rw [if_neg (by simp), hlink]
    rfl
  · intro u s hu
    obtain ⟨x, hx, hused, hsize⟩ := Layout.used_eq_some.mp hu
    exact Layout.used_eq_some.mpr ⟨x, addPool_of_some h.tiling hP hnew hx, hused, hsize⟩

/-- The pools that the code accepts. -/
def Accepted (mem bytes : Nat) : Prop :=
  mem % alignSize = 0 ∧ blockSizeMin ≤ (poolOf mem bytes).payload ∧
    (poolOf mem bytes).payload ≤ blockSizeMax

instance (mem bytes : Nat) : Decidable (Accepted mem bytes) :=
  inferInstanceAs (Decidable (_ ∧ _ ∧ _))

/-- A pool that the code rejects changes nothing; one that it accepts becomes a free block. -/
theorem htfhAddPool_spec (h : Rep pools L L.classOf a) (hgiven : Given pools a mem bytes) :
    (∃ a', htfhAddPool mem bytes a = (none, a') ∧ SameHeap a a' ∧ ¬ Accepted mem bytes) ∨
      ∃ a', htfhAddPool mem bytes a = (some mem, a') ∧ (poolOf mem bytes).Fits ∧
        (∀ Q ∈ pools, (poolOf mem bytes).Apart Q) ∧ Frame L.used a a' ∧
        Rep (poolOf mem bytes :: pools) (L.addPool (poolOf mem bytes))
          (L.addPool (poolOf mem bytes)).classOf a' := by
  rw [htfhAddPool, poolBytes_eq]
  dsimp only
  by_cases hmem : mem % alignSize ≠ 0
  · rw [if_pos hmem]
    exact .inl ⟨_, rfl, by rw [htfhLockUnlock_eq (n := a.mutex) rfl]; exact ⟨rfl, rfl, rfl⟩,
      fun haccepted => hmem haccepted.1⟩
  rw [if_neg hmem]
  by_cases hpayload : sub64 bytes 16 / 4 * 4 < blockSizeMin ∨ blockSizeMax < sub64 bytes 16 / 4 * 4
  · rw [if_pos hpayload]
    refine .inl ⟨_, rfl, by rw [htfhLockUnlock_eq (n := a.mutex) rfl]; exact ⟨rfl, rfl, rfl⟩, ?_⟩
    rintro ⟨-, hmin, hmax⟩
    exact hpayload.elim hmin.not_gt hmax.not_gt
  rw [if_neg hpayload]
  simp only [alignSize, blockSizeMin, blockSizeMax, not_or, not_lt, ne_eq, not_not] at hmem hpayload
  obtain ⟨hP, hnew, hend⟩ := hgiven.fits hmem hpayload.1 hpayload.2
  obtain ⟨a1, heq, hframe, hrep⟩ := addPoolBlock_spec (rep_lock h) hP hnew (by
    rcases hgiven.null_apart with hapart | hapart
    · exact .inl (hend.trans hapart)
    · exact .inr hapart)
  exact .inr ⟨_, heq.trans (unlockReturning_eq (n := a.mutex) hframe.mutex _), hP, hnew,
    hframe.unlock, hrep.congr rfl rfl⟩

end Htfh
