import SearchCache.Heap.Htfh
import SearchCache.Heap.Remembered
import Mathlib.Data.Nat.Factorization.Defs

/-! What the allocator's operations return and leave behind on an allocator that represents a layout
without adjacent free blocks. -/

namespace Htfh

open Memory

section Sizes

/-- The size of the block that a request for `s` bytes is given, or zero. -/
def adjustedSize (s : Nat) : Nat :=
  if s = 0 then 0
  else if (s + 3) % 2 ^ 64 / 4 * 4 < blockSizeMax then max ((s + 3) % 2 ^ 64 / 4 * 4) blockSizeMin
  else 0

theorem alignUp_alignSize (s : Nat) (a : Allocator) :
    alignUp s alignSize a = ((s + 3) % 2 ^ 64 / 4 * 4, a) := by
  have hround : (s + 3) % 2 ^ 64 &&& lnot 3 = (s + 3) % 2 ^ 64 / 4 * 4 :=
    and_lnot_two_pow (k := 2) (Nat.mod_lt _ (by decide)) (by decide)
  rw [alignUp, if_neg (by decide)]
  exact congrArg (Prod.mk · a) hround

theorem adjustRequestSize_alignSize (s : Nat) (a : Allocator) :
    adjustRequestSize s alignSize a = (adjustedSize s, a) := by
  unfold adjustRequestSize adjustedSize
  split
  · rfl
  · rw [alignUp_alignSize]

theorem adjustedSize_cases (s : Nat) :
    adjustedSize s = 0 ∨
      adjustedSize s % 4 = 0 ∧ 24 ≤ adjustedSize s ∧ adjustedSize s < 2 ^ 30 := by
  unfold adjustedSize
  simp only [blockSizeMax, blockSizeMin]
  split
  · exact .inl rfl
  · split
    · exact .inr (by omega)
    · exact .inl rfl

/-- Rounding up does not wrap but for the last sizes. -/
theorem le_adjustedSize {s : Nat} (hs : s ≤ 2 ^ 64 - 4) (hne : adjustedSize s ≠ 0) :
    s ≤ adjustedSize s := by
  unfold adjustedSize at *
  simp only [blockSizeMax, blockSizeMin] at *
  by_cases hzero : s = 0
  · omega
  rw [if_neg hzero] at hne ⊢
  by_cases hlt : (s + 3) % 2 ^ 64 / 4 * 4 < 2 ^ 30
  · rw [if_pos hlt]
    omega
  · exact (hne (if_neg hlt)).elim

/-- A request with an alignment that `align_up` rejects changes the error code only. -/
theorem adjustRequestSize_sameHeap (s align : Nat) (a : Allocator) :
    SameHeap a (adjustRequestSize s align a).2 := by
  unfold adjustRequestSize
  split
  · exact .refl a
  · unfold alignUp
    by_cases hpow : align &&& sub64 align 1 ≠ 0
    · rw [if_pos hpow]
      exact sameHeap_setAllocErrno ..
    · rw [if_neg hpow]
      exact .refl a

end Sizes

section Lock

variable {a a' : Allocator} {n : Nat}

theorem htfhLockUnlock_eq (h : a.mutex = n + 1) :
    htfhLockUnlock a = (0, { a with mutex := n }) := by
  rw [htfhLockUnlock, if_neg (by omega), h]
  rfl

theorem unlockReturning_eq (h : a.mutex = n + 1) (ptr : Option Nat) :
    unlockReturning ptr a = (ptr, { a with mutex := n }) := by
  simp only [unlockReturning, htfhLockUnlock_eq h, if_true]

end Lock

/-- A call that returned the payload of a new used block at `b`, of `s` bytes. -/
structure Allocated (pools : List Pool) (ok : Nat → Prop) (L L' : Layout) (b s : Nat)
    (a a' : Allocator) : Prop where
  frame : Frame L.used a a'
  rep : Rep pools L' L'.classOf a'
  coalesced : Coalesced L'
  used : L'.used = Function.update L.used b (some s)
  fresh : L.used b = none
  size_ne_zero : s ≠ 0
  changes : Layout.Changes ok L L'
  stays : Stays (fun w => L.Solid w ∧ L'.Inside w) a a'

theorem Allocated.mono {pools : List Pool} {ok ok' : Nat → Prop} {L L' : Layout} {b s : Nat}
    {a a' : Allocator} (h : Allocated pools ok L L' b s a a') (himp : ∀ n, ok n → ok' n) :
    Allocated pools ok' L L' b s a a' :=
  ⟨h.frame, h.rep, h.coalesced, h.used, h.fresh, h.size_ne_zero, h.changes.mono himp, h.stays⟩

/-- The used block at `b` was a free one, or the first part of one. -/
def TakenFrom (L : Layout) (b t : Nat) (L' : Layout) : Prop :=
  ∃ x L1 x1 s, L b = some x ∧ x.free = true ∧ Trimmed L b s x L1 x1 ∧ L' = L1.mark b false ∧
    t = x1.size

section Malloc

variable {pools : List Pool} {L : Layout} {a : Allocator} {s : Nat}

/-- Taking the lock and returning it around a function that keeps the count. -/
theorem Frame.unlock {used : Nat → Option Nat} {a a' : Allocator}
    (h : Frame used (htfhLockLock a) a') : Frame used a { a' with mutex := a.mutex } :=
  ⟨rfl, h.keeps⟩

theorem rep_lock (h : Rep pools L L.classOf a) : Rep pools L L.classOf (htfhLockLock a) :=
  h.congr rfl rfl

/-- The block that `htfh_malloc` finds can be split. -/
def MallocSplits (s : Nat) (a : Allocator) : Prop :=
  ∃ b a', controllerBlockFindFree (adjustedSize s) (htfhLockLock a) = (some b, a') ∧
    blockCanSplit a'.mem b (adjustedSize s) = true

theorem htfhMalloc_spec (h : Rep pools L L.classOf a) (hc : Coalesced L) (s : Nat) :
    (∃ a', htfhMalloc s a = (none, a') ∧ SameHeap a a') ∨
      ∃ b t a' L', htfhMalloc s a = (some (b + 16), a') ∧
        Allocated pools (fun n => n = adjustedSize s ∧ MallocSplits s a) L L' b t a a' ∧
        adjustedSize s ≠ 0 ∧ adjustedSize s ≤ t ∧ TakenFrom L b t L' := by
  simp only [htfhMalloc, adjustRequestSize_alignSize]
  rcases controllerBlockFindFree_spec (rep_lock h) (adjustedSize s) with
    ⟨a1, heq, hsame⟩ | ⟨b, x, a1, heq, hframe1, h1, hle, hstays1⟩
  · rw [heq]
    dsimp only
    rw [htfhLockUnlock_eq (n := a.mutex) hsame.mutex]
    exact .inl ⟨_, rfl, hsame.mem, hsame.controller, rfl⟩
  · have hne : adjustedSize s ≠ 0 := by
      intro hzero
      rw [controllerBlockFindFree, if_pos hzero] at heq
      simp at heq
    rcases adjustedSize_cases s with hzero | ⟨hmod, hmin, hlt⟩
    · exact (hne hzero).elim
    obtain ⟨a2, L', t, heq2, hframe2, hrep, hc', hused, ⟨L1, x1, htrimmed, rfl, rfl⟩, ht0, hchanges,
        hstays2⟩ := h1.markUsed (hc.mono fun _ _ _ _ _ _ _ hfalse => hfalse.elim) hmod hmin hlt
    have hframe := hframe1.trans hframe2
    have hsplits : ∀ n, n = adjustedSize s ∧ blockCanSplit a1.mem b (adjustedSize s) = true →
        n = adjustedSize s ∧ MallocSplits s a := fun n hn => ⟨hn.1, b, a1, heq, hn.2⟩
    rw [heq]
    dsimp only
    rw [heq2]
    dsimp only
    rw [unlockReturning_eq (n := a.mutex) hframe.mutex]
    refine .inr ⟨b, x1.size, _, _, rfl, ⟨hframe.unlock, hrep.congr rfl rfl, hc', hused,
      h1.used_eq_none, ht0, hchanges.mono hsplits,
      (hstays1.mono fun _ hw => hw.1).trans (hstays2.mono fun _ hw => hw.2)⟩, hne, ?_,
      x, L1, x1, adjustedSize s, h1.block, h1.free, htrimmed, rfl, rfl⟩
    rcases htrimmed.size_eq with hsize | hsize <;> omega

/-- With nothing in the lists nothing is returned. -/
theorem htfhMalloc_of_empty (h : Rep pools L L.classOf a) (hempty : a.controller.flBitmap = 0)
    (s : Nat) : (htfhMalloc s a).1 = none := by
  simp only [htfhMalloc, adjustRequestSize_alignSize]
  obtain ⟨a1, heq, -⟩ := controllerBlockFindFree_of_empty (rep_lock h) hempty (adjustedSize s)
  rw [heq]

/-- Nor is it for a request that cannot be rounded up to a block size. -/
theorem htfhMalloc_of_adjustedSize (hzero : adjustedSize s = 0) :
    (htfhMalloc s a).1 = none := by
  simp only [htfhMalloc, adjustRequestSize_alignSize, hzero, controllerBlockFindFree, if_true]

end Malloc

section Calloc

variable {H F : List Nat} {pools : List Pool} {L : Layout} {cls : Classes} {a : Allocator} {b : Nat}
  {x : Block}

/-- The payload of a used block may be overwritten. -/
theorem RepBut.overwrite (h : RepBut H F pools L cls a) (hb : L b = some x) (hused : x.free = false)
    {f : Mem → Mem} (hout : ∀ w, w < b + 16 ∨ b + 16 + x.size ≤ w →
      (f a.mem).byte w = a.mem.byte w) :
    RepBut H F pools L cls (setMem f a) ∧
      Keeps (Function.update L.used b none) a.mem (f a.mem) := by
  have hne : ∀ c y, L c = some y → y.free = true → c ≠ b := by
    rintro c y hc hfree rfl
    obtain rfl := Option.some.inj (hb.symm.trans hc)
    simp [hused] at hfree
  refine ⟨⟨h.tiling, fun c y hc hH => ?_, fun c y hc hfree hF => ?_, h.listed, ?_, h.null_pos,
    h.null_apart⟩, fun u s hu w hw hlt => ?_⟩
  · rw [← h.header c y hc hH]
    refine read64_congr fun w hw hlt => hout w ?_
    by_cases hcb : c = b
    · omega
    · have := h.tiling.disjoint hc hb hcb
      omega
  · refine Eq.trans (read64_congr fun w hw hlt => hout w ?_) (h.foot c y hc hfree hF)
    have := h.tiling.disjoint hc hb (hne c y hc hfree)
    omega
  · refine h.index.congr (fun c k hk => ?_) fun c k hk => ?_ <;>
    · obtain ⟨y, hc, hfree, -⟩ := h.listed c k hk
      have hmin := h.tiling.size_ge hc (h.tiling.size_ne_zero hc hfree)
      have := h.tiling.disjoint hc hb (hne c y hc hfree)
      exact read64_congr fun w hw hlt => hout w (by omega)
  · have hub : u ≠ b := by
      rintro rfl
      simp at hu
    rw [Function.update_of_ne hub] at hu
    obtain ⟨y, hy, -, rfl⟩ := Layout.used_eq_some.mp hu
    have := h.tiling.disjoint hy hb hub
    exact hout w (by omega)

/-- A used block keeps being used while its payload is overwritten. -/
theorem Allocated.overwrite {ok : Nat → Prop} {L' : Layout} {s : Nat} {a' : Allocator}
    (h : Allocated pools ok L L' b s a a') {f : Mem → Mem}
    (hout : ∀ w, w < b + 16 ∨ b + 16 + s ≤ w → (f a'.mem).byte w = a'.mem.byte w) :
    Allocated pools ok L L' b s a (setMem f a') := by
  have hub : L'.used b = some s := by rw [h.used, Function.update_self]
  obtain ⟨x, hb, hused, rfl⟩ := Layout.used_eq_some.mp hub
  obtain ⟨hrep, hkeeps⟩ := RepBut.overwrite h.rep hb hused hout
  refine ⟨⟨h.frame.mutex, fun u t hu w hw hlt => ?_⟩, hrep, h.coalesced, h.used, h.fresh,
    h.size_ne_zero, h.changes, fun w hw => (hout w ?_).trans (h.stays w hw)⟩
  swap
  · have := hw.2.off_block h.rep.tiling hb hused
    omega
  refine (hkeeps u t ?_ w hw hlt).trans (h.frame.keeps u t hu w hw hlt)
  have hne : u ≠ b := by
    rintro rfl
    simp [h.fresh] at hu
  rw [Function.update_of_ne hne, h.used, Function.update_of_ne hne, hu]

theorem htfhCalloc_spec (h : Rep pools L L.classOf a) (hc : Coalesced L) {count bytes : Nat}
    (hfit : callocBytes count bytes ≤ 2 ^ 64 - 4 ∨ a.controller.flBitmap = 0) :
    (∃ a', htfhCalloc count bytes a = (none, a') ∧ SameHeap a a') ∨
      ∃ b t a' L', htfhCalloc count bytes a = (some (b + 16), a') ∧
        Allocated pools (fun n => n = adjustedSize (callocBytes count bytes) ∧
          MallocSplits (callocBytes count bytes) a) L L' b t a a' ∧
        adjustedSize (callocBytes count bytes) ≠ 0 ∧
        adjustedSize (callocBytes count bytes) ≤ t ∧ TakenFrom L b t L' := by
  rcases htfhMalloc_spec h hc (callocBytes count bytes) with
    ⟨a', heq, hsame⟩ | ⟨b, t, a', L', heq, halloc, hne, hle, htaken⟩
  · exact .inl ⟨a', by rw [htfhCalloc, heq], hsame⟩
  · have hsize : callocBytes count bytes ≤ 2 ^ 64 - 4 := by
      refine hfit.resolve_right fun hempty => ?_
      have := htfhMalloc_of_empty h hempty (callocBytes count bytes)
      simp [heq] at this
    have hfits := (le_adjustedSize hsize hne).trans hle
    refine .inr ⟨b, t, _, L', by rw [htfhCalloc, heq], halloc.overwrite fun w hw => ?_, hne, hle,
      htaken⟩
    simp only [fill]
    rw [if_neg (by omega)]

end Calloc

section Free

variable {pools : List Pool} {L : Layout} {a : Allocator} {b : Nat} {x : Block}

theorem htfhFree_spec (h : Rep pools L L.classOf a) (hc : Coalesced L) (hb : L b = some x)
    (hused : x.free = false) (hsize : x.size ≠ 0) :
    ∃ a' L', htfhFree (b + 16) a = (0, a') ∧ Frame L'.used a a' ∧ Rep pools L' L'.classOf a' ∧
      Coalesced L' ∧ L'.used = Function.update L.used b none ∧
      Layout.Changes (fun _ => False) L L' ∧ Remembers L' a' b x.size ∧
      ∀ d t, Remembers L a d t → Remembers L' a' d t := by
  have hbounds := h.tiling.bounds hb
  have h0 := rep_lock h
  have hblock := h.blockFromPtr_eq hb
  have hcls : L.classOf b = none := by rw [classOf_of_eq hb, hused, if_neg (by simp)]
  have hused1 := used_mark hb true
  obtain ⟨a1, heq1, ⟨hframe1, hstays1⟩, h1⟩ := blockMarkAsFree_spec h0 hb hsize hcls
  rw [← classOf_markFree hb hused] at h1
  have hdetached : Detached pools (L.mark b true) b { x with free := true } a1 :=
    ⟨h1, by rw [Layout.mark_eq hb, if_pos rfl], rfl⟩
  obtain ⟨a2, b2, L2, x2, heq2, hframe2, h2, hused2, hchanges2, hc2, hmerged2, hstays2⟩ :=
    hdetached.mergePrev (.markFree hc hb)
  obtain ⟨a3, L3, x3, heq3, hframe3, h3, hused3, hchanges3, hc3, hmerged3, hstays3⟩ :=
    h2.mergeNext hc2
  obtain ⟨a4, heq4, hframe4, h4, hstays4⟩ := h3.insert
  have hframe : Frame L3.used (htfhLockLock a) a4 := by
    rw [hused2] at hframe3 hused3
    rw [hused3] at hframe4 ⊢
    exact ((hframe1.trans hframe2).trans hframe3).trans hframe4
  -- the merges keep the header of every block that is remembered
  have hremembers : ∀ d t, Remembers (L.mark b true) a1 d t → Remembers L3 a4 d t := by
    intro d t hd1
    have hd2 := hd1.next h2.rep (by simp) (hd1.swallowed.merged h1.tiling hmerged2) hstays2
    have hd3 := hd2.next h3.rep (by simp) (hd2.swallowed.merged h2.rep.tiling hmerged3) hstays3
    exact hd3.next h4 (by simp) hd3.swallowed (hstays4.mono fun _ hw => hw.1)
  simp only [htfhFree, hblock, h0.blockIsFree_eq hb (by simp), hused, heq1, heq2, heq3, heq4]
  rw [if_neg (by omega), if_neg (by omega), if_neg (by simp), if_neg (by simp),
    htfhLockUnlock_eq (n := a.mutex) hframe.mutex]
  refine ⟨_, L3, rfl, hframe.unlock, h4.congr rfl rfl, hc3, ?_,
    ((Relation.ReflTransGen.single (.mark true hb)).trans hchanges2).trans hchanges3,
    (hremembers b x.size (.of_mark h1 hb hsize)).congr rfl, fun d t hd => ?_⟩
  · rw [hused3, hused2, hused1]
    rfl
  · have hd1 : Remembers (L.mark b true) a1 d t :=
      Remembers.next (hd.congr rfl) h1 (by simp) (hd.swallowed.mark hb)
        (hstays1.mono fun _ hw => hw.2)
    exact (hremembers d t hd1).congr rfl

end Free

section Memalign

variable {pools : List Pool} {L : Layout} {a : Allocator} {ptr align : Nat}

/-- The next multiple of a power of two, or zero where the addition wraps. -/
theorem alignPtr_two_pow {k : Nat} (hk : k < 64) (hptr : ptr < 2 ^ 64) (a : Allocator) :
    ∃ v, alignPtr ptr (2 ^ k) a = (v, a) ∧ 2 ^ k ∣ v ∧ v < 2 ^ 64 ∧
      (ptr ≤ v ∧ v < ptr + 2 ^ k ∨ v = 0 ∧ 2 ^ 64 < ptr + 2 ^ k) := by
  have hpos : 0 < 2 ^ k := Nat.two_pow_pos k
  have hlt : 2 ^ k < 2 ^ 64 := Nat.pow_lt_pow_right (by decide) hk
  have hsub : sub64 (2 ^ k) 1 = 2 ^ k - 1 := by
    unfold sub64
    omega
  have hmask : 2 ^ k &&& (2 ^ k - 1) = 0 := by
    rw [Nat.and_two_pow_sub_one_eq_mod, Nat.mod_self]
  have hword : add64 ptr (2 ^ k - 1) < 2 ^ 64 := Nat.mod_lt _ (by decide)
  refine ⟨add64 ptr (2 ^ k - 1) / 2 ^ k * 2 ^ k, ?_, Nat.dvd_mul_left _ _, ?_, ?_⟩
  · rw [alignPtr, hsub, hmask, and_lnot_two_pow hword (by omega)]
    rfl
  · exact Nat.lt_of_le_of_lt (Nat.div_mul_le_self _ _) hword
  · have hdiv := Nat.div_add_mod (add64 ptr (2 ^ k - 1)) (2 ^ k)
    have hmod := Nat.mod_lt (add64 ptr (2 ^ k - 1)) hpos
    rw [Nat.mul_comm] at hdiv
    by_cases hwrap : ptr + (2 ^ k - 1) < 2 ^ 64
    · rw [show add64 ptr (2 ^ k - 1) = ptr + (2 ^ k - 1) from Nat.mod_eq_of_lt hwrap] at *
      exact .inl (by omega)
    · have hsmall : add64 ptr (2 ^ k - 1) < 2 ^ k := by
        unfold add64
        omega
      rw [Nat.div_eq_of_lt hsmall]
      exact .inr (by omega)

/-- An alignment that is no power of two gives the null pointer. -/
theorem alignPtr_cases (halign : align < 2 ^ 64) :
    (∃ k < 64, align = 2 ^ k) ∨
      ∀ p b, ∃ b', alignPtr p align b = (0, b') ∧ SameHeap b b' := by
  by_cases hzero : align = 0
  · subst hzero
    refine .inr fun p b => ⟨b, ?_, .refl b⟩
    rw [alignPtr, if_neg (by decide), show lnot (sub64 0 1) = 0 from by decide, Nat.and_zero]
  have hsub : sub64 align 1 = align - 1 := by
    unfold sub64
    omega
  by_cases hpow : align &&& (align - 1) = 0
  · refine .inl ?_
    rcases eq_two_pow_of_and_sub_one hpow with h0 | ⟨k, rfl⟩
    · exact (hzero h0).elim
    · exact ⟨k, (Nat.pow_lt_pow_iff_right (by decide)).mp halign, rfl⟩
  · refine .inr fun p b => ⟨_, ?_, sameHeap_setAllocErrno .alignPowerOfTwo b⟩
    rw [alignPtr, hsub, if_pos hpow]

/-- The gap before an aligned address: none, or one that a block fits in. -/
structure GapOk (ptr gap : Nat) : Prop where
  zero_or : gap = 0 ∨ 32 ≤ gap ∧ gap < 2 ^ 64 - 32
  mod : ∀ d, d = 4 ∨ d = 8 → ptr % d = 0 → gap % d = 0

theorem gapOk_null (hlow : 32 < ptr) (hhigh : ptr + 32 ≤ 2 ^ 64) : GapOk ptr (sub64 0 ptr) := by
  have hgap : sub64 0 ptr = 2 ^ 64 - ptr := by
    unfold sub64
    omega
  rw [hgap]
  refine ⟨.inr (by omega), ?_⟩
  rintro d (rfl | rfl) hd <;> omega

/-- Between an address and a multiple of a power of two that is not too close. -/
theorem gapOk_of_dvd {k v : Nat} (hlow : 32 < ptr) (hv : v < 2 ^ 64) (hdvd : 2 ^ k ∣ v)
    (hle : ptr ≤ v) (hmod : ptr % 4 = 0)
    (hfar : v = ptr ∨ ptr + 32 ≤ v) (hround : 3 ≤ k ∨ v < ptr + 2 ^ k) : GapOk ptr (v - ptr) := by
  refine ⟨by omega, ?_⟩
  have hsmall : k < 3 → v = ptr := by
    intro hk
    have hd4 : 2 ^ k ∣ ptr := Nat.dvd_trans (Nat.pow_dvd_pow 2 (show k ≤ 2 by omega))
      (Nat.dvd_of_mod_eq_zero hmod)
    have hd : 2 ^ k ∣ v - ptr := Nat.dvd_sub hdvd hd4
    by_contra hne
    have := Nat.le_of_dvd (by omega) hd
    omega
  rintro d hd hptr
  by_cases hk : k < 3
  · simp [hsmall hk]
  · have h8 : 8 ∣ v := Nat.dvd_trans (Nat.pow_dvd_pow 2 (show 3 ≤ k by omega)) hdvd
    rcases hd with rfl | rfl <;> omega

theorem alignedWithGap_spec (hlow : 32 < ptr) (hhigh : ptr + 32 ≤ 2 ^ 64) (hmod : ptr % 4 = 0)
    (halign : align < 2 ^ 64) (a : Allocator) :
    ∃ gap a', alignedWithGap ptr align a = (gap, a') ∧ SameHeap a a' ∧ GapOk ptr gap := by
  rcases alignPtr_cases halign with ⟨k, hk, rfl⟩ | hnull
  · have hpos : 0 < 2 ^ k := Nat.two_pow_pos k
    have hptr : ptr < 2 ^ 64 := by omega
    obtain ⟨v, heq, hdvd, hv, hcase⟩ := alignPtr_two_pow hk hptr a
    unfold alignedWithGap
    rw [heq]
    dsimp only
    rcases hcase with ⟨hle, hlt⟩ | ⟨rfl, -⟩
    · have hgap : sub64 v ptr = v - ptr := by
        unfold sub64
        omega
      rw [hgap]
      by_cases hnear : v - ptr ≠ 0 ∧ v - ptr < sizeofBlockHeader
      · rw [if_pos hnear]
        simp only [sizeofBlockHeader] at hnear
        have hk3 : 3 ≤ k := by
          by_contra hk3
          have hd : 2 ^ k ∣ v - ptr := Nat.dvd_sub hdvd (Nat.dvd_trans
            (Nat.pow_dvd_pow 2 (show k ≤ 2 by omega)) (Nat.dvd_of_mod_eq_zero hmod))
          have := Nat.le_of_dvd (by omega) hd
          omega
        -- the second boundary is far enough, or zero
        have hoffset : max (sub64 sizeofBlockHeader (v - ptr)) (2 ^ k) =
            max (32 - (v - ptr)) (2 ^ k) := by
          congr 1
          simp only [sub64, sizeofBlockHeader]
          omega
        rw [hoffset]
        obtain ⟨v', heq', hdvd', hv', hcase'⟩ := alignPtr_two_pow hk
          (show add64 v (max (32 - (v - ptr)) (2 ^ k)) < 2 ^ 64 from Nat.mod_lt _ (by decide)) a
        rw [heq']
        refine ⟨_, a, rfl, .refl a, ?_⟩
        have hend : v + 2 ^ k ≤ 2 ^ 64 := by
          obtain ⟨q, rfl⟩ := hdvd
          have hsplit : 2 ^ 64 = 2 ^ k * 2 ^ (64 - k) := by
            rw [← Nat.pow_add, show k + (64 - k) = 64 by omega]
          have hq : q + 1 ≤ 2 ^ (64 - k) := by
            rw [hsplit] at hv
            exact Nat.lt_of_mul_lt_mul_left hv
          calc 2 ^ k * q + 2 ^ k = 2 ^ k * (q + 1) := by rw [Nat.mul_succ]
            _ ≤ 2 ^ k * 2 ^ (64 - k) := Nat.mul_le_mul_left _ hq
            _ = 2 ^ 64 := hsplit.symm
        by_cases hwrap : v + max (32 - (v - ptr)) (2 ^ k) < 2 ^ 64
        · rw [show add64 v (max (32 - (v - ptr)) (2 ^ k)) = v + max (32 - (v - ptr)) (2 ^ k) from
            Nat.mod_eq_of_lt hwrap] at hcase'
          rcases hcase' with ⟨hle', -⟩ | ⟨rfl, -⟩
          · have hgap' : sub64 v' ptr = v' - ptr := by
              unfold sub64
              omega
            rw [hgap']
            exact gapOk_of_dvd hlow hv' hdvd' (by omega) hmod (.inr (by omega))
              (.inl hk3)
          · exact gapOk_null hlow hhigh
        · have hsum : v + max (32 - (v - ptr)) (2 ^ k) = 2 ^ 64 := by omega
          have hzero : add64 v (max (32 - (v - ptr)) (2 ^ k)) = 0 := by
            rw [add64, hsum, Nat.mod_self]
          rw [hzero] at hcase'
          have hv0 : v' = 0 := by
            rcases hcase' with ⟨-, hlt'⟩ | ⟨h0, -⟩
            · exact Nat.eq_zero_of_dvd_of_lt hdvd' (by omega)
            · exact h0
          rw [hv0]
          exact gapOk_null hlow hhigh
      · rw [if_neg hnear]
        simp only [sizeofBlockHeader] at hnear
        exact ⟨_, a, rfl, .refl a, gapOk_of_dvd hlow hv hdvd hle hmod (by omega) (.inr hlt)⟩
    · have hgap := gapOk_null hlow hhigh
      have hne : ¬ (sub64 0 ptr ≠ 0 ∧ sub64 0 ptr < sizeofBlockHeader) := by
        have := hgap.zero_or
        simp only [sizeofBlockHeader]
        omega
      rw [if_neg hne]
      exact ⟨_, a, rfl, .refl a, hgap⟩
  · obtain ⟨a', heq, hsame⟩ := hnull ptr a
    have hgap := gapOk_null hlow hhigh
    have hne : ¬ (sub64 0 ptr ≠ 0 ∧ sub64 0 ptr < sizeofBlockHeader) := by
      have := hgap.zero_or
      simp only [sizeofBlockHeader]
      omega
    unfold alignedWithGap
    rw [heq]
    dsimp only
    rw [if_neg hne]
    exact ⟨_, a', rfl, hsame, hgap⟩

/-- The block that `htfh_memalign` goes on with once the gap before it is trimmed. -/
def memalignTrimmed (align block : Nat) (a : Allocator) : Option Nat × Allocator :=
  let (gap, a) := alignedWithGap (blockToPtr block) align a
  if gap = 0 then (some block, a)
  else if gap < sizeofBlockHeader then (none, a)
  else controllerBlockTrimFreeLeading block gap a

/-- That block can be split. -/
def TrimmedSplits (align s block : Nat) (a : Allocator) : Prop :=
  ∃ b a', memalignTrimmed align block a = (some b, a') ∧
    blockCanSplit a'.mem b (adjustedSize s) = true

def MemalignSplits (align s : Nat) (a : Allocator) : Prop :=
  ∃ b a', controllerBlockFindFree (memalignSize align (adjustedSize s) (htfhLockLock a)).1
      (memalignSize align (adjustedSize s) (htfhLockLock a)).2 = (some b, a') ∧
    TrimmedSplits align s b a'

/-- The sizes that a request cuts blocks down to: the one that it computes, where it splits the
block, and the gap before an aligned address. -/
def CutTo (splits : Prop) (L : Layout) (s n : Nat) : Prop :=
  n = adjustedSize s ∧ splits ∨ ((∀ c x, L c = some x → c % 8 = 0) → n % 8 = 0)

/-- The end of an aligned request, once the start of the block is trimmed. -/
theorem memalignMarkUsed_spec {L0 L : Layout} {a0 : Allocator} {b : Nat} {x : Block} {s : Nat}
    {splits : Prop} (h : Detached pools L b x a) (hframe : Frame L0.used (htfhLockLock a0) a)
    (hstays : Stays (fun w => L0.Solid w ∧ L.Inside w) (htfhLockLock a0) a)
    (hused : L.used = L0.used) (hc : CoalescedBut (fun _ n => n = b) L)
    (hchanges : Layout.Changes (CutTo splits L0 s) L0 L) (hne : adjustedSize s ≠ 0)
    (hsplits : blockCanSplit a.mem b (adjustedSize s) = true → splits) :
    ∃ t a' L', memalignMarkUsed (adjustedSize s) (some b) a = (some (b + 16), a') ∧
      Allocated pools (CutTo splits L0 s) L0 L' b t a0 a' ∧
      ∃ L1 x', Trimmed L b (adjustedSize s) x L1 x' ∧ L' = L1.mark b false ∧ t = x'.size := by
  obtain ⟨hmod, hmin, hlt⟩ := (adjustedSize_cases s).resolve_left hne
  obtain ⟨a1, L1, t, heq1, hframe1, hrep1, hc1, hused1, ⟨L2, y, htrimmed, hmark, ht⟩, ht0, hchanges1,
    hstays1⟩ := h.markUsed hc hmod hmin hlt
  rw [hused] at hframe1 hused1
  have hmutex := (hframe.trans hframe1).mutex
  rw [memalignMarkUsed, heq1]
  refine ⟨t, { a1 with mutex := a0.mutex }, L1, unlockReturning_eq (n := a0.mutex) hmutex _,
    ⟨(hframe.trans hframe1).unlock, hrep1.congr rfl rfl, hc1, hused1, ?_, ht0,
      hchanges.trans (hchanges1.mono fun _ hn => .inl ⟨hn.1, hsplits hn.2⟩),
      (hstays.mono fun _ hw => ⟨hw.1, .of_markTrimmed h.block h.free htrimmed (hmark ▸ hw.2)⟩).trans
        (hstays1.mono fun _ hw => hw.2)⟩, L2, y, htrimmed, hmark, ht⟩
  rw [← hused]
  exact h.used_eq_none

/-- The layout after a request is cut out of the free block at `b` behind a gap: the block of the
request is at `c` and has `t` bytes. -/
def CutOut (L : Layout) (b : Nat) (x : Block) (gap adjust c t : Nat) (L' : Layout) : Prop :=
  ∃ L1 y L2 y', (gap ≠ 0 ∧ gap + 32 ≤ x.size ∧ c = b + gap ∧ y.size = x.size - gap ∧
      L1 = L.split b (gap - 8) ∨ (gap = 0 ∨ ¬ gap + 32 ≤ x.size) ∧ c = b ∧ y = x ∧ L1 = L) ∧
    L1 c = some y ∧ Trimmed L1 c adjust y L2 y' ∧ L' = L2.mark c false ∧ t = y'.size

theorem memalignBlock_spec {a0 : Allocator} {b : Nat} {x : Block} {s : Nat}
    (h : Detached pools L b x a) (hframe : Frame L.used (htfhLockLock a0) a)
    (hstays : Stays L.Solid (htfhLockLock a0) a) (hc : Coalesced L) (halign : align < 2 ^ 64)
    (hne : adjustedSize s ≠ 0) :
    ∃ c t a' L', memalignBlock align (adjustedSize s) b a = (some (c + 16), a') ∧
      Allocated pools (CutTo (TrimmedSplits align s b a) L s) L L' c t a0 a' ∧
      CutOut L b x (alignedWithGap (b + 16) align a).1 (adjustedSize s) c t L' := by
  have hsize := h.size_ge
  have hbounds := h.rep.tiling.bounds h.block
  have hend := h.rep.tiling.end_le h.block (by omega)
  have hptr : blockToPtr b = b + 16 := h.rep.blockToPtr_eq h.block (by omega)
  obtain ⟨gap, a2, hgapeq, hsame2, hgap⟩ :=
    alignedWithGap_spec (show 32 < b + 16 by omega) (by omega) (by omega) halign a
  have h2 := h.sameHeap hsame2
  have hframe2 := hframe.trans (.ofSameHeap hsame2)
  have hstays2 := hstays.trans (.ofSameHeap hsame2)
  have htrimmed : memalignTrimmed align b a = if gap = 0 then (some b, a2)
      else if gap < sizeofBlockHeader then (none, a2)
      else controllerBlockTrimFreeLeading b gap a2 := by
    rw [memalignTrimmed, hptr, hgapeq]
  rw [memalignBlock, hptr, hgapeq]
  by_cases hgap0 : gap = 0
  · obtain ⟨t, a', L', heq, halloc, L2, y, htrim, hmark, ht⟩ := memalignMarkUsed_spec h2 hframe2
      (hstays2.mono fun _ hw => hw.1) rfl
      (hc.mono fun _ _ _ _ _ _ _ hfalse => hfalse.elim) .refl hne
      fun hsplit => (⟨b, a2, htrimmed.trans (if_pos hgap0), hsplit⟩ : TrimmedSplits align s b a)
    exact ⟨b, t, a', L', (if_pos hgap0).trans heq, halloc, L, x, L2, y,
      .inr ⟨.inl hgap0, rfl, rfl, rfl⟩, h.block, htrim, hmark, ht⟩
  · have hgapmin := hgap.zero_or.resolve_left hgap0
    obtain ⟨a3, L3, b3, x3, heq3, hframe3, h3, hcutout, hused3, hchanges3, hc3, hstays3⟩ :=
      h2.trimFreeLeading hc (hgap.mod 4 (.inl rfl) (by omega)) hgapmin.1 hgapmin.2
    have hcut : ∀ n, n = gap - 8 → CutTo (TrimmedSplits align s b a) L s n := by
      rintro n rfl
      refine .inr fun hall => ?_
      have := hgap.mod 8 (.inr rfl) (by have := hall b x h.block; omega)
      omega
    have hge : ¬ gap < sizeofBlockHeader := by
      simp only [sizeofBlockHeader]
      omega
    obtain ⟨t, a', L', heq, halloc, L2, y, htrim, hmark, ht⟩ := memalignMarkUsed_spec h3
      (hframe2.trans hframe3) ((hstays2.mono fun _ hw => hw.1).trans (hstays3.mono fun _ hw => hw.2))
      hused3 hc3 (hchanges3.mono hcut) hne fun hsplit =>
        ⟨b3, a3, htrimmed.trans ((if_neg hgap0).trans ((if_neg hge).trans heq3)), hsplit⟩
    refine ⟨b3, t, a', L', ?_, halloc, L3, x3, L2, y, ?_, h3.block, htrim, hmark, ht⟩
    · refine (if_neg hgap0).trans ((if_neg hge).trans ?_)
      rw [heq3]
      exact heq
    · rcases hcutout with ⟨hsplit, hb3, hsize3, hL3⟩ | ⟨hsplit, hb3, hx3, hL3⟩
      · exact .inl ⟨hgap0, hsplit, hb3, hsize3, hL3⟩
      · exact .inr ⟨.inr hsplit, hb3, hx3, hL3⟩

/-- An aligned request fails and leaves the heap as it is, or returns a new block. -/
theorem htfhMemalign_spec (h : Rep pools L L.classOf a) (hc : Coalesced L)
    (halign : align < 2 ^ 64) (s : Nat) :
    (∃ a', htfhMemalign align s a = (none, a') ∧ a'.mem = a.mem ∧ a'.controller = a.controller) ∨
      ∃ b t a' L', htfhMemalign align s a = (some (b + 16), a') ∧
        Allocated pools (CutTo (MemalignSplits align s a) L s) L L' b t a a' := by
  obtain ⟨n, a0, hsizeeq, hsame0, hn⟩ : ∃ n a0,
      memalignSize align (adjustedSize s) (htfhLockLock a) = (n, a0) ∧
        SameHeap (htfhLockLock a) a0 ∧ (adjustedSize s = 0 → n = 0) := by
    refine ⟨_, _, rfl, adjustRequestSize_sameHeap .., fun hzero => ?_⟩
    rw [hzero]
    exact if_neg (by simp)
  rw [htfhMemalign, adjustRequestSize_alignSize]
  rcases controllerBlockFindFree_spec (RepBut.sameHeap (rep_lock h) hsame0) n with
    ⟨a1, heq, hsame⟩ | ⟨b, x, a1, heq, hframe1, h1, -, hstays1⟩
  · refine .inl ⟨setAllocErrno .blockIsNull a1, ?_, hsame.mem.trans hsame0.mem,
      hsame.controller.trans hsame0.controller⟩
    simp only [hsizeeq, heq]
    rfl
  · have hne : adjustedSize s ≠ 0 := by
      intro hzero
      rw [hn hzero, controllerBlockFindFree, if_pos rfl] at heq
      simp at heq
    obtain ⟨c, t, a', L', heq', halloc, -⟩ := memalignBlock_spec h1
      ((Frame.ofSameHeap hsame0).trans hframe1)
      ((Stays.ofSameHeap hsame0).trans hstays1) hc halign hne
    have hsplits : TrimmedSplits align s b a1 → MemalignSplits align s a := by
      intro hsplit
      exact ⟨b, a1, by rw [hsizeeq]; exact heq, hsplit⟩
    refine .inr ⟨c, t, a', L', ?_, halloc.mono fun _ => Or.imp_left (And.imp_right hsplits)⟩
    simp only [hsizeeq, heq]
    exact heq'

end Memalign

end Htfh
