import SearchCache.Heap.FreeInterior

/-! What the functions of `block.c` return and leave behind on an allocator that represents a
layout. -/

namespace Htfh

open Memory

@[simp] theorem setMem_mem (f : Mem → Mem) (a : Allocator) : (setMem f a).mem = f a.mem := rfl
@[simp] theorem setMem_controller (f : Mem → Mem) (a : Allocator) :
    (setMem f a).controller = a.controller := rfl
@[simp] theorem setMem_mutex (f : Mem → Mem) (a : Allocator) : (setMem f a).mutex = a.mutex := rfl

theorem blockNext_of_size {a : Allocator} {b s : Nat} (hsize : blockSize a.mem b = s)
    (hmin : 24 ≤ s) (hend : b + 16 + s ≤ 2 ^ 64) : blockNext b a = (some (b + 8 + s), a) := by
  have hnext : offsetToBlock (blockToPtr b) (sub64 s blockHeaderOverhead) = b + 8 + s := by
    simp only [offsetToBlock, blockToPtr, sub64, add64, blockHeaderOverhead, blockStartOffset]
    omega
  rw [blockNext, blockIsLast, hsize, hnext]
  simp only [decide_eq_true_eq]
  rw [if_neg (by omega)]

theorem size_setSize_same {b v : Nat} {m : Mem} (hv : v < 2 ^ 64) : size (setSize b v m) b = v := by
  rw [size, setSize, read64_write64_same, Nat.mod_eq_of_lt hv]

namespace RepBut

variable {H F : List Nat} {pools : List Pool} {L : Layout} {cls : Classes} {a : Allocator}
  {b c : Nat} {x y : Block}

theorem size_lt (h : RepBut H F pools L cls a) (hb : L b = some x) : x.size < 2 ^ 64 := by
  have := h.tiling.bounds hb
  omega

theorem blockSize_eq (h : RepBut H F pools L cls a) (hb : L b = some x) (hH : b ∉ H) :
    blockSize a.mem b = x.size :=
  Htfh.blockSize_eq (h.header b x hb hH) (h.tiling.size_mod hb) (h.size_lt hb)

theorem blockIsFree_eq (h : RepBut H F pools L cls a) (hb : L b = some x) (hH : b ∉ H) :
    blockIsFree a.mem b = x.free :=
  Htfh.blockIsFree_eq (h.header b x hb hH) (h.tiling.size_mod hb)

theorem blockIsPrevFree_eq (h : RepBut H F pools L cls a) (hb : L b = some x) (hH : b ∉ H) :
    blockIsPrevFree a.mem b = x.prevFree :=
  Htfh.blockIsPrevFree_eq (h.header b x hb hH) (h.tiling.size_mod hb)

theorem blockIsLast_eq (h : RepBut H F pools L cls a) (hb : L b = some x) (hH : b ∉ H) :
    blockIsLast a.mem b = decide (x.size = 0) := by
  rw [blockIsLast, h.blockSize_eq hb hH]

theorem blockToPtr_eq (h : RepBut H F pools L cls a) (hb : L b = some x) (hsize : x.size ≠ 0) :
    blockToPtr b = b + 16 := by
  have := h.tiling.bounds hb
  exact Nat.mod_eq_of_lt (by dsimp only [blockStartOffset]; omega)

theorem blockFromPtr_eq (h : RepBut H F pools L cls a) (hb : L b = some x) :
    blockFromPtr (b + 16) = b := by
  have := h.tiling.bounds hb
  simp only [blockFromPtr, sub64, blockStartOffset]
  omega

theorem blockNext_eq (h : RepBut H F pools L cls a) (hb : L b = some x) (hH : b ∉ H)
    (hsize : x.size ≠ 0) : blockNext b a = (some (b + 8 + x.size), a) :=
  blockNext_of_size (h.blockSize_eq hb hH) (h.tiling.size_ge hb hsize).2 (h.tiling.bounds hb).2.2.1

theorem blockNext_sentinel (h : RepBut H F pools L cls a) (hb : L b = some x) (hH : b ∉ H)
    (hsize : x.size = 0) : (blockNext b a).1 = none := by
  rw [blockNext, h.blockIsLast_eq hb hH]
  simp [hsize]

theorem blockLinkNext_eq (h : RepBut H F pools L cls a) (hb : L b = some x) (hH : b ∉ H)
    (hsize : x.size ≠ 0) :
    blockLinkNext b a =
      (some (b + 8 + x.size), setMem (setPrevPhysBlock (b + 8 + x.size) b) a) := by
  rw [blockLinkNext, h.blockNext_eq hb hH hsize]

/-- Storing a back link changes no header. -/
theorem size_storeFoot (h : RepBut H F pools L cls a) (hb : L b = some x) (hsize : x.size ≠ 0)
    (hc : L c = some y) {v : Nat} {m : Mem} :
    size (setPrevPhysBlock (b + 8 + x.size) v m) c = size m c := by
  have hmin := h.tiling.size_ge hb hsize
  exact read64_setPrevPhysBlock h.tiling hb hc (by omega) (by omega)

/-- Storing a header changes no other one. -/
theorem size_storeSize (h : RepBut H F pools L cls a) (hb : L b = some x) (hc : L c = some y)
    (hne : c ≠ b) {v : Nat} {m : Mem} : size (setSize b v m) c = size m c :=
  read64_setSize h.tiling hb hc (by omega) fun heq => (hne heq.symm).elim

theorem prevPhysBlock_eq (h : RepBut H F pools L cls a) (hb : L b = some x)
    (hfree : x.free = true) (hF : b ∉ F) : prevPhysBlock a.mem (b + 8 + x.size) = b :=
  h.foot b x hb hfree hF

/-- A function that finds the flag bits of a header as they are stored sets one of them right. -/
theorem storeSize_of (h : RepBut (b :: H) F pools L cls a) (hb : L b = some x) {f : Mem → Mem}
    (hf : f a.mem = setSize b (Htfh.header x.size x.free x.prevFree) a.mem) :
    RepBut H F pools L cls (setMem f a) := by
  rw [setMem, hf]
  exact h.storeSize hb

end RepBut

section Mark

variable {pools : List Pool} {L : Layout} {cls : Classes} {a : Allocator} {b : Nat} {x : Block}

/-- A block that is in no list may be marked. -/
theorem Rep.relayoutMark (h : Rep pools L cls a) (hb : L b = some x) (hsize : x.size ≠ 0)
    (hcls : cls b = none) (f : Bool) :
    RepBut [b + 8 + x.size, b] [b] pools (L.mark b f) cls a := by
  refine h.relayout (h.tiling.mark hb hsize f) ?_ ?_ ?_
  · intro c z hc hH
    rw [List.mem_cons, List.mem_singleton, not_or] at hH
    rw [Layout.mark_eq hb, if_neg hH.2, if_neg hH.1] at hc
    exact ⟨by simp, hc⟩
  · intro c z hc hfree hF
    rw [List.mem_singleton] at hF
    obtain ⟨w, hw, hws, hwfree, -⟩ := mark_cases hb hc
    rw [if_neg hF] at hwfree
    exact ⟨by simp, w, hw, by rw [← hwfree, hfree], hws⟩
  · intro c k z hk hc hfree
    have hne : c ≠ b := by
      rintro rfl
      simp [hcls] at hk
    obtain ⟨w, hw, hws, hwfree, -⟩ := exists_mark hb hc f
    exact ⟨w, hw, by rw [hwfree, if_neg hne, hfree], hws⟩

theorem blockMarkAsFree_spec (h : Rep pools L cls a) (hb : L b = some x) (hsize : x.size ≠ 0)
    (hcls : cls b = none) :
    ∃ a', blockMarkAsFree b a = (0, a') ∧ Framed (L.mark b true) a a' ∧
      Rep pools (L.mark b true) cls a' := by
  obtain ⟨y, hy, -⟩ := h.tiling.next b x hb hsize
  have hyb : b + 8 + x.size ≠ b := by omega
  have hbmark : L.mark b true b = some { x with free := true } := by
    rw [Layout.mark_eq hb, if_pos rfl]
  have hymark : L.mark b true (b + 8 + x.size) = some { y with prevFree := true } := by
    rw [Layout.mark_eq hb, if_neg hyb, if_pos rfl, hy]
    rfl
  have h0 := Rep.relayoutMark h hb hsize hcls true
  rw [blockMarkAsFree, h.blockLinkNext_eq hb (by simp) hsize]
  -- the back link, then the bit in the next header
  have h1 := RepBut.storeFoot h0 hbmark rfl
  have hset : blockSetPrevFree (b + 8 + x.size) (setPrevPhysBlock (b + 8 + x.size) b a.mem) =
      setSize (b + 8 + x.size) (header y.size y.free true)
        (setPrevPhysBlock (b + 8 + x.size) b a.mem) :=
    blockSetPrevFree_eq ((h.size_storeFoot hb hsize hy).trans (h.header _ y hy (by simp)))
      (h.tiling.size_mod hy)
  have h2 := h1.storeSize_of hymark hset
  -- its own bit
  have hset' := blockSetFree_eq (m := setSize (b + 8 + x.size) (header y.size y.free true)
      (setPrevPhysBlock (b + 8 + x.size) b a.mem))
    (((h.size_storeSize hy hb hyb.symm).trans (h.size_storeFoot hb hsize hb)).trans
      (h.header b x hb (by simp))) (h.tiling.size_mod hb)
  have h3 := h2.storeSize_of hbmark (f := blockSetFree b) (by
    rw [setMem_mem, setMem_mem, hset]
    exact hset')
  refine ⟨_, rfl, ?_, h3⟩
  refine ((h0.framed_setPrevPhysBlock hbmark rfl b).trans (h1.framed_setSize hymark hset)).trans
    (h2.framed_setSize (v := header x.size true x.prevFree) hbmark ?_)
  rw [setMem_mem, setMem_mem, hset]
  exact hset'

theorem blockMarkAsUsed_spec (h : Rep pools L cls a) (hb : L b = some x) (hsize : x.size ≠ 0)
    (hcls : cls b = none) :
    ∃ a', blockMarkAsUsed b a = (0, a') ∧ Framed (L.mark b false) a a' ∧
      Rep pools (L.mark b false) cls a' := by
  obtain ⟨y, hy, -⟩ := h.tiling.next b x hb hsize
  have hyb : b + 8 + x.size ≠ b := by omega
  have hbmark : L.mark b false b = some { x with free := false } := by
    rw [Layout.mark_eq hb, if_pos rfl]
  have hymark : L.mark b false (b + 8 + x.size) = some { y with prevFree := false } := by
    rw [Layout.mark_eq hb, if_neg hyb, if_pos rfl, hy]
    rfl
  have h0 := Rep.relayoutMark h hb hsize hcls false
  rw [blockMarkAsUsed, h.blockNext_eq hb (by simp) hsize]
  -- a used block has no back link
  have h1 : RepBut [b + 8 + x.size, b] [] pools (L.mark b false) cls a := by
    refine ⟨h0.tiling, h0.header, fun c z hc hfree _ => ?_, h0.listed, h0.index, h0.null_pos,
      h0.null_apart⟩
    refine h0.foot c z hc hfree ?_
    rw [List.mem_singleton]
    rintro rfl
    rw [hbmark] at hc
    obtain rfl := Option.some.inj hc
    simp at hfree
  have hset : blockSetPrevUsed (b + 8 + x.size) a.mem =
      setSize (b + 8 + x.size) (header y.size y.free false) a.mem :=
    blockSetPrevUsed_eq (h.header _ y hy (by simp)) (h.tiling.size_mod hy) (h.size_lt hy)
  have h2 := h1.storeSize_of hymark hset
  have hset' := blockSetUsed_eq (m := setSize (b + 8 + x.size) (header y.size y.free false) a.mem)
    ((h.size_storeSize hy hb hyb.symm).trans (h.header b x hb (by simp))) (h.tiling.size_mod hb)
    (h.size_lt hb)
  have h3 := h2.storeSize_of hbmark (f := blockSetUsed b) (by
    rw [setMem_mem, hset]
    exact hset')
  refine ⟨_, rfl, (h1.framed_setSize hymark hset).trans
    (h2.framed_setSize (v := header x.size false x.prevFree) hbmark ?_), h3⟩
  rw [setMem_mem, hset]
  exact hset'

end Mark

section Absorb

variable {pools : List Pool} {L : Layout} {cls : Classes} {a : Allocator} {b : Nat} {x y : Block}

/-- Two adjacent free blocks that are in no list become one. -/
theorem blockAbsorb_spec (h : Rep pools L cls a) (hb : L b = some x)
    (hn : L (b + 8 + x.size) = some y) (hxfree : x.free = true) (hyfree : y.free = true)
    (hbcls : cls b = none) (hncls : cls (b + 8 + x.size) = none) :
    ∃ a', blockAbsorb b (b + 8 + x.size) a = (some b, a') ∧ Framed (L.absorb b) a a' ∧
      Rep pools (L.absorb b) cls a' := by
  have hx0 := h.tiling.size_ne_zero hb hxfree
  have hself := absorb_self hb hn
  have ht := h.tiling.absorb hb hn hxfree hyfree
  have hlt := (ht.bounds hself).2.2.2
  dsimp only at hlt
  have h0 : RepBut [b] [b] pools (L.absorb b) cls a := by
    refine h.relayout ht ?_ ?_ ?_
    · intro c z hc hH
      rcases absorb_cases hb hn hc with ⟨rfl, -⟩ | ⟨-, -, hc⟩
      · simp at hH
      · exact ⟨by simp, hc⟩
    · intro c z hc hfree hF
      rcases absorb_cases hb hn hc with ⟨rfl, -⟩ | ⟨-, -, hc⟩
      · simp at hF
      · exact ⟨by simp, z, hc, hfree, rfl⟩
    · intro c k z hk hc hfree
      refine ⟨z, ?_, hfree, rfl⟩
      rw [absorb_of_ne hb hn, hc] <;> rintro rfl
      · simp [hbcls] at hk
      · simp [hncls] at hk
  -- the size is added to the word with the flags in it
  have hword : add64 (size a.mem b) (add64 (blockSize a.mem (b + 8 + x.size)) blockHeaderOverhead) =
      header (x.size + 8 + y.size) x.free x.prevFree := by
    rw [h.header b x hb (by simp), h.blockSize_eq hn (by simp)]
    have hflags := @flags_lt x.free x.prevFree
    simp only [add64, header, blockHeaderOverhead]
    omega
  rw [blockAbsorb, h.blockIsLast_eq hb (by simp), decide_eq_false hx0]
  simp only [Bool.false_eq_true, if_false]
  rw [hword]
  have h1 := h0.storeSize hself
  rw [h1.blockLinkNext_eq hself (by simp) (by dsimp only; omega)]
  exact ⟨_, rfl, (h0.framed_setSize hself rfl).trans (h1.framed_setPrevPhysBlock hself hxfree b),
    h1.storeFoot hself hxfree⟩

end Absorb

section Split

variable {H F : List Nat} {pools : List Pool} {L : Layout} {cls : Classes} {a : Allocator}
  {b s : Nat} {x : Block}

/-- A free block that is in no list may be split. -/
theorem Rep.relayoutSplit (h : Rep pools L cls a) (hb : L b = some x) (hfree : x.free = true)
    (hcls : cls b = none) (hmod : s % 4 = 0) (hmin : 24 ≤ s) (hs : s + 32 ≤ x.size) :
    RepBut [b, b + 8 + s] [b + 8 + s, b] pools (L.split b s) cls a := by
  refine h.relayout (h.tiling.split hb hfree hmod hmin hs) ?_ ?_ ?_
  · intro c z hc hH
    rcases split_cases hb hc with ⟨rfl, -⟩ | ⟨rfl, -⟩ | ⟨-, -, hc⟩
    · simp at hH
    · simp at hH
    · exact ⟨by simp, hc⟩
  · intro c z hc hzfree hF
    rcases split_cases hb hc with ⟨rfl, -⟩ | ⟨rfl, -⟩ | ⟨-, -, hc⟩
    · simp at hF
    · simp at hF
    · exact ⟨by simp, z, hc, hzfree, rfl⟩
  · intro c k z hk hc hzfree
    have hne : c ≠ b := by
      rintro rfl
      simp [hcls] at hk
    have := h.tiling.disjoint hc hb hne
    exact ⟨z, by rw [split_of_ne hb hne (by omega), hc], hzfree, rfl⟩

/-- What `block_split` leaves: the header of the rest has an arbitrary second bit, and the first
block no back link yet. -/
theorem blockSplit_spec (h : Rep pools L cls a) (hb : L b = some x) (hfree : x.free = true)
    (hcls : cls b = none) (hmod : s % 4 = 0) (hmin : 24 ≤ s) (hs : s + 32 ≤ x.size) :
    ∃ a' p, blockSplit b s a = (some (b + 8 + s), a') ∧ Framed (L.split b s) a a' ∧
      RepBut [b + 8 + s] [b] pools (L.split b s) cls a' ∧
      size a'.mem (b + 8 + s) = header (x.size - 8 - s) true p := by
  have hbounds := h.tiling.bounds hb
  have hxmod := h.tiling.size_mod hb
  have hself := @split_self L b s x hb
  have hrest := @split_rest L b s x hb
  have h0 := Rep.relayoutSplit h hb hfree hcls hmod hmin hs
  have hptr : blockToPtr b = b + 16 := h.blockToPtr_eq hb (by omega)
  have hremaining : offsetToBlock (b + 16) (sub64 s blockHeaderOverhead) = b + 8 + s := by
    simp only [offsetToBlock, sub64, add64, blockHeaderOverhead]
    omega
  have hremain : sub64 x.size (add64 s blockHeaderOverhead) = x.size - 8 - s := by
    simp only [sub64, add64, blockHeaderOverhead]
    omega
  have hptr' : blockToPtr (b + 8 + s) = b + 8 + s + 16 := h0.blockToPtr_eq hrest (by dsimp only; omega)
  rw [blockSplit, hptr, hremaining, h.blockSize_eq hb (by simp), hremain, hptr',
    alignPtr_alignSize (by omega) (by omega)]
  dsimp only
  rw [if_neg (by simp), h.blockSize_eq hb (by simp), if_neg (by
    simp only [add64, blockHeaderOverhead]
    omega)]
  -- the header of the rest keeps the bits of whatever stood there
  obtain ⟨f, p, hword⟩ := exists_header (size a.mem (b + 8 + s))
  have hset1 := blockSetSize_eq (t := x.size - 8 - s) hword (by omega) (by omega)
  have h1 : RepBut [b, b + 8 + s] [b + 8 + s, b] pools (L.split b s) cls
      (setMem (blockSetSize (b + 8 + s) (x.size - 8 - s)) a) := by
    rw [setMem, hset1]
    exact ((h0.mono (G := [b + 8 + s, b]) (by simp) (fun _ hc => hc)).clobber hrest _).mono
      (by simp) (fun _ hc => hc)
  have hlt : header (x.size - 8 - s) f p < 2 ^ 64 := header_lt (by omega)
  have hsize1 : size (blockSetSize (b + 8 + s) (x.size - 8 - s) a.mem) (b + 8 + s) =
      header (x.size - 8 - s) f p := by
    rw [hset1, size_setSize_same hlt]
  rw [setMem_mem, Htfh.blockSize_eq hsize1 (by omega) (by omega), if_neg (by
    simp only [blockSizeMin]
    omega)]
  -- the header of the first block
  have hne : b ≠ b + 8 + s := by omega
  have hbhead : size (blockSetSize (b + 8 + s) (x.size - 8 - s) a.mem) b =
      header x.size x.free x.prevFree := by
    rw [hset1, h0.size_storeSize hrest hself hne, h.header b x hb (by simp)]
  have h2 := h1.storeSize_of hself (blockSetSize_eq hbhead hxmod hmod)
  have hsize2 : size (blockSetSize b s (blockSetSize (b + 8 + s) (x.size - 8 - s) a.mem))
      (b + 8 + s) = header (x.size - 8 - s) f p := by
    rw [blockSetSize_eq hbhead hxmod hmod, h0.size_storeSize hself hrest hne.symm, hsize1]
  -- the rest is marked as free
  obtain ⟨y, hy, hyprev⟩ := h.tiling.next b x hb (by omega)
  have hnext : b + 8 + s + 8 + (x.size - 8 - s) = b + 8 + x.size := by omega
  have hysplit : L.split b s (b + 8 + x.size) = some y := by
    rw [split_of_ne hb (by omega) (by omega), hy]
  have hlink := blockNext_of_size (a := setMem (blockSetSize b s)
    (setMem (blockSetSize (b + 8 + s) (x.size - 8 - s)) a))
    (Htfh.blockSize_eq hsize2 (by omega) (by omega)) (by omega) (by omega)
  rw [blockMarkAsFree, blockLinkNext, hlink, hnext]
  have h3 := h2.storeFoot hrest rfl
  dsimp only at h3
  rw [hnext] at h3
  have hset4 := blockSetPrevFree_eq (h3.header _ y hysplit (by simp; omega)) (h.tiling.size_mod hy)
  have hyprev' : y.prevFree = true := by rw [hyprev, hfree]
  have h4 : RepBut [b + 8 + s] [b] pools (L.split b s) cls (setMem (blockSetPrevFree (b + 8 + x.size))
      (setMem (setPrevPhysBlock (b + 8 + x.size) (b + 8 + s)) (setMem (blockSetSize b s)
        (setMem (blockSetSize (b + 8 + s) (x.size - 8 - s)) a)))) := by
    refine (h3.mono (G := [b + 8 + x.size, b + 8 + s]) (by simp)
      (fun _ hc => hc)).storeSize_of hysplit ?_
    rw [hset4, hyprev']
  have hsize4 : size (blockSetPrevFree (b + 8 + x.size) (setPrevPhysBlock (b + 8 + x.size)
      (b + 8 + s) (blockSetSize b s (blockSetSize (b + 8 + s) (x.size - 8 - s) a.mem))))
      (b + 8 + s) = header (x.size - 8 - s) f p := by
    have hfoot := h0.size_storeFoot (v := b + 8 + s)
      (m := blockSetSize b s (blockSetSize (b + 8 + s) (x.size - 8 - s) a.mem)) hrest
      (by dsimp only; omega) hrest
    dsimp only at hfoot
    rw [hnext] at hfoot
    simp only [setMem_mem] at hset4
    rw [hset4, h0.size_storeSize hysplit hrest (by omega), hfoot, hsize2]
  have hset5 := blockSetFree_eq hsize4 (by omega)
  refine ⟨_, p, rfl, ?_, ?_, ?_⟩
  · refine ((((h0.framed_setSize hrest hset1).trans (h1.framed_setSize hself
      (blockSetSize_eq hbhead hxmod hmod))).trans ?_).trans (h3.framed_setSize hysplit hset4)).trans
      (h4.framed_setSize hrest hset5)
    have hfoot := h2.framed_setPrevPhysBlock hrest rfl (b + 8 + s)
    dsimp only at hfoot
    rwa [hnext] at hfoot
  · dsimp only
    rw [setMem, setMem_mem, setMem_mem, setMem_mem, setMem_mem, hset5]
    exact h4.clobber hrest _
  · dsimp only
    rw [setMem_mem, setMem_mem, setMem_mem, setMem_mem, setMem_mem, hset5,
      size_setSize_same (header_lt (by omega))]

/-- The bit of the rest is set right. -/
theorem RepBut.setPrevFree (h : RepBut [b + 8 + s] F pools (L.split b s) cls a) (hb : L b = some x)
    (hfree : x.free = true) (hmod : (x.size - 8 - s) % 4 = 0) {p : Bool}
    (hword : size a.mem (b + 8 + s) = Htfh.header (x.size - 8 - s) true p) :
    RepBut [] F pools (L.split b s) cls (setMem (blockSetPrevFree (b + 8 + s)) a) ∧
      Framed (L.split b s) a (setMem (blockSetPrevFree (b + 8 + s)) a) := by
  have hset := blockSetPrevFree_eq hword hmod
  refine ⟨h.storeSize_of (split_rest hb) ?_, h.framed_setSize (split_rest hb) hset⟩
  rw [hset, hfree]

/-- The back link of the first block is stored. -/
theorem RepBut.linkNext (h : RepBut H [b] pools (L.split b s) cls a) (hb : L b = some x)
    (hfree : x.free = true) (hH : b ∉ H) (hs : 24 ≤ s) :
    ∃ a', blockLinkNext b a = (some (b + 8 + s), a') ∧ Framed (L.split b s) a a' ∧
      RepBut H [] pools (L.split b s) cls a' ∧
      ∀ c z, L.split b s c = some z → size a'.mem c = size a.mem c := by
  have hself := @split_self L b s x hb
  refine ⟨_, h.blockLinkNext_eq hself hH (by dsimp only; omega),
    h.framed_setPrevPhysBlock hself hfree b, h.storeFoot hself hfree, ?_⟩
  intro c z hc
  exact h.size_storeFoot hself (by dsimp only; omega) hc

end Split

end Htfh
