import SearchCache.Heap.HtfhUndo

/-! The lists that the operations index.  Beside each function stands the list of the classes with
which it, in the order of the source, inserts a block, removes one or searches, and of those where a
search ends. -/

namespace Htfh

/-- A class that the tables have an entry for. -/
def InRange (k : Nat × Nat) : Prop := k.1 < flIndexCount ∧ k.2 < slIndexCount

instance (k : Nat × Nat) : Decidable (InRange k) := inferInstanceAs (Decidable (_ ∧ _))

/-! ### The classes of `controller.c` -/

/-- `controller_search_suitable_block`: where it begins, and where it finds a bit. -/
def searchIndices (fl sl : Nat) (a : Allocator) : List (Nat × Nat) :=
  let control := a.controller
  let slMap := control.slBitmap fl &&& largestBitClass sl
  if slMap = 0 then
    let flMap := control.flBitmap &&& largestBitClass (fl + 1)
    if flMap = 0 then [(fl, sl)]
    else
      let i := (htfhFfs flMap).toNat
      [(fl, sl), (i, (htfhFfs (control.slBitmap i)).toNat)]
  else [(fl, sl), (fl, (htfhFfs slMap).toNat)]

/-- `controller_block_insert` and `controller_block_remove`. -/
def blockIndices (block : Nat) (a : Allocator) : List (Nat × Nat) :=
  [mappingInsert (blockSize a.mem block)]

def mergePrevIndices (block : Nat) (a : Allocator) : List (Nat × Nat) :=
  if !blockIsPrevFree a.mem block then []
  else
    match blockPrev block a with
    | (none, _) => []
    | (some prev, a) => if !blockIsFree a.mem prev then [] else blockIndices prev a

def mergeNextIndices (block : Nat) (a : Allocator) : List (Nat × Nat) :=
  match blockNext block a with
  | (none, _) => []
  | (some next, a) =>
    if !blockIsFree a.mem next then []
    else if blockIsLast a.mem block then []
    else blockIndices next a

def trimFreeIndices (block s : Nat) (a : Allocator) : List (Nat × Nat) :=
  if !blockIsFree a.mem block then []
  else if !blockCanSplit a.mem block s then []
  else
    match blockSplit block s a with
    | (none, _) => []
    | (some remaining, a) =>
      blockIndices remaining (setMem (blockSetPrevFree remaining) (blockLinkNext block a).2)

def trimFreeLeadingIndices (block s : Nat) (a : Allocator) : List (Nat × Nat) :=
  if !blockCanSplit a.mem block s then []
  else
    match blockSplit block (sub64 s blockHeaderOverhead) a with
    | (none, _) => []
    | (some remaining, a) =>
      blockIndices block (blockLinkNext block (setMem (blockSetPrevFree remaining) a)).2

def findFreeIndices (s : Nat) (a : Allocator) : List (Nat × Nat) :=
  if s = 0 then []
  else
    let (fl, sl) := mappingSearch s
    if flIndexCount ≤ fl then []
    else
      searchIndices fl sl a ++
        match controllerSearchSuitableBlock fl sl a with
        | (none, _) => []
        | (some (block, fl, sl), a) => if blockSize a.mem block < s then [] else [(fl, sl)]

def markUsedIndices (block s : Nat) (a : Allocator) : List (Nat × Nat) :=
  if s = 0 then [] else trimFreeIndices block s a

/-! ### The classes of `htfh.c` -/

def addPoolIndices (mem bytes : Nat) (a : Allocator) : List (Nat × Nat) :=
  let (payload, a) := poolBytes bytes (htfhLockLock a)
  if mem % alignSize ≠ 0 then []
  else if payload < blockSizeMin ∨ blockSizeMax < payload then []
  else
    let block := offsetToBlock mem (sub64 0 blockHeaderOverhead)
    let a := setMem (blockSetSize block payload) a
    let a := setMem (blockSetFree block) a
    let a := setMem (blockSetPrevUsed block) a
    blockIndices block a

def mallocIndices (s : Nat) (a : Allocator) : List (Nat × Nat) :=
  let (adjust, a) := adjustRequestSize s alignSize (htfhLockLock a)
  findFreeIndices adjust a ++
    match controllerBlockFindFree adjust a with
    | (none, _) => []
    | (some block, a) => markUsedIndices block adjust a

/-- `htfh_memalign` from the block that it found on. -/
def memalignBlockIndices (align adjust block : Nat) (a : Allocator) : List (Nat × Nat) :=
  let (gap, a) := alignedWithGap (blockToPtr block) align a
  if gap = 0 then markUsedIndices block adjust a
  else if gap < sizeofBlockHeader then []
  else
    trimFreeLeadingIndices block gap a ++
      match controllerBlockTrimFreeLeading block gap a with
      | (none, _) => []
      | (some block, a) => markUsedIndices block adjust a

def memalignIndices (align s : Nat) (a : Allocator) : List (Nat × Nat) :=
  let (adjust, a) := adjustRequestSize s alignSize (htfhLockLock a)
  let (alignedSize, a) := memalignSize align adjust a
  findFreeIndices alignedSize a ++
    match controllerBlockFindFree alignedSize a with
    | (none, _) => []
    | (some block, a) => memalignBlockIndices align adjust block a

def freeIndices (ptr : Nat) (a : Allocator) : List (Nat × Nat) :=
  let a := htfhLockLock a
  let block := blockFromPtr ptr
  if ptr = 0 then []
  else if block = 0 then []
  else if blockIsFree a.mem block then []
  else
    let (_, a) := blockMarkAsFree block a
    mergePrevIndices block a ++
      match controllerBlockMergePrev block a with
      | (none, _) => []
      | (some block, a) =>
        mergeNextIndices block a ++
          match controllerBlockMergeNext block a with
          | (none, _) => []
          | (some block, a) => blockIndices block a

def Request.indices (a : Allocator) : Request → List (Nat × Nat)
  | .malloc size => mallocIndices size a
  | .calloc count bytes => mallocIndices (callocBytes count bytes) a
  | .memalign align size => memalignIndices align size a

def Call.indices (a : Allocator) : Call → List (Nat × Nat)
  | .addPool mem bytes => addPoolIndices mem bytes a
  | .request r => r.indices a
  | .free ptr => freeIndices ptr a
  | .write _ _ => []

/-! ### Blocks of a layout -/

section Blocks

variable {H F : List Nat} {pools : List Pool} {L : Layout} {cls : Classes} {a : Allocator}
  {b s : Nat} {x : Block}

theorem RepBut.blockIndices_inRange (h : RepBut H F pools L cls a) (hb : L b = some x) (hH : b ∉ H) :
    ∀ k ∈ blockIndices b a, InRange k := by
  intro k hk
  rw [blockIndices, h.blockSize_eq hb hH, List.mem_singleton] at hk
  subst hk
  exact mappingInsert_lt (h.tiling.bounds hb).2.2.2

/-- The classes with a block are those of block sizes. -/
theorem RepBut.class_inRange (h : RepBut H F pools L cls a) {k : Nat × Nat} (hk : cls b = some k) :
    InRange k := by
  obtain ⟨x, hb, -, rfl⟩ := h.listed b k hk
  exact mappingInsert_lt (h.tiling.bounds hb).2.2.2

theorem RepBut.searchIndices_inRange (h : RepBut H F pools L cls a) {k : Nat × Nat}
    (hk : InRange k) : ∀ j ∈ searchIndices k.1 k.2 a, InRange j := by
  have hbit : ∀ i (v : BitVec 32), v ≠ 0 →
      (∀ j, v.getLsbD j = true → (a.controller.slBitmap i).getLsbD j = true) →
      InRange (i, (htfhFfs v).toNat) := by
    intro i v hv hsub
    obtain ⟨b, hb⟩ := (h.index.slBit _ _).mp (hsub _ (getLsbD_htfhFfs hv))
    exact h.class_inRange hb
  rw [searchIndices]
  dsimp only
  split
  · split
    · simpa using hk
    · rename_i hne
      have hfl := getLsbD_htfhFfs hne
      rw [BitVec.getLsbD_and, Bool.and_eq_true] at hfl
      simpa using ⟨hk, hbit _ _ ((h.index.flBit _).mp hfl.1) fun _ hj => hj⟩
  · rename_i hne
    simpa using ⟨hk, hbit k.1 _ hne fun j hj => by
      rw [BitVec.getLsbD_and, Bool.and_eq_true] at hj
      exact hj.1⟩

theorem RepBut.findFreeIndices_inRange (h : Rep pools L cls a) (hs : s < 2 ^ 30) :
    ∀ k ∈ findFreeIndices s a, InRange k := by
  rw [findFreeIndices]
  split
  · simp
  rename_i hne
  have hsl := mappingSearch_snd_lt hne hs
  dsimp only
  split
  · simp
  rename_i hfl
  have hk : InRange (mappingSearch s) := ⟨Nat.lt_of_not_le hfl, hsl⟩
  intro k hmem
  rcases List.mem_append.mp hmem with hmem | hmem
  · exact h.searchIndices_inRange hk k hmem
  · rcases controllerSearchSuitableBlock_spec h.index (h.spaced h.listed) (mappingSearch s).1
      (mappingSearch s).2 with ⟨a', heq, -⟩ | ⟨c, fl, sl, heq, hcls⟩
    · rw [heq] at hmem
      simp at hmem
    · rw [heq] at hmem
      dsimp only at hmem
      split at hmem
      · simp at hmem
      · obtain rfl := List.mem_singleton.mp hmem
        exact h.class_inRange hcls

namespace Detached

theorem mergePrevIndices_inRange (h : Detached pools L b x a) :
    ∀ k ∈ mergePrevIndices b a, InRange k := by
  rw [mergePrevIndices, h.rep.blockIsPrevFree_eq h.block (by simp)]
  cases hprev : x.prevFree with
  | false => simp
  | true =>
    obtain ⟨p, z, hp, hzfree, rfl⟩ := h.rep.tiling.prev_of_prevFree h.block hprev
    have hbounds := h.rep.tiling.bounds hp
    have hprevPtr : blockPrev (p + 8 + z.size) a = (some p, a) := by
      simp only [blockPrev, h.rep.blockIsPrevFree_eq h.block (by simp), hprev,
        h.rep.prevPhysBlock_eq hp hzfree (by simp), toPtr, Bool.not_true, Bool.false_eq_true,
        if_false]
      rw [if_neg (by omega)]
    rw [hprevPtr]
    simp only [h.rep.blockIsFree_eq hp (by simp), hzfree, Bool.not_true, Bool.false_eq_true,
      if_false]
    exact RepBut.blockIndices_inRange h.rep hp (by simp)

theorem mergeNextIndices_inRange (h : Detached pools L b x a) :
    ∀ k ∈ mergeNextIndices b a, InRange k := by
  have hsize := h.rep.tiling.size_ne_zero h.block h.free
  obtain ⟨y, hy, -⟩ := h.rep.tiling.next b x h.block hsize
  rw [mergeNextIndices, h.rep.blockNext_eq h.block (by simp) hsize]
  dsimp only
  split
  · simp
  · split
    · simp
    · exact RepBut.blockIndices_inRange h.rep hy (by simp)

theorem trimFreeIndices_inRange (h : Detached pools L b x a) (hmod : s % 4 = 0) (hmin : 24 ≤ s)
    (hs : s < 2 ^ 30) : ∀ k ∈ trimFreeIndices b s a, InRange k := by
  rw [trimFreeIndices, h.rep.blockIsFree_eq h.block (by simp), h.free,
    h.canSplit_eq (s := s) (by omega)]
  by_cases hsplit : s + 32 ≤ x.size
  · have hxmod := h.size_ge.1
    obtain ⟨a1, p, heq1, -, h1, hword⟩ :=
      blockSplit_spec h.rep h.block h.free (Function.update_self ..) hmod hmin hsplit
    obtain ⟨a2, heq2, -, h2, hsame⟩ := RepBut.linkNext h1 h.block h.free (by simp; omega) hmin
    rw [← hsame _ _ (split_rest h.block)] at hword
    obtain ⟨h3, -⟩ := RepBut.setPrevFree h2 h.block h.free (by omega) hword
    simp only [Bool.not_true, Bool.false_eq_true, if_false, decide_eq_true hsplit, heq1, heq2]
    exact RepBut.blockIndices_inRange h3 (split_rest h.block) (by simp)
  · simp [hsplit]

theorem trimFreeLeadingIndices_inRange (h : Detached pools L b x a) {gap : Nat}
    (hmod : gap % 4 = 0) (hmin : 32 ≤ gap) (hlt : gap < 2 ^ 64 - 32) :
    ∀ k ∈ trimFreeLeadingIndices b gap a, InRange k := by
  rw [trimFreeLeadingIndices, h.canSplit_eq hlt]
  by_cases hsplit : gap + 32 ≤ x.size
  · have hxmod := h.size_ge.1
    have hsub : sub64 gap blockHeaderOverhead = gap - 8 := by
      simp only [sub64, blockHeaderOverhead]
      omega
    obtain ⟨a1, p, heq1, -, h1, hword⟩ := blockSplit_spec h.rep h.block h.free
      (Function.update_self ..) (show (gap - 8) % 4 = 0 by omega) (by omega) (by omega)
    obtain ⟨h2, -⟩ := RepBut.setPrevFree h1 h.block h.free (by omega) hword
    obtain ⟨a3, heq3, -, h3, -⟩ := RepBut.linkNext h2 h.block h.free (by simp) (by omega)
    simp only [decide_eq_true hsplit, Bool.not_true, Bool.false_eq_true, if_false, hsub, heq1, heq3]
    exact RepBut.blockIndices_inRange h3 (split_self h.block) (by simp)
  · simp [hsplit]

theorem markUsedIndices_inRange (h : Detached pools L b x a) (n : Nat) :
    ∀ k ∈ markUsedIndices b (adjustedSize n) a, InRange k := by
  rw [markUsedIndices]
  split
  · simp
  · obtain ⟨hmod, hmin, hlt⟩ := (adjustedSize_cases n).resolve_left ‹_›
    exact h.trimFreeIndices_inRange hmod hmin hlt

end Detached

end Blocks

/-! ### The operations -/

theorem adjustRequestSize_lt (s align : Nat) (a : Allocator) :
    (adjustRequestSize s align a).1 < 2 ^ 30 := by
  rw [adjustRequestSize]
  split
  · exact Nat.two_pow_pos 30
  · dsimp only [blockSizeMax, blockSizeMin]
    split
    · omega
    · decide

section Operations

variable {pools : List Pool} {L : Layout} {a : Allocator} {b : Nat} {x : Block}

theorem mallocIndices_inRange (h : Rep pools L L.classOf a) (s : Nat) :
    ∀ k ∈ mallocIndices s a, InRange k := by
  have hlt := adjustRequestSize_lt s alignSize (htfhLockLock a)
  rw [mallocIndices]
  rw [adjustRequestSize_alignSize] at hlt ⊢
  intro k hk
  rcases List.mem_append.mp hk with hk | hk
  · exact RepBut.findFreeIndices_inRange (rep_lock h) hlt k hk
  · rcases controllerBlockFindFree_spec (rep_lock h) (adjustedSize s) with
      ⟨a1, heq, -⟩ | ⟨b, x, a1, heq, -, h1, -⟩
    · rw [heq] at hk
      simp at hk
    · rw [heq] at hk
      exact h1.markUsedIndices_inRange s k hk

theorem Detached.memalignBlockIndices_inRange (h : Detached pools L b x a) (hc : Coalesced L)
    {align : Nat} (halign : align < 2 ^ 64) (s : Nat) :
    ∀ k ∈ memalignBlockIndices align (adjustedSize s) b a, InRange k := by
  have hsize := h.size_ge
  have hbounds := h.rep.tiling.bounds h.block
  have hend := h.rep.tiling.end_le h.block (by omega)
  have hptr : blockToPtr b = b + 16 := h.rep.blockToPtr_eq h.block (by omega)
  obtain ⟨gap, a2, hgapeq, hsame2, hgap⟩ :=
    alignedWithGap_spec (show 32 < b + 16 by omega) (by omega) (by omega) halign a
  have h2 := h.sameHeap hsame2
  rw [memalignBlockIndices, hptr, hgapeq]
  dsimp only
  split
  · exact h2.markUsedIndices_inRange s
  rename_i hgap0
  have hgapmin := hgap.zero_or.resolve_left hgap0
  have hmod := hgap.mod 4 (.inl rfl) (by omega)
  split
  · simp
  intro k hk
  rcases List.mem_append.mp hk with hk | hk
  · exact h2.trimFreeLeadingIndices_inRange hmod hgapmin.1 hgapmin.2 k hk
  · obtain ⟨a3, L3, b3, x3, heq3, -, h3, -⟩ := h2.trimFreeLeading hc hmod hgapmin.1 hgapmin.2
    rw [heq3] at hk
    exact h3.markUsedIndices_inRange s k hk

theorem memalignIndices_inRange (h : Rep pools L L.classOf a) (hc : Coalesced L) {align : Nat}
    (halign : align < 2 ^ 64) (s : Nat) : ∀ k ∈ memalignIndices align s a, InRange k := by
  have hadjust := adjustRequestSize_lt s alignSize (htfhLockLock a)
  rw [memalignIndices]
  rw [adjustRequestSize_alignSize] at hadjust ⊢
  obtain ⟨n, a0, hsizeeq, hsame0, hn⟩ : ∃ n a0,
      memalignSize align (adjustedSize s) (htfhLockLock a) = (n, a0) ∧
        SameHeap (htfhLockLock a) a0 ∧ n < 2 ^ 30 := by
    refine ⟨_, _, rfl, adjustRequestSize_sameHeap .., ?_⟩
    dsimp only
    split
    · exact adjustRequestSize_lt ..
    · exact hadjust
  have h0 := RepBut.sameHeap (rep_lock h) hsame0
  dsimp only
  rw [hsizeeq]
  intro k hk
  rcases List.mem_append.mp hk with hk | hk
  · exact RepBut.findFreeIndices_inRange h0 hn k hk
  · rcases controllerBlockFindFree_spec h0 n with ⟨a1, heq, -⟩ | ⟨b, x, a1, heq, -, h1, -⟩
    · rw [heq] at hk
      simp at hk
    · rw [heq] at hk
      exact h1.memalignBlockIndices_inRange hc halign s k hk

theorem freeIndices_inRange (h : Rep pools L L.classOf a) (hc : Coalesced L) (hb : L b = some x)
    (hused : x.free = false) (hsize : x.size ≠ 0) : ∀ k ∈ freeIndices (b + 16) a, InRange k := by
  have hbounds := h.tiling.bounds hb
  have h0 := rep_lock h
  have hblock := h.blockFromPtr_eq hb
  have hcls : L.classOf b = none := by rw [classOf_of_eq hb, hused, if_neg (by simp)]
  obtain ⟨a1, heq1, -, h1⟩ := blockMarkAsFree_spec h0 hb hsize hcls
  rw [← classOf_markFree hb hused] at h1
  have hdetached : Detached pools (L.mark b true) b { x with free := true } a1 :=
    ⟨h1, by rw [Layout.mark_eq hb, if_pos rfl], rfl⟩
  obtain ⟨a2, b2, L2, x2, heq2, -, h2, -, -, hc2, -⟩ := hdetached.mergePrev (.markFree hc hb)
  obtain ⟨a3, L3, x3, heq3, -, h3, -⟩ := h2.mergeNext hc2
  simp only [freeIndices, hblock, h0.blockIsFree_eq hb (by simp), hused, heq1, heq2, heq3]
  rw [if_neg (by omega), if_neg (by omega), if_neg (by simp)]
  intro k hk
  rcases List.mem_append.mp hk with hk | hk
  · exact hdetached.mergePrevIndices_inRange k hk
  rcases List.mem_append.mp hk with hk | hk
  · exact h2.mergeNextIndices_inRange k hk
  · exact RepBut.blockIndices_inRange h3.rep h3.block (by simp) k hk

/-- The size in a header that is written anew. -/
theorem blockSize_stored (m : Memory.Mem) (b : Nat) {t : Nat} (hmod : t % 4 = 0)
    (ht : t < 2 ^ 62) :
    blockSize (blockSetPrevUsed b (blockSetFree b (blockSetSize b t m))) b = t := by
  obtain ⟨f, p, hold⟩ := exists_header (size m b)
  have hlt : ∀ f p, header t f p < 2 ^ 64 := by
    intro f p
    unfold header
    cases f <;> cases p <;> simp <;> omega
  have hword : ∀ f p m, size (setSize b (header t f p) m) b = header t f p :=
    fun f p m => size_setSize_same (hlt f p)
  rw [blockSetSize_eq hold (by omega) hmod, blockSetFree_eq (hword _ _ _) hmod,
    blockSetPrevUsed_eq (hword _ _ _) hmod (by omega)]
  exact blockSize_eq (hword _ _ _) hmod (by omega)

theorem addPoolIndices_eq {mem bytes : Nat} (h : Accepted mem bytes) (a : Allocator) :
    addPoolIndices mem bytes a = [mappingInsert (poolOf mem bytes).payload] := by
  obtain ⟨hmem, hmin, hmax⟩ := h
  have hpayload : ¬ (sub64 bytes 16 / 4 * 4 < blockSizeMin ∨
      blockSizeMax < sub64 bytes 16 / 4 * 4) := not_or.mpr ⟨hmin.not_gt, hmax.not_gt⟩
  rw [addPoolIndices, poolBytes_eq]
  dsimp only
  rw [if_neg (by simpa using hmem), if_neg hpayload, blockIndices]
  simp only [setMem_mem]
  rw [blockSize_stored _ _ (Nat.mul_mod_left _ _) (by simp only [poolOf, blockSizeMax] at hmax; omega)]
  rfl

theorem addPoolIndices_of_not {mem bytes : Nat} (h : ¬ Accepted mem bytes) (a : Allocator) :
    addPoolIndices mem bytes a = [] := by
  rw [addPoolIndices, poolBytes_eq]
  dsimp only
  split
  · rfl
  · split
    · rfl
    · rename_i hmem hpayload
      refine (h ⟨not_not.mp hmem, ?_⟩).elim
      show blockSizeMin ≤ sub64 bytes 16 / 4 * 4 ∧ sub64 bytes 16 / 4 * 4 ≤ blockSizeMax
      omega

/-- The largest pool that is accepted has no list. -/
theorem addPoolIndices_inRange_iff (mem bytes : Nat) (a : Allocator) :
    (∀ k ∈ addPoolIndices mem bytes a, InRange k) ↔
      ¬ (Accepted mem bytes ∧ (poolOf mem bytes).payload = blockSizeMax) := by
  by_cases h : Accepted mem bytes
  · rw [addPoolIndices_eq h, List.forall_mem_singleton]
    refine ⟨fun hin hmax => ?_, fun hmax => mappingInsert_lt ?_⟩
    · rw [hmax.2] at hin
      exact absurd hin (by decide)
    · exact lt_of_le_of_ne h.2.2 fun heq => hmax ⟨h, heq⟩
  · rw [addPoolIndices_of_not h]
    simp [h]

end Operations

/-! ### Runs -/

namespace Client

variable {s : Client} {L : Layout} {a : Allocator} {c : Call} {calls : List Call}

theorem Holds.indices_inRange (h : s.Holds L) (legal : s.Legal c) :
    ∀ k ∈ c.indices s.alloc, InRange k := by
  cases c with
  | addPool mem bytes =>
    refine (addPoolIndices_inRange_iff mem bytes s.alloc).mpr fun hmax => ?_
    exact Given.small legal hmax.2
  | request r =>
    cases r with
    | malloc size => exact mallocIndices_inRange h.rep size
    | calloc count bytes => exact mallocIndices_inRange h.rep (callocBytes count bytes)
    | memalign align size => exact memalignIndices_inRange h.rep h.coalesced legal.1 size
  | free ptr =>
    obtain ⟨n, hn⟩ := legal
    obtain ⟨b, x, rfl, hb, hx, hsize, -⟩ := h.exists_used hn
    rw [Call.indices]
    exact freeIndices_inRange h.rep h.coalesced hb hx hsize
  | write w v => simp [Call.indices]

/-- A pool is put into a list exactly when it is smaller than the largest one that is accepted, and
in a run on smaller pools whose calls fit every list that is indexed exists. -/
theorem run_indices_inRange (a : Allocator) (calls : List Call) :
    (∀ mem bytes, Accepted mem bytes → ((∀ k ∈ addPoolIndices mem bytes a, InRange k) ↔
      (poolOf mem bytes).payload < blockSizeMax)) ∧
    (Room a → Regular CallFits (start a) calls → ∀ s c, (start a).run calls = some s → s.Legal c →
      ∀ k ∈ c.indices s.alloc, InRange k) := by
  refine ⟨fun mem bytes haccepted => ?_, fun hroom regular s c hrun legal => ?_⟩
  · rw [addPoolIndices_inRange_iff]
    have hmax := haccepted.2.2
    refine ⟨fun hne => ?_, fun hlt heq => hlt.ne heq.2⟩
    exact lt_of_le_of_ne hmax fun heq => hne ⟨haccepted, heq⟩
  · have hsound : s.Sound := Sound.run (fun _ _ fits => fits) hroom regular hrun
    obtain ⟨L, h⟩ := hsound
    exact h.indices_inRange legal

theorem run_indices_inRange_malloc :
    (∀ k ∈ addPoolIndices 16384 1024 zeroed, InRange k) ∧
      ∀ k ∈ (Call.request (.malloc 100)).indices opened.alloc, InRange k := by
  have hregular : Regular CallFits (start zeroed) [.addPool 16384 1024] :=
    regular_cons.mpr ⟨⟨given_zeroed, trivial⟩, trivial⟩
  refine ⟨((run_indices_inRange zeroed []).1 16384 1024 (by decide)).mpr (by decide), ?_⟩
  exact (run_indices_inRange zeroed _).2 room_zeroed hregular opened _ rfl (by decide : 100 < 2 ^ 64)

/-- A pool of the largest size that is accepted. -/
theorem exists_not_inRange :
    ∃ mem bytes a, Accepted mem bytes ∧ ¬ ∀ k ∈ addPoolIndices mem bytes a, InRange k := by
  have haccepted : Accepted 16384 (2 ^ 30 + 16) := by decide
  refine ⟨16384, 2 ^ 30 + 16, zeroed, haccepted, ?_⟩
  rw [addPoolIndices_inRange_iff]
  exact fun hne => hne ⟨haccepted, by decide⟩

end Client

end Htfh
