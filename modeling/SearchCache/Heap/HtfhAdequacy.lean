import SearchCache.Heap.PhysicalBlocks

/-! What the callers of `htfh_malloc` and `htfh_calloc` are given: memory of the size they asked for,
in a block of its own. -/

namespace Htfh

/-- No list from a class on is marked as not empty. -/
def NothingFrom (k : Nat × Nat) (c : Controller) : Prop :=
  c.slBitmap k.1 &&& largestBitClass k.2 = 0 ∧ c.flBitmap &&& largestBitClass (k.1 + 1) = 0

section Search

variable {a : Allocator} {s : Nat}

theorem controllerBlockFindFree_of_nothing (h : NothingFrom (mappingSearch s) a.controller) :
    (controllerBlockFindFree s a).1 = none := by
  have hsearch : controllerSearchSuitableBlock (mappingSearch s).1 (mappingSearch s).2 a =
      (none, setAllocErrno .heapFull a) := by
    simp only [controllerSearchSuitableBlock, h.1, h.2, if_true]
  unfold controllerBlockFindFree
  split
  · rfl
  dsimp only
  split
  · rfl
  · rw [hsearch]

theorem htfhMalloc_of_nothing (h : NothingFrom (mappingSearch (adjustedSize s)) a.controller) :
    (htfhMalloc s a).1 = none := by
  have hfind : (controllerBlockFindFree (adjustedSize s) (htfhLockLock a)).1 = none :=
    controllerBlockFindFree_of_nothing h
  rw [htfhMalloc, adjustRequestSize_alignSize]
  rcases hrun : controllerBlockFindFree (adjustedSize s) (htfhLockLock a) with ⟨o, a'⟩
  obtain rfl : o = none := by rw [← hfind, hrun]
  simp only [hrun]

end Search

section Bits

/-- A mask from a bit on takes the bits from there on only. -/
theorem lt_of_and_largestBitClass {v : BitVec 32} {i j : Nat} (h : v &&& largestBitClass i = 0)
    (hj : v.getLsbD j = true) : j < i := by
  by_contra hle
  have hlt := lt_of_getLsbD hj
  have hbit : (v &&& largestBitClass i).getLsbD j = true := by
    rw [BitVec.getLsbD_and, hj, largestBitClass, BitVec.getLsbD_shiftLeft, BitVec.getLsbD_not,
      BitVec.getLsbD_zero]
    simp
    omega
  rw [h] at hbit
  simp at hbit

theorem adjustedSize_of_lt {s : Nat} (hlow : 2 ^ 64 - 4 < s) (hs : s < 2 ^ 64) :
    adjustedSize s = 24 := by
  have hround : (s + 3) % 2 ^ 64 / 4 * 4 = 0 := by omega
  rw [adjustedSize, if_neg (by omega), hround]
  rfl

/-- The classes of the smallest blocks come first. -/
theorem mappingInsert_ge {s fl sl : Nat} (hs : 24 ≤ s) (hlt : s < 2 ^ 30)
    (h : mappingInsert s = (fl, sl)) : 0 < fl ∨ 6 ≤ sl := by
  unfold mappingInsert at h
  split at h
  · obtain ⟨rfl, rfl⟩ := Prod.mk.inj h
    refine .inr ?_
    simp only [smallBlockSize, slIndexCount]
    omega
  · rename_i hlarge
    simp only [smallBlockSize] at hlarge
    have hpos : s ≠ 0 := by omega
    have hlow : 7 ≤ s.log2 := (Nat.le_log2 hpos).mpr (by omega)
    have hfls : (htfhFlsSizet s).toNat = s.log2 := by
      rw [htfhFlsSizet_eq hpos (by omega)]
      rfl
    have hfl := congrArg Prod.fst h
    dsimp only [flIndexShift] at hfl
    rw [hfls] at hfl
    exact .inl (by omega)

/-- With nothing from the smallest class on the lists are all empty. -/
theorem flBitmap_eq_zero {pools : List Pool} {L : Layout} {a : Allocator}
    (h : Rep pools L L.classOf a) (hnothing : NothingFrom (0, 6) a.controller) :
    a.controller.flBitmap = 0 := by
  refine BitVec.eq_of_getLsbD_eq fun fl _ => ?_
  rw [BitVec.ofNat_eq_ofNat, BitVec.getLsbD_zero, Bool.eq_false_iff]
  intro hfl
  have hfl0 : fl = 0 := by
    have := lt_of_and_largestBitClass hnothing.2 hfl
    dsimp only at this
    omega
  subst hfl0
  have hne := (h.index.flBit 0).mp hfl
  obtain ⟨b, hb⟩ := (h.index.slBit 0 _).mp (getLsbD_htfhFfs hne)
  have hsl := lt_of_and_largestBitClass hnothing.1 (getLsbD_htfhFfs hne)
  obtain ⟨x, hx, hfree, hclass⟩ := h.listed b _ hb
  have hsize := (h.tiling.size_ge hx (h.tiling.size_ne_zero hx hfree)).2
  have hlt := (h.tiling.bounds hx).2.2.2
  have := mappingInsert_ge hsize hlt hclass
  dsimp only at hsl
  omega

end Bits

namespace Request

variable {pools : List Pool} {L : Layout} {a : Allocator} {r : Request}

/-- A request that is given as many bytes as it asks for, or nothing: the code computes with the
size itself and rounds it up without wrapping, or no block is large enough for what it computes. -/
def Adequate (a : Allocator) (r : Request) : Prop :=
  r.bytes ≤ 2 ^ 64 - 4 ∨ adjustedSize r.computed = 0 ∨
    NothingFrom (mappingSearch (adjustedSize r.computed)) a.controller

theorem Adequate.fits (hadequate : r.Adequate a) (h : Rep pools L L.classOf a) : r.Fits a := by
  cases r with
  | malloc size => exact trivial
  | memalign align size => exact trivial
  | calloc count bytes =>
    have hlt : callocBytes count bytes < 2 ^ 64 := Nat.mod_lt _ (by decide)
    by_cases hle : callocBytes count bytes ≤ 2 ^ 64 - 4
    · exact .inl hle
    have hsize : adjustedSize (callocBytes count bytes) = 24 := adjustedSize_of_lt (by omega) hlt
    rcases hadequate with hbytes | hzero | hnothing
    · exact (hle ((Nat.mod_le _ _).trans hbytes)).elim
    · have hzero : adjustedSize (callocBytes count bytes) = 0 := hzero
      omega
    · refine .inr (flBitmap_eq_zero h ?_)
      have hnothing : NothingFrom (mappingSearch (adjustedSize (callocBytes count bytes)))
        a.controller := hnothing
      rwa [hsize, show mappingSearch 24 = (0, 6) by decide] at hnothing

/-- An adequate request that returns a block returns one that is large enough. -/
theorem Adequate.bytes_le (hadequate : r.Adequate a) (legal : r.Legal) (halign : r.isMemalign = false) {p t : Nat}
    (hrun : (r.run a).1 = some p) (hne : adjustedSize r.computed ≠ 0)
    (hle : adjustedSize r.computed ≤ t) : r.bytes ≤ t := by
  rcases hadequate with hbytes | hzero | hnothing
  · have hcomputed : r.computed = r.bytes := Nat.mod_eq_of_lt (by omega)
    rw [hcomputed] at hne hle
    exact (le_adjustedSize hbytes hne).trans hle
  · exact (hne hzero).elim
  · have hnone : ∀ n, NothingFrom (mappingSearch (adjustedSize n)) a.controller →
        (htfhMalloc n a).1 = none := fun n => htfhMalloc_of_nothing
    cases r with
    | malloc size =>
      rw [show computed (malloc size) = size from Nat.mod_eq_of_lt legal] at hnothing
      rw [run, hnone size hnothing] at hrun
      simp at hrun
    | memalign align size => simp [isMemalign] at halign
    | calloc count bytes =>
      have hmalloc := hnone (callocBytes count bytes) hnothing
      rcases heq : htfhMalloc (callocBytes count bytes) a with ⟨o, a'⟩
      obtain rfl : o = none := by rw [← hmalloc, heq]
      rw [run, htfhCalloc, heq] at hrun
      simp at hrun

end Request

namespace Client

variable {s : Client} {L : Layout} {a : Allocator} {calls : List Call}

/-- The calls of `htfh_malloc` and `htfh_calloc` are adequate, and there are no other requests. -/
def CallAdequate (s : Client) : Call → Prop
  | .request r => r.isMemalign = false ∧ r.Adequate s.alloc
  | _ => True

/-- The blocks of the live pointers have the sizes that were asked for. -/
structure Large (s : Client) (L : Layout) : Prop where
  holds : s.Holds L
  nodup : (s.live.map Prod.fst).Nodup
  bytes_le : ∀ b n t, (b + 16, n) ∈ s.live → L.used b = some t → n ≤ t

theorem Large.step (h : s.Large L) {c : Call} (legal : s.Legal c) (adequate : s.CallAdequate c) :
    ∃ L', (s.step c).Large L' := by
  have fits : s.CallFits c := by
    cases c with
    | request r => exact adequate.2.fits h.holds.rep
    | _ => exact trivial
  obtain ⟨L', h', heffect⟩ := h.holds.step legal fits
  have hlive : ∀ b n, (b + 16, n) ∈ s.live → ∃ t, L.used b = some t ∧ t ≠ 0 := by
    intro b n hn
    obtain ⟨c, t, hused, ht, heq⟩ := (h.holds.live (b + 16)).mp ⟨n, hn⟩
    obtain rfl : b = c := by omega
    exact ⟨t, hused, ht⟩
  refine ⟨L', ?_⟩
  cases heffect with
  | none _ heq => exact ⟨h', heq ▸ h.nodup, by rw [heq]; exact h.bytes_le⟩
  | @addPool mem bytes _ hP hnew _ heq =>
    refine ⟨h', heq ▸ h.nodup, fun b n t hn hused => ?_⟩
    rw [heq] at hn
    obtain ⟨u, hu, hune⟩ := hlive b n hn
    rw [used_addPool h.holds.rep.tiling hP hnew] at hused
    by_cases hb : b = (poolOf mem bytes).last
    · obtain ⟨x, hx, -, -⟩ := Layout.used_eq_some.mp hu
      have := h.holds.rep.tiling.apart_pool hnew hx
      have := hP.last_eq
      omega
    · rw [Function.update_of_ne hb] at hused
      exact h.bytes_le b n t hn hused
  | @request r b t _ _ hrun _ heq hfresh ht hused _ hsize =>
    have hnew : ∀ n, (b + 16, n) ∉ s.live := by
      intro n hn
      obtain ⟨u, hu, -⟩ := hlive b n hn
      simp [hfresh] at hu
    refine ⟨h', ?_, fun c n u hn hc => ?_⟩
    · rw [heq, List.map_cons, List.nodup_cons]
      refine ⟨fun hmem => ?_, h.nodup⟩
      obtain ⟨⟨p, n⟩, hn, hp⟩ := List.mem_map.mp hmem
      obtain rfl : p = b + 16 := hp
      exact hnew n hn
    · rw [heq] at hn
      rw [hused] at hc
      rcases List.mem_cons.mp hn with hpair | hn
      · obtain ⟨hcb, rfl⟩ := Prod.mk.inj hpair
        obtain rfl : c = b := by omega
        rw [Function.update_self] at hc
        obtain rfl := Option.some.inj hc
        obtain ⟨hne, hle⟩ := hsize adequate.1
        exact adequate.2.bytes_le legal adequate.1 hrun hne hle
      · have hcb : c ≠ b := fun hcb => hnew n (hcb ▸ hn)
        rw [Function.update_of_ne hcb] at hc
        exact h.bytes_le c n u hn hc
  | @free b _ _ hused _ =>
    have heq : (s.step (.free (b + 16))).live = s.live.filter fun e => e.1 ≠ b + 16 := by rw [Client.step]
    refine ⟨h', ?_, fun c n u hn hc => ?_⟩
    · rw [heq]
      exact h.nodup.sublist (List.filter_sublist.map _)
    · rw [heq, List.mem_filter] at hn
      have hcb : c ≠ b := by
        rintro rfl
        simp at hn
      rw [hused, Function.update_of_ne hcb] at hc
      exact h.bytes_le c n u hn.1 hc

theorem large_start (hroom : Room a) : (start a).Large fun _ => none :=
  ⟨holds_start hroom, List.nodup_nil, by simp [start]⟩

/-- The bytes that the callers asked for lie in the blocks that they were given, off one another and
off the headers: the size words, and with them the links of the free blocks. -/
structure Disjoint (s : Client) : Prop where
  inside : ∀ p n, (p, n) ∈ s.live → ∃ b, PhysicalBlock s.pools s.alloc b ∧
    blockIsFree s.alloc.mem b = false ∧ p = blockToPtr b ∧
    p + n ≤ blockToPtr b + blockSize s.alloc.mem b ∧
    ∃ P ∈ s.pools, P.mem ≤ p ∧ p + n ≤ P.last + blockHeaderOverhead
  apart : s.live.Pairwise fun e e' => e.1 + e.2 ≤ e'.1 ∨ e'.1 + e'.2 ≤ e.1
  header : ∀ p n c, (p, n) ∈ s.live → PhysicalBlock s.pools s.alloc c →
    p + n ≤ c + blockHeaderOverhead ∨
      c + (if blockIsFree s.alloc.mem c then sizeofBlockHeader else blockStartOffset) ≤ p

theorem Large.exists_block (h : s.Large L) {p n : Nat} (hp : (p, n) ∈ s.live) :
    ∃ b x, p = b + 16 ∧ L b = some x ∧ x.free = false ∧ x.size ≠ 0 ∧ n ≤ x.size := by
  obtain ⟨b, x, rfl, hb, hx, hsize, -⟩ := h.holds.exists_used hp
  exact ⟨b, x, rfl, hb, hx, hsize, h.bytes_le b n _ hp (Layout.used_eq_some.mpr ⟨x, hb, hx, rfl⟩)⟩

theorem Large.disjoint (h : s.Large L) : s.Disjoint where
  inside p n hp := by
    obtain ⟨b, x, rfl, hb, hx, hsize, hle⟩ := h.exists_block hp
    obtain ⟨P, hP, hfirst, -, hend⟩ := h.holds.rep.tiling.within b x hb
    have hlow := (h.holds.rep.tiling.fits P hP).low
    refine ⟨b, (physicalBlock_iff h.holds.rep).mpr ⟨x, hb⟩, ?_, ?_, ?_, P, hP, ?_, ?_⟩
    · rw [h.holds.rep.blockIsFree_eq hb (by simp), hx]
    · rw [h.holds.rep.blockToPtr_eq hb hsize]
    · rw [h.holds.rep.blockToPtr_eq hb hsize, h.holds.rep.blockSize_eq hb (by simp)]
      omega
    · simp only [Pool.first] at hfirst
      omega
    · simp only [blockHeaderOverhead]
      omega
  apart := by
    refine (List.pairwise_map.mp h.nodup).imp_of_mem fun {e e'} he he' hne => ?_
    obtain ⟨p, n⟩ := e
    obtain ⟨q, k⟩ := e'
    obtain ⟨b, x, rfl, hb, -, -, hle⟩ := h.exists_block he
    obtain ⟨c, y, rfl, hc, -, -, hle'⟩ := h.exists_block he'
    have hbc : b ≠ c := fun hbc => hne (by rw [hbc])
    have := h.holds.rep.tiling.disjoint hb hc hbc
    dsimp only
    omega
  header p n c hp hphysical := by
    obtain ⟨b, x, rfl, hb, hx, hsize, hle⟩ := h.exists_block hp
    obtain ⟨y, hc⟩ := (physicalBlock_iff h.holds.rep).mp hphysical
    rw [h.holds.rep.blockIsFree_eq hc (by simp)]
    simp only [blockHeaderOverhead, sizeofBlockHeader, blockStartOffset]
    by_cases hbc : b = c
    · subst hbc
      obtain rfl := Option.some.inj (hb.symm.trans hc)
      simp [hx]
    · have hapart := h.holds.rep.tiling.disjoint hb hc hbc
      cases hy : y.free
      · simp
        omega
      · have := h.holds.rep.tiling.size_ge hc (h.holds.rep.tiling.size_ne_zero hc hy)
        simp
        omega

/-- Allocations are large enough and disjoint in every run of adequate requests. -/
theorem run_disjoint (hroom : Room a) (regular : Regular CallAdequate (start a) calls) :
    ∃ s, (start a).run calls = some s ∧ s.Disjoint := by
  obtain ⟨s, hrun⟩ := (start a).run_returns calls
  have preserves : ∀ s c s', (fun s : Client => ∃ L, s.Large L) s → s.Legal c ∧ s.CallAdequate c →
      some (s.step c) = some s' → (fun s : Client => ∃ L, s.Large L) s' := by
    rintro s c s' ⟨L, h⟩ ⟨legal, adequate⟩ hstep
    obtain rfl := Option.some.inj hstep
    exact h.step legal adequate
  obtain ⟨L, h⟩ := Runs.run_preserves preserves ⟨_, large_start hroom⟩ regular hrun
  exact ⟨s, hrun, h.disjoint⟩

theorem run_disjoint_free : ∃ s, (start zeroed).run [.addPool 16384 1024, .request (.calloc 3 5),
    .request (.malloc 100), .free 16392] = some s ∧ s.Disjoint := by
  refine run_disjoint room_zeroed (regular_cons.mpr ⟨⟨given_zeroed, trivial⟩,
    regular_cons.mpr ⟨⟨⟨?_, ?_⟩, rfl, .inl ?_⟩, regular_cons.mpr ⟨⟨?_, rfl, .inl ?_⟩,
      regular_cons.mpr ⟨⟨⟨15, ?_⟩, trivial⟩, trivial⟩⟩⟩⟩)
  · decide
  · decide
  · decide
  · exact (by decide : 100 < 2 ^ 64)
  · decide
  · decide +kernel

/-- The state after a request for as many bytes as the address space has, but one. -/
def undersized : Client :=
  ((start zeroed).step (.addPool 16384 1024)).step (.request (.malloc (2 ^ 64 - 1)))

/-- It is given a block of 24 bytes. -/
theorem run_not_disjoint : Room zeroed ∧
    Regular (fun _ _ => True) (start zeroed)
      [.addPool 16384 1024, .request (.malloc (2 ^ 64 - 1))] ∧
    ¬∃ s, (start zeroed).run [.addPool 16384 1024, .request (.malloc (2 ^ 64 - 1))] = some s ∧
      s.Disjoint := by
  refine ⟨room_zeroed, regular_cons.mpr ⟨⟨given_zeroed, trivial⟩, regular_cons.mpr
    ⟨⟨(by decide : 2 ^ 64 - 1 < 2 ^ 64), trivial⟩, trivial⟩⟩, ?_⟩
  rintro ⟨s, hrun, hdisjoint⟩
  obtain rfl : undersized = s := Option.some.inj hrun
  have hlive : (16392, 2 ^ 64 - 1) ∈ undersized.live := by decide +kernel
  have hpools : undersized.pools = [⟨16384, 1008⟩] := by decide +kernel
  obtain ⟨b, -, -, -, -, P, hP, -, hend⟩ := hdisjoint.inside _ _ hlive
  rw [hpools, List.mem_singleton] at hP
  subst hP
  exact absurd hend (by decide)

end Client

end Htfh
