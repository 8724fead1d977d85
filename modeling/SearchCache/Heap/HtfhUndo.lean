import SearchCache.Heap.PhysicalBlocks
import Mathlib.Data.List.Perm.Basic

/-! Freeing what a sequence of requests returned, in any order, gives back the layout and the free
lists from before the requests. -/

namespace Htfh

namespace Client

/-- The pointers that a sequence of requests returns, if all are successful. -/
def requestAll (s : Client) : List Request → Option (List Nat × Client)
  | [] => some ([], s)
  | r :: rs =>
    match (r.run s.alloc).1 with
    | none => none
    | some p => ((s.step (.request r)).requestAll rs).map fun (ps, s) => (p :: ps, s)

/-- The results of freeing a sequence of pointers. -/
def freeAll (s : Client) : List Nat → List Int × Client
  | [] => ([], s)
  | p :: ps =>
    let rest := (s.step (.free p)).freeAll ps
    ((htfhFree p s.alloc).1 :: rest.1, rest.2)

theorem requestAll_cons {s : Client} {r : Request} {p : Nat} (h : (r.run s.alloc).1 = some p)
    (rs : List Request) : s.requestAll (r :: rs) =
      ((s.step (.request r)).requestAll rs).map fun (ps, s) => (p :: ps, s) := by
  rw [requestAll, h]

theorem freeAll_cons (s : Client) (p : Nat) (ps : List Nat) : s.freeAll (p :: ps) =
    ((htfhFree p s.alloc).1 :: ((s.step (.free p)).freeAll ps).1,
      ((s.step (.free p)).freeAll ps).2) := rfl

/-- The same blocks, the same free lists up to their order, and the same bitmaps. -/
structure SameLayout (s s' : Client) : Prop where
  pools : s'.pools = s.pools
  physical : ∀ b, PhysicalBlock s'.pools s'.alloc b ↔ PhysicalBlock s.pools s.alloc b
  block : ∀ b, PhysicalBlock s.pools s.alloc b →
    blockSize s'.alloc.mem b = blockSize s.alloc.mem b ∧
      blockIsFree s'.alloc.mem b = blockIsFree s.alloc.mem b
  list : ∀ fl < flIndexCount, ∀ sl < slIndexCount, ∃ l l',
    FreeList s.alloc.mem s.alloc.controller.blockNull (s.alloc.controller.blocks fl sl) l ∧
    FreeList s'.alloc.mem s'.alloc.controller.blockNull (s'.alloc.controller.blocks fl sl) l' ∧
    ∀ b, b ∈ l' ↔ b ∈ l
  slBitmap : ∀ fl < flIndexCount, s'.alloc.controller.slBitmap fl = s.alloc.controller.slBitmap fl
  flBitmap : s'.alloc.controller.flBitmap = s.alloc.controller.flBitmap

/-- A pool that is one free block. -/
def Unused (a : Allocator) (P : Pool) : Prop :=
  PoolTiled a P [P.first] ∧ blockIsFree a.mem P.first = true ∧ blockSize a.mem P.first = P.payload

variable {s s1 : Client} {L L1 : Layout} {a : Allocator} {calls : List Call}

/-- Two allocators that represent one layout. -/
theorem Holds.sameLayout (h : s.Holds L) (h1 : s1.Holds L) (hpools : s1.pools = s.pools) :
    s.SameLayout s1 where
  pools := hpools
  physical b := (physicalBlock_iff h1.rep).trans (physicalBlock_iff h.rep).symm
  block b hb := by
    obtain ⟨x, hx⟩ := (physicalBlock_iff h.rep).mp hb
    rw [h.rep.blockSize_eq hx (by simp), h.rep.blockIsFree_eq hx (by simp),
      h1.rep.blockSize_eq hx (by simp), h1.rep.blockIsFree_eq hx (by simp)]
    exact ⟨rfl, rfl⟩
  list fl _ sl _ := by
    obtain ⟨l, hl, hmem⟩ := h.rep.index.list fl sl
    obtain ⟨l', hl', hmem'⟩ := h1.rep.index.list fl sl
    exact ⟨l, l', hl, hl', fun b => (hmem' b).trans (hmem b).symm⟩
  slBitmap fl _ := by
    refine BitVec.eq_of_getLsbD_eq fun sl _ => ?_
    rw [Bool.eq_iff_iff, h.rep.index.slBit, h1.rep.index.slBit]
  flBitmap := by
    refine BitVec.eq_of_getLsbD_eq fun fl _ => ?_
    have hzero : s1.alloc.controller.slBitmap fl = s.alloc.controller.slBitmap fl := by
      refine BitVec.eq_of_getLsbD_eq fun sl _ => ?_
      rw [Bool.eq_iff_iff, h.rep.index.slBit, h1.rep.index.slBit]
    rw [Bool.eq_iff_iff, h.rep.index.flBit, h1.rep.index.flBit, hzero]

/-- `s1` differs from `s` by the live pointers `out`. -/
structure Ahead (s : Client) (L : Layout) (s1 : Client) (L1 : Layout) (out : List Nat) : Prop where
  holds : s1.Holds L1
  pools : s1.pools = s.pools
  nodup : out.Nodup
  old : ∀ b, b + 16 ∉ out → L1.used b = L.used b
  new : ∀ p ∈ out, ∃ b t, p = b + 16 ∧ L.used b = none ∧ L1.used b = some t ∧ t ≠ 0

theorem Ahead.refl (h : s.Holds L) : Ahead s L s L [] :=
  ⟨h, rfl, List.nodup_nil, fun _ _ => rfl, by simp⟩

theorem Ahead.perm {out order : List Nat} (h : Ahead s L s1 L1 out) (hperm : order.Perm out) :
    Ahead s L s1 L1 order :=
  ⟨h.holds, h.pools, hperm.nodup_iff.mpr h.nodup, fun b hb => h.old b (mt hperm.mem_iff.mpr hb),
    fun p hp => h.new p (hperm.mem_iff.mp hp)⟩

/-- A successful request. -/
theorem Ahead.request {out : List Nat} (h : Ahead s L s1 L1 out) {r : Request} (legal : r.Legal)
    (fits : r.Fits s1.alloc) {p : Nat} (hp : (r.run s1.alloc).1 = some p) :
    ∃ L2, Ahead s L (s1.step (.request r)) L2 (p :: out) := by
  obtain ⟨L2, h2, heffect⟩ := h.holds.request legal fits
  cases heffect with
  | none hpools hlive =>
    rcases hrun : r.run s1.alloc with ⟨o, a'⟩
    obtain rfl : o = some p := by rw [← hp, hrun]
    have hstep : (s1.step (.request r)).live = (p, r.bytes) :: s1.live := by
      rw [step, hrun]
      rfl
    rw [hstep] at hlive
    exact absurd (congrArg List.length hlive) (by simp)
  | @request _ b t _ _ hrun hpools hlive hfresh ht hused _ _ =>
    obtain rfl : b + 16 = p := Option.some.inj (hrun.symm.trans hp)
    have hout : b + 16 ∉ out := by
      intro hmem
      obtain ⟨c, t, heq, -, hc, -⟩ := h.new _ hmem
      obtain rfl : b = c := by omega
      simp [hfresh] at hc
    refine ⟨L2, h2, hpools.trans h.pools, List.nodup_cons.mpr ⟨hout, h.nodup⟩, fun c hc => ?_,
      fun q hq => ?_⟩
    · rw [List.mem_cons, not_or] at hc
      rw [hused, Function.update_of_ne (by omega), h.old c hc.2]
    · rcases List.mem_cons.mp hq with rfl | hq
      · exact ⟨b, t, rfl, (h.old b hout).symm.trans hfresh, by rw [hused, Function.update_self], ht⟩
      · obtain ⟨c, u, rfl, hcL, hc, hu⟩ := h.new q hq
        have hcb : c ≠ b := fun hcb => hout (hcb ▸ hq)
        exact ⟨c, u, rfl, hcL, by rw [hused, Function.update_of_ne hcb, hc], hu⟩

theorem Ahead.requestAll {out : List Nat} {rs : List Request} (h : Ahead s L s1 L1 out)
    (regular : Regular CallFits s1 (rs.map .request)) {ptrs : List Nat} {s2 : Client}
    (hrun : s1.requestAll rs = some (ptrs, s2)) :
    ∃ L2 out', Ahead s L s2 L2 out' ∧ out'.Perm (ptrs ++ out) := by
  induction rs generalizing s1 L1 out ptrs with
  | nil =>
    obtain ⟨rfl, rfl⟩ := Prod.mk.inj (Option.some.inj hrun)
    exact ⟨L1, out, h, .refl _⟩
  | cons r rs ih =>
    rw [Client.requestAll] at hrun
    obtain ⟨⟨legal, fits⟩, rest⟩ := regular_cons.mp regular
    split at hrun
    · simp at hrun
    · rename_i p hp
      obtain ⟨⟨ps, s3⟩, hrest, heq⟩ := Option.map_eq_some_iff.mp hrun
      obtain ⟨rfl, rfl⟩ := Prod.mk.inj heq
      obtain ⟨L2, h2⟩ := h.request legal fits hp
      obtain ⟨L3, out', h3, hperm⟩ := ih h2 rest hrest
      exact ⟨L3, out', h3, hperm.trans List.perm_middle⟩

/-- Freeing all new pointers. -/
theorem Ahead.freeAll {order : List Nat} (h : Ahead s L s1 L1 order) :
    (∀ i ∈ (s1.freeAll order).1, i = 0) ∧ ∃ L2, Ahead s L (s1.freeAll order).2 L2 [] := by
  induction order generalizing s1 L1 with
  | nil => exact ⟨by simp [Client.freeAll], L1, h⟩
  | cons p order ih =>
    obtain ⟨b, t, rfl, hL, hb, ht⟩ := h.new p (by simp)
    have hnodup := List.nodup_cons.mp h.nodup
    obtain ⟨L2, h2, hzero, hused, -⟩ := h.holds.free hb ht
    have hahead : Ahead s L (s1.step (.free (b + 16))) L2 order := by
      refine ⟨h2, (step_free_pools s1 (b + 16)).trans h.pools, hnodup.2, fun c hc => ?_, fun q hq => ?_⟩
      · rw [hused]
        by_cases hcb : c = b
        · rw [hcb, Function.update_self, hL]
        · rw [Function.update_of_ne hcb, h.old c]
          simp [hc, hcb]
      · obtain ⟨c, u, rfl, hcL, hc, hu⟩ := h.new q (List.mem_cons_of_mem _ hq)
        have hcb : c ≠ b := fun hcb => hnodup.1 (hcb ▸ hq)
        exact ⟨c, u, rfl, hcL, by rw [hused, Function.update_of_ne hcb, hc], hu⟩
    obtain ⟨hresults, hrest⟩ := ih hahead
    rw [freeAll_cons]
    exact ⟨List.forall_mem_cons.mpr ⟨hzero, hresults⟩, hrest⟩

/-- Without used blocks a pool is one free block. -/
theorem Holds.unused (h : s.Holds L) (hlive : s.live = []) {P : Pool} (hP : P ∈ s.pools) :
    Unused s.alloc P := by
  have hnone : ∀ b x, L b = some x → x.size ≠ 0 → x.free = true := by
    intro b x hb hsize
    cases hfree : x.free
    · obtain ⟨n, hn⟩ := (h.live (b + 16)).mpr
        ⟨b, x.size, Layout.used_eq_some.mpr ⟨x, hb, hfree, rfl⟩, hsize, rfl⟩
      simp [hlive] at hn
    · rfl
  have ht := h.rep.tiling
  have hlast := (ht.fits P hP).last_eq
  obtain ⟨x, hx, -⟩ := ht.first P hP
  obtain ⟨z, hz, hzero⟩ := ht.last P hP
  have hsize := ht.size_ne_zero_of_lt hP hx (Nat.le_refl _) (by omega)
  have hxfree := hnone _ x hx hsize
  obtain ⟨y, hy, hyused⟩ := next_used ht h.coalesced hx hxfree
  have hle := ht.apart P.first P.last x z hx hz (by omega)
  -- the block after the free one is used, hence the sentinel
  have hend : P.first + 8 + x.size = P.last := by
    rcases Nat.eq_or_lt_of_le hle with heq | hlt
    · exact heq
    · have := hnone _ y hy (ht.size_ne_zero_of_lt hP hy (by omega) hlt)
      simp [hyused] at this
  have hchain : ([P.first] ++ [P.last]).IsChain (Neighbours s.alloc) := by
    rw [List.singleton_append, List.isChain_cons]
    refine ⟨fun c hc => ?_, List.isChain_singleton _⟩
    obtain rfl : P.last = c := Option.some.inj hc
    rw [← hend]
    exact neighbours h.rep h.coalesced hx hsize
  obtain ⟨l, hl⟩ := exists_poolTiled h.rep h.coalesced hP
  refine ⟨⟨rfl, hchain, hl.first_prevUsed, hl.last_size, hl.last_used, hl.last_next⟩, ?_, ?_⟩
  · rw [h.rep.blockIsFree_eq hx (by simp), hxfree]
  · rw [h.rep.blockSize_eq hx (by simp)]
    omega

/-- An allocator with one pool. -/
def opened : Client := (start zeroed).step (.addPool 16384 1024)

/-- Two blocks of it in use. -/
def filled : Client :=
  (opened.step (.request (.malloc 100))).step (.request (.memalign 64 100))

end Client
end Htfh
