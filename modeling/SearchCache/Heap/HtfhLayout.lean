import SearchCache.Heap.HtfhContents
import SearchCache.Heap.HtfhSearch
import SearchCache.Heap.HtfhUndo

/-! What the live blocks determine: the blocks of the pools, the free lists and the bitmaps, and which
requests are refused, whatever the calls were that led there. -/

namespace Htfh

open Memory Buffers

section Pools

variable {pools pools' : List Pool} {L : Layout} {a : Allocator}

/-- The order of the pools does not matter. -/
theorem Tiling.congr (h : Tiling pools L) (hmem : ∀ P, P ∈ pools ↔ P ∈ pools') :
    Tiling pools' L where
  fits P hP := h.fits P ((hmem P).mpr hP)
  separate P hP Q hQ := h.separate P ((hmem P).mpr hP) Q ((hmem Q).mpr hQ)
  sized := h.sized
  apart := h.apart
  next := h.next
  within b x hb := by
    obtain ⟨P, hP, hin⟩ := h.within b x hb
    exact ⟨P, (hmem P).mp hP, hin⟩
  first P hP := h.first P ((hmem P).mpr hP)
  last P hP := h.last P ((hmem P).mpr hP)

theorem Rep.congr_pools (h : Rep pools L L.classOf a) (hmem : ∀ P, P ∈ pools ↔ P ∈ pools') :
    Rep pools' L L.classOf a where
  tiling := h.tiling.congr hmem
  header := h.header
  foot := h.foot
  listed := h.listed
  index := h.index
  null_pos := h.null_pos
  null_apart P hP := h.null_apart P ((hmem P).mpr hP)

end Pools

namespace Client

variable {s s' : Client} {L L' : Layout} {b t : Nat} {a a' : Allocator}
  {actions actions' : List Action}

/-- The used blocks of no size are the sentinels. -/
theorem Holds.sentinel_iff (h : s.Holds L) : L.used b = some 0 ↔ ∃ P ∈ s.pools, b = P.last := by
  rw [Layout.used_eq_some]
  constructor
  · rintro ⟨x, hb, -, hsize⟩
    obtain ⟨P, hP, -, -, ⟨hne, -⟩ | ⟨-, hlast⟩⟩ := h.rep.tiling.within b x hb
    · exact (hne hsize).elim
    · exact ⟨P, hP, hlast⟩
  · rintro ⟨P, hP, rfl⟩
    obtain ⟨x, hx, hsize⟩ := h.rep.tiling.last P hP
    rcases h.rep.tiling.sized _ x hx with ⟨-, hfree⟩ | ⟨-, hlarge⟩
    · exact ⟨x, hx, hfree, hsize⟩
    · omega

/-- The other used blocks are those of the live pointers. -/
theorem Holds.used_iff (h : s.Holds L) (ht : t ≠ 0) :
    L.used b = some t ↔ (∃ n, (b + 16, n) ∈ s.live) ∧ roomOf s.alloc (b + 16) = t := by
  rw [h.live]
  constructor
  · intro hb
    exact ⟨⟨b, t, hb, ht, rfl⟩, h.roomOf_eq hb⟩
  · rintro ⟨⟨c, u, hc, -, heq⟩, hroom⟩
    obtain rfl : b = c := by omega
    rw [h.roomOf_eq hc] at hroom
    rw [hc, hroom]

/-- The same pools, in any order. -/
def SamePools (s s' : Client) : Prop := ∀ P, P ∈ s.pools ↔ P ∈ s'.pools

/-- The same live pointers, to blocks of the same sizes. -/
def SameBlocks (s s' : Client) : Prop :=
  (∀ p, (∃ n, (p, n) ∈ s.live) ↔ ∃ n, (p, n) ∈ s'.live) ∧
    ∀ p n, (p, n) ∈ s.live → roomOf s.alloc p = roomOf s'.alloc p

theorem Holds.used_eq (h : s.Holds L) (h' : s'.Holds L') (hpools : SamePools s s')
    (hblocks : SameBlocks s s') : L.used = L'.used := by
  refine funext fun b => Option.ext fun t => ?_
  by_cases ht : t = 0
  · subst ht
    rw [h.sentinel_iff, h'.sentinel_iff]
    exact exists_congr fun P => and_congr_left' (hpools P)
  · rw [h.used_iff ht, h'.used_iff ht, ← hblocks.1 (b + 16)]
    refine and_congr_right fun hlive => ?_
    obtain ⟨n, hn⟩ := hlive
    rw [hblocks.2 _ n hn]

theorem Holds.layout_eq (h : s.Holds L) (h' : s'.Holds L') (hpools : SamePools s s')
    (hblocks : SameBlocks s s') : L = L' :=
  (h.rep.tiling.congr hpools).unique h'.rep.tiling h.coalesced h'.coalesced
    (h.used_eq h' hpools hblocks)

/-- The second of two blocks. -/
def twoBlocks : List Action :=
  [.call (.addPool 16384 1024), .call (.request (.malloc 100)), .call (.request (.malloc 50)),
    .call (.free 16392)]

/-- The same after a third one, which is freed first. -/
def threeBlocks : List Action :=
  [.call (.addPool 16384 1024), .call (.request (.malloc 100)), .call (.request (.malloc 50)),
    .call (.request (.malloc 20)), .call (.free 16560), .call (.free 16392)]

theorem Holds.used_freed (h : s.Holds L) (hlive : s.live = []) (hb : L.used b = some t) :
    ∃ P ∈ s.pools, b = P.last := by
  have ht : t = 0 := by
    by_contra ht
    obtain ⟨⟨n, hn⟩, -⟩ := (h.used_iff ht).mp hb
    simp [hlive] at hn
  exact h.sentinel_iff.mp (ht ▸ hb)

/-- The first block of a pool is free and reaches up to the sentinel. -/
theorem Holds.first_freed (h : s.Holds L) (hlive : s.live = []) {P : Pool} (hP : P ∈ s.pools) :
    ∃ x, L P.first = some x ∧ x.free = true ∧ x.size = P.payload := by
  have ht := h.rep.tiling
  have hlast := (ht.fits P hP).last_eq
  obtain ⟨x, hx, -⟩ := ht.first P hP
  obtain ⟨z, hz, -⟩ := ht.last P hP
  have hsize := ht.size_ne_zero_of_lt hP hx (Nat.le_refl _) (by omega)
  have hfree : x.free = true := by
    by_contra hused
    rw [Bool.not_eq_true] at hused
    obtain ⟨Q, hQ, heq⟩ := h.used_freed hlive (Layout.used_eq_some.mpr ⟨x, hx, hused, rfl⟩)
    obtain ⟨w, hw, hzero⟩ := ht.last Q hQ
    rw [← heq, hx, Option.some_inj] at hw
    exact hsize (hw ▸ hzero)
  refine ⟨x, hx, hfree, ?_⟩
  obtain ⟨y, hy, hyused⟩ := next_used ht h.coalesced hx hfree
  obtain ⟨Q, hQ, heq⟩ := h.used_freed hlive (Layout.used_eq_some.mpr ⟨y, hy, hyused, rfl⟩)
  obtain ⟨w, hw, hzero⟩ := ht.last Q hQ
  rw [← heq, hy, Option.some_inj] at hw
  have hle := ht.apart P.first P.last x z hx hz (by omega)
  by_contra hne
  exact ht.size_ne_zero_of_lt hP hy (by omega) (by omega) (hw ▸ hzero)

/-- There is no other free block. -/
theorem Holds.free_freed (h : s.Holds L) (hlive : s.live = []) {x : Block} (hb : L b = some x)
    (hx : x.free = true) : ∃ P ∈ s.pools, b = P.first := by
  have ht := h.rep.tiling
  rcases ht.exists_prev hb with hfirst | ⟨c, y, hc, hsize, rfl⟩
  · exact hfirst
  · cases hy : y.free with
    | true => exact (h.coalesced c y x hc hb hy hx).elim
    | false =>
      obtain ⟨P, hP, rfl⟩ := h.used_freed hlive (Layout.used_eq_some.mpr ⟨y, hc, hy, rfl⟩)
      obtain ⟨w, hw, hzero⟩ := ht.last P hP
      rw [hc, Option.some_inj] at hw
      exact (hsize (hw ▸ hzero)).elim

/-- Both blocks are freed, the first one first. -/
def freedBoth : List Action :=
  [.call (.addPool 16384 1024), .call (.request (.malloc 100)), .call (.request (.malloc 50)),
    .call (.free 16392), .call (.free 16500)]

end Client

end Htfh
