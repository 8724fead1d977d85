import SearchCache.Heap.PhysicalBlocks

/-! Alignment to eight bytes, which the constants promise for targets of 64 bits.  With sizes rounded
to four bytes it holds as long as blocks are cut down to multiples of eight. -/

namespace Htfh

/-- Every block starts and ends eight bytes before an aligned address. -/
def Layout.Aligned (L : Layout) : Prop := ∀ b x, L b = some x → b % 8 = 0 ∧ x.size % 8 = 0

section Layouts

variable {pools : List Pool} {L L' : Layout} {ok : Nat → Prop}

theorem Layout.Change.aligned (h : Change ok L L') (hok : ∀ n, ok n → n % 8 = 0)
    (haligned : L.Aligned) : L'.Aligned := by
  intro a z hz
  cases h with
  | mark f hb =>
    obtain ⟨w, hw, hsize, -, -⟩ := mark_cases hb hz
    rw [← hsize]
    exact haligned a w hw
  | @split b s x hb hs hn =>
    have hx := haligned b x hb
    have hmod := hok s hn
    rcases split_cases hb hz with ⟨rfl, rfl⟩ | ⟨rfl, rfl⟩ | ⟨-, -, hz⟩
    · exact ⟨hx.1, hmod⟩
    · dsimp only
      omega
    · exact haligned a z hz
  | @absorb b x y hb hn =>
    have hx := haligned b x hb
    have hy := haligned _ y hn
    rcases absorb_cases hb hn hz with ⟨rfl, rfl⟩ | ⟨-, -, hz⟩
    · dsimp only
      omega
    · exact haligned a z hz

theorem Layout.Changes.aligned (h : Changes ok L L') (hok : ∀ n, ok n → n % 8 = 0)
    (haligned : L.Aligned) : L'.Aligned := by
  induction h with
  | refl => exact haligned
  | tail _ hchange ih => exact hchange.aligned hok ih

theorem Layout.Aligned.addPool (haligned : L.Aligned) {P : Pool} (hP : P.Fits)
    (hmem : P.mem % 8 = 0) (hpayload : P.payload % 8 = 0) : (L.addPool P).Aligned := by
  intro a z hz
  have hlow := hP.low
  rcases addPool_cases hz with ⟨rfl, rfl⟩ | ⟨rfl, rfl⟩ | hz
  · exact ⟨by unfold Pool.first; omega, hpayload⟩
  · exact ⟨by unfold Pool.last; omega, rfl⟩
  · exact haligned a z hz

end Layouts

namespace Client

variable {s : Client} {L : Layout} {a : Allocator} {calls : List Call}

/-- The pools are aligned to eight bytes at both ends, and a request whose size is not does not split
the block that it is given. -/
def CallAligned (s : Client) : Call → Prop
  | .addPool mem bytes => mem % 8 = 0 ∧ (poolOf mem bytes).payload % 8 = 0
  | .request r => r.Fits s.alloc ∧ (adjustedSize r.computed % 8 = 0 ∨ ¬r.Splits s.alloc)
  | _ => True

theorem CallAligned.fits {c : Call} (h : s.CallAligned c) : s.CallFits c := by
  cases c with
  | request r => exact h.1
  | _ => exact trivial

theorem Holds.stepAligned (h : s.Holds L) (haligned : L.Aligned) {c : Call} (legal : s.Legal c)
    (ok : s.CallAligned c) : ∃ L', (s.step c).Holds L' ∧ L'.Aligned := by
  obtain ⟨L', h', heffect⟩ := h.step legal ok.fits
  refine ⟨L', h', ?_⟩
  cases heffect with
  | none => exact haligned
  | addPool hP => exact haligned.addPool hP ok.1 ok.2
  | request _ _ _ _ _ _ hchanges =>
    refine hchanges.aligned (fun n hn => ?_) haligned
    rcases hn with ⟨rfl, hsplits⟩ | hgap
    · exact ok.2.resolve_right (not_not_intro hsplits)
    · exact hgap fun c x hx => (haligned c x hx).1
  | free _ hchanges => exact hchanges.aligned (fun _ => False.elim) haligned

/-- The pointers and the sizes of the blocks are multiples of eight. -/
structure Aligned (s : Client) : Prop where
  live : ∀ p n, (p, n) ∈ s.live → p % 8 = 0
  block : ∀ b, PhysicalBlock s.pools s.alloc b → blockSize s.alloc.mem b % 8 = 0

theorem Holds.aligned (h : s.Holds L) (haligned : L.Aligned) : s.Aligned where
  live p n hp := by
    obtain ⟨b, x, rfl, hb, -, -, -⟩ := h.exists_used hp
    have := haligned b x hb
    omega
  block b hphysical := by
    obtain ⟨x, hx⟩ := (physicalBlock_iff h.rep).mp hphysical
    rw [h.rep.blockSize_eq hx (by simp)]
    exact (haligned b x hx).2

/-- Pointers and sizes are aligned in every run whose blocks are cut down to aligned sizes. -/
theorem run_aligned (hroom : Room a) (regular : Regular CallAligned (start a) calls) :
    ∃ s, (start a).run calls = some s ∧ s.Aligned := by
  obtain ⟨s, hrun⟩ := (start a).run_returns calls
  have preserves : ∀ s c s', (fun s : Client => ∃ L, s.Holds L ∧ L.Aligned) s →
      s.Legal c ∧ s.CallAligned c → some (s.step c) = some s' →
      (fun s : Client => ∃ L, s.Holds L ∧ L.Aligned) s' := by
    rintro s c s' ⟨L, h, haligned⟩ ⟨legal, ok⟩ hstep
    obtain rfl := Option.some.inj hstep
    exact h.stepAligned haligned legal ok
  obtain ⟨L, h, haligned⟩ := Runs.run_preserves preserves
    ⟨_, holds_start hroom, fun b x hx => by simp at hx⟩ regular hrun
  exact ⟨s, hrun, h.aligned haligned⟩

theorem run_aligned_free : ∃ s, (start zeroed).run [.addPool 16384 1024, .request (.calloc 4 6),
    .request (.memalign 64 102), .free 16392] = some s ∧ s.Aligned := by
  refine run_aligned room_zeroed (regular_cons.mpr ⟨⟨given_zeroed, ?_⟩,
    regular_cons.mpr ⟨⟨⟨?_, ?_⟩, .inl ?_, .inl ?_⟩, regular_cons.mpr ⟨⟨⟨?_, ?_⟩, trivial, .inl ?_⟩,
      regular_cons.mpr ⟨⟨⟨24, ?_⟩, trivial⟩, trivial⟩⟩⟩⟩)
  · exact ⟨by decide, by decide⟩
  all_goals decide +kernel

/-- A request for 28 bytes is given a block of 28, and everything after it is misaligned. -/
theorem run_not_aligned : Room zeroed ∧ 16384 % 8 = 0 ∧ (poolOf 16384 1024).payload % 8 = 0 ∧
    Regular (fun _ _ => True) (start zeroed)
      [.addPool 16384 1024, .request (.malloc 28), .request (.malloc 28)] ∧
    ¬∃ s, (start zeroed).run
      [.addPool 16384 1024, .request (.malloc 28), .request (.malloc 28)] = some s ∧ s.Aligned := by
  refine ⟨room_zeroed, by decide, by decide, regular_cons.mpr ⟨⟨given_zeroed, trivial⟩,
    regular_cons.mpr ⟨⟨(by decide : 28 < 2 ^ 64), trivial⟩,
      regular_cons.mpr ⟨⟨(by decide : 28 < 2 ^ 64), trivial⟩, trivial⟩⟩⟩, ?_⟩
  rintro ⟨s, hrun, haligned⟩
  obtain rfl : (((start zeroed).step (.addPool 16384 1024)).step (.request (.malloc 28))).step
    (.request (.malloc 28)) = s := Option.some.inj hrun
  have hlive : (16428, 28) ∈ ((((start zeroed).step (.addPool 16384 1024)).step
      (.request (.malloc 28))).step (.request (.malloc 28))).live := by decide +kernel
  exact absurd (haligned.live _ _ hlive) (by decide)

end Client

end Htfh
