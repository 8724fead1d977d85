import SearchCache.Heap.HtfhUndo

/-! Freeing a block twice.  A freed block may become a part of a free block before it, and the
second `htfh_free` is rejected while the header of the block lies where nothing was stored to. -/

namespace Htfh

open Memory

section Spared

/-- The payload of `u` bytes at `q` lies behind the one of `t` bytes at `p`, or so far before it
that neither the header nor the links of what follows are stored to the header of `p`. -/
def Spared (p t q u : Nat) : Prop := p + t ≤ q ∨ q + u + 8 = p ∨ q + u + 32 ≤ p

instance (p t q u : Nat) : Decidable (Spared p t q u) := inferInstanceAs (Decidable (_ ∨ _))

variable {pools : List Pool} {ok : Nat → Prop} {L L' : Layout} {a a' : Allocator} {b c t u : Nat}

theorem Swallowed.takenFrom (h : Swallowed L b t) (hsize : 24 ≤ t) (ht : Tiling pools L)
    (htaken : TakenFrom L c u L') (hspared : Spared (b + 16) t (c + 16) u) : Swallowed L' b t := by
  obtain ⟨x, L1, x1, s, hc, hfree, htrimmed, rfl, rfl⟩ := htaken
  obtain ⟨f, z, hf, hzfree, hfb, hle⟩ := h
  unfold Spared at hspared
  -- it is enough to find the free block before the found one is marked
  suffices hpart : ∃ y f z, L1 c = some y ∧ L1 f = some z ∧ f ≠ c ∧ z.free = true ∧
      (f = b ∨ f + 24 ≤ b) ∧ b + t ≤ f + z.size by
    obtain ⟨y, f, z, hy, hf, hfc, hzfree, hfb, hle⟩ := hpart
    obtain ⟨z', hz', hz'size, hz'free, -⟩ := exists_mark hy hf false
    refine ⟨f, z', hz', ?_, hfb, by omega⟩
    rw [hz'free, if_neg hfc, hzfree]
  by_cases hfc : f = c
  · subst hfc
    obtain rfl := Option.some.inj (hc.symm.trans hf)
    rcases htrimmed with ⟨hs, rfl, rfl⟩ | ⟨hs, rfl, rfl⟩
    · dsimp only at hspared
      refine ⟨_, _, _, split_self hc, split_rest hc, by omega, rfl, by omega, ?_⟩
      dsimp only
      omega
    · omega
  · have hapart := ht.disjoint hf hc hfc
    rcases htrimmed with ⟨hs, rfl, rfl⟩ | ⟨hs, rfl, rfl⟩
    · refine ⟨_, f, z, split_self hc, ?_, hfc, hzfree, hfb, hle⟩
      rw [split_of_ne hc hfc (by omega), hf]
    · exact ⟨_, f, z, hc, hf, hfc, hzfree, hfb, hle⟩

/-- A block that is taken elsewhere leaves what is remembered. -/
theorem Remembers.allocated (h : Remembers L a b t) (ht : Tiling pools L)
    (halloc : Allocated pools ok L L' c u a a') (htaken : TakenFrom L c u L')
    (hspared : Spared (b + 16) t (c + 16) u) : Remembers L' a' b t :=
  h.next halloc.rep (by simp) (h.swallowed.takenFrom h.size_ge ht htaken hspared) halloc.stays

end Spared

theorem sameHeap_unlock {a b : Allocator} (hmutex : b.mutex = a.mutex + 1) (hmem : b.mem = a.mem)
    (hcontroller : b.controller = a.controller) : SameHeap a (htfhLockUnlock b).2 := by
  rw [htfhLockUnlock_eq hmutex]
  exact ⟨hmem, hcontroller, rfl⟩

theorem htfhFree_null (a : Allocator) : SameHeap a (htfhFree 0 a).2 := by
  rw [htfhFree, if_pos rfl]
  exact sameHeap_unlock rfl rfl rfl

/-- A block whose header says that it is free is rejected. -/
theorem htfhFree_rejected {a : Allocator} {ptr : Nat} (hptr : ptr ≠ 0)
    (hfree : blockIsFree a.mem (blockFromPtr ptr) = true) :
    ∃ a', htfhFree ptr a = (-1, a') ∧ SameHeap a a' := by
  have hrejects : ∀ err, SameHeap a (htfhLockUnlock (setAllocErrno err (htfhLockLock a))).2 :=
    fun err => sameHeap_unlock rfl rfl rfl
  have hflag : blockIsFree (htfhLockLock a).mem (blockFromPtr ptr) = true := hfree
  simp only [htfhFree, hptr, hflag, if_true, if_false]
  by_cases hblock : blockFromPtr ptr = 0
  · rw [if_pos hblock]
    exact ⟨_, rfl, hrejects _⟩
  · rw [if_neg hblock]
    exact ⟨_, rfl, hrejects _⟩

namespace Client

variable {s s' : Client} {L : Layout} {p t : Nat}

/-- A call of a run without pools and aligned requests whose payloads are `apart` from the freed
one: what is freed is live, null or rejected. -/
def Leaves (apart : Nat → Nat → Prop) (s : Client) : Call → Prop
  | .addPool _ _ => False
  | .request r => r.isMemalign = false ∧ r.Legal ∧
      ∀ q a, r.run s.alloc = (some q, a) → apart q (blockSize a.mem (blockFromPtr q))
  | .free q => (∃ n, (q, n) ∈ s.live) ∨ q = 0 ∨ blockIsFree s.alloc.mem (blockFromPtr q) = true
  | .write w v => s.Legal (.write w v)

/-- A run of such calls from `s`.  No `calloc` is rounded past the last address. -/
def Apart (apart : Nat → Nat → Prop) (s : Client) (calls : List Call) : Prop :=
  Runs.Regular (fun s c => some (s.step c)) (fun s c => s.Leaves apart c ∧ s.CallFits c) s calls

/-- Freeing `p` fails and leaves the heap as it is. -/
def Rejects (s : Client) (p : Nat) : Prop :=
  ∃ a, htfhFree p s.alloc = (-1, a) ∧ SameHeap s.alloc a

/-- The freed payload is no longer live, and the heap remembers it. -/
def Freed (b t : Nat) (s : Client) : Prop := ∃ L, s.Holds L ∧ Remembers L s.alloc b t

/-- A free that changes nothing. -/
theorem Holds.free_none (h : s.Holds L) {q : Nat} (hlive : ¬ ∃ n, (q, n) ∈ s.live)
    (hfree : q = 0 ∨ blockIsFree s.alloc.mem (blockFromPtr q) = true) :
    (s.step (.free q)).Holds L ∧ (s.step (.free q)).alloc.mem = s.alloc.mem := by
  have hsame : SameHeap s.alloc (htfhFree q s.alloc).2 := by
    by_cases hq : q = 0
    · rw [hq]
      exact htfhFree_null s.alloc
    · obtain ⟨a', heq, hsame⟩ := htfhFree_rejected hq (hfree.resolve_left hq)
      rw [heq]
      exact hsame
  have hfilter : s.live.filter (fun e => e.1 ≠ q) = s.live := by
    rw [List.filter_eq_self]
    intro e he
    refine decide_eq_true ?_
    rintro rfl
    exact hlive ⟨e.2, he⟩
  rw [Client.step, hfilter]
  exact ⟨⟨h.rep.congr hsame.mem hsame.controller, h.coalesced, h.live⟩, hsame.mem⟩

theorem Freed.step {b : Nat} (h : s.Freed b t) {c : Call} (leaves : s.Leaves (Spared (b + 16) t) c)
    (callFits : s.CallFits c) :
    (s.step c).Freed b t := by
  obtain ⟨L, h, hr⟩ := h
  cases c with
  | addPool mem bytes => exact leaves.elim
  | request r =>
    obtain ⟨hr', legal, hspared⟩ := leaves
    have hstep : s.step (.request r) = s.returned r.bytes (r.run s.alloc) := rfl
    rw [hstep]
    rcases Request.spec h.rep h.coalesced legal callFits with
      ⟨a', heq, hmem, hcontroller⟩ | ⟨c, u, a', L', heq, halloc, -, htaken⟩
    · rw [heq]
      exact ⟨L, ⟨h.rep.congr hmem hcontroller, h.coalesced, h.live⟩, hr.congr hmem⟩
    · have hused : L'.used c = some u := by rw [halloc.used, Function.update_self]
      obtain ⟨y, hc, -, rfl⟩ := Layout.used_eq_some.mp hused
      have hblock := halloc.rep.blockFromPtr_eq hc
      have hu := hspared (c + 16) a' heq
      rw [hblock, halloc.rep.blockSize_eq hc (by simp)] at hu
      rw [heq]
      exact ⟨L', h.returned halloc r.bytes,
        hr.allocated h.rep.tiling halloc (htaken hr') hu⟩
  | free q =>
    by_cases hlive : ∃ n, (q, n) ∈ s.live
    · obtain ⟨c, u, hc, hu, rfl⟩ := (h.live q).mp hlive
      obtain ⟨L', h', -, -, -, -, hremembers⟩ := h.free hc hu
      exact ⟨L', h', hremembers b t hr⟩
    · obtain ⟨h', hmem⟩ := h.free_none hlive (leaves.resolve_left hlive)
      exact ⟨L, h', hr.congr hmem⟩
  | write w v =>
    obtain ⟨p, n, hp, hle, hlt⟩ := leaves
    obtain ⟨c, x, rfl, hc, hx, hsize, hblock⟩ := h.exists_used hp
    rw [hblock, h.rep.blockSize_eq hc (by simp)] at hlt
    have hout : ∀ u, u < c + 16 ∨ c + 16 + x.size ≤ u →
        (write8 s.alloc.mem w v).byte u = s.alloc.mem.byte u := by
      intro u hu
      simp only [write8]
      rw [if_neg (by omega)]
    have hrep := (RepBut.overwrite (f := fun m => write8 m w v) h.rep hc hx hout).1
    refine ⟨L, ⟨hrep, h.coalesced, h.live⟩, hr.next hrep (by simp) hr.swallowed fun u hu => ?_⟩
    refine hout u ?_
    have := hu.2.off_block h.rep.tiling hc hx
    omega

/-- A pointer that was freed stays rejected in every run that leaves its header alone. -/
theorem run_rejects (sound : s.Sound) {n : Nat} (hp : (p, n) ∈ s.live) {calls : List Call}
    (apart : Apart (Spared p (blockSize s.alloc.mem (blockFromPtr p))) (s.step (.free p)) calls)
    (hrun : (s.step (.free p)).run calls = some s') : s'.Rejects p := by
  obtain ⟨L, h⟩ := sound
  obtain ⟨b, x, rfl, hb, hx, hsize, hblock⟩ := h.exists_used hp
  rw [hblock, h.rep.blockSize_eq hb (by simp)] at apart
  have hfreed : (s.step (.free (b + 16))).Freed b x.size := by
    obtain ⟨L', h', -, -, -, hremembers, -⟩ :=
      h.free (Layout.used_eq_some.mpr ⟨x, hb, hx, rfl⟩) hsize
    exact ⟨L', h', hremembers⟩
  have preserves : ∀ s c s', Freed b x.size s →
      s.Leaves (Spared (b + 16) x.size) c ∧ s.CallFits c → some (Client.step s c) = some s' →
      Freed b x.size s' := by
    intro s c s' hs hc hstep
    obtain rfl := Option.some.inj hstep
    exact hs.step hc.1 hc.2
  obtain ⟨L', h', hr⟩ := Runs.run_preserves preserves hfreed apart hrun
  refine htfhFree_rejected (by omega) ?_
  rw [hblock]
  exact hr.flag

/-- Three blocks, the first of which is free. -/
def gapped : Client :=
  (((opened.step (.request (.malloc 100))).step (.request (.malloc 100))).step
    (.request (.malloc 100))).step (.free 16392)

theorem sound_gapped : gapped.Sound := by
  have hregular : Regular CallFits (start zeroed) [.addPool 16384 1024, .request (.malloc 100),
      .request (.malloc 100), .request (.malloc 100), .free 16392] :=
    regular_cons.mpr ⟨⟨given_zeroed, trivial⟩,
      regular_cons.mpr ⟨⟨(by decide : 100 < 2 ^ 64), trivial⟩,
      regular_cons.mpr ⟨⟨(by decide : 100 < 2 ^ 64), trivial⟩,
      regular_cons.mpr ⟨⟨(by decide : 100 < 2 ^ 64), trivial⟩,
      regular_cons.mpr ⟨⟨⟨100, by decide +kernel⟩, trivial⟩, trivial⟩⟩⟩⟩⟩
  exact Sound.run (fun _ _ fits => fits) room_zeroed hregular rfl

/-- A single request that returns a block apart from the freed one. -/
theorem apart_request {apart : Nat → Nat → Prop} {r : Request} {q : Nat} (hr : r.isMemalign = false)
    (legal : r.Legal) (fits : r.Fits s.alloc) (hq : (r.run s.alloc).1 = some q)
    (h : apart q (blockSize (r.run s.alloc).2.mem (blockFromPtr q))) : Apart apart s [.request r] := by
  refine ⟨⟨⟨hr, legal, fun q' a heq => ?_⟩, fits⟩, fun _ _ => trivial⟩
  rw [heq] at hq h
  obtain rfl := Option.some.inj hq
  exact h

theorem run_rejects_gapped :
    ((gapped.step (.free 16500)).step (.request (.malloc 100))).Rejects 16500 := by
  have hlive : (16500, 100) ∈ gapped.live := by decide +kernel
  refine run_rejects sound_gapped hlive (?_ : Apart _ _ [.request (.malloc 100)]) rfl
  have hlegal : (Request.malloc 100).Legal := (by decide : 100 < 2 ^ 64)
  exact apart_request rfl hlegal trivial (q := 16392) (by decide +kernel) (by decide +kernel)

/-- A payload that ends where the freed one starts leaves a free block with its back link where the
header was. -/
theorem run_not_rejects : gapped.Sound ∧ (16500, 100) ∈ gapped.live ∧
    ∃ calls s, Apart (fun q u => 16500 + blockSize gapped.alloc.mem 16484 ≤ q ∨ q + u ≤ 16500)
        (gapped.step (.free 16500)) calls ∧
      (gapped.step (.free 16500)).run calls = some s ∧ ¬ s.Rejects 16500 := by
  refine ⟨sound_gapped, by decide +kernel, [.request (.malloc 108)], _, ?_, rfl, ?_⟩
  · have hlegal : (Request.malloc 108).Legal := (by decide : 108 < 2 ^ 64)
    exact apart_request rfl hlegal trivial (q := 16392) (by decide +kernel) (by decide +kernel)
  · rintro ⟨a, heq, -⟩
    have hzero : (htfhFree 16500 ((gapped.step (.free 16500)).step
        (.request (.malloc 108))).alloc).1 = 0 := by decide +kernel
    rw [heq] at hzero
    simp at hzero

end Client

end Htfh
