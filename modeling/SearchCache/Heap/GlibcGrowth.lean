import SearchCache.Heap.GlibcBlocks

/-! How sizes are rounded, and what moving the break does to the list of chunks. -/

namespace Gca

open Memory Htfh Chunks Linked

variable {l : List Chunk} {top p x : Nat} {fl : List Nat} {a : GlibcAllocator}

theorem gcaRoundUp_eq (x : Nat) {k : Nat} (hk : k < 64) :
    gcaRoundUp x (2 ^ k) = (x + 2 ^ k - 1) % 2 ^ 64 / 2 ^ k * 2 ^ k := by
  have hpow : 2 ^ k < 2 ^ 64 := Nat.pow_lt_pow_right (by omega) hk
  have hpos : 0 < 2 ^ k := Nat.two_pow_pos k
  have hmask : sub64 0 (2 ^ k) = lnot (2 ^ k - 1) := by
    simp only [sub64, lnot]
    omega
  have hsum : sub64 (add64 x (2 ^ k)) 1 = (x + 2 ^ k - 1) % 2 ^ 64 := by
    simp only [sub64, add64]
    omega
  rw [gcaRoundUp, hmask, hsum, and_lnot_two_pow (Nat.mod_lt _ (by omega)) (by omega)]

/-- The size that a request is rounded up to. -/
theorem gcaRoundUp_align (x : Nat) :
    gcaRoundUp x gcaDataAlign = (x + 15) % 2 ^ 64 / 16 * 16 :=
  gcaRoundUp_eq x (k := 4) (by omega)

theorem gcaPageSize_eq (x : Nat) :
    gcaPageSize x = ((x + 16) % 2 ^ 64 + 4095) % 2 ^ 64 / 4096 * 4096 :=
  gcaRoundUp_eq _ (k := 12) (by omega)

/-! ### The break -/

theorem gcaBrk_eq {e : Nat} (hend : add64 a.heap a.heapSize = e) (addr : Nat) :
    gcaBrk addr a = if e < addr then (-1, a) else (0, { a with currentBrk := addr }) := by
  rw [gcaBrk, hend]

/-- Without wrapping, the break moves by `p` bytes, or nothing changes. -/
theorem gcaSbrk_eq {b : Nat} (hbrk : a.currentBrk = b) (hpos : b ≠ 0)
    (hroom : a.heap + a.heapSize < 2 ^ 64) (hwithin : b ≤ a.heap + a.heapSize)
    (hwrap : b + p < 2 ^ 64) :
    gcaSbrk p a = (sbrkFailed, a) ∧ p ≠ 0 ∧ (2 ^ 63 ≤ p ∨ a.heap + a.heapSize < b + p) ∨
      b + p ≤ a.heap + a.heapSize ∧ gcaSbrk p a = (b, { a with currentBrk := b + p }) := by
  have hend : add64 a.heap a.heapSize = a.heap + a.heapSize := by
    simp only [add64]
    omega
  have hsum : add64 b p = b + p := by
    simp only [add64]
    omega
  rw [gcaSbrk, hbrk, if_neg fun hin => hpos hin.1]
  by_cases hzero : p = 0
  · subst hzero
    rw [if_pos rfl, Nat.add_zero, ← hbrk]
    rw [← hbrk] at hwithin
    exact .inr ⟨hwithin, rfl⟩
  rw [if_neg hzero]
  dsimp only
  rw [hsum, gcaBrk_eq hend]
  by_cases hsign : p < 2 ^ 63
  · have hcond : ¬if p < 2 ^ 63 then b + p < b else b < sub64 0 p := by
      rw [if_pos hsign]
      omega
    rw [if_neg hcond]
    by_cases hfull : a.heap + a.heapSize < b + p
    · rw [if_pos hfull]
      exact .inl ⟨rfl, hzero, .inr hfull⟩
    · rw [if_neg hfull]
      exact .inr ⟨by omega, rfl⟩
  · have hcond : if p < 2 ^ 63 then b + p < b else b < sub64 0 p := by
      rw [if_neg hsign]
      simp only [sub64]
      omega
    rw [if_pos hcond]
    exact .inl ⟨rfl, hzero, .inl (by omega)⟩

theorem gcaHandledSbrk_eq {b : Nat} (hbrk : a.currentBrk = b) (hpos : b ≠ 0) (hdvd : 16 ∣ b)
    (hroom : a.heap + a.heapSize < 2 ^ 64) (hwithin : b ≤ a.heap + a.heapSize) (hp : p < 2 ^ 64) :
    gcaHandledSbrk p a = (none, a) ∧ p ≠ 0 ∧ (2 ^ 63 ≤ p ∨ a.heap + a.heapSize < b + p) ∨
      b + p ≤ a.heap + a.heapSize ∧
        gcaHandledSbrk p a = (some (b, b + p), { a with currentBrk := b + p }) := by
  have hold : b ≠ sbrkFailed := by
    simp only [sbrkFailed]
    omega
  rw [gcaHandledSbrk, hbrk]
  by_cases hwrap : add64 b p < b
  · simp only [add64] at hwrap
    refine .inl ⟨if_pos hwrap, ?_, .inr (by omega)⟩
    rintro rfl
    omega
  have hsum : add64 b p = b + p := by
    simp only [add64] at hwrap ⊢
    omega
  rw [if_neg hwrap]
  simp only [add64] at hwrap
  rcases gcaSbrk_eq (p := p) hbrk hpos hroom hwithin (by omega) with ⟨heq, hfail⟩ | ⟨hle, heq⟩
  · rw [heq]
    exact .inl ⟨if_pos rfl, hfail⟩
  · rw [heq]
    dsimp only
    rw [if_neg hold, hsum]
    exact .inr ⟨hle, rfl⟩

theorem Tagged.handledSbrk (h : Tagged l top a) (hp : p < 2 ^ 64) :
    gcaHandledSbrk p a = (none, a) ∧ p ≠ 0 ∧ (2 ^ 63 ≤ p ∨ a.heap + a.heapSize < top + 16 + p) ∨
      top + 16 + p ≤ a.heap + a.heapSize ∧ gcaHandledSbrk p a =
        (some (top + 16, top + 16 + p), { a with currentBrk := top + 16 + p }) := by
  have hdvd := h.dvd_top
  have hwithin := h.within
  rw [h.brk] at hwithin
  exact gcaHandledSbrk_eq h.brk (by omega) (by omega) h.room hwithin hp

/-! ### A new chunk at the end -/

/-- The heap grows by `p` bytes: the old sentinel becomes the header of a free chunk. -/
theorem newBlock_spec (h : Rep l top fl a) (hdvd : 16 ∣ p) (hle : 32 ≤ p)
    (hroom : top + 16 + p ≤ a.heap + a.heapSize) :
    Rep (l ++ [⟨top, p - 16, false⟩]) (top + p) fl
        (gcaNewBlock p (top + 16) (top + 16 + p) { a with currentBrk := top + 16 + p }) ∧
      Kept l a (gcaNewBlock p (top + 16) (top + 16 + p) { a with currentBrk := top + 16 + p }) := by
  have hdvdTop := h.tagged.dvd_top
  have hlow : a.heap ≤ top := h.tagged.tiles.le
  have hhigh := h.tagged.room
  have hsub : sub64 p gcaInfoSize = p - 16 := by
    simp only [sub64, gcaInfoSize]
    omega
  have hheader : gcaDataToHeader (top + 16) = top := by
    simp only [gcaDataToHeader, sub64, gcaInfoSize]
    omega
  have hsentinel : gcaDataToHeader (top + 16 + p) = top + p := by
    simp only [gcaDataToHeader, sub64, gcaInfoSize]
    omega
  set m := gcaSetUsed .curr (top + p) true.toNat (gcaSetSize .curr (top + p) 0
    (gcaSetUsed .prev (top + p) false.toNat (gcaSetSize .prev (top + p) (p - 16)
    (gcaSetUsed .curr top false.toNat (gcaSetSize .curr top (p - 16) a.mem))))) with hm
  have hnew : gcaNewBlock p (top + 16) (top + 16 + p) { a with currentBrk := top + 16 + p } =
      { a with mem := m, currentBrk := top + 16 + p } := by
    rw [gcaNewBlock, hheader, hsentinel, hsub]
    rfl
  have hstores : Stores [top + 8, top + 8, top + p, top + p, top + p + 8, top + p + 8] a.mem m :=
    (((((Stores.trans (E := [top + 8]) (stores_gcaSetSize .curr _ _ _)
      (stores_gcaSetUsed .curr _ _ _)).trans (stores_gcaSetSize .prev _ _ _)).trans
      (stores_gcaSetUsed .prev _ _ _)).trans (stores_gcaSetSize .curr _ _ _)).trans
      (stores_gcaSetUsed .curr _ _ _))
  have hhead : tagAt m (top + 8) = ⟨p - 16, false⟩ := by
    simp (disch := omega) only [hm, tagAt_gcaSetUsed, tagAt_gcaSetSize, offset_curr, offset_prev,
      Nat.add_zero, ↓reduceIte, if_neg]
  have hfoot : tagAt m (top + p) = ⟨p - 16, false⟩ := by
    simp (disch := omega) only [hm, tagAt_gcaSetUsed, tagAt_gcaSetSize, offset_curr, offset_prev,
      Nat.add_zero, ↓reduceIte, if_neg]
  have htop : tagAt m (top + p + 8) = ⟨0, true⟩ := by
    simp (disch := omega) only [hm, tagAt_gcaSetUsed, tagAt_gcaSetSize, offset_curr, offset_prev,
      Nat.add_zero, ↓reduceIte, if_neg]
  have hsame : ∀ A, A ≤ top → tagAt m A = tagAt a.mem A := by
    refine fun A hA => congrArg toTag (read64_congr fun x hx hlt => hstores x ?_)
    simp only [List.forall_mem_cons]
    exact ⟨by omega, by omega, by omega, by omega, by omega, by omega, by simp⟩
  have hstop : (Chunk.mk top (p - 16) false).stop 16 = top + p := by
    simp only [Chunk.stop]
    omega
  have htagged : Tagged (l ++ [⟨top, p - 16, false⟩]) (top + p)
      { a with mem := m, currentBrk := top + 16 + p } :=
    { pos := h.tagged.pos
      dvd := h.tagged.dvd
      room := h.tagged.room
      brk := by
        dsimp only
        omega
      within := hroom
      tiles := tiles_append.mpr ⟨top, h.tagged.tiles, rfl, hstop⟩
      sized := sized_append.mpr ⟨h.tagged.sized, by simp [Sized]; omega⟩
      bottom := (hsame _ hlow).trans h.tagged.bottom
      sentinel := htop
      head := fun c hc => by
        rcases List.mem_append.mp hc with hc | hc
        · have hlt := h.tagged.lt hc
          exact (hsame _ (by omega)).trans (h.tagged.head c hc)
        · obtain rfl := List.mem_singleton.mp hc
          exact hhead
      foot := fun c hc => by
        rcases List.mem_append.mp hc with hc | hc
        · exact (hsame _ (h.tagged.lt hc).2.2.1).trans (h.tagged.foot c hc)
        · obtain rfl := List.mem_singleton.mp hc
          rw [hstop]
          exact hfoot }
  have hin : (⟨top, p - 16, false⟩ : Chunk) ∈ l ++ [⟨top, p - 16, false⟩] := by simp
  rw [hnew]
  obtain ⟨hrep, hkept⟩ := Tagged.rep htagged h.listed hstores (by
    simp only [List.forall_mem_cons]
    exact ⟨.inr ⟨_, hin, .inl rfl⟩, .inr ⟨_, hin, .inl rfl⟩, .inr ⟨_, hin, .inr hstop.symm⟩,
      .inr ⟨_, hin, .inr hstop.symm⟩, .inl rfl, .inl rfl, by simp⟩) ⟨rfl, rfl, rfl, rfl⟩
    fun x hx => by
      obtain ⟨c, hc, rfl, hfree⟩ := h.listed.free x hx
      exact ⟨c, by simp [hc], rfl, hfree⟩
  refine ⟨hrep, hkept.mono (Grows.of_used ?_)⟩
  rw [used_append]
  exact Set.subset_union_left

/-- The region has no room for a new chunk of `s` bytes at its end. -/
def Full (top s : Nat) (a : GlibcAllocator) : Prop :=
  a.heap + a.heapSize < top + 16 + gcaPageSize s

/-- Where the heap has room, a free chunk of `p` bytes at the end, joined with a free one before it. -/
theorem Whole.sbrkNewBlock (h : Whole l top fl a) {s : Nat} (hle : 4096 ≤ gcaPageSize s) :
    gcaSbrkNewBlock s a = (none, a) ∧ (a.heapSize < 2 ^ 63 → Full top s a) ∨
      ¬ Full top s a ∧
      ∃ front b a' fl', gcaSbrkNewBlock s a = (some b.addr, a') ∧
        Whole (front ++ [b]) (top + gcaPageSize s) fl' a' ∧ Kept l a a' ∧
        b.used = false ∧ gcaPageSize s - 16 ≤ b.size ∧ Used front = Used l ∧
        (Coalesced l → Coalesced front ∧ ∀ e, front.getLast? = some e → e.used) ∧
        ((∀ e, l.getLast? = some e → e.used) →
          front = l ∧ b = ⟨top, gcaPageSize s - 16, false⟩) := by
  have hmod : 4096 ∣ gcaPageSize s := by
    rw [gcaPageSize_eq]
    exact Nat.dvd_mul_left _ _
  have hlt : gcaPageSize s < 2 ^ 64 := by
    rw [gcaPageSize_eq]
    omega
  have hlow : a.heap ≤ top := h.tagged.tiles.le
  rw [gcaSbrkNewBlock, Full]
  generalize gcaPageSize s = p at hle hmod hlt ⊢
  rcases h.tagged.handledSbrk hlt with ⟨heq, -, hfull⟩ | ⟨hroom, heq⟩
  · exact .inl ⟨by rw [heq, gcaGrown], fun hsmall => by omega⟩
  refine .inr ⟨by omega, ?_⟩
  obtain ⟨h1, hkept1⟩ := newBlock_spec h.toRep (by omega) (by omega) hroom
  set a1 := gcaNewBlock p (top + 16) (top + 16 + p) { a with currentBrk := top + 16 + p }
  set n : Chunk := ⟨top, p - 16, false⟩ with hn
  have hheader : gcaDataToHeader (top + 16) = n.addr := by
    have hhigh := h.tagged.room
    simp only [gcaDataToHeader, sub64, gcaInfoSize, hn]
    omega
  have hnot : n.addr ∉ fl := by
    intro hmem
    obtain ⟨c, hc, heq, -⟩ := h.listed.free _ hmem
    have hltc := h.tagged.lt hc
    have haddr : n.addr = top := rfl
    omega
  obtain ⟨h2, hkept2⟩ := h1.addFreeList (c := n) (by simp) rfl hnot
  have hwhole : Whole (l ++ [n]) (top + p) (n.addr :: fl) (gcaAddFreeList n.addr a1) := by
    refine ⟨h2, fun c hc hfree => ?_⟩
    rcases List.mem_append.mp hc with hc | hc
    · exact List.mem_cons_of_mem _ (h.complete c hc hfree)
    · rw [List.mem_singleton.mp hc]
      exact List.mem_cons_self
  obtain ⟨front, b, a3, fl3, hprev, h3, hkept3, hfree, hsize, hused, hcoalesced, hsame⟩ :=
    hwhole.coalescePrev rfl
  have hgrows : Grows l (l ++ [n]) := Grows.of_used (by
    rw [used_append]
    exact Set.subset_union_left)
  refine ⟨front, b, a3, fl3, ?_, h3, ?_, hfree, hsize, hused, hcoalesced, hsame⟩
  · rw [heq, gcaGrown, hheader, hprev]
  · exact hkept1.trans hgrows (hkept2.trans (Grows.refl _) hkept3)

end Gca
