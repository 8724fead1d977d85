import SearchCache.Heap.GlibcGrowth

/-! What the operations do to a heap that is in order, whatever it holds. -/

namespace Gca

open Memory Htfh Chunks Linked

variable {l l' before after : List Chunk} {top s n : Nat} {fl : List Nat} {a a' : GlibcAllocator}
  {c d : Chunk}

/-- Only the error numbers may differ. -/
structure SameHeap (a a' : GlibcAllocator) : Prop where
  mem : a'.mem = a.mem
  freeList : a'.freeList = a.freeList
  currentBrk : a'.currentBrk = a.currentBrk
  heap : a'.heap = a.heap
  heapSize : a'.heapSize = a.heapSize

theorem SameHeap.refl (a : GlibcAllocator) : SameHeap a a := ⟨rfl, rfl, rfl, rfl, rfl⟩

theorem SameHeap.trans {a'' : GlibcAllocator} (h : SameHeap a a') (h' : SameHeap a' a'') :
    SameHeap a a'' :=
  ⟨h'.mem.trans h.mem, h'.freeList.trans h.freeList, h'.currentBrk.trans h.currentBrk,
    h'.heap.trans h.heap, h'.heapSize.trans h.heapSize⟩

theorem Tagged.sameHeap (h : Tagged l top a) (same : SameHeap a a') : Tagged l top a' where
  pos := same.heap ▸ h.pos
  dvd := same.heap ▸ h.dvd
  room := by rw [same.heap, same.heapSize]; exact h.room
  brk := same.currentBrk.trans h.brk
  within := by rw [same.currentBrk, same.heap, same.heapSize]; exact h.within
  tiles := same.heap ▸ h.tiles
  sized := h.sized
  bottom := by rw [same.mem, same.heap]; exact h.bottom
  sentinel := by rw [same.mem]; exact h.sentinel
  head := by rw [same.mem]; exact h.head
  foot := by rw [same.mem]; exact h.foot

theorem Whole.sameHeap (h : Whole l top fl a) (same : SameHeap a a') : Whole l top fl a' where
  tagged := h.tagged.sameHeap same
  listed := by
    refine ⟨?_, h.listed.free⟩
    rw [same.mem, same.freeList]
    exact h.listed.links
  complete := h.complete

theorem SameHeap.kept (same : SameHeap a a') (hmutex : a'.mutex = a.mutex) (l : List Chunk) :
    Kept l a a' :=
  ⟨same.heap, same.heapSize, hmutex, fun _ _ _ _ _ _ => by rw [same.mem]⟩

/-! ### The lock -/

theorem sameHeap_lock (a : GlibcAllocator) : SameHeap a (htfhLockLockHandled a) :=
  ⟨rfl, rfl, rfl, rfl, rfl⟩

/-- Leaving a function that took the lock. -/
theorem unlock_eq (hmutex : a.mutex = n + 1) :
    htfhLockUnlockHandled a = (0, { a with mutex := n }) := by
  rw [htfhLockUnlockHandled, if_neg (by omega), hmutex]
  rfl

theorem unlockReturning_eq (hmutex : a.mutex = n + 1) (ptr : Option Nat) :
    unlockReturning ptr a = (ptr, { a with mutex := n }) := by
  rw [unlockReturning, unlock_eq hmutex]
  rfl

theorem sameHeap_unlocked (a : GlibcAllocator) (n : Nat) : SameHeap a { a with mutex := n } :=
  ⟨rfl, rfl, rfl, rfl, rfl⟩

/-- What a function does between taking the lock and leaving it. -/
theorem Kept.unlock {b : GlibcAllocator} (h : Kept l (htfhLockLockHandled a) b) :
    Kept l a { b with mutex := a.mutex } := ⟨h.heap, h.heapSize, rfl, h.byte⟩

/-! ### The search -/

theorem findFreeStep_run {m : Mem} {next : Nat → Option Nat} (hnext : next = fun h => toPtr (nextFree m h))
    {p : Nat} {xs : List Nat} (hpath : Path next (toPtr p) xs none) (hfuel : xs.length < n) :
    (∃ x ∈ xs, s ≤ gcaSize .curr m x ∧ Loop.run (gcaFindFreeStep m s) n p = some x) ∨
      (∀ x ∈ xs, gcaSize .curr m x < s) ∧ Loop.run (gcaFindFreeStep m s) n p = some 0 := by
  induction xs generalizing p n with
  | nil =>
    obtain ⟨n, rfl⟩ : ∃ k, n = k + 1 := ⟨n - 1, by simp at hfuel; omega⟩
    refine .inr ⟨by simp, Loop.run_done ?_⟩
    rw [gcaFindFreeStep, if_pos (toPtr_none.mp hpath)]
  | cons x xs ih =>
    obtain ⟨n, rfl⟩ : ∃ k, n = k + 1 := ⟨n - 1, by simp at hfuel; omega⟩
    obtain ⟨hp, hrest⟩ := hpath
    obtain ⟨rfl, hpos⟩ := toPtr_some.mp hp
    by_cases hfits : s ≤ gcaSize .curr m p
    · refine .inl ⟨p, by simp, hfits, Loop.run_done ?_⟩
      rw [gcaFindFreeStep, if_neg hpos, if_pos hfits]
    · have hstep : gcaFindFreeStep m s p = some (.next (nextFree m p)) := by
        rw [gcaFindFreeStep, if_neg hpos, if_neg hfits]
      rw [Loop.run_next hstep]
      rw [hnext] at hrest
      have hrest' : Path next (toPtr (nextFree m p)) xs none := hnext ▸ hrest
      rcases ih hrest' (by simp at hfuel; omega) with ⟨x, hx, hle, hrun⟩ | ⟨hall, hrun⟩
      · exact .inl ⟨x, by simp [hx], hle, hrun⟩
      · refine .inr ⟨fun x hx => ?_, hrun⟩
        rcases List.mem_cons.mp hx with rfl | hx
        · omega
        · exact hall x hx

theorem Rep.freeList_length (h : Rep l top fl a) : fl.length < 2 ^ 64 := by
  have hnodup := h.listed.links.nodup
  have hsub : fl ⊆ List.range (2 ^ 64 - 32) := by
    intro x hx
    have hnode := (h.node hx).2.2
    exact List.mem_range.mpr (by omega)
  have hle := (hnodup.subperm hsub).length_le
  rw [List.length_range] at hle
  omega

/-- The search returns a free chunk that is large enough, or there is none. -/
theorem Rep.findFreeBlock (h : Rep l top fl a) (s : Nat) :
    (∃ c ∈ l, c.used = false ∧ s ≤ c.size ∧ gcaFindFreeBlock s a = some (some c.addr)) ∨
      (∀ c ∈ l, c.addr ∈ fl → c.size < s) ∧ gcaFindFreeBlock s a = some none := by
  rcases findFreeStep_run (s := s) rfl h.listed.links.forward h.freeList_length with
    ⟨x, hx, hle, hrun⟩ | ⟨hall, hrun⟩
  · obtain ⟨c, hc, rfl, hfree⟩ := h.listed.free x hx
    have hpos := (h.node hx).1
    rw [h.tagged.size_curr hc] at hle
    refine .inl ⟨c, hc, hfree, hle, ?_⟩
    rw [gcaFindFreeBlock, hrun, Option.map_some, toPtr_some.mpr ⟨rfl, hpos⟩]
  · refine .inr ⟨fun c hc hmem => ?_, ?_⟩
    · have := hall _ hmem
      rwa [h.tagged.size_curr hc] at this
    · rw [gcaFindFreeBlock, hrun, Option.map_some]
      rfl

/-! ### gca_malloc -/

/-- A heap with a new used chunk `c` for a request of `s` bytes. -/
structure Allocated (l : List Chunk) (s : Nat) (c : Chunk) (a a' : GlibcAllocator)
    (l' : List Chunk) (top : Nat) (fl : List Nat) : Prop where
  whole : Whole l' top fl a'
  kept : Kept l a a'
  used : Used l' = insert c (Used l)
  is_used : c.used
  large : s ≤ c.size
  fresh : ∀ d ∈ l, d.used → d.addr ≠ c.addr
  coalesced : Coalesced l → Coalesced l'

/-- A free chunk is cut to size, taken from the list and marked. -/
theorem Whole.take (h : Whole (before ++ c :: after) top fl a) (hfree : c.used = false) (hle : 16 ≤ s)
    (hdvd : 16 ∣ s) (hfits : s ≤ c.size) :
    ∃ b fl', gcaTake c.addr s a = unlockReturning (some (c.addr + 16)) b ∧
      Allocated (before ++ c :: after) s { c with size := cutSize 16 s c, used := true } a b
        (before ++ { c with size := cutSize 16 s c, used := true } :: cutRest 16 s c after) top fl' := by
  have hc : c ∈ before ++ c :: after := by simp
  have hlt := h.tagged.lt hc
  obtain ⟨p, a1, fl1, heq1, h1, hkept1⟩ := h.splitBlock hle hdvd hfits
  rw [cut_eq] at h1
  set c1 : Chunk := { c with size := cutSize 16 s c } with hc1
  set rest := cutRest 16 s c after
  have hmem : c.addr ∈ fl1 := h1.complete c1 (by simp) hfree
  obtain ⟨h2, hkept2⟩ := h1.toRep.removeFreeList hmem
  have hnodup := h1.listed.links.nodup
  have hnot : c1.addr ∉ fl1.erase c.addr := fun hin => (hnodup.mem_erase_iff.mp hin).1 rfl
  obtain ⟨h3, hkept3⟩ := mark_spec (u := true) h2 fun _ => hnot
  set a2 := gcaRemoveFreeList c.addr a1
  set a3 := gcaMark c1.addr true.toNat a2
  have hused : Used (before ++ { c1 with used := true } :: rest) =
      insert { c1 with used := true } (Used (before ++ c :: after)) := by
    simp only [used_append]
    rw [used_cons_of_used rfl, used_cons_of_free hfree, used_cutRest, Set.union_insert]
  have hold : Used (before ++ c1 :: rest) = Used (before ++ c :: after) := by
    simp only [used_append]
    rw [used_cons_of_free (by exact hfree), used_cons_of_free hfree, used_cutRest]
  have hmid : Used (before ++ c1 :: after) = Used (before ++ c :: after) := by
    simp only [used_append]
    rw [used_cons_of_free (by exact hfree), used_cons_of_free hfree]
  refine ⟨a3, fl1.erase c.addr, ?_, ⟨⟨h3, ?_⟩, ?_, hused, rfl, le_cutSize hfits, ?_, ?_⟩⟩
  · rw [gcaTake, heq1]
    have hdata : gcaHeaderToData c.addr = c.addr + 16 := by
      simp only [gcaHeaderToData, add64, gcaInfoSize]
      omega
    rw [hdata]
    rfl
  · intro x hx hxfree
    have hne : x ∈ before ++ rest := by
      simp only [List.mem_append, List.mem_cons] at hx ⊢
      rcases hx with hx | rfl | hx
      · exact .inl hx
      · simp at hxfree
      · exact .inr hx
    have hx1 : x ∈ before ++ c1 :: rest := by
      simp only [List.mem_append, List.mem_cons] at hne ⊢
      exact hne.imp_right .inr
    refine hnodup.mem_erase_iff.mpr ⟨fun heq => ?_, h1.complete x hx1 hxfree⟩
    -- a free chunk and the marked one at the same address
    have hsame := h3.tagged.tiles.eq_of_addr (by omega) hx
      (show { c1 with used := true } ∈ before ++ { c1 with used := true } :: rest by simp) heq
    rw [hsame] at hxfree
    simp at hxfree
  · refine (hkept1.mono (Grows.of_used hmid.ge)).trans (Grows.of_used hold.ge) ?_
    refine hkept2.trans (Grows.refl _) (hkept3.mono (Grows.of_used ?_))
    rw [hold, hused]
    exact Set.subset_insert _ _
  · intro d hd hdused heq
    have hsame := h.tagged.tiles.eq_of_addr (by omega) hd hc heq
    rw [hsame, hfree] at hdused
    simp at hdused
  · intro hcoalesced
    obtain ⟨hbefore, hafter, hlink⟩ := coalesced_append.mp hcoalesced
    obtain ⟨hafter, -⟩ := coalesced_cons.mp hafter
    refine coalesced_append.mpr ⟨hbefore, coalesced_cons.mpr ⟨coalesced_cutRest hafter, ?_⟩, ?_⟩
    · exact fun d _ => .inl rfl
    · rintro e - d hd
      simp only [List.head?_cons, Option.some.injEq] at hd
      exact .inr (hd ▸ rfl)

theorem Allocated.unlock {fl' : List Nat} {top' : Nat} {b : GlibcAllocator}
    (h : Allocated l s c (htfhLockLockHandled a) b l' top' fl') :
    Allocated l s c a { b with mutex := a.mutex } l' top' fl' :=
  { h with
    whole := h.whole.sameHeap (sameHeap_unlocked _ _)
    kept := h.kept.unlock }

/-- What a request of `size` bytes comes to. -/
def Requested (l : List Chunk) (size : Nat) (a : GlibcAllocator) (r : Option Nat)
    (a' : GlibcAllocator) : Prop :=
  r = none ∧ SameHeap a a' ∧ a'.mutex = a.mutex ∨
    ∃ c l' top' fl', r = some (c.addr + 16) ∧ Allocated l size c a a' l' top' fl'

/-- The chunk that is taken, with the size asked for in the place of the rounded one. -/
theorem Allocated.mono {fl' : List Nat} {top' size : Nat} (h : Allocated l s c a a' l' top' fl')
    (hle : size ≤ s) : Allocated l size c a a' l' top' fl' :=
  { h with large := hle.trans h.large }

theorem Allocated.requested {fl' : List Nat} {top' size : Nat} {b : GlibcAllocator}
    (h : Allocated l s c (htfhLockLockHandled a) b l' top' fl') (hle : size ≤ s) :
    ∃ r a', unlockReturning (some (c.addr + 16)) b = (r, a') ∧ Requested l size a r a' ∧
      r = some (c.addr + 16) :=
  ⟨_, _, unlockReturning_eq (n := a.mutex) h.kept.mutex _,
    .inr ⟨c, l', top', fl', rfl, (h.mono hle).unlock⟩, rfl⟩

/-- Sizes whose rounding, with a header and to whole pages, does not wrap, or that round to zero. -/
def Rounds (size : Nat) : Prop := size ≤ 2 ^ 64 - 4112 ∨ 2 ^ 64 - 16 < size

theorem pageSize_bounds (hdvd : 16 ∣ s) (hpos : 0 < s) (hle : s ≤ 2 ^ 64 - 4112) :
    4096 ≤ gcaPageSize s ∧ s ≤ gcaPageSize s - 16 := by
  rw [gcaPageSize_eq]
  omega

theorem failed_requested (b : GlibcAllocator) (same : SameHeap a b) (hmutex : b.mutex = a.mutex + 1)
    (size : Nat) :
    Requested l size a none (htfhLockUnlockHandled (setAllocErrno .mallocFailed b)).2 := by
  rw [unlock_eq (n := a.mutex) (by exact hmutex)]
  exact .inl ⟨rfl, same.trans ⟨rfl, rfl, rfl, rfl, rfl⟩, rfl⟩

/-- The chunk at the end of the heap is taken, where there was room for one. -/
theorem Whole.takeNew {size : Nat} (h : Whole l top fl (htfhLockLockHandled a)) (hdvd : 16 ∣ s)
    (hpos : 0 < s) (hle : s ≤ 2 ^ 64 - 4112) (hsize : size ≤ s) :
    ∃ r a', gcaTakeNew s (gcaSbrkNewBlock s (htfhLockLockHandled a)) = (r, a') ∧
      Requested l size a r a' ∧ (a.heapSize < 2 ^ 63 → (r = none ↔ Full top s a)) := by
  obtain ⟨hpage, hlarge⟩ := pageSize_bounds hdvd hpos hle
  rcases h.sbrkNewBlock hpage with ⟨heq, hfull⟩ | ⟨hroom, front, b, a1, fl1, heq, h1, hkept1, hfree,
    hb, hused, hcoalesced, -⟩
  · rw [heq]
    exact ⟨none, _, rfl, failed_requested _ (sameHeap_lock a) rfl size,
      fun hsmall => iff_of_true rfl (hfull hsmall)⟩
  · have hmin : 16 ≤ s := Nat.le_of_dvd hpos hdvd
    obtain ⟨a2, fl2, htake, h2⟩ := h1.take hfree hmin hdvd (by omega)
    have hsame : Used (front ++ [b]) = Used l := by
      rw [used_append, used_cons_of_free hfree, used_nil, Set.union_empty, hused]
    have hall : Allocated l s { b with size := cutSize 16 s b, used := true }
        (htfhLockLockHandled a) a2 _ _ fl2 :=
      { whole := h2.whole
        kept := hkept1.trans (Grows.of_used hsame.ge) h2.kept
        used := by rw [h2.used, hsame]
        is_used := rfl
        large := h2.large
        fresh := fun d hd hdused => by
          have hmem : d ∈ Used (front ++ [b]) := hsame ▸ ⟨hd, hdused⟩
          exact h2.fresh d hmem.1 hdused
        coalesced := fun hl => by
          obtain ⟨hfront, hlast⟩ := hcoalesced hl
          refine h2.coalesced (coalesced_append.mpr ⟨hfront, by simp [Chunks.Coalesced], ?_⟩)
          exact fun e he _ _ => .inl (hlast e he) }
    rw [heq, gcaTakeNew, htake]
    obtain ⟨r, a', heq', hreq, hr⟩ := hall.requested hsize
    refine ⟨r, a', heq', hreq, fun _ => iff_of_false ?_ hroom⟩
    rw [hr]
    exact Option.some_ne_none _

/-- No free chunk is large enough for `s` bytes, and there is no room for a new one. -/
def Refused (l : List Chunk) (top s : Nat) (a : GlibcAllocator) : Prop :=
  (∀ e ∈ l, e.used = false → e.size < s) ∧ Full top s a

theorem Whole.malloc (h : Whole l top fl a) (size : Nat) (hlt : size < 2 ^ 64) (hsize : Rounds size) :
    ∃ r a', gcaMalloc size a = some (r, a') ∧ Requested l size a r a' ∧
      (0 < size → size ≤ 2 ^ 64 - 4112 → a.heapSize < 2 ^ 63 →
        (r = none ↔ Refused l top (gcaRoundUp size gcaDataAlign) a)) := by
  have hpos := h.tagged.pos
  rw [gcaMalloc]
  by_cases hzero : a.heap = 0 ∨ size = 0
  · rw [if_pos hzero]
    exact ⟨none, _, rfl, .inl ⟨rfl, ⟨rfl, rfl, rfl, rfl, rfl⟩, rfl⟩, fun hsize => by omega⟩
  rw [if_neg hzero, gcaRoundUp_align]
  dsimp only
  have haligned : 16 ∣ (size + 15) % 2 ^ 64 / 16 * 16 := Nat.dvd_mul_left _ _
  have hbound : 2 ^ 64 - 4112 < size ∧ (size + 15) % 2 ^ 64 / 16 * 16 = 0 ∨
      size ≤ (size + 15) % 2 ^ 64 / 16 * 16 ∧ (size + 15) % 2 ^ 64 / 16 * 16 ≤ 2 ^ 64 - 4112 := by
    unfold Rounds at hsize
    omega
  generalize (size + 15) % 2 ^ 64 / 16 * 16 = s at haligned hbound ⊢
  by_cases hs : s = 0
  · rw [if_pos hs]
    exact ⟨none, _, rfl, failed_requested _ (sameHeap_lock a) rfl size, fun _ hle => by omega⟩
  rw [if_neg hs]
  obtain ⟨hle, hmax⟩ := hbound.resolve_left fun hwrap => hs hwrap.2
  have hlock := h.sameHeap (sameHeap_lock a)
  rcases hlock.toRep.findFreeBlock s with ⟨c, hc, hfree, hfits, hfind⟩ | ⟨hnone, hfind⟩
  · obtain ⟨before, after, rfl⟩ := List.append_of_mem hc
    obtain ⟨a1, fl1, htake, h1⟩ := hlock.take hfree (by omega) haligned hfits
    obtain ⟨r, a', heq, hreq, hr⟩ := h1.requested hle
    refine ⟨r, a', ?_, hreq, fun _ _ _ => iff_of_false ?_ fun hrefused => ?_⟩
    · rw [hfind, Option.map_some, gcaMallocFound, htake]
      exact congrArg some heq
    · rw [hr]
      exact Option.some_ne_none _
    · exact hfits.not_gt (hrefused.1 c hc hfree)
  · obtain ⟨r, a', heq, hreq, hr⟩ := hlock.takeNew haligned (Nat.pos_of_ne_zero hs) hmax hle
    refine ⟨r, a', ?_, hreq, fun _ _ hsmall => ?_⟩
    · rw [hfind, Option.map_some, gcaMallocFound, heq]
    · rw [hr hsmall, Refused]
      exact (and_iff_right fun e he hfree => hnone e he (h.complete e he hfree)).symm

/-! ### gca_free -/

theorem gcaDataToHeader_eq (h : Tagged l top a) (hc : c ∈ l) :
    gcaDataToHeader (c.addr + 16) = c.addr := by
  have hlt := h.lt hc
  simp only [gcaDataToHeader, sub64, gcaInfoSize]
  omega

/-- A used chunk is marked, put on the list and joined with its free neighbours. -/
theorem Whole.free (h : Whole (before ++ c :: after) top fl a) (hused : c.used) :
    ∃ a' l' fl', gcaFree (c.addr + 16) a = (0, a') ∧ Whole l' top fl' a' ∧
      Kept (before ++ after) a a' ∧ Used l' = Used (before ++ after) ∧
      (Coalesced (before ++ c :: after) → Coalesced l') := by
  have hc : c ∈ before ++ c :: after := by simp
  have hpos := h.tagged.pos
  have hlock := h.sameHeap (sameHeap_lock a)
  have hnot : c.addr ∉ fl := by
    intro hmem
    obtain ⟨d, hd, heq, hfree⟩ := h.listed.free _ hmem
    rw [h.tagged.tiles.eq_of_addr (by omega) hd hc heq, hused] at hfree
    simp at hfree
  set c1 : Chunk := { c with used := false } with hc1
  obtain ⟨h1, hkept1⟩ := mark_spec (u := false) hlock.toRep (by simp)
  set a1 := gcaMark c.addr false.toNat (htfhLockLockHandled a)
  obtain ⟨h2, hkept2⟩ := h1.addFreeList (c := c1) (by simp [hc1]) rfl hnot
  set a2 := gcaAddFreeList c1.addr a1
  have hwhole : Whole (before ++ c1 :: after) top (c.addr :: fl) a2 := by
    refine ⟨h2, fun x hx hfree => ?_⟩
    simp only [List.mem_append, List.mem_cons] at hx
    rcases hx with hx | rfl | hx
    · exact List.mem_cons_of_mem _ (h.complete x (by simp [hx]) hfree)
    · exact List.mem_cons_self
    · exact List.mem_cons_of_mem _ (h.complete x (by simp [hx]) hfree)
  obtain ⟨a3, fl3, hnext, h3, hkept3⟩ := hwhole.coalesceNext
  rw [joinNext_eq] at h3
  obtain ⟨front, b, a4, fl4, hprev, h4, hkept4, hbfree, -, hfront, hcoalesced, -⟩ :=
    h3.coalescePrev rfl
  have hrest : Used (before ++ c1 :: after) = Used (before ++ after) := by
    rw [used_append, used_cons_of_free rfl, used_append]
  have hjoined : Used (before ++ { c1 with size := joinSize 16 c1 after } :: joinRest after) =
      Used (before ++ c1 :: after) := by
    rw [used_append, used_append, used_cons_of_free rfl, used_cons_of_free rfl, used_joinRest]
  have hkept : Kept (before ++ after) (htfhLockLockHandled a) a4 := by
    refine (hkept1.mono (Grows.of_used hrest.ge)).trans (Grows.of_used hrest.ge) ?_
    refine hkept2.trans (Grows.refl _) (hkept3.trans (Grows.of_used hjoined.ge) hkept4)
  refine ⟨{ a4 with mutex := a.mutex }, front ++ b :: joinRest after, fl4, ?_,
    h4.sameHeap (sameHeap_unlocked _ _), hkept.unlock, ?_, fun hl => ?_⟩
  · rw [gcaFree, if_neg (by omega), gcaDataToHeader_eq h.tagged hc]
    have hcoalesce : gcaCoalesce c.addr a2 = (b.addr, a4) := by
      rw [gcaCoalesce, hnext]
      exact hprev
    have hunlock := unlock_eq (n := a.mutex) hkept.mutex
    exact (congrArg (fun p : Nat × GlibcAllocator => htfhLockUnlockHandled p.2) hcoalesce).trans
      hunlock
  · rw [used_append, used_cons_of_free hbfree, hfront, used_joinRest, used_append]
  · obtain ⟨hbefore, hafter, -⟩ := coalesced_append.mp hl
    obtain ⟨hafter, -⟩ := coalesced_cons.mp hafter
    obtain ⟨hrest, hhead⟩ := coalesced_joinRest hafter
    obtain ⟨hfront, hlast⟩ := hcoalesced hbefore
    refine coalesced_append.mpr ⟨hfront, coalesced_cons.mpr ⟨hrest, fun d hd => .inr (hhead d hd)⟩,
      fun e he _ _ => .inl (hlast e he)⟩

/-! ### gca_calloc -/

/-- Writing to the payload of a used chunk. -/
theorem Whole.overwrite (h : Whole (before ++ c :: after) top fl a) (hused : c.used)
    {f : Mem → Mem} (hf : ∀ x, x < c.addr + 16 ∨ c.stop 16 ≤ x → (f a.mem).byte x = a.mem.byte x) :
    Whole (before ++ c :: after) top fl (setMem f a) ∧ Kept (before ++ after) a (setMem f a) := by
  have hc : c ∈ before ++ c :: after := by simp
  have same : SameBut (fun x => c.addr + 16 ≤ x ∧ x < c.stop 16) a (setMem f a) :=
    ⟨rfl, rfl, rfl, rfl, fun x hx => hf x (by omega)⟩
  have hword : ∀ n ∈ fl, ∀ A, n + 16 ≤ A → A + 8 ≤ n + 32 →
      read64 (setMem f a).mem A = read64 a.mem A := by
    intro n hn A hle hle'
    obtain ⟨d, hd, rfl, hfree⟩ := h.listed.free n hn
    have hne : d ≠ c := by
      rintro rfl
      simp [hused] at hfree
    have hlt := h.tagged.lt hd
    have hrest : d ∈ before ++ after := by
      simp only [List.mem_append, List.mem_cons] at hd ⊢
      exact hd.imp_right fun hd => hd.resolve_left hne
    have hapart := h.tagged.tiles.apart_mid hrest
    have hstop : c.stop 16 = c.addr + 16 + c.size := rfl
    exact read64_congr fun x hx hxlt => hf x (by omega)
  refine ⟨⟨⟨h.tagged.congr same fun x hx => ⟨c, hc, hx⟩, ?_, h.listed.free⟩, h.complete⟩, ?_⟩
  · exact h.listed.links.congr
      (fun n hn => congrArg toPtr (hword n hn (n + 24) (by omega) (by omega)))
      fun n hn => congrArg toPtr (hword n hn (n + 16) (by omega) (by omega))
  · refine same.kept fun x hx d hd hdused hin => ?_
    have hapart := h.tagged.tiles.apart_mid hd
    omega

/-- Writing to the new chunk. -/
theorem Allocated.overwrite {fl' : List Nat} {top' : Nat} (h : Allocated l s c a a' l' top' fl')
    {f : Mem → Mem} (hf : ∀ x, x < c.addr + 16 ∨ c.stop 16 ≤ x → (f a'.mem).byte x = a'.mem.byte x) :
    Allocated l s c a (setMem f a') l' top' fl' := by
  have hc : c ∈ Used l' := h.used ▸ Set.mem_insert _ _
  obtain ⟨before, after, rfl⟩ := List.append_of_mem hc.1
  obtain ⟨hwhole, hkept⟩ := h.whole.overwrite h.is_used hf
  refine { h with whole := hwhole, kept := h.kept.trans (?_ : Grows _ (before ++ after)) hkept }
  refine Grows.of_used fun d hd => ?_
  rw [used_others h.whole.tagged.tiles (by omega), h.used]
  exact ⟨Set.mem_insert_of_mem _ hd, fun heq => h.fresh d hd.1 hd.2 (congrArg Chunk.addr heq)⟩

theorem Whole.calloc (h : Whole l top fl a) (num size : Nat)
    (hsize : 2 ^ 64 ≤ num * size ∨ Rounds (num * size)) :
    ∃ r a', gcaCalloc num size a = some (r, a') ∧ Requested l (num * size) a r a' := by
  rw [gcaCalloc]
  by_cases hzero : a.heap = 0 ∨ size = 0 ∨ num = 0 ∨ sizeMax / size < num
  · rw [if_pos hzero]
    exact ⟨none, a, rfl, .inl ⟨rfl, SameHeap.refl a, rfl⟩⟩
  rw [if_neg hzero]
  simp only [not_or, not_lt] at hzero
  have hprod : num * size ≤ sizeMax :=
    (Nat.le_div_iff_mul_le (Nat.pos_of_ne_zero hzero.2.1)).mp hzero.2.2.2
  have hlt : num * size < 2 ^ 64 := by
    simp only [sizeMax] at hprod
    omega
  rw [Nat.mod_eq_of_lt hlt]
  generalize num * size = bytes at hlt hsize ⊢
  obtain ⟨r, a1, heq, hreq, -⟩ :=
    (h.sameHeap (sameHeap_lock a)).malloc bytes hlt (hsize.resolve_left (by omega))
  rw [heq, Option.map_some]
  rcases hreq with ⟨rfl, hsame, hmutex⟩ | ⟨c, l', top', fl', rfl, h1⟩
  · rw [gcaZeroed, unlockReturning_eq (n := a.mutex) hmutex]
    exact ⟨none, _, rfl, .inl ⟨rfl, ((sameHeap_lock a).trans hsame).trans (sameHeap_unlocked _ _), rfl⟩⟩
  · have hlarge := h1.large
    have h2 := h1.overwrite (f := fun m => fill m (c.addr + 16) 0 bytes) fun x hx => by
      simp only [fill, Chunk.stop] at hx ⊢
      rw [if_neg (by omega)]
    obtain ⟨r, a', heq', hreq', -⟩ := h2.requested (le_refl bytes)
    refine ⟨r, a', ?_, hreq'⟩
    rw [gcaZeroed]
    exact congrArg some heq'

/-! ### gca_realloc -/

/-- A heap in which `n` has taken the place of the used chunk `c`, for a request of `size` bytes, with
the first `m` bytes of its contents. -/
structure Resized (before : List Chunk) (c : Chunk) (after : List Chunk) (m size : Nat) (n : Chunk)
    (a a' : GlibcAllocator) (l' : List Chunk) (top : Nat) (fl : List Nat) : Prop where
  whole : Whole l' top fl a'
  kept : Kept (before ++ after) a a'
  used : Used l' = insert n (Used (before ++ after))
  is_used : n.used
  large : size ≤ n.size
  fresh : ∀ e ∈ Used (before ++ after), e.addr ≠ n.addr
  contents : ∀ i < m, i < size →
    a'.mem.byte (n.addr + 16 + i) = a.mem.byte (c.addr + 16 + i)
  coalesced : Coalesced (before ++ c :: after) → Coalesced l'

variable {rest : List Chunk} {m size top' : Nat} {fl' : List Nat} {b : GlibcAllocator} {c1 d : Chunk}

theorem Resized.unlock (h : Resized before c after m size d (htfhLockLockHandled a) b l' top' fl') :
    Resized before c after m size d a { b with mutex := a.mutex } l' top' fl' :=
  { h with
    whole := h.whole.sameHeap (sameHeap_unlocked _ _)
    kept := h.kept.unlock }

/-- The chunk may have grown before. -/
theorem Resized.grown (h : Resized before c1 rest m size d b a' l' top' fl') (hm : c.size ≤ m)
    (hkept : Kept (before ++ c :: after) a b) (hused : c.used) (haddr : c1.addr = c.addr)
    (hrest : Used rest = Used after)
    (hcoalesced : Coalesced (before ++ c :: after) → Coalesced (before ++ c1 :: rest)) :
    Resized before c after c.size size d a a' l' top' fl' := by
  have hothers : Used (before ++ rest) = Used (before ++ after) := by
    rw [used_append, hrest, used_append]
  refine
    { whole := h.whole
      kept := ?_
      used := by rw [h.used, hothers]
      is_used := h.is_used
      large := h.large
      fresh := hothers ▸ h.fresh
      contents := fun i hi hsize => ?_
      coalesced := fun hl => h.coalesced (hcoalesced hl) }
  · refine (hkept.mono (Grows.of_used ?_)).trans (Grows.of_used hothers.ge) h.kept
    rw [used_mid hused]
    exact Set.subset_insert _ _
  · rw [h.contents i (by omega) hsize, haddr]
    exact hkept.byte c (by simp) hused _ (by omega) (by simp only [Chunk.stop]; omega)

/-- In place, where the chunk is large enough. -/
theorem Whole.cut (h : Whole (before ++ c :: after) top fl a) (size : Nat) (hused : c.used)
    (hle : 16 ≤ s) (hdvd : 16 ∣ s) (hfits : s ≤ c.size) (hsize : size ≤ s) :
    ∃ b fl', reallocCut (c.addr + 16) s a = unlockReturning (some (c.addr + 16)) b ∧
      Resized before c after c.size size { c with size := cutSize 16 s c } a b
        (before ++ cut 16 s c after) top fl' := by
  have hc : c ∈ before ++ c :: after := by simp
  obtain ⟨p, b, fl', heq, h1, hkept⟩ := h.splitBlock hle hdvd hfits
  set c1 : Chunk := { c with size := cutSize 16 s c } with hc1
  refine ⟨b, fl', ?_, ?_⟩
  · rw [reallocCut, gcaDataToHeader_eq h.tagged hc, heq]
  · refine
      { whole := h1
        kept := hkept.mono (Grows.of_used ?_)
        used := ?_
        is_used := hused
        large := hsize.trans (le_cutSize hfits)
        fresh := fun e he heq => by
          have hapart := h.tagged.tiles.apart_mid he.1
          have haddr : e.addr = c.addr := heq
          simp only [Chunk.stop] at hapart
          omega
        contents := fun i hi hi' => ?_
        coalesced := fun hl => ?_ }
    · rw [used_mid (c := c1) hused]
      exact Set.subset_insert _ _
    · rw [cut_eq, used_mid (c := c1) hused, used_append, used_cutRest, used_append]
    · have hlarge := le_cutSize (o := 16) hfits
      refine hkept.byte c1 (by simp) hused _ (by rw [hc1]; omega) ?_
      simp only [Chunk.stop, hc1]
      omega
    · obtain ⟨hbefore, hafter, hlink⟩ := coalesced_append.mp hl
      obtain ⟨hafter, -⟩ := coalesced_cons.mp hafter
      rw [cut_eq]
      refine coalesced_append.mpr ⟨hbefore, coalesced_cons.mpr ⟨coalesced_cutRest hafter, ?_⟩, ?_⟩
      · exact fun d _ => .inl hused
      · rintro e - d hd
        simp only [List.head?_cons, Option.some.injEq] at hd
        exact .inr (hd ▸ hused)

/-- To a new chunk, with the first `m` bytes. -/
theorem Whole.move (h : Whole (before ++ c :: after) top fl a) (size : Nat) (hused : c.used)
    (hm : m ≤ c.size) (hlt : size < 2 ^ 64) (hrounds : Rounds size) (hlarge : m ≤ size) :
    ∃ r b, reallocMove (c.addr + 16) m size a = some (unlockReturning r b) ∧ b.mutex = a.mutex ∧
      (r = none ∧ SameHeap a b ∨ ∃ d l' top' fl', r = some (d.addr + 16) ∧
        Resized before c after m size d a b l' top' fl') ∧
      (0 < size → size ≤ 2 ^ 64 - 4112 → a.heapSize < 2 ^ 63 → (r = none ↔
        Refused (before ++ c :: after) top (gcaRoundUp size gcaDataAlign) a)) := by
  have hpos := h.tagged.pos
  have hc : c ∈ before ++ c :: after := by simp
  obtain ⟨r, a1, heq, hreq, hrefused⟩ := h.malloc size hlt hrounds
  rw [reallocMove, heq, Option.map_some]
  rcases hreq with ⟨rfl, hsame, hmutex⟩ | ⟨d, l1, top1, fl1, rfl, h1⟩
  · exact ⟨none, a1, rfl, hmutex, .inl ⟨rfl, hsame⟩, hrefused⟩
  have hdlarge := h1.large
  have hne : c.addr ≠ d.addr := h1.fresh c hc hused
  -- the copy goes to the new chunk
  have h2 := h1.overwrite (f := fun x => copy x (d.addr + 16) (c.addr + 16) m) fun x hx => by
    simp only [copy, Chunk.stop] at hx ⊢
    rw [if_neg (by omega)]
  set a2 := setMem (fun x => copy x (d.addr + 16) (c.addr + 16) m) a1
  have hc1 : c ∈ Used l1 := by
    rw [h2.used]
    exact Set.mem_insert_of_mem _ ⟨hc, hused⟩
  have hd1 : d ∈ Used l1 := by
    rw [h2.used]
    exact Set.mem_insert _ _
  obtain ⟨front, back, rfl⟩ := List.append_of_mem hc1.1
  obtain ⟨b, l', fl', hfree, h3, hkept3, hused3, hcoalesced⟩ := h2.whole.free hused
  have hothers : Used (front ++ back) = insert d (Used (before ++ after)) := by
    rw [used_others h2.whole.tagged.tiles (by omega), h2.used, used_others h.tagged.tiles (by omega)]
    refine (Set.insert_sdiff_singleton_comm ?_ _).symm
    rintro rfl
    exact hne rfl
  have hd : d ∈ front ++ back := by
    have hmem : d ∈ Used (front ++ back) := by
      rw [hothers]
      exact Set.mem_insert _ _
    exact hmem.1
  refine ⟨some (d.addr + 16), b, ?_, hkept3.mutex.trans h2.kept.mutex,
    .inr ⟨d, l', top1, fl', rfl, ?_⟩, hrefused⟩
  · rw [gcaMoved]
    exact congrArg (fun x : Int × GlibcAllocator => some (unlockReturning (some (d.addr + 16)) x.2)) hfree
  · refine
      { whole := h3
        kept := ?_
        used := hused3.trans hothers
        is_used := h1.is_used
        large := hdlarge
        fresh := fun e he => h1.fresh e (by
          rcases List.mem_append.mp he.1 with hmem | hmem <;> simp [hmem]) he.2
        contents := fun i hi hsize => ?_
        coalesced := fun hl => hcoalesced (h2.coalesced hl) }
    · refine (h2.kept.mono (Grows.of_used ?_)).trans (Grows.of_used ?_) hkept3
      · rw [used_mid hused]
        exact Set.subset_insert _ _
      · rw [hothers]
        exact Set.subset_insert _ _
    · rw [hkept3.byte d hd h1.is_used _ (by omega) (by simp only [Chunk.stop]; omega),
        ← h1.kept.byte c hc hused (c.addr + 16 + i) (by omega) (by simp only [Chunk.stop]; omega)]
      simp only [a2, setMem, copy]
      rw [if_pos (by omega), Nat.add_sub_cancel_left]

/-- What a resize of the used chunk `c` to `size` bytes comes to. -/
def ResizeOutcome (before : List Chunk) (c : Chunk) (after : List Chunk) (top size : Nat)
    (a : GlibcAllocator) (r : Option Nat) (b : GlibcAllocator) : Prop :=
  (r = none ∧ ∃ fl', Whole (before ++ joinNext 16 c after) top fl' b ∧
      Kept (before ++ c :: after) a b) ∨
    ∃ d l' top' fl', r = some (d.addr + 16) ∧ Resized before c after c.size size d a b l' top' fl'

theorem Resized.outcome (h : Resized before c after c.size size d a b l' top' fl')
    (haddr : d.addr = c.addr) :
    ∃ d l' top' fl', some (c.addr + 16) = some (d.addr + 16) ∧
      Resized before c after c.size size d a b l' top' fl' :=
  ⟨d, l', top', fl', by rw [haddr], h⟩

/-- A chunk that is too small with the next one too stays where it is: there is no other chunk, and no
room to extend it at the end of the heap. -/
def Unresizable (before : List Chunk) (c : Chunk) (after : List Chunk) (top s : Nat)
    (a : GlibcAllocator) : Prop :=
  joinSize 16 c after < s ∧ (∀ e ∈ before ++ joinRest after, e.used = false → e.size < s) ∧
    Full top (if joinRest after = [] then s - joinSize 16 c after else s) a

theorem coalesced_joined (hused : c.used) (h : Coalesced (before ++ c :: after)) :
    Coalesced (before ++ { c with size := s } :: joinRest after) := by
  obtain ⟨hbefore, hafter, -⟩ := coalesced_append.mp h
  obtain ⟨hafter, -⟩ := coalesced_cons.mp hafter
  refine coalesced_append.mpr ⟨hbefore, coalesced_cons.mpr ⟨(coalesced_joinRest hafter).1, ?_⟩, ?_⟩
  · exact fun d _ => .inl hused
  · rintro e - d hd
    simp only [List.head?_cons, Option.some.injEq] at hd
    exact .inr (hd ▸ hused)

theorem grows_mid (haddr : c1.addr = c.addr) (hused : c1.used) (hle : c.size ≤ c1.size)
    (hrest : Used after ⊆ Used rest) : Grows (before ++ c :: after) (before ++ c1 :: rest) := by
  intro d hd hdused
  simp only [List.mem_append, List.mem_cons] at hd
  rcases hd with hd | rfl | hd
  · exact ⟨d, by simp [hd], hdused, rfl, le_rfl⟩
  · exact ⟨c1, by simp, hused, haddr, hle⟩
  · exact ⟨d, by simp [(hrest ⟨hd, hdused⟩).1], hdused, rfl, le_rfl⟩

theorem Tagged.isSentinel_iff (h : Tagged (before ++ c :: rest) top a) :
    gcaIsSentinel .curr a.mem (c.stop 16) = true ↔ rest = [] := by
  obtain ⟨m, -, hm⟩ := tiles_append.mp h.tiles
  rw [gcaIsSentinel, decide_eq_true_iff]
  cases rest with
  | nil =>
    have htop : c.stop 16 = top := hm.2
    rw [htop, gcaSize_curr, h.sentinel]
    simp
  | cons d rest =>
    have hd : d ∈ before ++ c :: d :: rest := by simp
    have hsize := (h.sized d hd).1
    rw [← show d.addr = c.stop 16 from hm.2.1, h.size_curr hd]
    refine iff_of_false (by omega) (by simp)

theorem gcaPageSize_mono {s t : Nat} (h : s ≤ t) (ht : t ≤ 2 ^ 64 - 4112) :
    gcaPageSize s ≤ gcaPageSize t := by
  rw [gcaPageSize_eq, gcaPageSize_eq]
  omega

/-- A chunk that is too small with the next one too is extended at the end of the heap or moved. -/
theorem Whole.extend (h : Whole (before ++ joinNext 16 c after) top fl b) (size : Nat)
    (hkept : Kept (before ++ c :: after) a b) (hused : c.used) (hdvd : 16 ∣ s)
    (hs : s ≤ 2 ^ 64 - 4112) (hsmall : joinSize 16 c after < s) (hsize : size ≤ s)
    (hround : gcaRoundUp size gcaDataAlign = s) :
    ∃ r b', reallocExtend (c.addr + 16) s c.size size b = some (unlockReturning r b') ∧
      b'.mutex = a.mutex ∧ ResizeOutcome before c after top size a r b' ∧
      (a.heapSize < 2 ^ 63 → (r = none ↔ Unresizable before c after top s a)) := by
  have hjoined := h
  rw [joinNext_eq] at h
  set c1 : Chunk := { c with size := joinSize 16 c after } with hc1
  have hc : c1 ∈ before ++ c1 :: joinRest after := by simp
  have hle : c.size ≤ c1.size := le_joinSize
  have hc1size : c1.size < s := hsmall
  have hc1dvd := (h.tagged.sized c1 hc).2
  have hrest : Used (joinRest after) = Used after := used_joinRest
  have hfull : ∀ t, Full top t b ↔ Full top t a := by
    intro t
    rw [Full, Full, hkept.heap, hkept.heapSize]
  have hlt : s < size + 16 := by
    rw [← hround, gcaRoundUp_align]
    omega
  have hmove : ∃ r b', reallocMove (c.addr + 16) c.size size b = some (unlockReturning r b') ∧
      b'.mutex = a.mutex ∧ ResizeOutcome before c after top size a r b' ∧
      (a.heapSize < 2 ^ 63 → (r = none ↔ (∀ e ∈ before ++ joinRest after, e.used = false →
        e.size < s) ∧ Full top s a)) := by
    obtain ⟨r, b', heq, hmutex, hcase, hr⟩ := h.move (m := c.size) size hused hle
      (by omega) (.inl (by omega)) (by omega)
    refine ⟨r, b', heq, hmutex.trans hkept.mutex, ?_, fun hsmall => ?_⟩
    case refine_2 =>
      rw [hr (by omega) (by omega) (by rw [hkept.heapSize]; exact hsmall), hround, Refused, hfull]
      refine and_congr_left fun _ => ?_
      simp only [List.forall_mem_append, List.forall_mem_cons, hc1, hused, Bool.true_eq_false,
        false_implies, true_and]
    rcases hcase with ⟨rfl, hsame⟩ | ⟨d, l', top', fl', rfl, h1⟩
    · refine .inl ⟨rfl, fl, hjoined.sameHeap hsame, ?_⟩
      exact hkept.trans (Grows.refl _) (hsame.kept hmutex _)
    · exact .inr ⟨d, l', top', fl', rfl, h1.grown le_rfl hkept hused rfl hrest (coalesced_joined hused)⟩
  have hheader := gcaDataToHeader_eq h.tagged hc
  have haddr : c1.addr = c.addr := rfl
  rw [haddr] at hheader
  rw [reallocExtend, hheader]
  have hnext := h.tagged.next hc
  have hcurr := h.tagged.size_curr hc
  rw [haddr] at hnext hcurr
  rw [hnext, hcurr]
  by_cases hempty : joinRest after = []
  · rw [if_pos (h.tagged.isSentinel_iff.mpr hempty)]
    rw [Unresizable, if_pos hempty]
    rw [hempty] at h hrest
    have hneed : sub64 s c1.size = s - c1.size := by
      simp only [sub64]
      omega
    obtain ⟨hpage, hlarge⟩ := pageSize_bounds (s := s - c1.size) (by omega) (by omega) (by omega)
    have hspec := h.sbrkNewBlock hpage
    have hmono := gcaPageSize_mono (Nat.sub_le s c1.size) hs
    rw [hneed]
    generalize hp : gcaPageSize (s - c1.size) = p at hpage hlarge hspec
    rcases hspec with ⟨heq, hnone⟩ | ⟨hroom, front, n, b1, fl1, heq, h1, hkept1, hnfree, -, -, -,
      hsame⟩
    · rw [heq, reallocGrown]
      obtain ⟨r, b', heq', hmutex, hout, hr⟩ := hmove
      refine ⟨r, b', heq', hmutex, hout, fun hheap => ?_⟩
      have hfull1 := hnone (by rw [hkept.heapSize]; exact hheap)
      have hfull2 : Full top s b := Nat.lt_of_lt_of_le hfull1 (Nat.add_le_add_left hmono _)
      rw [hr hheap, and_iff_right hsmall, and_congr_right_iff]
      exact fun _ => iff_of_true ((hfull _).mp hfull2) ((hfull _).mp hfull1)
    · obtain ⟨rfl, rfl⟩ := hsame fun e he => by
        rw [List.getLast?_concat, Option.some.injEq] at he
        exact he ▸ hused
      rw [heq, reallocGrown, hheader]
      rw [List.append_assoc, List.singleton_append] at h1
      set n : Chunk := ⟨top, p - 16, false⟩ with hn
      obtain ⟨b2, fl2, hnext2, h2, hkept2⟩ := h1.coalesceNext
      rw [joinNext_of_free hnfree] at h2
      have haddr : (absorb 16 c1 n).addr = c.addr := absorb_addr
      have hgrown : s ≤ (absorb 16 c1 n).size := by
        simp only [absorb, hn]
        omega
      have hused2 : (absorb 16 c1 n).used := by
        rw [absorb_used]
        exact hused
      obtain ⟨b3, fl3, hcut, h3⟩ := h2.cut size hused2 (by omega) hdvd hgrown hsize
      rw [haddr] at hcut
      rw [show c1.addr = c.addr from rfl] at hnext2
      have hkept' : Kept (before ++ c :: after) a b2 := by
        refine (hkept.trans (?_ : Grows _ (before ++ [c1])) hkept1).trans
          (?_ : Grows _ (before ++ c1 :: [n])) hkept2
        · exact grows_mid rfl hused hle hrest.ge
        · exact grows_mid rfl hused hle (by rw [used_cons_of_free rfl, hrest])
      have h4 := h3.grown (c := c) (hle.trans (le_absorb 16 c1 n)) hkept' hused haddr hrest fun hl => by
        have hjoin := coalesced_joined (c := c) (s := (absorb 16 c1 n).size) hused hl
        rwa [hempty] at hjoin
      refine ⟨some (c.addr + 16), b3, ?_, h4.kept.mutex, .inr (h4.outcome haddr), fun _ =>
        iff_of_false (Option.some_ne_none _) fun hun => hroom ((hfull _).mpr hun.2.2)⟩
      rw [show (gcaCoalesceNext c.addr b1).2 = b2 from congrArg Prod.snd hnext2, hcut]
  · rw [if_neg fun hsentinel => hempty (h.tagged.isSentinel_iff.mp hsentinel)]
    rw [Unresizable, if_neg hempty]
    simpa only [and_iff_right hsmall] using hmove

theorem gcaRealloc_eq {ptr : Nat} (hheap : a.heap ≠ 0) (hsize : size ≠ 0) (hptr : ptr ≠ 0) :
    gcaRealloc ptr size a = reallocBlock ptr size (htfhLockLockHandled a) := by
  rw [gcaRealloc, if_neg (by omega)]
  exact if_neg hptr

/-- Resizing a used chunk for a size that does not wrap when it is rounded. -/
theorem Whole.realloc (h : Whole (before ++ c :: after) top fl a) (size : Nat) (hused : c.used)
    (hpos : size ≠ 0) (hsize : size ≤ 2 ^ 64 - 4112) :
    ∃ r a', gcaRealloc (c.addr + 16) size a = some (r, a') ∧ a'.mutex = a.mutex ∧
      ResizeOutcome before c after top size a r a' ∧ (a.heapSize < 2 ^ 63 →
        (r = none ↔ Unresizable before c after top (gcaRoundUp size gcaDataAlign) a)) := by
  have hc : c ∈ before ++ c :: after := by simp
  have hheap := h.tagged.pos
  have hlock := h.sameHeap (sameHeap_lock a)
  have hdata := gcaDataToHeader_eq h.tagged hc
  have hfinish : ∀ r b s, b.mutex = a.mutex + 1 →
      ResizeOutcome before c after top size (htfhLockLockHandled a) r b →
      (a.heapSize < 2 ^ 63 → (r = none ↔ Unresizable before c after top s a)) →
      ∃ r' a', some (unlockReturning r b) = some (r', a') ∧ a'.mutex = a.mutex ∧
        ResizeOutcome before c after top size a r' a' ∧
        (a.heapSize < 2 ^ 63 → (r' = none ↔ Unresizable before c after top s a)) := by
    intro r b s hmutex hout hr
    refine ⟨r, _, congrArg some (unlockReturning_eq hmutex r), rfl, ?_, hr⟩
    rcases hout with ⟨rfl, fl', h1, hkept⟩ | ⟨d, l', top', fl', rfl, h1⟩
    · exact .inl ⟨rfl, fl', h1.sameHeap (sameHeap_unlocked _ _), hkept.unlock⟩
    · exact .inr ⟨d, l', top', fl', rfl, h1.unlock⟩
  have hdvd : 16 ∣ gcaRoundUp size gcaDataAlign := by
    rw [gcaRoundUp_align]
    exact Nat.dvd_mul_left _ _
  have hbound : 16 ≤ gcaRoundUp size gcaDataAlign ∧ gcaRoundUp size gcaDataAlign ≤ 2 ^ 64 - 4112 ∧
      size ≤ gcaRoundUp size gcaDataAlign := by
    rw [gcaRoundUp_align]
    omega
  rw [gcaRealloc_eq (by omega) hpos (by omega), reallocBlock, hdata, hlock.tagged.size_curr hc]
  generalize hround : gcaRoundUp size gcaDataAlign = s at hdvd hbound ⊢
  obtain ⟨hmin, hmax, hle⟩ := hbound
  have hfit : ∀ {p : Nat}, s ≤ joinSize 16 c after → a.heapSize < 2 ^ 63 →
      (some p = none ↔ Unresizable before c after top s a) := by
    exact fun hs _ => iff_of_false (Option.some_ne_none _) fun hun => hs.not_gt hun.1
  by_cases hfits : s ≤ c.size
  · obtain ⟨b, fl', hcut, h1⟩ := hlock.cut size hused hmin hdvd hfits hle
    rw [if_pos hfits, hcut]
    exact hfinish _ b s h1.kept.mutex (.inr (h1.outcome rfl)) (hfit (hfits.trans le_joinSize))
  rw [if_neg hfits]
  obtain ⟨b, fl', hnext, h1, hkept⟩ := hlock.coalesceNext
  rw [hnext, reallocJoined, hdata]
  have hjoined := h1
  rw [joinNext_eq] at h1
  set c1 : Chunk := { c with size := joinSize 16 c after } with hc1
  have hsize1 : gcaSize .curr b.mem c.addr = c1.size := h1.tagged.size_curr (c := c1) (by simp)
  rw [hsize1]
  by_cases hlarge : s ≤ c1.size
  · have hjoins : joins after := by
      cases after with
      | nil => exact absurd hlarge hfits
      | cons d after =>
        by_contra hd
        have hdused : d.used := by simpa [joins] using hd
        rw [hc1, joinSize, if_pos hdused] at hlarge
        exact hfits hlarge
    obtain ⟨b2, fl2, hcut, h2⟩ := h1.cut size hused hmin hdvd hlarge hle
    have h3 := h2.grown (c := c) le_joinSize hkept hused rfl used_joinRest (coalesced_joined hused)
    rw [if_pos ⟨hjoins, hlarge⟩]
    have hcut' : reallocCut (c.addr + 16) s b = unlockReturning (some (c.addr + 16)) b2 := hcut
    rw [hcut']
    exact hfinish _ b2 s h3.kept.mutex (.inr (h3.outcome rfl)) (hfit hlarge)
  · rw [if_neg fun hin => hlarge hin.2]
    obtain ⟨r, b2, heq, hmutex, hout, hr⟩ := hjoined.extend size hkept hused hdvd hmax (by
      simpa [hc1] using hlarge) hle hround
    rw [heq]
    exact hfinish r b2 s hmutex hout hr

end Gca
