import SearchCache.Heap.GlibcHeaders
import SearchCache.Lib.Linked

/-! What it means for the memory of the allocator to hold a list of chunks and a list of free ones,
and what linking and unlinking a chunk do to it. -/

namespace Gca

open Memory Htfh Chunks Linked

/-- The region holds the chunks `l` up to the sentinel at `top`, each with its size and use bit in its
own header and in the one after it. -/
structure Tagged (l : List Chunk) (top : Nat) (a : GlibcAllocator) : Prop where
  pos : 0 < a.heap
  dvd : 16 ∣ a.heap
  room : a.heap + a.heapSize < 2 ^ 64
  brk : a.currentBrk = top + 16
  within : a.currentBrk ≤ a.heap + a.heapSize
  tiles : Tiles 16 a.heap l top
  sized : Sized 16 l
  bottom : tagAt a.mem a.heap = ⟨0, true⟩
  sentinel : tagAt a.mem (top + 8) = ⟨0, true⟩
  head : ∀ c ∈ l, tagAt a.mem (c.addr + 8) = tagOf c
  foot : ∀ c ∈ l, tagAt a.mem (c.stop 16) = tagOf c

/-- The free list links the chunks at `fl`, which are free. -/
structure Listed (fl : List Nat) (l : List Chunk) (a : GlibcAllocator) : Prop where
  links : Dll (fun h => toPtr (nextFree a.mem h)) (fun h => toPtr (prevFree a.mem h))
    (toPtr a.freeList) fl.getLast? fl
  free : ∀ h ∈ fl, ∃ c ∈ l, c.addr = h ∧ c.used = false

structure Rep (l : List Chunk) (top : Nat) (fl : List Nat) (a : GlibcAllocator) : Prop where
  tagged : Tagged l top a
  listed : Listed fl l a

/-- Only bytes that `P` holds of may differ, and the region is the same. -/
structure SameBut (P : Nat → Prop) (a a' : GlibcAllocator) : Prop where
  heap : a'.heap = a.heap
  heapSize : a'.heapSize = a.heapSize
  currentBrk : a'.currentBrk = a.currentBrk
  mutex : a'.mutex = a.mutex
  byte : ∀ x, ¬P x → a'.mem.byte x = a.mem.byte x

/-- Every used chunk is still there, and may have grown. -/
def Grows (l l' : List Chunk) : Prop :=
  ∀ c ∈ l, c.used → ∃ d ∈ l', d.used ∧ d.addr = c.addr ∧ c.size ≤ d.size

/-- The payloads of the used chunks are the same. -/
structure Kept (l : List Chunk) (a a' : GlibcAllocator) : Prop where
  heap : a'.heap = a.heap
  heapSize : a'.heapSize = a.heapSize
  mutex : a'.mutex = a.mutex
  byte : ∀ c ∈ l, c.used → ∀ x, c.addr + 16 ≤ x → x < c.stop 16 → a'.mem.byte x = a.mem.byte x

variable {l l' before after : List Chunk} {top h : Nat} {fl : List Nat} {a a' a'' : GlibcAllocator}
  {c d : Chunk} {P : Nat → Prop}

theorem Grows.refl (l : List Chunk) : Grows l l := fun c hc hused => ⟨c, hc, hused, rfl, le_rfl⟩

theorem Grows.trans {l'' : List Chunk} (h : Grows l l') (h' : Grows l' l'') : Grows l l'' := by
  intro c hc hused
  obtain ⟨d, hd, hdused, haddr, hle⟩ := h c hc hused
  obtain ⟨e, he, heused, haddr', hle'⟩ := h' d hd hdused
  exact ⟨e, he, heused, haddr'.trans haddr, hle.trans hle'⟩

theorem Grows.of_used (h : Used l ⊆ Used l') : Grows l l' :=
  fun c hc hused => ⟨c, (h ⟨hc, hused⟩).1, hused, rfl, le_rfl⟩

theorem Kept.refl (l : List Chunk) (a : GlibcAllocator) : Kept l a a :=
  ⟨rfl, rfl, rfl, fun _ _ _ _ _ _ => rfl⟩

theorem Kept.trans (h : Kept l a a') (hgrows : Grows l l') (h' : Kept l' a' a'') : Kept l a a'' where
  heap := h'.heap.trans h.heap
  heapSize := h'.heapSize.trans h.heapSize
  mutex := h'.mutex.trans h.mutex
  byte c hc hused x hle hlt := by
    obtain ⟨d, hd, hdused, haddr, hsize⟩ := hgrows c hc hused
    refine (h'.byte d hd hdused x (by omega) ?_).trans (h.byte c hc hused x hle hlt)
    simp only [Chunk.stop] at hlt ⊢
    omega

theorem SameBut.kept (h : SameBut P a a')
    (hP : ∀ x, P x → ∀ c ∈ l, c.used → ¬(c.addr + 16 ≤ x ∧ x < c.stop 16)) : Kept l a a' :=
  ⟨h.heap, h.heapSize, h.mutex, fun c hc hused x hle hlt =>
    h.byte x fun hx => hP x hx c hc hused ⟨hle, hlt⟩⟩

theorem SameBut.tagAt (h : SameBut P a a') {A : Nat} (hA : ∀ x, A ≤ x → x < A + 8 → ¬P x) :
    tagAt a'.mem A = tagAt a.mem A :=
  congrArg toTag (read64_congr fun x hle hlt => h.byte x (hA x hle hlt))

/-! ### Reading the headers -/

theorem Tagged.lt (h : Tagged l top a) (hc : c ∈ l) :
    a.heap ≤ c.addr ∧ c.addr + 32 ≤ c.stop 16 ∧ c.stop 16 ≤ top ∧ top + 16 < 2 ^ 64 := by
  have hbounds := h.tiles.bounds hc
  have hsize := (h.sized c hc).1
  have hbrk := h.brk
  have hwithin := h.within
  have hroom := h.room
  refine ⟨hbounds.1, ?_, hbounds.2, by omega⟩
  simp only [Chunk.stop]
  omega

theorem Tagged.dvd_addr (h : Tagged l top a) (hc : c ∈ l) : 16 ∣ c.addr :=
  (h.tiles.dvd h.sized h.dvd).1 c hc

theorem Tagged.dvd_top (h : Tagged l top a) : 16 ∣ top := (h.tiles.dvd h.sized h.dvd).2

theorem Tagged.dvd_stop (h : Tagged l top a) (hc : c ∈ l) : 16 ∣ c.stop 16 :=
  Nat.dvd_add (Nat.dvd_add (h.dvd_addr hc) (Nat.dvd_refl 16)) (h.sized c hc).2

theorem Tagged.size_curr (h : Tagged l top a) (hc : c ∈ l) : gcaSize .curr a.mem c.addr = c.size := by
  rw [gcaSize_curr, h.head c hc, tagOf]

theorem Tagged.used_curr (h : Tagged l top a) (hc : c ∈ l) :
    gcaUsed .curr a.mem c.addr = c.used.toNat := by
  rw [gcaUsed_curr, h.head c hc, tagOf]

theorem Tagged.size_prev (h : Tagged l top a) (hc : c ∈ l) :
    gcaSize .prev a.mem (c.stop 16) = c.size := by
  rw [gcaSize_prev, h.foot c hc, tagOf]

theorem Tagged.used_prev (h : Tagged l top a) (hc : c ∈ l) :
    gcaUsed .prev a.mem (c.stop 16) = c.used.toNat := by
  rw [gcaUsed_prev, h.foot c hc, tagOf]

theorem Tagged.used_bottom (h : Tagged l top a) : gcaUsed .prev a.mem a.heap = 1 := by
  rw [gcaUsed_prev, h.bottom, Bool.toNat_true]

theorem Tagged.used_top (h : Tagged l top a) : gcaUsed .curr a.mem top = 1 := by
  rw [gcaUsed_curr, h.sentinel, Bool.toNat_true]

theorem Tagged.size_top (h : Tagged l top a) : gcaSize .curr a.mem top = 0 := by
  rw [gcaSize_curr, h.sentinel]

theorem gcaNext_eq {m : Mem} {s : Nat} (hsize : gcaSize .curr m h = s) (hlt : h + 16 + s < 2 ^ 64) :
    gcaNext m h = h + 16 + s := by
  rw [gcaNext, hsize, gcaHeaderToData]
  simp only [add64, gcaInfoSize]
  omega

theorem Tagged.next (h : Tagged l top a) (hc : c ∈ l) : gcaNext a.mem c.addr = c.stop 16 := by
  have hlt := h.lt hc
  exact gcaNext_eq (h.size_curr hc) (by simp only [Chunk.stop] at hlt; omega)

/-! ### Stores to payloads -/

/-- The bytes of the payloads. -/
def Payload (l : List Chunk) (x : Nat) : Prop := ∃ c ∈ l, c.addr + 16 ≤ x ∧ x < c.stop 16

/-- A word that starts a header or ends one lies outside of the payloads. -/
theorem Tagged.not_payload (h : Tagged l top a) {A : Nat}
    (hA : A = a.heap ∨ A = top + 8 ∨ (∃ c ∈ l, A = c.addr + 8) ∨ ∃ c ∈ l, A = c.stop 16) :
    ∀ x, A ≤ x → x < A + 8 → ¬Payload l x := by
  rintro x hle hlt ⟨d, hd, hdle, hdlt⟩
  have hdb := h.lt hd
  rcases hA with rfl | rfl | ⟨c, hc, rfl⟩ | ⟨c, hc, rfl⟩
  · omega
  · omega
  · have hcb := h.lt hc
    rcases h.tiles.apart hc hd with rfl | hcd | hcd <;> omega
  · have hcb := h.lt hc
    rcases h.tiles.apart hc hd with rfl | hcd | hcd <;> omega

theorem Tagged.congr (h : Tagged l top a) (same : SameBut P a a') (hP : ∀ x, P x → Payload l x) :
    Tagged l top a' where
  pos := same.heap ▸ h.pos
  dvd := same.heap ▸ h.dvd
  room := by rw [same.heap, same.heapSize]; exact h.room
  brk := same.currentBrk.trans h.brk
  within := by rw [same.currentBrk, same.heap, same.heapSize]; exact h.within
  tiles := same.heap ▸ h.tiles
  sized := h.sized
  bottom := by
    rw [same.heap, same.tagAt fun x hle hlt hx =>
      h.not_payload (.inl rfl) x hle hlt (hP x hx)]
    exact h.bottom
  sentinel := by
    rw [same.tagAt fun x hle hlt hx =>
      h.not_payload (.inr (.inl rfl)) x hle hlt (hP x hx)]
    exact h.sentinel
  head c hc := by
    rw [same.tagAt fun x hle hlt hx =>
      h.not_payload (.inr (.inr (.inl ⟨c, hc, rfl⟩))) x hle hlt (hP x hx)]
    exact h.head c hc
  foot c hc := by
    rw [same.tagAt fun x hle hlt hx =>
      h.not_payload (.inr (.inr (.inr ⟨c, hc, rfl⟩))) x hle hlt (hP x hx)]
    exact h.foot c hc

/-! ### The free list -/

theorem toPtr_some {v : Nat} : toPtr v = some h ↔ v = h ∧ h ≠ 0 := by
  unfold toPtr
  split
  · rename_i hv
    simp only [reduceCtorEq, false_iff, not_and, ne_eq, not_not]
    omega
  · rename_i hv
    simp only [Option.some.injEq]
    omega

theorem toPtr_none {v : Nat} : toPtr v = none ↔ v = 0 := by
  unfold toPtr
  split <;> simp [*]

theorem toPtr_getD (v : Nat) : (toPtr v).getD 0 = v := by
  unfold toPtr
  split <;> simp [*]

section

variable (hrep : Rep l top fl a)
include hrep

theorem Rep.node (hh : h ∈ fl) : h ≠ 0 ∧ 16 ∣ h ∧ h + 32 < 2 ^ 64 := by
  obtain ⟨c, hc, rfl, -⟩ := hrep.listed.free h hh
  have hlt := hrep.tagged.lt hc
  have hpos := hrep.tagged.pos
  exact ⟨by omega, hrep.tagged.dvd_addr hc, by omega⟩

theorem Rep.freeList_eq : a.freeList = fl.head?.getD 0 := by
  rw [← hrep.listed.links.head_eq, toPtr_getD]

theorem Rep.nextFree_eq {front back : List Nat} (hfl : fl = front ++ h :: back) :
    nextFree a.mem h = back.head?.getD 0 := by
  have hlinks := hrep.listed.links
  rw [hfl] at hlinks
  have hnext : toPtr (nextFree a.mem h) = back.head? := hlinks.next_eq
  rw [← hnext, toPtr_getD]

theorem Rep.prevFree_eq {front back : List Nat} (hfl : fl = front ++ h :: back) :
    prevFree a.mem h = front.getLast?.getD 0 := by
  have hlinks := hrep.listed.links
  rw [hfl] at hlinks
  have hprev : toPtr (prevFree a.mem h) = front.getLast? := hlinks.prev_eq
  rw [← hprev, toPtr_getD]

end

section

variable {x : Nat}

theorem nextFree_write {v : Nat} (hx : 16 ∣ x) (hh : 16 ∣ h) (hv : v < 2 ^ 64) (m : Mem) :
    nextFree (setNextFree h v m) x = if x = h then v else nextFree m x := by
  rw [nextFree, setNextFree, read64_write64 (by omega) (by omega), Nat.mod_eq_of_lt hv]
  exact if_congr (by omega) rfl rfl

theorem prevFree_write {v : Nat} (hx : 16 ∣ x) (hh : 16 ∣ h) (hv : v < 2 ^ 64) (m : Mem) :
    prevFree (setPrevFree h v m) x = if x = h then v else prevFree m x := by
  rw [prevFree, setPrevFree, read64_write64 (by omega) (by omega), Nat.mod_eq_of_lt hv]
  exact if_congr (by omega) rfl rfl

theorem nextFree_setPrevFree (hx : 16 ∣ x) (hh : 16 ∣ h) (m : Mem) (v : Nat) :
    nextFree (setPrevFree h v m) x = nextFree m x := by
  rw [nextFree, setPrevFree, read64_write64 (by omega) (by omega), if_neg (by omega), nextFree]

theorem prevFree_setNextFree (hx : 16 ∣ x) (hh : 16 ∣ h) (m : Mem) (v : Nat) :
    prevFree (setNextFree h v m) x = prevFree m x := by
  rw [prevFree, setNextFree, read64_write64 (by omega) (by omega), if_neg (by omega), prevFree]

theorem nextFree_addFreeList (hx : 16 ∣ x) (hh : 16 ∣ h) (hlist : 16 ∣ a.freeList)
    (hlt : a.freeList < 2 ^ 64) :
    nextFree (gcaAddFreeList h a).mem x = if x = h then a.freeList else nextFree a.mem x := by
  have hlinked : nextFree (setNextFree h a.freeList (setPrevFree h 0 a.mem)) x =
      if x = h then a.freeList else nextFree a.mem x := by
    rw [nextFree_write hx hh hlt, nextFree_setPrevFree hx hh]
  by_cases hzero : a.freeList = 0
  · simpa [gcaAddFreeList, setMem, hzero] using hlinked
  · simpa [gcaAddFreeList, setMem, hzero, nextFree_setPrevFree hx hlist] using hlinked

theorem prevFree_addFreeList (hx : 16 ∣ x) (hh : 16 ∣ h) (hlist : 16 ∣ a.freeList)
    (hlt : h < 2 ^ 64) : prevFree (gcaAddFreeList h a).mem x =
      if a.freeList ≠ 0 ∧ x = a.freeList then h else if x = h then 0 else prevFree a.mem x := by
  have hlinked : prevFree (setNextFree h a.freeList (setPrevFree h 0 a.mem)) x =
      if x = h then 0 else prevFree a.mem x := by
    rw [prevFree_setNextFree hx hh, prevFree_write hx hh (by decide)]
  by_cases hzero : a.freeList = 0
  · simpa [gcaAddFreeList, setMem, hzero] using hlinked
  · simpa [gcaAddFreeList, setMem, hzero, prevFree_write hx hlist hlt] using
      if_congr (Iff.refl (x = a.freeList)) rfl hlinked

/-- The memory after unlinking. -/
theorem removeFreeList_mem (h : Nat) (a : GlibcAllocator) : (gcaRemoveFreeList h a).mem =
    let m := if prevFree a.mem h ≠ 0 then setNextFree (prevFree a.mem h) (nextFree a.mem h) a.mem
      else a.mem
    if nextFree a.mem h ≠ 0 then setPrevFree (nextFree a.mem h) (prevFree a.mem h) m else m := by
  simp only [gcaRemoveFreeList, setMem]
  split_ifs <;> rfl

theorem nextFree_removeFreeList (hx : 16 ∣ x) (hprev : 16 ∣ prevFree a.mem h)
    (hnext : 16 ∣ nextFree a.mem h) : nextFree (gcaRemoveFreeList h a).mem x =
      if prevFree a.mem h ≠ 0 ∧ x = prevFree a.mem h then nextFree a.mem h
      else nextFree a.mem x := by
  have hwrite := nextFree_write hx hprev (read64_lt a.mem (h + 24)) a.mem
  rw [← nextFree] at hwrite
  rw [removeFreeList_mem]
  split_ifs <;> simp_all [nextFree_setPrevFree]

theorem prevFree_removeFreeList (hx : 16 ∣ x) (hprev : 16 ∣ prevFree a.mem h)
    (hnext : 16 ∣ nextFree a.mem h) : prevFree (gcaRemoveFreeList h a).mem x =
      if nextFree a.mem h ≠ 0 ∧ x = nextFree a.mem h then prevFree a.mem h
      else prevFree a.mem x := by
  have hwrite := prevFree_write hx hnext (read64_lt a.mem (h + 16))
  rw [← prevFree] at hwrite
  rw [removeFreeList_mem]
  split_ifs <;> simp_all [prevFree_setNextFree]

end

/-- The words that the links of the nodes in `ns` are in. -/
def LinkBytes (ns : List Nat) (x : Nat) : Prop := ∃ n ∈ ns, n ≠ 0 ∧ n + 16 ≤ x ∧ x < n + 32

theorem Stores.of_links {E N : List Nat} {m m' : Mem} (h : Stores E m m')
    (hE : ∀ A ∈ E, ∃ n ∈ N, n ≠ 0 ∧ (A = n + 16 ∨ A = n + 24)) {x : Nat} (hx : ¬LinkBytes N x) :
    m'.byte x = m.byte x := by
  refine h x fun A hA => ?_
  obtain ⟨n, hn, hpos, hA⟩ := hE A hA
  have hnot : ¬(n + 16 ≤ x ∧ x < n + 32) := fun hin => hx ⟨n, hn, hpos, hin⟩
  omega

theorem sameBut_addFreeList (hh : h ≠ 0) :
    SameBut (LinkBytes [h, a.freeList]) a (gcaAddFreeList h a) := by
  have hstores : Stores [h + 16, h + 24] a.mem
      (setNextFree h a.freeList (setPrevFree h 0 a.mem)) :=
    Stores.trans (E := [h + 16]) (stores_write64 _ _ _) (stores_write64 _ _ _)
  by_cases hzero : a.freeList = 0
  · refine ⟨?_, ?_, ?_, ?_, fun x hx => ?_⟩ <;> simp only [gcaAddFreeList, setMem, hzero, ne_eq,
      not_true_eq_false, ↓reduceIte]
    rw [hzero] at hstores
    refine hstores.of_links (N := [h, a.freeList]) ?_ hx
    simp [hh]
  · refine ⟨?_, ?_, ?_, ?_, fun x hx => ?_⟩ <;> simp only [gcaAddFreeList, setMem, hzero, ne_eq,
      not_false_eq_true, ↓reduceIte]
    refine (hstores.trans (stores_write64 _ (a.freeList + 16) h)).of_links
      (N := [h, a.freeList]) ?_ hx
    simp [hh, hzero]

theorem sameBut_removeFreeList (h : Nat) (a : GlibcAllocator) :
    SameBut (LinkBytes [prevFree a.mem h, nextFree a.mem h]) a (gcaRemoveFreeList h a) := by
  refine ⟨?_, ?_, ?_, ?_, fun x hx => ?_⟩
  any_goals simp only [gcaRemoveFreeList, setMem]; split_ifs <;> rfl
  have hnext := stores_write64 a.mem (prevFree a.mem h + 24) (nextFree a.mem h)
  have hprev := fun m => stores_write64 m (nextFree a.mem h + 16) (prevFree a.mem h)
  rw [removeFreeList_mem]
  split_ifs with hp hn hn
  · refine (hnext.trans (hprev _)).of_links (N := [prevFree a.mem h, nextFree a.mem h]) ?_ hx
    simp [hp, hn]
  · refine hnext.of_links (N := [prevFree a.mem h, nextFree a.mem h]) ?_ hx
    simp [hp]
  · refine (hprev a.mem).of_links (N := [prevFree a.mem h, nextFree a.mem h]) ?_ hx
    simp [hn]
  · rfl

/-- The links of free chunks lie in their payloads. -/
theorem Tagged.payload_of_link (h : Tagged l top a) {N : List Nat}
    (hN : ∀ n ∈ N, n ≠ 0 → ∃ c ∈ l, c.addr = n ∧ c.used = false) {x : Nat} (hx : LinkBytes N x) :
    ∃ c ∈ l, c.used = false ∧ c.addr + 16 ≤ x ∧ x < c.stop 16 := by
  obtain ⟨n, hn, hpos, hle, hlt⟩ := hx
  obtain ⟨c, hc, rfl, hfree⟩ := hN n hn hpos
  have hbounds := h.lt hc
  exact ⟨c, hc, hfree, hle, by omega⟩

/-- Linking and unlinking free chunks. -/
theorem Tagged.relink (h : Tagged l top a) {N : List Nat}
    (hN : ∀ n ∈ N, n ≠ 0 → ∃ c ∈ l, c.addr = n ∧ c.used = false)
    (same : SameBut (LinkBytes N) a a') : Tagged l top a' ∧ Kept l a a' := by
  refine ⟨h.congr same fun x hx => ?_, same.kept fun x hx c hc hused hin => ?_⟩
  · obtain ⟨c, hc, -, hin⟩ := h.payload_of_link hN hx
    exact ⟨c, hc, hin⟩
  · obtain ⟨d, hd, hfree, hle, hlt⟩ := h.payload_of_link hN hx
    rcases h.tiles.apart hc hd with rfl | hcd | hcd
    · simp [hused] at hfree
    · omega
    · omega

theorem Rep.dvd_freeList (hrep : Rep l top fl a) : 16 ∣ a.freeList := by
  rw [hrep.freeList_eq]
  cases fl with
  | nil => exact Nat.dvd_zero 16
  | cons n fl => exact (hrep.node (by simp)).2.1

theorem Rep.freeList_mem (hrep : Rep l top fl a) (hpos : a.freeList ≠ 0) : a.freeList ∈ fl := by
  rw [hrep.freeList_eq] at hpos ⊢
  cases fl with
  | nil => simp at hpos
  | cons n fl => simp

/-- A free chunk goes to the front of the free list. -/
theorem Rep.addFreeList (hrep : Rep l top fl a) (hc : c ∈ l) (hfree : c.used = false)
    (hnot : c.addr ∉ fl) :
    Rep l top (c.addr :: fl) (gcaAddFreeList c.addr a) ∧ Kept l a (gcaAddFreeList c.addr a) := by
  have hlt := hrep.tagged.lt hc
  have hpos := hrep.tagged.pos
  have hdvd := hrep.tagged.dvd_addr hc
  have hlist := hrep.dvd_freeList
  have hhead := hrep.freeList_eq
  have hlinks := hrep.listed.links
  obtain ⟨htagged, hkept⟩ := hrep.tagged.relink (N := [c.addr, a.freeList]) (fun n hn hn0 => by
    rcases List.mem_pair.mp hn with rfl | rfl
    · exact ⟨c, hc, rfl, hfree⟩
    · exact hrep.listed.free _ (hrep.freeList_mem hn0)) (sameBut_addFreeList (by omega))
  have hfl : a.freeList < 2 ^ 64 := by
    by_cases h0 : a.freeList = 0
    · omega
    · have := (hrep.node (hrep.freeList_mem h0)).2.2
      omega
  have hnext : ∀ x, 16 ∣ x → nextFree (gcaAddFreeList c.addr a).mem x =
      if x = c.addr then a.freeList else nextFree a.mem x :=
    fun x hx => nextFree_addFreeList hx hdvd hlist hfl
  have hprev : ∀ x, 16 ∣ x → prevFree (gcaAddFreeList c.addr a).mem x =
      if a.freeList ≠ 0 ∧ x = a.freeList then c.addr else if x = c.addr then 0
      else prevFree a.mem x := fun x hx => prevFree_addFreeList hx hdvd hlist (by omega)
  have hfront : toPtr (gcaAddFreeList c.addr a).freeList = some c.addr :=
    toPtr_some.mpr ⟨rfl, by omega⟩
  have hself : a.freeList ≠ c.addr ∨ a.freeList = 0 := by
    by_cases h0 : a.freeList = 0
    · exact .inr h0
    · exact .inl fun heq => hnot (heq ▸ hrep.freeList_mem h0)
  refine ⟨⟨htagged, ?_, fun n hn => ?_⟩, hkept⟩
  · rw [hfront]
    refine hlinks.pushFront ?_ (fun y hy => ?_) ?_ ?_ (fun y hy hne => ?_) fun y hy => ?_
    · cases fl <;> simp
    · have hmem := List.mem_of_mem_head? hy
      have hy' : a.freeList = y := by rw [hhead, hy, Option.getD_some]
      rw [hprev y (hrep.node hmem).2.1, if_pos ⟨hy' ▸ (hrep.node hmem).1, hy'.symm⟩]
      exact toPtr_some.mpr ⟨rfl, by omega⟩
    · rw [hprev _ hdvd, if_neg (by omega), if_pos rfl]
      rfl
    · rw [hnext _ hdvd, if_pos rfl]
    · have hy' : ¬(a.freeList ≠ 0 ∧ y = a.freeList) := by
        rintro ⟨h0, rfl⟩
        refine hne ?_
        rw [← hlinks.head_eq, toPtr_some]
        exact ⟨rfl, h0⟩
      have hyc : y ≠ c.addr := fun heq => hnot (heq ▸ hy)
      rw [hprev y (hrep.node hy).2.1, if_neg hy', if_neg hyc]
    · have hyc : y ≠ c.addr := fun heq => hnot (heq ▸ hy)
      rw [hnext y (hrep.node hy).2.1, if_neg hyc]
  · rcases List.mem_cons.mp hn with rfl | hn
    · exact ⟨c, hc, rfl, hfree⟩
    · exact hrep.listed.free n hn

/-- A chunk is taken out of the free list. -/
theorem Rep.removeFreeList (hrep : Rep l top fl a) (hh : h ∈ fl) :
    Rep l top (fl.erase h) (gcaRemoveFreeList h a) ∧ Kept l a (gcaRemoveFreeList h a) := by
  have hlinks := hrep.listed.links
  have hnodup := hlinks.nodup
  obtain ⟨front, back, hfl⟩ := List.append_of_mem hh
  have hnextEq := hrep.nextFree_eq hfl
  have hprevEq := hrep.prevFree_eq hfl
  have hnextMem : nextFree a.mem h ≠ 0 → back.head? = some (nextFree a.mem h) := by
    rw [hnextEq]
    cases back.head? with
    | none => simp
    | some n => simp
  have hprevMem : prevFree a.mem h ≠ 0 → front.getLast? = some (prevFree a.mem h) := by
    rw [hprevEq]
    cases front.getLast? with
    | none => simp
    | some n => simp
  have hmem : ∀ n, n ∈ front ++ back → n ∈ fl := by
    intro n hn
    rw [hfl]
    simp only [List.mem_append, List.mem_cons] at hn ⊢
    exact hn.imp_right .inr
  have hmemNext : nextFree a.mem h ≠ 0 → nextFree a.mem h ∈ fl := fun hn =>
    hmem _ (List.mem_append_right _ (List.mem_of_mem_head? (hnextMem hn)))
  have hmemPrev : prevFree a.mem h ≠ 0 → prevFree a.mem h ∈ fl := fun hn =>
    hmem _ (List.mem_append_left _ (List.mem_of_getLast? (hprevMem hn)))
  have hdvdNext : 16 ∣ nextFree a.mem h := by
    by_cases h0 : nextFree a.mem h = 0
    · rw [h0]
      exact Nat.dvd_zero 16
    · exact (hrep.node (hmemNext h0)).2.1
  have hdvdPrev : 16 ∣ prevFree a.mem h := by
    by_cases h0 : prevFree a.mem h = 0
    · rw [h0]
      exact Nat.dvd_zero 16
    · exact (hrep.node (hmemPrev h0)).2.1
  obtain ⟨htagged, hkept⟩ := hrep.tagged.relink
    (N := [prevFree a.mem h, nextFree a.mem h]) (fun n hn hn0 => by
      rcases List.mem_pair.mp hn with hn | hn <;> rw [hn] at hn0 ⊢
      · exact hrep.listed.free _ (hmemPrev hn0)
      · exact hrep.listed.free _ (hmemNext hn0)) (sameBut_removeFreeList h a)
  have herase : fl.erase h = front ++ back := by
    rw [hfl, List.erase_append_right _ fun hmem => ?_, List.erase_cons_head]
    rw [hfl] at hnodup
    exact (List.disjoint_of_nodup_append hnodup) hmem (by simp)
  refine ⟨⟨htagged, ?_, fun n hn => hrep.listed.free n (List.mem_of_mem_erase hn)⟩, hkept⟩
  have hnext : ∀ x, 16 ∣ x → nextFree (gcaRemoveFreeList h a).mem x =
      if prevFree a.mem h ≠ 0 ∧ x = prevFree a.mem h then nextFree a.mem h
      else nextFree a.mem x := fun x hx => nextFree_removeFreeList hx hdvdPrev hdvdNext
  have hprev : ∀ x, 16 ∣ x → prevFree (gcaRemoveFreeList h a).mem x =
      if nextFree a.mem h ≠ 0 ∧ x = nextFree a.mem h then prevFree a.mem h
      else prevFree a.mem x := fun x hx => prevFree_removeFreeList hx hdvdPrev hdvdNext
  have hfreeList : (gcaRemoveFreeList h a).freeList =
      if a.freeList = h then nextFree a.mem h else a.freeList := by
    simp only [gcaRemoveFreeList, setMem]
    split_ifs <;> rfl
  have hhead : a.freeList = h ↔ front = [] := by
    rw [hrep.freeList_eq, hfl]
    cases front with
    | nil => simp
    | cons n front =>
      rw [hfl] at hnodup
      simp only [List.cons_append, List.head?_cons, Option.getD_some, reduceCtorEq, iff_false]
      rintro rfl
      simp at hnodup
  rw [herase, hfreeList]
  rw [hfl] at hlinks
  have hlast : toPtr (prevFree a.mem h) = front.getLast? := hlinks.prev_eq
  refine hlinks.unlink ?_ ?_ (fun y hy => ?_) (fun y hy => ?_) (fun y hy hne => ?_)
    fun y hy hne => ?_
  · simp only [hhead]
    split_ifs <;> rfl
  · cases back with
    | nil => rw [if_pos rfl, List.append_nil, hlast]
    | cons n back => simp
  · have hy' : prevFree a.mem h = y := by rw [hprevEq, hy, Option.getD_some]
    have hnode := hrep.node (hmem y (List.mem_append_left _ (List.mem_of_getLast? hy)))
    rw [hnext y hnode.2.1, if_pos ⟨hy' ▸ hnode.1, hy'.symm⟩]
  · have hy' : nextFree a.mem h = y := by rw [hnextEq, hy, Option.getD_some]
    have hnode := hrep.node (hmem y (List.mem_append_right _ (List.mem_of_mem_head? hy)))
    rw [hprev y hnode.2.1, if_pos ⟨hy' ▸ hnode.1, hy'.symm⟩]
  · rw [hnext y (hrep.node (hmem y hy)).2.1, if_neg]
    rintro ⟨hn, heq⟩
    exact hne (heq ▸ hprevMem hn)
  · rw [hprev y (hrep.node (hmem y hy)).2.1, if_neg]
    rintro ⟨hn, heq⟩
    exact hne (heq ▸ hnextMem hn)

end Gca
