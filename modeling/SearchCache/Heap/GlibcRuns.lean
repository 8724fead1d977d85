import SearchCache.Heap.GlibcSpecs
import SearchCache.Lib.Runs

/-! Runs of the second allocator from `gca_create` on, by clients that free and resize live pointers
and write inside of live payloads only: the heap stays in order. -/

namespace Gca

open Memory Htfh Chunks Linked

/-! ### The new heap -/

section Create

variable {heapSize heap : Nat} {a : GlibcAllocator}

/-- What `mmap` returns for a region that the code can work with: pages of the address space, not the
first one. -/
structure Mapped (heapSize heap : Nat) : Prop where
  pos : 0 < heap
  dvd : 4096 ∣ heap
  high : heap + heapSize < 2 ^ 64
  large : gcaSbrkAlign ≤ heapSize
  small : heapSize < 2 ^ 63

/-- The one chunk of a new heap. -/
def bottomChunk (heap : Nat) : Chunk := ⟨heap, 4064, false⟩

/-- The allocator that `gca_create` has when the break is moved. -/
def fresh (heapSize heap : Nat) (a : GlibcAllocator) : GlibcAllocator :=
  { a with mutex := 1, heap, freeList := 0, heapSize, currentBrk := heap }

theorem gcaCreate_spec (h : Mapped heapSize heap) (a : GlibcAllocator) :
    ∃ a', gcaCreate heapSize heap a = (true, a') ∧
      Whole [bottomChunk heap] (heap + 4080) [heap] a' ∧ a'.heapSize = heapSize ∧ a'.heap = heap := by
  obtain ⟨hpos, hdvd, hhigh, hlarge, hsmall⟩ := h
  simp only [gcaSbrkAlign] at hlarge
  have hbrk : gcaHandledSbrk gcaSbrkAlign (fresh heapSize heap a) = (some (heap, heap + 4096),
      { fresh heapSize heap a with currentBrk := heap + 4096 }) := by
    rcases gcaHandledSbrk_eq (a := fresh heapSize heap a) (b := heap) (p := 4096) rfl hpos.ne'
      (by omega) hhigh (Nat.le_add_right _ _) (by omega) with ⟨-, -, hfull⟩ | ⟨-, heq⟩
    · have hregion : (fresh heapSize heap a).heap + (fresh heapSize heap a).heapSize =
        heap + heapSize := rfl
      omega
    · exact heq
  have htop : gcaDataToHeader (heap + 4096) = heap + 4080 := by
    simp only [gcaDataToHeader, sub64, gcaInfoSize]
    omega
  set m := gcaSetUsed .prev (heap + 4080) false.toNat (gcaSetSize .prev (heap + 4080) 4064
    (gcaSetUsed .curr heap false.toNat (gcaSetSize .curr heap 4064
    (gcaSetUsed .curr (heap + 4080) true.toNat (gcaSetSize .curr (heap + 4080) 0
    (gcaSetUsed .prev heap true.toNat (gcaSetSize .prev heap 0 a.mem))))))) with hm
  have hbottom : tagAt m heap = ⟨0, true⟩ := by
    simp (disch := omega) only [hm, tagAt_gcaSetUsed, tagAt_gcaSetSize, offset_curr, offset_prev,
      Nat.add_zero, ↓reduceIte, if_neg]
  have hsentinel : tagAt m (heap + 4080 + 8) = ⟨0, true⟩ := by
    simp (disch := omega) only [hm, tagAt_gcaSetUsed, tagAt_gcaSetSize, offset_curr, offset_prev,
      Nat.add_zero, ↓reduceIte, if_neg]
  have hhead : tagAt m (heap + 8) = ⟨4064, false⟩ := by
    simp (disch := omega) only [hm, tagAt_gcaSetUsed, tagAt_gcaSetSize, offset_curr, offset_prev,
      Nat.add_zero, ↓reduceIte, if_neg]
  have hfoot : tagAt m (heap + 4080) = ⟨4064, false⟩ := by
    simp (disch := omega) only [hm, tagAt_gcaSetUsed, tagAt_gcaSetSize, offset_curr, offset_prev,
      Nat.add_zero, ↓reduceIte, if_neg]
  set a1 : GlibcAllocator := { fresh heapSize heap a with mem := m, currentBrk := heap + 4096 }
    with ha1
  have htagged : Tagged [bottomChunk heap] (heap + 4080) a1 :=
    { pos := hpos
      dvd := by
        show 16 ∣ heap
        omega
      room := hhigh
      brk := rfl
      within := by
        show heap + 4096 ≤ heap + heapSize
        omega
      tiles := ⟨rfl, rfl⟩
      sized := by simp [Sized, bottomChunk]
      bottom := hbottom
      sentinel := hsentinel
      head := fun c hc => by
        obtain rfl := List.mem_singleton.mp hc
        exact hhead
      foot := fun c hc => by
        obtain rfl := List.mem_singleton.mp hc
        exact hfoot }
  have hrep : Rep [bottomChunk heap] (heap + 4080) [] a1 := ⟨htagged, .empty, by simp⟩
  obtain ⟨hlisted, hkept⟩ := hrep.addFreeList (c := bottomChunk heap) (by simp) rfl (by simp)
  have hunlock := unlock_eq (a := gcaAddFreeList heap a1) (n := 0) hkept.mutex
  refine ⟨{ gcaAddFreeList heap a1 with mutex := 0 }, ?_, ?_, hkept.heapSize, hkept.heap⟩
  · have hstart : gcaCreate heapSize heap a =
        gcaBottom (gcaHandledSbrk gcaSbrkAlign (fresh heapSize heap a)) := if_neg hpos.ne'
    rw [hstart, hbrk, gcaBottom, htop]
    show (decide ((htfhLockUnlockHandled (gcaAddFreeList heap a1)).1 = 0),
      (htfhLockUnlockHandled (gcaAddFreeList heap a1)).2) = _
    rw [hunlock]
    rfl
  · have hwhole : Whole [bottomChunk heap] (heap + 4080) [heap] (gcaAddFreeList heap a1) :=
      ⟨hlisted, fun c hc _ => by simp [List.mem_singleton.mp hc, bottomChunk]⟩
    exact hwhole.sameHeap (sameHeap_unlocked _ _)

end Create

/-! ### Clients -/

inductive Call
  | malloc (size : Nat)
  | calloc (num size : Nat)
  | realloc (ptr size : Nat)
  | free (ptr : Nat)
  /-- A store to the payload of a live block. -/
  | write (x : Nat) (v : UInt8)

/-- An allocator in use, with the live pointers and the number of bytes asked for. -/
structure Client where
  alloc : GlibcAllocator
  live : List (Nat × Nat)

namespace Client

def without (ptr : Nat) (live : List (Nat × Nat)) : List (Nat × Nat) := live.filter fun e => e.1 ≠ ptr

/-- The state after a request for `n` bytes. -/
def returned (s : Client) (n : Nat) : Option Nat × GlibcAllocator → Client
  | (none, a) => { s with alloc := a }
  | (some p, a) => ⟨a, (p, n) :: s.live⟩

/-- The state after a resize of `ptr` to `n` bytes. -/
def resized (s : Client) (ptr n : Nat) : Option Nat × GlibcAllocator → Client
  | (none, a) => { s with alloc := a }
  | (some p, a) => ⟨a, (p, n) :: without ptr s.live⟩

/-- `none` where the walk along the free list never ends. -/
def step (s : Client) : Call → Option Client
  | .malloc size => (gcaMalloc size s.alloc).map (s.returned size)
  | .calloc num size => (gcaCalloc num size s.alloc).map (s.returned (num * size))
  | .realloc ptr size => (gcaRealloc ptr size s.alloc).map (s.resized ptr size)
  | .free ptr => some ⟨(gcaFree ptr s.alloc).2, without ptr s.live⟩
  | .write x v => some { s with alloc := setMem (fun m => write8 m x v) s.alloc }

/-- The size of a live block. -/
def blockSize (s : Client) (ptr : Nat) : Nat := gcaSize .curr s.alloc.mem (gcaDataToHeader ptr)

/-- No request is larger than the heap, and the pointers are live ones. -/
def Legal (s : Client) : Call → Prop
  | .malloc size => size ≤ s.alloc.heapSize
  | .calloc num size => num * size ≤ s.alloc.heapSize
  | .realloc ptr size => size ≤ s.alloc.heapSize ∧ (ptr = 0 ∨ ∃ n, (ptr, n) ∈ s.live)
  | .free ptr => ∃ n, (ptr, n) ∈ s.live
  | .write x _ => ∃ p n, (p, n) ∈ s.live ∧ p ≤ x ∧ x < p + s.blockSize p

def start (heapSize heap : Nat) (a : GlibcAllocator) : Client := ⟨(gcaCreate heapSize heap a).2, []⟩

def run (s : Client) (calls : List Call) : Option Client := Runs.run step s calls

def Regular (s : Client) (calls : List Call) : Prop := Runs.Regular step Legal s calls

end Client

/-! ### What the clients own -/

/-- The live pointers are the payloads of the chunks in `U`. -/
structure Owned (live : List (Nat × Nat)) (U : Set Chunk) : Prop where
  nodup : (live.map Prod.fst).Nodup
  mem_iff : ∀ p, (∃ n, (p, n) ∈ live) ↔ ∃ c ∈ U, p = c.addr + 16
  large : ∀ c ∈ U, ∀ n, (c.addr + 16, n) ∈ live → n ≤ c.size

namespace Owned

variable {live : List (Nat × Nat)} {U : Set Chunk} {c d : Chunk} {n p : Nat}

theorem empty : Owned [] ∅ := ⟨List.nodup_nil, by simp, by simp⟩

theorem add (h : Owned live U) (hfresh : ∀ d ∈ U, d.addr ≠ c.addr) (hn : n ≤ c.size) :
    Owned ((c.addr + 16, n) :: live) (insert c U) where
  nodup := by
    rw [List.map_cons, List.nodup_cons]
    refine ⟨fun hmem => ?_, h.nodup⟩
    obtain ⟨⟨p, k⟩, hk, hp⟩ := List.mem_map.mp hmem
    obtain ⟨d, hd, heq⟩ := (h.mem_iff p).mp ⟨k, hk⟩
    have hp : p = c.addr + 16 := hp
    exact hfresh d hd (by omega)
  mem_iff p := by
    constructor
    · rintro ⟨k, hk⟩
      rcases List.mem_cons.mp hk with heq | hk
      · exact ⟨c, Set.mem_insert _ _, congrArg Prod.fst heq⟩
      · obtain ⟨d, hd, hp⟩ := (h.mem_iff p).mp ⟨k, hk⟩
        exact ⟨d, Set.mem_insert_of_mem _ hd, hp⟩
    · rintro ⟨d, hd, rfl⟩
      rcases Set.mem_insert_iff.mp hd with rfl | hd
      · exact ⟨n, List.mem_cons_self⟩
      · obtain ⟨k, hk⟩ := (h.mem_iff _).mpr ⟨d, hd, rfl⟩
        exact ⟨k, List.mem_cons_of_mem _ hk⟩
  large d hd k hk := by
    rcases Set.mem_insert_iff.mp hd with rfl | hd
    · rcases List.mem_cons.mp hk with heq | hk
      · exact (congrArg Prod.snd heq).trans_le hn
      · obtain ⟨e, he, heq⟩ := (h.mem_iff _).mp ⟨k, hk⟩
        exact absurd (by omega) (hfresh e he)
    · rcases List.mem_cons.mp hk with heq | hk
      · have heq := congrArg Prod.fst heq
        dsimp only at heq
        exact absurd (by omega) (hfresh d hd)
      · exact h.large d hd k hk

theorem remove (h : Owned live (insert c U)) (hfresh : ∀ d ∈ U, d.addr ≠ c.addr) :
    Owned (Client.without (c.addr + 16) live) U where
  nodup := h.nodup.sublist (List.filter_sublist.map _)
  mem_iff p := by
    constructor
    · rintro ⟨k, hk⟩
      obtain ⟨hk, hne⟩ := List.mem_filter.mp hk
      obtain ⟨d, hd, rfl⟩ := (h.mem_iff p).mp ⟨k, hk⟩
      rcases Set.mem_insert_iff.mp hd with rfl | hd
      · simp at hne
      · exact ⟨d, hd, rfl⟩
    · rintro ⟨d, hd, rfl⟩
      obtain ⟨k, hk⟩ := (h.mem_iff _).mpr ⟨d, Set.mem_insert_of_mem _ hd, rfl⟩
      exact ⟨k, List.mem_filter.mpr ⟨hk, by simpa using hfresh d hd⟩⟩
  large d hd k hk := h.large d (Set.mem_insert_of_mem _ hd) k (List.mem_filter.mp hk).1

theorem grow (h : Owned live (insert c U)) (haddr : d.addr = c.addr) (hle : c.size ≤ d.size) :
    Owned live (insert d U) where
  nodup := h.nodup
  mem_iff p := by
    refine (h.mem_iff p).trans ?_
    simp only [Set.exists_mem_insert, haddr]
  large e he k hk := by
    rcases Set.mem_insert_iff.mp he with rfl | he
    · rw [haddr] at hk
      exact (h.large c (Set.mem_insert _ _) k hk).trans hle
    · exact h.large e (Set.mem_insert_of_mem _ he) k hk

end Owned

theorem Whole.apart_used {before after : List Chunk} {c : Chunk} {top : Nat} {fl : List Nat}
    {a : GlibcAllocator} (h : Whole (before ++ c :: after) top fl a) :
    ∀ d ∈ Used (before ++ after), d.addr ≠ c.addr := by
  intro d hd heq
  have hapart := h.tagged.tiles.apart_mid hd.1
  simp only [Chunk.stop] at hapart
  omega

namespace Client

variable {s : Client} {l : List Chunk} {top : Nat} {fl : List Nat} {a : GlibcAllocator}

/-- The heap is in order, and its used chunks are those of the live pointers. -/
structure Holds (s : Client) (l : List Chunk) (top : Nat) (fl : List Nat) : Prop where
  whole : Whole l top fl s.alloc
  coalesced : Coalesced l
  small : s.alloc.heapSize < 2 ^ 63
  owned : Owned s.live (Used l)

/-- A heap in order. -/
def Sound (s : Client) : Prop := ∃ l top fl, s.Holds l top fl

theorem Holds.sameHeap (h : s.Holds l top fl) (same : SameHeap s.alloc a) :
    ({ s with alloc := a } : Client).Sound :=
  ⟨l, top, fl, h.whole.sameHeap same, h.coalesced, same.heapSize ▸ h.small, h.owned⟩

theorem rounds_of_le (h : s.Holds l top fl) {size : Nat} (hle : size ≤ s.alloc.heapSize) :
    size ≤ 2 ^ 64 - 4112 := by
  have := h.small
  omega

theorem Holds.requested (h : s.Holds l top fl) {size : Nat} {r : Option Nat}
    (hreq : Requested l size s.alloc r a) : (s.returned size (r, a)).Sound := by
  rcases hreq with ⟨rfl, hsame, -⟩ | ⟨c, l', top', fl', rfl, h1⟩
  · exact h.sameHeap hsame
  · refine ⟨l', top', fl', h1.whole, h1.coalesced h.coalesced, h1.kept.heapSize ▸ h.small, ?_⟩
    show Owned ((c.addr + 16, size) :: s.live) (Used l')
    rw [h1.used]
    exact h.owned.add (fun d hd => h1.fresh d hd.1 hd.2) h1.large

theorem Holds.malloc (h : s.Holds l top fl) {size : Nat} (hle : size ≤ s.alloc.heapSize) :
    ∃ s', s.step (.malloc size) = some s' ∧ s'.Sound := by
  have hrounds := rounds_of_le h hle
  obtain ⟨r, a', heq, hreq, -⟩ := h.whole.malloc size (by omega) (.inl hrounds)
  exact ⟨_, congrArg (Option.map (s.returned size)) heq, h.requested hreq⟩

theorem Holds.calloc (h : s.Holds l top fl) {num size : Nat} (hle : num * size ≤ s.alloc.heapSize) :
    ∃ s', s.step (.calloc num size) = some s' ∧ s'.Sound := by
  obtain ⟨r, a', heq, hreq⟩ := h.whole.calloc num size
    (.inr (.inl (rounds_of_le h hle)))
  exact ⟨_, congrArg (Option.map (s.returned (num * size))) heq, h.requested hreq⟩

/-- The chunk of a live pointer. -/
theorem Holds.exists_chunk (h : s.Holds l top fl) {ptr : Nat} (hptr : ∃ n, (ptr, n) ∈ s.live) :
    ∃ before c after, l = before ++ c :: after ∧ c.used ∧ ptr = c.addr + 16 := by
  obtain ⟨c, hc, rfl⟩ := (h.owned.mem_iff ptr).mp hptr
  obtain ⟨before, after, rfl⟩ := List.append_of_mem hc.1
  exact ⟨before, c, after, rfl, hc.2, rfl⟩

theorem Holds.free (h : s.Holds l top fl) {ptr : Nat} (hptr : ∃ n, (ptr, n) ∈ s.live) :
    ∃ s', s.step (.free ptr) = some s' ∧ s'.Sound := by
  obtain ⟨before, c, after, rfl, hused, rfl⟩ := h.exists_chunk hptr
  obtain ⟨a', l', fl', heq, h1, hkept, hothers, hcoalesced⟩ := h.whole.free hused
  refine ⟨⟨a', without (c.addr + 16) s.live⟩, by rw [step, heq], l', top, fl', h1,
    hcoalesced h.coalesced, hkept.heapSize ▸ h.small, ?_⟩
  have howned := h.owned
  rw [used_mid hused] at howned
  show Owned (without (c.addr + 16) s.live) (Used l')
  rw [hothers]
  exact howned.remove h.whole.apart_used

theorem Holds.realloc (h : s.Holds l top fl) {ptr size : Nat} (hle : size ≤ s.alloc.heapSize)
    (hptr : ptr = 0 ∨ ∃ n, (ptr, n) ∈ s.live) :
    ∃ s', s.step (.realloc ptr size) = some s' ∧ s'.Sound := by
  have hrounds := rounds_of_le h hle
  have hheap := h.whole.tagged.pos
  have hfinish : ∀ r a', gcaRealloc ptr size s.alloc = some (r, a') →
      (s.resized ptr size (r, a')).Sound → ∃ s', s.step (.realloc ptr size) = some s' ∧ s'.Sound :=
    fun r a' heq hsound => ⟨_, congrArg (Option.map (s.resized ptr size)) heq, hsound⟩
  by_cases hzero : size = 0
  · exact hfinish none s.alloc (if_pos (.inr hzero)) (h.sameHeap (SameHeap.refl _))
  rcases hptr with rfl | hptr
  · have hstart : gcaRealloc 0 size s.alloc =
        (gcaMalloc size (htfhLockLockHandled s.alloc)).map fun r => unlockReturning r.1 r.2 := by
      rw [gcaRealloc, if_neg (by omega)]
      exact if_pos rfl
    have hnull : without 0 s.live = s.live := by
      refine List.filter_eq_self.mpr fun e he => ?_
      obtain ⟨c, -, heq⟩ := (h.owned.mem_iff e.1).mp ⟨e.2, he⟩
      simpa using (show e.1 ≠ 0 by omega)
    obtain ⟨r, a1, heq, hreq, -⟩ := (h.whole.sameHeap (sameHeap_lock s.alloc)).malloc size
      (by omega) (.inl hrounds)
    have hresized : ∀ r a', s.resized 0 size (r, a') = s.returned size (r, a') := by
      rintro (_ | p) a' <;> simp only [resized, returned, hnull]
    have hmutex : a1.mutex = s.alloc.mutex + 1 := by
      rcases hreq with ⟨-, -, hmutex⟩ | ⟨c, l', top', fl', -, h1⟩
      · exact hmutex
      · exact h1.kept.mutex
    refine hfinish r { a1 with mutex := s.alloc.mutex } ?_ ?_
    · rw [hstart, heq, Option.map_some, unlockReturning_eq hmutex]
    · rw [hresized]
      refine h.requested ?_
      rcases hreq with ⟨rfl, hsame, -⟩ | ⟨c, l', top', fl', rfl, h1⟩
      · exact .inl ⟨rfl, ((sameHeap_lock _).trans hsame).trans (sameHeap_unlocked _ _), rfl⟩
      · exact .inr ⟨c, l', top', fl', rfl, h1.unlock⟩
  · obtain ⟨before, c, after, rfl, hused, rfl⟩ := h.exists_chunk hptr
    obtain ⟨r, a', heq, -, hout, -⟩ := h.whole.realloc size hused hzero hrounds
    refine hfinish r a' heq ?_
    have howned := h.owned
    rw [used_mid hused] at howned
    rcases hout with ⟨rfl, fl', h1, hkept⟩ | ⟨d, l', top', fl', rfl, h1⟩
    · refine ⟨_, top, fl', h1, ?_, hkept.heapSize ▸ h.small, ?_⟩
      · rw [joinNext_eq]
        exact coalesced_joined hused h.coalesced
      · rw [joinNext_eq, used_mid (c := { c with size := joinSize 16 c after }) hused,
          used_append, used_joinRest, ← used_append]
        exact howned.grow rfl le_joinSize
    · refine ⟨l', top', fl', h1.whole, h1.coalesced h.coalesced, h1.kept.heapSize ▸ h.small, ?_⟩
      show Owned ((d.addr + 16, size) :: without (c.addr + 16) s.live) (Used l')
      rw [h1.used]
      exact (howned.remove h.whole.apart_used).add h1.fresh h1.large

theorem Holds.blockSize_eq {before after : List Chunk} {c : Chunk}
    (h : s.Holds (before ++ c :: after) top fl) : s.blockSize (c.addr + 16) = c.size := by
  have hc : c ∈ before ++ c :: after := by simp
  rw [blockSize, gcaDataToHeader_eq h.whole.tagged hc, h.whole.tagged.size_curr hc]

theorem Holds.write (h : s.Holds l top fl) {x : Nat} {v : UInt8} (legal : s.Legal (.write x v)) :
    ∃ s', s.step (.write x v) = some s' ∧ s'.Sound := by
  obtain ⟨p, n, hp, hle, hlt⟩ := legal
  obtain ⟨before, c, after, rfl, hused, rfl⟩ := h.exists_chunk ⟨n, hp⟩
  rw [h.blockSize_eq] at hlt
  refine ⟨_, rfl, _, top, fl, (h.whole.overwrite (f := fun m => write8 m x v) hused fun y hy => ?_).1,
    h.coalesced, h.small, h.owned⟩
  simp only [write8, Chunk.stop] at hy ⊢
  rw [if_neg (by omega)]

/-- Every call returns and keeps the heap in order. -/
theorem Holds.step (h : s.Holds l top fl) {c : Call} (legal : s.Legal c) :
    ∃ s', s.step c = some s' ∧ s'.Sound := by
  cases c with
  | malloc size => exact h.malloc legal
  | calloc num size => exact h.calloc legal
  | realloc ptr size => exact h.realloc legal.1 legal.2
  | free ptr => exact h.free legal
  | write x v => exact h.write legal

end Client

/-! ### The heap in memory -/

/-- The headers that `gca_next` leads through from the first one up to the last. -/
def Walk (m : Mem) : Nat → List Nat → Nat → Prop
  | h, [], last => h = last
  | h, block :: blocks, last => block = h ∧ Walk m (gcaNext m h) blocks last

theorem Tagged.walk {l : List Chunk} {top : Nat} {a : GlibcAllocator} (h : Tagged l top a) :
    Walk a.mem a.heap (l.map Chunk.addr) top := by
  have hsub : ∀ c ∈ l, gcaNext a.mem c.addr = c.stop 16 := fun c hc => h.next hc
  have htiles := h.tiles
  generalize a.heap = b at htiles
  clear h
  induction l generalizing b with
  | nil => exact htiles
  | cons c l ih =>
    obtain ⟨rfl, htiles⟩ := htiles
    refine ⟨rfl, ?_⟩
    rw [hsub c (by simp)]
    exact ih (fun d hd => hsub d (by simp [hd])) _ htiles

namespace Client

/-- The blocks tile the region up to the break, their two headers agree, the free ones are those of
the list, and the used ones are those of the live pointers. -/
structure InOrder (s : Client) (blocks fl : List Nat) : Prop where
  walk : Walk s.alloc.mem s.alloc.heap blocks (gcaDataToHeader s.alloc.currentBrk)
  tiles : ∀ h ∈ blocks, gcaNext s.alloc.mem h = h + gcaInfoSize + gcaSize .curr s.alloc.mem h
  sentinel : gcaIsSentinel .curr s.alloc.mem (gcaDataToHeader s.alloc.currentBrk) = true ∧
    gcaUsed .curr s.alloc.mem (gcaDataToHeader s.alloc.currentBrk) = 1
  within : s.alloc.currentBrk ≤ s.alloc.heap + s.alloc.heapSize
  bottom : gcaSize .prev s.alloc.mem s.alloc.heap = 0 ∧ gcaUsed .prev s.alloc.mem s.alloc.heap = 1
  boundary : ∀ h ∈ blocks,
    gcaSize .prev s.alloc.mem (gcaNext s.alloc.mem h) = gcaSize .curr s.alloc.mem h ∧
      gcaUsed .prev s.alloc.mem (gcaNext s.alloc.mem h) = gcaUsed .curr s.alloc.mem h
  coalesced : blocks.IsChain fun h h' =>
    gcaUsed .curr s.alloc.mem h = 1 ∨ gcaUsed .curr s.alloc.mem h' = 1
  sizes : ∀ h ∈ blocks, gcaDataAlign ≤ gcaSize .curr s.alloc.mem h ∧
    gcaDataAlign ∣ gcaSize .curr s.alloc.mem h
  links : Dll (fun h => toPtr (nextFree s.alloc.mem h)) (fun h => toPtr (prevFree s.alloc.mem h))
    (toPtr s.alloc.freeList) fl.getLast? fl
  nodup : fl.Nodup
  free : ∀ h, h ∈ fl ↔ h ∈ blocks ∧ gcaUsed .curr s.alloc.mem h = 0
  live : ∀ p, (∃ n, (p, n) ∈ s.live) ↔
    ∃ h ∈ blocks, gcaUsed .curr s.alloc.mem h = 1 ∧ p = gcaHeaderToData h
  large : ∀ p n, (p, n) ∈ s.live → n ≤ s.blockSize p
  disjoint : s.live.Pairwise fun e e' =>
    e.1 + s.blockSize e.1 ≤ e'.1 ∨ e'.1 + s.blockSize e'.1 ≤ e.1

variable {s : Client} {l : List Chunk} {top : Nat} {fl : List Nat} {a : GlibcAllocator}

theorem Holds.inOrder (h : s.Holds l top fl) : s.InOrder (l.map Chunk.addr) fl := by
  have ht := h.whole.tagged
  have htop : gcaDataToHeader s.alloc.currentBrk = top := by
    have hroom := ht.room
    have hwithin := ht.within
    have hlow : s.alloc.heap ≤ top := ht.tiles.le
    rw [ht.brk] at hwithin ⊢
    simp only [gcaDataToHeader, sub64, gcaInfoSize]
    omega
  have hused : ∀ c ∈ l, gcaUsed .curr s.alloc.mem c.addr = c.used.toNat := fun c hc => ht.used_curr hc
  have hdata : ∀ c ∈ l, gcaHeaderToData c.addr = c.addr + 16 := by
    intro c hc
    have hlt := ht.lt hc
    simp only [gcaHeaderToData, add64, gcaInfoSize]
    omega
  have hone : ∀ b : Bool, b.toNat = 1 ↔ b := by decide
  have hzero : ∀ b : Bool, b.toNat = 0 ↔ b = false := by decide
  have hblock : ∀ p n, (p, n) ∈ s.live → ∃ c ∈ Used l, p = c.addr + 16 ∧ s.blockSize p = c.size := by
    intro p n hp
    obtain ⟨before, c, after, rfl, hc, rfl⟩ := h.exists_chunk ⟨n, hp⟩
    exact ⟨c, ⟨by simp, hc⟩, rfl, h.blockSize_eq⟩
  refine
    { walk := htop ▸ ht.walk
      tiles := ?_
      sentinel := ?_
      within := ht.within
      bottom := ⟨by rw [gcaSize_prev, ht.bottom], ht.used_bottom⟩
      boundary := ?_
      coalesced := ?_
      sizes := ?_
      links := h.whole.listed.links
      nodup := h.whole.listed.links.nodup
      free := fun x => ?_
      live := fun p => ?_
      large := fun p n hp => ?_
      disjoint := ?_ }
  · rw [List.forall_mem_map]
    intro c hc
    rw [ht.next hc, ht.size_curr hc, Chunk.stop]
  · rw [htop, gcaIsSentinel, ht.size_top]
    exact ⟨rfl, ht.used_top⟩
  · rw [List.forall_mem_map]
    intro c hc
    rw [ht.next hc, ht.size_prev hc, ht.size_curr hc, ht.used_prev hc, ht.used_curr hc]
    exact ⟨rfl, rfl⟩
  · rw [List.isChain_map]
    refine h.coalesced.imp_of_mem_imp fun c d hc hd hcd => ?_
    rw [hused c hc, hused d hd, hone, hone]
    exact hcd
  · rw [List.forall_mem_map]
    intro c hc
    rw [ht.size_curr hc]
    exact ht.sized c hc
  · rw [List.mem_map]
    constructor
    · intro hx
      obtain ⟨c, hc, rfl, hfree⟩ := h.whole.listed.free x hx
      exact ⟨⟨c, hc, rfl⟩, by rw [hused c hc, hfree]; rfl⟩
    · rintro ⟨⟨c, hc, rfl⟩, hfree⟩
      rw [hused c hc, hzero] at hfree
      exact h.whole.complete c hc hfree
  · rw [h.owned.mem_iff p]
    constructor
    · rintro ⟨c, ⟨hc, hcused⟩, rfl⟩
      exact ⟨c.addr, List.mem_map_of_mem hc, by rw [hused c hc, hone]; exact hcused, (hdata c hc).symm⟩
    · rintro ⟨x, hx, hxused, rfl⟩
      obtain ⟨c, hc, rfl⟩ := List.mem_map.mp hx
      rw [hused c hc, hone] at hxused
      exact ⟨c, ⟨hc, hxused⟩, hdata c hc⟩
  · obtain ⟨c, hc, rfl, hsize⟩ := hblock p n hp
    rw [hsize]
    exact h.owned.large c hc n hp
  · refine (List.pairwise_map.mp h.owned.nodup).imp_of_mem fun {e e'} he he' hne => ?_
    obtain ⟨p, n⟩ := e
    obtain ⟨q, k⟩ := e'
    obtain ⟨c, hc, rfl, hsize⟩ := hblock p n he
    obtain ⟨d, hd, rfl, hsize'⟩ := hblock q k he'
    dsimp only at hne ⊢
    rw [hsize, hsize']
    rcases ht.tiles.apart hc.1 hd.1 with rfl | hapart | hapart
    · exact absurd rfl hne
    all_goals
      simp only [Chunk.stop] at hapart
      omega

variable {heapSize heap : Nat} {calls : List Call}

theorem sound_start (h : Mapped heapSize heap) (a : GlibcAllocator) :
    (start heapSize heap a).Sound := by
  obtain ⟨a', heq, hwhole, hsize, -⟩ := gcaCreate_spec h a
  refine ⟨[bottomChunk heap], heap + 4080, [heap], ?_⟩
  rw [start, heq]
  refine ⟨hwhole, by simp [Chunks.Coalesced], hsize.symm ▸ h.small, ?_⟩
  rw [used_cons_of_free rfl, used_nil]
  exact Owned.empty

/-- Every run returns, and the heap is in order after it. -/
theorem run_inOrder (h : Mapped heapSize heap) (regular : (start heapSize heap a).Regular calls) :
    ∃ s blocks fl, (start heapSize heap a).run calls = some s ∧ s.InOrder blocks fl := by
  have preserves : ∀ (s : Client) (c : Call) (s' : Client), s.Sound → s.Legal c → s.step c = some s' → s'.Sound := by
    rintro s c s' ⟨l, top, fl, hs⟩ legal hstep
    obtain ⟨s1, heq, hsound⟩ := hs.step legal
    obtain rfl := Option.some.inj (hstep.symm.trans heq)
    exact hsound
  have returns : ∀ (s : Client) (c : Call), s.Sound → s.Legal c → ∃ s', s.step c = some s' := by
    rintro s c ⟨l, top, fl, hs⟩ legal
    obtain ⟨s', heq, -⟩ := hs.step legal
    exact ⟨s', heq⟩
  obtain ⟨s, hrun⟩ := Runs.run_returns preserves returns (sound_start h a) regular
  have hsound : s.Sound := Runs.run_preserves preserves (sound_start h a) regular hrun
  obtain ⟨l, top, fl, hs⟩ := hsound
  exact ⟨s, _, fl, hrun, hs.inOrder⟩

/-- An allocator on zeroed memory. -/
def zeroed : GlibcAllocator := ⟨⟨fun _ => 0⟩, 0, 0, 0, 0, 0, .none, ""⟩

theorem mapped_pages : Mapped 8192 4096 := by constructor <;> decide

theorem regular_malloc_free : (start 8192 4096 zeroed).Regular [.malloc 100, .free 4112] := by
  have hsize : (start 8192 4096 zeroed).alloc.heapSize = 8192 := by decide +kernel
  have hlive : ((start 8192 4096 zeroed).step (.malloc 100)).map Client.live = some [(4112, 100)] := by
    decide +kernel
  refine ⟨(by decide : 100 ≤ 8192).trans_eq hsize.symm, fun s hs => ⟨?_, fun _ _ => trivial⟩⟩
  rw [hs] at hlive
  have hlive : s.live = [(4112, 100)] := Option.some.inj hlive
  exact ⟨100, by rw [hlive]; exact List.mem_singleton_self _⟩

theorem run_inOrder_free : ∃ s blocks fl,
    (start 8192 4096 zeroed).run [.malloc 100, .free 4112] = some s ∧ s.InOrder blocks fl :=
  run_inOrder mapped_pages regular_malloc_free

end Client

end Gca
