import SearchCache.Heap.GlibcRuns
import SearchCache.Lib.Buffers

/-! The contents of what the second allocator gives out: a run of clients does to the memory what its
events do to a store of buffers.  A resize that fails is an event too where it has made the block
larger. -/

namespace Gca

open Memory Htfh Chunks Linked Buffers

/-- The buffers are the payloads of the chunks in `U`. -/
def Mirrors (U : Set Chunk) (B : Store) : Prop :=
  ∀ p n, B.size p = some n ↔ ∃ c ∈ U, p = c.addr + 16 ∧ n = c.size

section Mirrors

variable {U : Set Chunk} {B B' : Store} {c d : Chunk} {l : List Chunk} {top : Nat} {fl : List Nat}
  {a a' : GlibcAllocator}

theorem Whole.apart_payloads (h : Whole l top fl a) (hc : c ∈ l) (hd : d ∈ l)
    (hne : c.addr ≠ d.addr) : Apart (c.addr + 16) c.size (d.addr + 16) d.size := by
  have happart := h.tagged.tiles.apart hc hd
  simp only [Chunk.stop] at happart
  unfold Apart
  rcases happart with rfl | hle | hle
  · exact (hne rfl).elim
  · omega
  · omega

theorem Mirrors.add (h : Mirrors U B) (hfresh : ∀ e ∈ U, e.addr ≠ c.addr)
    (hsize : B'.size = Function.update B.size (c.addr + 16) (some c.size)) :
    Mirrors (insert c U) B' := by
  intro p n
  rw [hsize, Function.update_apply]
  simp only [Set.exists_mem_insert]
  split
  · rename_i hp
    constructor
    · intro hn
      exact .inl ⟨hp, (Option.some.inj hn).symm⟩
    · rintro (⟨-, rfl⟩ | ⟨e, he, hp', -⟩)
      · rfl
      · exact (hfresh e he (by omega)).elim
  · rename_i hp
    rw [h p n]
    exact (or_iff_right fun hc => hp hc.1).symm

theorem Mirrors.remove (h : Mirrors (insert c U) B) (hfresh : ∀ e ∈ U, e.addr ≠ c.addr)
    (hsize : B'.size = Function.update B.size (c.addr + 16) none) : Mirrors U B' := by
  intro p n
  rw [hsize, Function.update_apply]
  split
  · rename_i hp
    simp only [reduceCtorEq, false_iff, not_exists]
    rintro e ⟨he, hp', -⟩
    exact hfresh e he (by omega)
  · rename_i hp
    rw [h p n]
    simp only [Set.exists_mem_insert]
    exact or_iff_right fun hc => hp hc.1

/-- Where the payloads of the used chunks are kept, so are the buffers. -/
theorem Mirrors.keeps (h : Mirrors (Used l) B) (hkept : Kept l a a') {p x : Nat}
    (hp : B.Covers p x) : a'.mem.byte x = a.mem.byte x := by
  obtain ⟨n, hn, hle, hlt⟩ := hp
  obtain ⟨c, hc, rfl, rfl⟩ := (h p n).mp hn
  exact hkept.byte c hc.1 hc.2 x hle hlt

end Mirrors

/-- `gca_calloc` clears what it was asked for. -/
theorem gcaCalloc_zero {num size p : Nat} {a a' : GlibcAllocator}
    (h : gcaCalloc num size a = some (some p, a')) :
    ∀ x, p ≤ x → x < p + num * size % 2 ^ 64 → a'.mem.byte x = 0 := by
  intro x hle hlt
  rw [gcaCalloc] at h
  split at h
  · simp at h
  · obtain ⟨⟨r, b⟩, -, hzeroed⟩ := Option.map_eq_some_iff.mp h
    cases r with
    | none =>
      simp only [gcaZeroed, unlockReturning] at hzeroed
      split at hzeroed <;> simp at hzeroed
    | some q =>
      have hmem : ∀ b : GlibcAllocator, (htfhLockUnlockHandled b).2.mem = b.mem := by
        intro b
        rw [htfhLockUnlockHandled]
        split <;> rfl
      simp only [gcaZeroed, unlockReturning] at hzeroed
      obtain ⟨hp, ha⟩ := Prod.mk.inj hzeroed
      split at hp
      · simp at hp
      · obtain rfl := Option.some.inj hp
        rw [← ha, hmem]
        simp only [setMem, fill]
        rw [if_pos ⟨hle, hlt⟩]

/-- The size of the block of a pointer. -/
def roomOf (a : GlibcAllocator) (p : Nat) : Nat := gcaSize .curr a.mem (gcaDataToHeader p)

theorem roomOf_eq {l : List Chunk} {top : Nat} {a : GlibcAllocator} {c : Chunk} (h : Tagged l top a)
    (hc : c ∈ l) : roomOf a (c.addr + 16) = c.size := by
  rw [roomOf, gcaDataToHeader_eq h hc, h.size_curr hc]

namespace Client

/-- The events of a request with its result. -/
def granted : Option Nat × GlibcAllocator → List Event
  | (none, _) => []
  | (some p, a) => [.alloc p (roomOf a p)]

def cleared (bytes : Nat) : Option Nat × GlibcAllocator → List Event
  | (none, _) => []
  | (some p, a) => [.alloc p (roomOf a p), .fill p bytes 0]

/-- The events of a resize with its result. -/
def regranted (s : Client) (ptr size : Nat) : Option Nat × GlibcAllocator → List Event
  | (none, a) =>
    if ptr = 0 ∨ size = 0 then []
    else [.move ptr ptr (roomOf a ptr) (roomOf s.alloc ptr)]
  | (some p, a) =>
    if ptr = 0 then [.alloc p (roomOf a p)]
    else [.move ptr p (roomOf a p) (min (roomOf s.alloc ptr) size)]

/-- What a call does to the buffers. -/
def events (s : Client) : Call → List Event
  | .malloc size => (gcaMalloc size s.alloc).elim [] granted
  | .calloc num size => (gcaCalloc num size s.alloc).elim [] (cleared (num * size % 2 ^ 64))
  | .realloc ptr size => (gcaRealloc ptr size s.alloc).elim [] (s.regranted ptr size)
  | .free ptr => [.free ptr]
  | .write x v => [.store x v]

def trace (s : Client) : List Call → List Event
  | [] => []
  | c :: calls => s.events c ++ (s.step c).elim [] fun s' => s'.trace calls

/-- The live pointers are the buffers with the sizes of their blocks, and the memory holds what is
known of them. -/
structure Matches (s : Client) (B : Store) : Prop where
  live : ∀ p, (∃ n, (p, n) ∈ s.live) ↔ ∃ n, B.size p = some n
  size : ∀ p n, B.size p = some n → n = roomOf s.alloc p
  agrees : B.Agrees s.alloc.mem

/-- The heap is in order, and its used chunks are the buffers. -/
structure Backs (s : Client) (l : List Chunk) (top : Nat) (fl : List Nat) (B : Store) : Prop where
  holds : s.Holds l top fl
  mirrors : Mirrors (Used l) B
  agrees : B.Agrees s.alloc.mem

variable {s s' : Client} {l l' before after : List Chunk} {top top' : Nat} {fl fl' : List Nat}
  {B : Store} {a : GlibcAllocator} {c d : Chunk}

theorem Backs.matches (h : s.Backs l top fl B) : s.Matches B where
  live p := by
    rw [h.holds.owned.mem_iff p]
    constructor
    · rintro ⟨c, hc, rfl⟩
      exact ⟨c.size, (h.mirrors _ _).mpr ⟨c, hc, rfl, rfl⟩⟩
    · rintro ⟨n, hn⟩
      obtain ⟨c, hc, hp, -⟩ := (h.mirrors p n).mp hn
      exact ⟨c, hc, hp⟩
  size p n hn := by
    obtain ⟨c, hc, rfl, rfl⟩ := (h.mirrors p n).mp hn
    exact (roomOf_eq h.holds.whole.tagged hc.1).symm
  agrees := h.agrees

/-- An allocator with the same memory. -/
theorem Backs.sameHeap (h : s.Backs l top fl B) (same : SameHeap s.alloc a) :
    ({ s with alloc := a } : Client).Backs l top fl B where
  holds := ⟨h.holds.whole.sameHeap same, h.holds.coalesced, same.heapSize ▸ h.holds.small,
    h.holds.owned⟩
  mirrors := h.mirrors
  agrees := h.agrees.keep fun _ x _ => congrFun (congrArg Mem.byte same.mem) x

/-- A chunk that was returned is a new buffer. -/
theorem Backs.alloc (h : s.Backs l top fl B) {size : Nat}
    (h1 : Allocated l size c s.alloc a l' top' fl') :
    ∃ B', (s.returned size (some (c.addr + 16), a)).Backs l' top' fl' B' ∧
      B.Step (.alloc (c.addr + 16) (roomOf a (c.addr + 16))) B' ∧
      B'.size (c.addr + 16) = some c.size := by
  have hc : c ∈ Used l' := h1.used ▸ Set.mem_insert _ _
  have hfresh : ∀ e ∈ Used l, e.addr ≠ c.addr := fun e he => h1.fresh e he.1 he.2
  have hpos : 0 < c.size := by
    have := (h1.whole.tagged.sized c hc.1).1
    omega
  have hapart : ∀ q k, B.size q = some k → Apart (c.addr + 16) c.size q k := by
    intro q k hq
    obtain ⟨e, he, rfl, rfl⟩ := (h.mirrors q k).mp hq
    have he' : e ∈ Used l' := h1.used ▸ Set.mem_insert_of_mem _ he
    exact h1.whole.apart_payloads hc.1 he'.1 (hfresh e he).symm
  rw [roomOf_eq h1.whole.tagged hc.1]
  refine ⟨_, ⟨⟨h1.whole, h1.coalesced h.holds.coalesced, h1.kept.heapSize ▸ h.holds.small, ?_⟩,
    ?_, ?_⟩, .alloc hpos hapart, Function.update_self ..⟩
  · show Owned ((c.addr + 16, size) :: s.live) (Used l')
    rw [h1.used]
    exact h.holds.owned.add hfresh h1.large
  · rw [h1.used]
    exact h.mirrors.add hfresh rfl
  · exact h.agrees.keep fun _ _ hp => h.mirrors.keeps h1.kept hp

theorem Backs.requested (h : s.Backs l top fl B) {size : Nat} {r : Option Nat}
    (hreq : Requested l size s.alloc r a) :
    ∃ l' top' fl' B', (s.returned size (r, a)).Backs l' top' fl' B' ∧ B.Run (granted (r, a)) B' := by
  rcases hreq with ⟨rfl, hsame, -⟩ | ⟨c, l', top', fl', rfl, h1⟩
  · exact ⟨l, top, fl, B, h.sameHeap hsame, .nil B⟩
  · obtain ⟨B', h', hstep, -⟩ := h.alloc h1
    exact ⟨l', top', fl', B', h', .single hstep⟩

/-- What a call comes to. -/
def Served (s : Client) (B : Store) (c : Call) : Prop :=
  ∃ s' l' top' fl' B', s.step c = some s' ∧ s'.Backs l' top' fl' B' ∧ B.Run (s.events c) B'

theorem Backs.malloc (h : s.Backs l top fl B) {size : Nat} (hle : size ≤ s.alloc.heapSize) :
    s.Served B (.malloc size) := by
  have hrounds := rounds_of_le h.holds hle
  obtain ⟨r, a', heq, hreq, -⟩ := h.holds.whole.malloc size (by omega) (.inl hrounds)
  obtain ⟨l', top', fl', B', h', hrun⟩ := h.requested hreq
  refine ⟨_, l', top', fl', B', congrArg (Option.map (s.returned size)) heq, h', ?_⟩
  rw [events, heq]
  exact hrun

theorem Backs.calloc (h : s.Backs l top fl B) {num size : Nat}
    (hle : num * size ≤ s.alloc.heapSize) : s.Served B (.calloc num size) := by
  have hsmall := h.holds.small
  obtain ⟨r, a', heq, hreq⟩ := h.holds.whole.calloc num size
    (.inr (.inl (rounds_of_le h.holds hle)))
  have hstep : s.step (.calloc num size) = some (s.returned (num * size) (r, a')) :=
    congrArg (Option.map (s.returned (num * size))) heq
  have hevents : s.events (.calloc num size) = cleared (num * size % 2 ^ 64) (r, a') := by
    rw [events, heq]
    rfl
  rcases hreq with ⟨rfl, hsame, -⟩ | ⟨c, l', top', fl', rfl, h1⟩
  · exact ⟨_, l, top, fl, B, hstep, h.sameHeap hsame, by rw [hevents]; exact .nil B⟩
  · obtain ⟨B1, h1', hstep1, hsize1⟩ := h.alloc h1
    have hfit : num * size % 2 ^ 64 ≤ c.size := by
      rw [Nat.mod_eq_of_lt (by omega)]
      exact h1.large
    obtain ⟨B2, hstep2, hsize2, hbyte2⟩ := B1.step_fill 0 hsize1 hfit
    refine ⟨_, l', top', fl', B2, hstep, ⟨h1'.holds, fun p n => ?_, ?_⟩, ?_⟩
    · rw [hsize2]
      exact h1'.mirrors p n
    · exact h1'.agrees.fill hbyte2 (gcaCalloc_zero heq)
    · rw [hevents]
      exact .cons hstep1 (.single hstep2)

theorem Backs.free (h : s.Backs l top fl B) {ptr : Nat} (hptr : ∃ n, (ptr, n) ∈ s.live) :
    s.Served B (.free ptr) := by
  obtain ⟨before, c, after, rfl, hused, rfl⟩ := h.holds.exists_chunk hptr
  obtain ⟨a', l', fl', heq, h1, hkept, hothers, hcoalesced⟩ := h.holds.whole.free hused
  have hfresh := h.holds.whole.apart_used
  have hmirrors : Mirrors (Used (before ++ after)) (B.release (c.addr + 16)) :=
    Mirrors.remove (used_mid hused ▸ h.mirrors) hfresh rfl
  have howned := h.holds.owned
  rw [used_mid hused] at howned
  refine ⟨⟨a', without (c.addr + 16) s.live⟩, l', top, fl', _, by rw [step, heq],
    ⟨⟨h1, hcoalesced h.holds.coalesced, hkept.heapSize ▸ h.holds.small, ?_⟩, ?_, ?_⟩,
    .single (.free ((h.mirrors _ _).mpr ⟨c, ⟨by simp, hused⟩, rfl, rfl⟩))⟩
  · show Owned (without (c.addr + 16) s.live) (Used l')
    rw [hothers]
    exact howned.remove hfresh
  · rw [hothers]
    exact hmirrors
  · exact (h.agrees.release _).keep fun _ _ hp => hmirrors.keeps hkept hp

theorem Backs.write (h : s.Backs l top fl B) {x : Nat} {v : UInt8} (legal : s.Legal (.write x v)) :
    s.Served B (.write x v) := by
  obtain ⟨p, n, hp, hle, hlt⟩ := legal
  obtain ⟨before, c, after, rfl, hused, rfl⟩ := h.holds.exists_chunk ⟨n, hp⟩
  rw [h.holds.blockSize_eq] at hlt
  have hsize : B.size (c.addr + 16) = some c.size :=
    (h.mirrors _ _).mpr ⟨c, ⟨by simp, hused⟩, rfl, rfl⟩
  obtain ⟨B', hstep, hsize', hbyte⟩ := B.step_store v ⟨c.size, hsize, hle, hlt⟩
  have hwhole := (h.holds.whole.overwrite (f := fun m => write8 m x v) hused fun y hy => by
    simp only [write8, Chunk.stop] at hy ⊢
    rw [if_neg (by omega)]).1
  refine ⟨_, _, top, fl, B', rfl, ⟨⟨hwhole, h.holds.coalesced, h.holds.small, h.holds.owned⟩,
    fun q j => ?_, h.agrees.store hbyte⟩, .single hstep⟩
  rw [hsize']
  exact h.mirrors q j

/-- A chunk that another one takes the place of. -/
theorem Backs.move (h : s.Backs (before ++ c :: after) top fl B) (hused : c.used)
    (h' : s'.Holds l' top' fl') (hset : Used l' = insert d (Used (before ++ after)))
    (hfresh : ∀ e ∈ Used (before ++ after), e.addr ≠ d.addr)
    (hkept : Kept (before ++ after) s.alloc s'.alloc) {k : Nat} (hk : k ≤ c.size) (hk' : k ≤ d.size)
    (hcontents : ∀ i < k, s'.alloc.mem.byte (d.addr + 16 + i) = s.alloc.mem.byte (c.addr + 16 + i)) :
    ∃ B', s'.Backs l' top' fl' B' ∧
      B.Step (.move (c.addr + 16) (d.addr + 16) d.size k) B' := by
  have hmirrors : Mirrors (Used (before ++ after)) (B.release (c.addr + 16)) :=
    Mirrors.remove (used_mid hused ▸ h.mirrors) h.holds.whole.apart_used rfl
  have hd : d ∈ Used l' := hset ▸ Set.mem_insert _ _
  have hpos : 0 < d.size := by
    have := (h'.whole.tagged.sized d hd.1).1
    omega
  have hapart : ∀ r j, (B.release (c.addr + 16)).size r = some j → Apart (d.addr + 16) d.size r j := by
    intro r j hr
    obtain ⟨e, he, rfl, rfl⟩ := (hmirrors r j).mp hr
    have he' : e ∈ Used l' := hset ▸ Set.mem_insert_of_mem _ he
    exact h'.whole.apart_payloads hd.1 he'.1 (hfresh e he).symm
  obtain ⟨B', hstep, hsize, hbyte⟩ := B.step_move
    ((h.mirrors _ _).mpr ⟨c, ⟨by simp, hused⟩, rfl, rfl⟩) hpos hk hk' hapart
  refine ⟨B', ⟨h', ?_, ?_⟩, hstep⟩
  · rw [hset]
    exact hmirrors.add hfresh hsize
  · exact h.agrees.move hbyte (fun _ _ hr => hmirrors.keeps hkept hr) hcontents

theorem without_zero (h : s.Holds l top fl) : without 0 s.live = s.live := by
  have hheap := h.whole.tagged.pos
  refine List.filter_eq_self.mpr fun e he => ?_
  obtain ⟨c, -, heq⟩ := (h.owned.mem_iff e.1).mp ⟨e.2, he⟩
  simpa using (show e.1 ≠ 0 by omega)

/-- A resize of the null pointer is a request. -/
theorem Holds.reallocNull (h : s.Holds l top fl) {size : Nat} (hzero : size ≠ 0)
    (hle : size ≤ s.alloc.heapSize) :
    ∃ r a', gcaRealloc 0 size s.alloc = some (r, a') ∧ Requested l size s.alloc r a' := by
  have hheap := h.whole.tagged.pos
  have hrounds := rounds_of_le h hle
  obtain ⟨r, a1, hmalloc, hreq, -⟩ :=
    (h.whole.sameHeap (sameHeap_lock s.alloc)).malloc size (by omega) (.inl hrounds)
  have hmutex : a1.mutex = s.alloc.mutex + 1 := by
    rcases hreq with ⟨-, -, hmutex⟩ | ⟨c, l', top', fl', -, h1⟩
    · exact hmutex
    · exact h1.kept.mutex
  refine ⟨r, { a1 with mutex := s.alloc.mutex }, ?_, ?_⟩
  · have hstart : gcaRealloc 0 size s.alloc =
        (gcaMalloc size (htfhLockLockHandled s.alloc)).map fun r => unlockReturning r.1 r.2 := by
      rw [gcaRealloc, if_neg (by omega)]
      exact if_pos rfl
    rw [hstart, hmalloc, Option.map_some, unlockReturning_eq hmutex]
  · rcases hreq with ⟨rfl, hsame, -⟩ | ⟨c, l', top', fl', rfl, h1⟩
    · exact .inl ⟨rfl, ((sameHeap_lock _).trans hsame).trans (sameHeap_unlocked _ _), rfl⟩
    · exact .inr ⟨c, l', top', fl', rfl, h1.unlock⟩

theorem Backs.reallocNull (h : s.Backs l top fl B) {size : Nat} (hzero : size ≠ 0)
    (hle : size ≤ s.alloc.heapSize) : s.Served B (.realloc 0 size) := by
  obtain ⟨r, a', heq, hreq⟩ := h.holds.reallocNull hzero hle
  have hresized : ∀ r a', s.resized 0 size (r, a') = s.returned size (r, a') := by
    rintro (_ | p) a' <;> simp only [resized, returned, without_zero h.holds]
  have hgranted : ∀ r a', s.regranted 0 size (r, a') = granted (r, a') := by
    rintro (_ | p) a' <;> simp [regranted, granted]
  obtain ⟨l', top', fl', B', h', hrun⟩ := h.requested hreq
  refine ⟨_, l', top', fl', B', congrArg (Option.map (s.resized 0 size)) heq, ?_, ?_⟩
  · rw [hresized]
    exact h'
  · rw [events, heq]
    show B.Run (s.regranted 0 size _) B'
    rw [hgranted]
    exact hrun

/-- A resize of a live block, which may have grown where it fails. -/
theorem Backs.reallocLive (h : s.Backs l top fl B) {ptr size : Nat} (hzero : size ≠ 0)
    (hle : size ≤ s.alloc.heapSize) (hptr : ∃ n, (ptr, n) ∈ s.live) :
    s.Served B (.realloc ptr size) := by
  obtain ⟨before, c, after, rfl, hused, rfl⟩ := h.holds.exists_chunk hptr
  have hc : c ∈ before ++ c :: after := by simp
  obtain ⟨r, a', heq, -, hout, -⟩ :=
    h.holds.whole.realloc size hused hzero (rounds_of_le h.holds hle)
  have hstep : s.step (.realloc (c.addr + 16) size) = some (s.resized (c.addr + 16) size (r, a')) :=
    congrArg (Option.map (s.resized (c.addr + 16) size)) heq
  have hevents : s.events (.realloc (c.addr + 16) size) =
      s.regranted (c.addr + 16) size (r, a') := by
    rw [events, heq]
    rfl
  have hroom : roomOf s.alloc (c.addr + 16) = c.size := roomOf_eq h.holds.whole.tagged hc
  have hfresh := h.holds.whole.apart_used
  have hrest : Grows (before ++ after) (before ++ c :: after) :=
    Grows.of_used (by rw [used_mid hused]; exact Set.subset_insert _ _)
  have howned := h.holds.owned
  rw [used_mid hused] at howned
  rcases hout with ⟨rfl, fl', h1, hkept⟩ | ⟨d, l', top', fl', rfl, h1⟩
  · rw [joinNext_eq] at h1
    have hset : Used (before ++ { c with size := joinSize 16 c after } :: joinRest after) =
        insert { c with size := joinSize 16 c after } (Used (before ++ after)) := by
      rw [used_mid (c := { c with size := joinSize 16 c after }) hused, used_append, used_joinRest,
        ← used_append]
    have h' : (s.resized (c.addr + 16) size (none, a')).Holds
        (before ++ { c with size := joinSize 16 c after } :: joinRest after) top fl' :=
      ⟨h1, coalesced_joined hused h.holds.coalesced, hkept.heapSize ▸ h.holds.small, by
        rw [hset]
        exact howned.grow rfl le_joinSize⟩
    have hroom' : roomOf a' (c.addr + 16) = joinSize 16 c after :=
      roomOf_eq (c := { c with size := joinSize 16 c after }) h1.tagged (by simp)
    have hbytes : ∀ i < c.size,
        a'.mem.byte (c.addr + 16 + i) = s.alloc.mem.byte (c.addr + 16 + i) := fun i hi =>
      hkept.byte c hc hused _ (by omega) (by simp only [Chunk.stop]; omega)
    obtain ⟨B', hbacks, hmove⟩ := h.move (d := { c with size := joinSize 16 c after }) hused h' hset
      hfresh (hkept.mono hrest) le_rfl le_joinSize hbytes
    refine ⟨_, _, top, fl', B', hstep, hbacks, ?_⟩
    rw [hevents, regranted, if_neg (by omega), hroom, hroom']
    exact .single hmove
  · have hd : d ∈ Used l' := h1.used ▸ Set.mem_insert _ _
    have h' : (s.resized (c.addr + 16) size (some (d.addr + 16), a')).Holds l' top' fl' :=
      ⟨h1.whole, h1.coalesced h.holds.coalesced, h1.kept.heapSize ▸ h.holds.small, by
        show Owned ((d.addr + 16, size) :: without (c.addr + 16) s.live) (Used l')
        rw [h1.used]
        exact (howned.remove hfresh).add h1.fresh h1.large⟩
    have hfit : min c.size size ≤ d.size := (min_le_right _ _).trans h1.large
    obtain ⟨B', hbacks, hmove⟩ := h.move hused h' h1.used h1.fresh h1.kept (min_le_left c.size size)
      hfit fun i hi => h1.contents i (by omega) (by omega)
    refine ⟨_, l', top', fl', B', hstep, hbacks, ?_⟩
    rw [hevents, regranted, if_neg (by omega), hroom, roomOf_eq h1.whole.tagged hd.1]
    exact .single hmove

theorem Backs.step (h : s.Backs l top fl B) {c : Call} (legal : s.Legal c) : s.Served B c := by
  cases c with
  | malloc size => exact h.malloc legal
  | calloc num size => exact h.calloc legal
  | free ptr => exact h.free legal
  | write x v => exact h.write legal
  | realloc ptr size =>
    obtain ⟨hle, hptr⟩ := legal
    by_cases hzero : size = 0
    · subst hzero
      have heq : gcaRealloc ptr 0 s.alloc = some (none, s.alloc) := if_pos (.inr rfl)
      refine ⟨s, l, top, fl, B, congrArg (Option.map (s.resized ptr 0)) heq, h, ?_⟩
      rw [events, heq]
      show B.Run (s.regranted ptr 0 (none, s.alloc)) B
      rw [regranted, if_pos (.inr rfl)]
      exact .nil B
    · rcases hptr with rfl | hptr
      · exact h.reallocNull hzero hle
      · exact h.reallocLive hzero hle hptr

/-- The run lemma: by induction on the calls. -/
theorem Backs.run (h : s.Backs l top fl B) {calls : List Call} (regular : s.Regular calls) :
    ∃ s' B', s.run calls = some s' ∧ s'.Matches B' ∧ B.Run (s.trace calls) B' := by
  induction calls generalizing s l top fl B with
  | nil => exact ⟨s, B, rfl, h.matches, .nil B⟩
  | cons c calls ih =>
    obtain ⟨s1, l1, top1, fl1, B1, hstep, h1, hrun1⟩ := h.step regular.1
    obtain ⟨s', B', hrun, h', hrest⟩ := ih h1 (regular.2 s1 hstep)
    refine ⟨s', B', (Runs.run_cons hstep).trans hrun, h', ?_⟩
    rw [trace, hstep]
    exact hrun1.append hrest

/-- A new heap has no buffers. -/
theorem backs_start {heapSize heap : Nat} (h : Mapped heapSize heap) (a : GlibcAllocator) :
    ∃ l top fl, (start heapSize heap a).Backs l top fl Store.empty := by
  obtain ⟨a', heq, hwhole, hsize, -⟩ := gcaCreate_spec h a
  have hnone : Used [bottomChunk heap] = ∅ := by rw [used_cons_of_free rfl, used_nil]
  refine ⟨[bottomChunk heap], heap + 4080, [heap], ?_, fun p n => ?_, fun x v hx => ?_⟩
  · rw [start, heq]
    exact ⟨hwhole, by simp [Chunks.Coalesced], hsize.symm ▸ h.small, hnone ▸ Owned.empty⟩
  · simp [hnone, Store.empty]
  · simp [Store.empty] at hx

/-- Every run keeps the buffers apart and what was stored in them in memory. -/
theorem run_refinesStore {heapSize heap : Nat} {a : GlibcAllocator} {calls : List Call}
    (h : Mapped heapSize heap) (regular : (start heapSize heap a).Regular calls) :
    ∃ s B, (start heapSize heap a).run calls = some s ∧
      Store.empty.Run ((start heapSize heap a).trace calls) B ∧ s.Matches B := by
  obtain ⟨l, top, fl, hstart⟩ := backs_start h a
  obtain ⟨s, B, hrun, hmatches, hbuffers⟩ := hstart.run regular
  exact ⟨s, B, hrun, hbuffers, hmatches⟩

instance (s : Client) (ptr : Nat) : Decidable (∃ n, (ptr, n) ∈ s.live) :=
  decidable_of_iff (∃ e ∈ s.live, e.1 = ptr) (by simp)

instance (s : Client) : (c : Call) → Decidable (s.Legal c)
  | .malloc _ => inferInstanceAs (Decidable (_ ≤ _))
  | .calloc _ _ => inferInstanceAs (Decidable (_ ≤ _))
  | .realloc _ _ => inferInstanceAs (Decidable (_ ≤ _ ∧ (_ = 0 ∨ ∃ _, _)))
  | .free ptr => inferInstanceAs (Decidable (∃ n, (ptr, n) ∈ s.live))
  | .write x _ =>
    decidable_of_iff (∃ e ∈ s.live, e.1 ≤ x ∧ x < e.1 + s.blockSize e.1) (by simp [Legal])

/-- A block with a byte of its own that is resized in place, fails to be and moves. -/
def resizing : List Call :=
  [.malloc 100, .write 4120 7, .realloc 4112 200, .realloc 4112 8000, .malloc 16, .realloc 4112 4000]

theorem run_refinesStore_resizing : ∃ s B, (start 8192 4096 zeroed).run resizing = some s ∧
    Store.empty.Run ((start 8192 4096 zeroed).trace resizing) B ∧ s.Matches B :=
  run_refinesStore mapped_pages (by unfold Regular; decide +kernel)

end Client
end Gca
