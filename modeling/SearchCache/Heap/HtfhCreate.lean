import SearchCache.Heap.LockBalance

/-! `htfh_create`.  It does not look at what `htfh_add_pool` returns, so where the pool is too small
or too large the caller is given an allocator without one. -/

namespace Htfh

/-- The fields of an allocator that only `htfh_destroy` reads. -/
structure Mapping where
  heap : Nat
  heapSize : Nat

/-- The end of `htfh_create`, from `controller_new` on. -/
def htfhCreatePool (heap bytes : Nat) (a : Allocator) : Option Mapping × Allocator :=
  let (_, a) := htfhAddPool (add64 heap sizeofController) (sub64 bytes sizeofController)
    (controllerNew a)
  let (unlocked, a) := htfhLockUnlock a
  (if unlocked = 0 then some ⟨heap, bytes⟩ else none, a)

/-- `htfh_create`, where `ok` tells whether `malloc` succeeds and `heap` is what `mmap` returns.  The
lock is a new one. -/
def htfhCreate (ok : Bool) (heap bytes : Nat) (a : Allocator) : Option Mapping × Allocator :=
  if bytes % alignSize ≠ 0 then
    (none, setAllocErrnoMsg .heapMisaligned "Memory must be aligned to 4 bytes" a)
  else if ok = false then (none, setAllocErrno .nullAllocatorInstance a)
  else
    let a := htfhLockLock { a with mutex := 0 }
    if heap = 0 then (none, (htfhLockUnlock (setAllocErrno .heapMmapFailed a)).2)
    else htfhCreatePool heap bytes (setController (fun c => { c with blockNull := heap }) a)

/-- The pool is one free block before its sentinel, and alone in a list of the index. -/
structure Installed (a : Allocator) (P : Pool) : Prop where
  unused : Client.Unused a P
  fl_lt : (mappingInsert P.payload).1 < flIndexCount
  sl_lt : (mappingInsert P.payload).2 < slIndexCount
  list : FreeList a.mem a.controller.blockNull
    (a.controller.blocks (mappingInsert P.payload).1 (mappingInsert P.payload).2) [P.first]
  slBit : (a.controller.slBitmap (mappingInsert P.payload).1).getLsbD
    (mappingInsert P.payload).2 = true
  flBit : a.controller.flBitmap.getLsbD (mappingInsert P.payload).1 = true

/-- The pool behind the controller. -/
def createdPool (heap bytes : Nat) : Pool :=
  ⟨heap + sizeofController, (bytes - sizeofController - 2 * blockHeaderOverhead) / alignSize * alignSize⟩

/-- An allocator is returned only with that pool. -/
def AllOrNothing (heap bytes : Nat) (a : Allocator) : Prop :=
  ∀ ok m a', htfhCreate ok heap bytes a = (some m, a') → Installed a' (createdPool heap bytes)

namespace Client

variable {s : Client} {L : Layout} {P : Pool}

/-- The headers of a pool of which nothing is used. -/
theorem Unused.physicalBlock {a : Allocator} {b : Nat} (h : Unused a P)
    (hb : PhysicalBlock [P] a b) : b = P.first ∨ b = P.last := by
  obtain ⟨htiled, -, -⟩ := h
  have hchain := htiled.chain
  rw [List.singleton_append, List.isChain_cons] at hchain
  have hnext : Adjacent a P.first P.last := (hchain.1 P.last rfl).adjacent
  obtain ⟨Q, hQ, hpath⟩ := hb
  obtain rfl := List.mem_singleton.mp hQ
  induction hpath with
  | refl => exact .inl rfl
  | @tail c d _ hcd ih =>
    rcases ih with rfl | rfl
    · rw [Adjacent] at hcd hnext
      exact .inr (Option.some.inj (hcd.symm.trans hnext))
    · rw [Adjacent, htiled.last_next] at hcd
      simp at hcd

/-- A pool of which nothing is used, of an allocator that has no other one. -/
theorem Holds.installed (h : s.Holds L) (hlive : s.live = []) (hpools : s.pools = [P]) :
    Installed s.alloc P := by
  have hP : P ∈ s.pools := by simp [hpools]
  have hunused := h.unused hlive hP
  have hindex := h.indexExact
  have hphysical : PhysicalBlock s.pools s.alloc P.first := ⟨P, hP, .refl⟩
  obtain ⟨hfl, hsl⟩ := hindex.listed _ hphysical hunused.2.1
  rw [hunused.2.2] at hfl hsl
  obtain ⟨l, hl, hnodup, hmem, hslBit⟩ := hindex.list _ hfl _ hsl
  have hfirst : P.first ∈ l := (hmem _).mpr ⟨hphysical, hunused.2.1, by rw [hunused.2.2]⟩
  have honly : ∀ b ∈ l, b = P.first := by
    intro b hb
    obtain ⟨hphysical', hfree, -⟩ := (hmem b).mp hb
    rw [hpools] at hphysical'
    refine (hunused.physicalBlock hphysical').resolve_right ?_
    rintro rfl
    rw [hunused.1.last_used] at hfree
    simp at hfree
  obtain rfl : l = [P.first] := by
    obtain ⟨rest, rfl⟩ : ∃ rest, l = P.first :: rest := by
      cases l with
      | nil => simp at hfirst
      | cons b rest => exact ⟨rest, by rw [honly b (by simp)]⟩
    cases rest with
    | nil => rfl
    | cons b rest =>
      obtain rfl := honly b (by simp)
      simp at hnodup
  have hbit := hslBit.mpr (by simp)
  refine ⟨hunused, hfl, hsl, hl, hbit, (hindex.flBit _ hfl).mpr fun hzero => ?_⟩
  simp [hzero] at hbit

/-- Only memory and controller matter. -/
theorem Holds.withAlloc (h : s.Holds L) {a : Allocator} (hmem : a.mem = s.alloc.mem)
    (hcontroller : a.controller = s.alloc.controller) : ({ s with alloc := a } : Client).Holds L :=
  ⟨h.rep.congr hmem hcontroller, h.coalesced, h.live⟩

end Client

/-! ### Creation -/

variable {ok : Bool} {heap bytes : Nat} {a : Allocator}

/-- The allocator to which the pool is added. -/
def created (heap : Nat) (a : Allocator) : Allocator :=
  setController (fun c => { c with blockNull := heap }) (htfhLockLock { a with mutex := 0 })

theorem htfhCreate_eq (hbytes : bytes % alignSize = 0) (hheap : heap ≠ 0) :
    htfhCreate true heap bytes a = htfhCreatePool heap bytes (created heap a) := by
  rw [htfhCreate, if_neg (by simpa using hbytes), if_neg (by simp), if_neg hheap]
  rfl

/-- What `mmap` returns: pages of the address space, not the first one. -/
structure Mapped (heap bytes : Nat) : Prop where
  pos : 0 < heap
  aligned : heap % 4096 = 0
  high : heap + bytes < 2 ^ 64

theorem Mapped.room (h : Mapped heap bytes) (hmin : sizeofController ≤ bytes) (a : Allocator) :
    Client.Room (created heap a) :=
  ⟨h.pos, (Nat.add_le_add_left hmin heap).trans h.high.le⟩

theorem Mapped.given (h : Mapped heap bytes) (hmin : sizeofController ≤ bytes)
    (hmax : (poolOf (heap + sizeofController) (bytes - sizeofController)).payload ≠ blockSizeMax)
    (a : Allocator) :
    Given [] (Client.start (created heap a)).alloc (heap + sizeofController)
      (bytes - sizeofController) where
  low := by
    have := h.pos
    simp only [sizeofController]
    omega
  high := by
    have := h.high
    omega
  apart := by simp
  null_apart := .inr (Nat.le_refl _)
  small := hmax

theorem poolOf_eq (hmin : sizeofController ≤ bytes) (hlt64 : bytes < 2 ^ 64)
    (hlt : (poolOf (heap + sizeofController) (bytes - sizeofController)).payload < 2 ^ 62) :
    poolOf (heap + sizeofController) (bytes - sizeofController) = createdPool heap bytes := by
  simp only [poolOf, createdPool, sizeofController, blockHeaderOverhead, alignSize,
    Pool.mk.injEq, true_and] at hmin hlt ⊢
  by_cases hroom : 16 ≤ bytes - 6280
  · have hsub : sub64 (bytes - 6280) 16 = bytes - 6280 - 2 * 8 := by
      unfold sub64
      omega
    rw [hsub]
  · have hsub : sub64 (bytes - 6280) 16 = bytes - 6280 + (2 ^ 64 - 16) :=
      Nat.mod_eq_of_lt (by omega)
    omega

/-- Where the pool can be made. -/
def Roomy (bytes : Nat) : Prop :=
  sizeofController + 2 * blockHeaderOverhead + blockSizeMin ≤ bytes ∧
    bytes < sizeofController + 2 * blockHeaderOverhead + blockSizeMax

instance (bytes : Nat) : Decidable (Roomy bytes) := inferInstanceAs (Decidable (_ ∧ _))

theorem roomy_iff_fits (hmap : Mapped heap bytes) (hbytes : bytes % alignSize = 0) :
    Roomy bytes ↔ (createdPool heap bytes).Fits := by
  have hlow := hmap.pos
  have haligned := hmap.aligned
  have hhigh := hmap.high
  simp only [Roomy, createdPool, sizeofController, blockHeaderOverhead, alignSize, blockSizeMin,
    blockSizeMax] at hbytes ⊢
  constructor
  · rintro ⟨hmin, hmax⟩
    constructor <;> dsimp only <;> omega
  · rintro ⟨-, -, -, -, hge, hlt⟩
    dsimp only at hge hlt
    omega

/-- An allocator is returned in any case, and its pool exactly where the pool can be made. -/
theorem htfhCreate_spec (hmap : Mapped heap bytes) (hbytes : bytes % alignSize = 0)
    (hmin : sizeofController ≤ bytes)
    (hmax : (poolOf (heap + sizeofController) (bytes - sizeofController)).payload ≠ blockSizeMax) :
    ∃ a', htfhCreate true heap bytes a = (some ⟨heap, bytes⟩, a') ∧
      (Installed a' (createdPool heap bytes) ↔ Roomy bytes) := by
  have hgiven := hmap.given hmin hmax a
  have hstart := Client.holds_start (hmap.room hmin a)
  have hhigh := hmap.high
  have hheap : add64 heap sizeofController = heap + sizeofController := by
    simp only [add64, sizeofController] at hmin ⊢
    omega
  have hrest : sub64 bytes sizeofController = bytes - sizeofController := by
    simp only [sub64, sizeofController] at hmin ⊢
    omega
  have hunlock : ∀ a1 : Allocator, a1.mutex = 1 →
      htfhLockUnlock a1 = (0, { a1 with mutex := 0 }) := fun a1 => htfhLockUnlock_eq
  rw [htfhCreate_eq hbytes hmap.pos.ne', htfhCreatePool, hheap, hrest]
  rcases htfhAddPool_spec hstart.rep hgiven with
    ⟨a1, heq, hsame, hrejected⟩ | ⟨a1, heq, hP, -, hframe, -⟩
  · replace heq : htfhAddPool _ _ (controllerNew (created heap a)) = _ := heq
    refine ⟨{ a1 with mutex := 0 }, ?_, fun hinstalled => ?_, fun hroomy => ?_⟩
    · simp only [heq, hunlock a1 hsame.mutex, if_true]
    · have hzero : a1.controller.flBitmap = 0 := by
        rw [hsame.controller]
        rfl
      have hbit := hinstalled.flBit
      dsimp only at hbit
      simp [hzero] at hbit
    · have haligned := hmap.aligned
      refine (hrejected ?_).elim
      simp only [Roomy, Accepted, poolOf, sub64, sizeofController, blockHeaderOverhead, alignSize,
        blockSizeMin, blockSizeMax] at hbytes hroomy ⊢
      omega
  · replace heq : htfhAddPool _ _ (controllerNew (created heap a)) = _ := heq
    have hpool := poolOf_eq hmin (by omega)
      (hP.payload_lt.trans (by decide) : (poolOf (heap + sizeofController) _).payload < 2 ^ 62)
    refine ⟨{ a1 with mutex := 0 }, ?_, ?_⟩
    · simp only [heq, hunlock a1 hframe.mutex, if_true]
    · refine iff_of_true ?_ ((roomy_iff_fits hmap hbytes).mpr (hpool ▸ hP))
      obtain ⟨L, h, -⟩ := hstart.addPool hgiven
      have hstep : (Client.start (created heap a)).step
          (.addPool (heap + sizeofController) (bytes - sizeofController)) =
          ⟨a1, [createdPool heap bytes], []⟩ := by
        rw [Client.step, poolBytes_eq, ← hpool]
        show Client.accepted _ _ (htfhAddPool _ _ (controllerNew (created heap a))) = _
        rw [heq]
        rfl
      rw [hstep] at h
      exact (h.withAlloc (a := { a1 with mutex := 0 }) rfl rfl).installed rfl rfl

/-- The pool whose one block is as large as the largest class allows, which has no list. -/
theorem not_installed_blockSizeMax {P : Pool} (hP : P.payload = blockSizeMax) :
    ¬ Installed a P := by
  intro h
  have hlt := h.fl_lt
  rw [hP] at hlt
  exact absurd hlt (by decide)

/-- `htfh_create` keeps to all or nothing exactly for the sizes from which a pool can be made. -/
theorem htfhCreate_allOrNothing_iff (hmap : Mapped heap bytes) (hbytes : bytes % alignSize = 0)
    (hmin : sizeofController ≤ bytes) (a : Allocator) :
    AllOrNothing heap bytes a ↔ Roomy bytes := by
  have hhigh := hmap.high
  by_cases hmax :
      (poolOf (heap + sizeofController) (bytes - sizeofController)).payload = blockSizeMax
  · have hpool := poolOf_eq hmin (by omega) (hmax.trans_lt (by decide))
    have hnot : ¬ Roomy bytes := by
      rw [roomy_iff_fits hmap hbytes, ← hpool]
      intro hP
      exact absurd hP.payload_lt (by rw [hmax]; decide)
    refine iff_of_false (fun hall => ?_) hnot
    obtain ⟨a', heq⟩ : ∃ a', htfhCreate true heap bytes a = (some ⟨heap, bytes⟩, a') := by
      rw [htfhCreate_eq hbytes hmap.pos.ne', htfhCreatePool]
      split
      rename_i heq
      have hmutex := (locked_addPool (n := 1) rfl _ _).of_eq heq
      rw [htfhLockUnlock_eq hmutex]
      exact ⟨_, rfl⟩
    exact not_installed_blockSizeMax (hpool ▸ hmax) (hall _ _ _ heq)
  · obtain ⟨a', heq, hiff⟩ := htfhCreate_spec (a := a) hmap hbytes hmin hmax
    rw [← hiff]
    refine ⟨fun hall => hall _ _ _ heq, ?_⟩
    rintro hinstalled (_ | _) m b hb
    · rw [htfhCreate, if_neg (by simpa using hbytes), if_pos rfl] at hb
      simp at hb
    · rw [heq] at hb
      obtain ⟨-, rfl⟩ := Prod.mk.inj hb
      exact hinstalled

theorem htfhCreate_allOrNothing_pages : AllOrNothing 16384 8192 Client.zeroed :=
  (htfhCreate_allOrNothing_iff ⟨by decide, by decide, by decide⟩ (by decide) (by decide) _).mpr
    (by decide)

/-- With memory for the controller only, an allocator without a pool is returned. -/
theorem exists_not_allOrNothing :
    ∃ heap bytes a, Mapped heap bytes ∧ bytes % alignSize = 0 ∧ sizeofController ≤ bytes ∧
      ¬ AllOrNothing heap bytes a := by
  have hmap : Mapped 16384 sizeofController := ⟨by decide, by decide, by decide⟩
  refine ⟨16384, sizeofController, Client.zeroed, hmap, by decide, le_rfl, fun hall => ?_⟩
  obtain ⟨a', heq, hiff⟩ := htfhCreate_spec (a := Client.zeroed) hmap (by decide) le_rfl (by decide)
  exact absurd (hiff.mp (hall _ _ _ heq)) (by decide)

end Htfh
