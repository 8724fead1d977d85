import SearchCache.Heap.HtfhRealloc
import SearchCache.Lib.Buffers

/-! The contents of what the allocator gives out.  A run of clients, with the reallocations that do not
try to grow a block in place, does to the memory what its events do to a store of buffers: the live
pointers are the buffers, and every byte that is known of them is there. -/

namespace Htfh

open Memory Buffers

/-- The buffers are the payloads of the used blocks. -/
def Mirrors (used : Nat → Option Nat) (B : Store) : Prop :=
  ∀ p n, B.size p = some n ↔ ∃ b, used b = some n ∧ n ≠ 0 ∧ p = b + 16

section Mirrors

variable {used : Nat → Option Nat} {pools : List Pool} {L : Layout} {B B' : Store} {b c s t : Nat}

theorem Tiling.apart_used (h : Tiling pools L) (hb : L.used b = some s) (hc : L.used c = some t)
    (hne : b ≠ c) : Apart (b + 16) s (c + 16) t := by
  obtain ⟨x, hLb, -, rfl⟩ := Layout.used_eq_some.mp hb
  obtain ⟨y, hLc, -, rfl⟩ := Layout.used_eq_some.mp hc
  have := h.disjoint hLb hLc hne
  unfold Apart
  omega

theorem Mirrors.insert (h : Mirrors used B) (hfresh : used b = none) (ht : t ≠ 0)
    (hsize : B'.size = Function.update B.size (b + 16) (some t)) :
    Mirrors (Function.update used b (some t)) B' := by
  intro p n
  rw [hsize, Function.update_apply]
  split
  · rename_i hp
    constructor
    · intro hn
      obtain rfl := Option.some.inj hn
      exact ⟨b, Function.update_self .., ht, hp⟩
    · rintro ⟨c, hc, -, hp'⟩
      obtain rfl : c = b := by omega
      rwa [Function.update_self] at hc
  · rename_i hp
    rw [h p n]
    refine exists_congr fun c => ?_
    by_cases hcb : c = b
    · subst hcb
      simp [hfresh, hp]
    · rw [Function.update_of_ne hcb]

theorem Mirrors.erase (h : Mirrors used B) (b : Nat)
    (hsize : B'.size = Function.update B.size (b + 16) none) :
    Mirrors (Function.update used b none) B' := by
  intro p n
  rw [hsize, Function.update_apply]
  split
  · rename_i hp
    simp only [reduceCtorEq, false_iff, not_exists]
    rintro c ⟨hc, -, hp'⟩
    obtain rfl : c = b := by omega
    simp at hc
  · rename_i hp
    rw [h p n]
    refine exists_congr fun c => ?_
    by_cases hcb : c = b
    · subst hcb
      simp [hp]
    · rw [Function.update_of_ne hcb]

/-- Where the payloads of the used blocks are kept, so are the buffers. -/
theorem Mirrors.keeps (h : Mirrors used B) {m m' : Mem} (hkeeps : RepBut.Keeps used m m') {p x : Nat}
    (hp : B.Covers p x) : m'.byte x = m.byte x := by
  obtain ⟨n, hn, hle, hlt⟩ := hp
  obtain ⟨b, hb, -, rfl⟩ := (h p n).mp hn
  exact hkeeps b n hb x hle hlt

end Mirrors

/-- `htfh_calloc` clears what it was asked for. -/
theorem htfhCalloc_zero {count bytes p : Nat} {a a' : Allocator}
    (h : htfhCalloc count bytes a = (some p, a')) :
    ∀ x, p ≤ x → x < p + callocBytes count bytes → a'.mem.byte x = 0 := by
  intro x hle hlt
  rw [htfhCalloc] at h
  split at h
  · simp at h
  · obtain ⟨hp, rfl⟩ := Prod.mk.inj h
    obtain rfl := Option.some.inj hp
    simp only [setMem, fill]
    rw [if_pos ⟨hle, hlt⟩]

/-- The lock does not matter. -/
theorem Allocated.unlock {pools : List Pool} {ok : Nat → Prop} {L L' : Layout} {b t : Nat}
    {a a' : Allocator} (h : Allocated pools ok L L' b t (htfhLockLock a) a') :
    Allocated pools ok L L' b t a { a' with mutex := a.mutex } :=
  { h with
    frame := h.frame.unlock
    rep := h.rep.congr rfl rfl
    stays := h.stays }

namespace Request

/-- What a request writes to its new block at `p`. -/
def cleared (p : Nat) : Request → List Event
  | calloc count bytes => [.fill p (callocBytes count bytes) 0]
  | _ => []

end Request

/-- A call, or `htfh_realloc`. -/
inductive Action
  | call (c : Call)
  | realloc (ptr size : Nat)

namespace Client

/-- The state after a reallocation. -/
def resized (s : Client) (ptr size : Nat) : Option Nat × Allocator → Client
  | (none, a) => s.withAlloc a
  | (some p, a) => s.moved ptr p size a

def act (s : Client) : Action → Client
  | .call c => s.step c
  | .realloc ptr size => s.resized ptr size (htfhRealloc ptr size s.alloc)

/-- Calls that are legal and fit, and reallocations of the null pointer, or of a live one whose block
is not to grow in place, to a size that is not zero. -/
def Permits (s : Client) : Action → Prop
  | .call c => s.Legal c ∧ s.CallFits c
  | .realloc ptr size => ptr = 0 ∨ (∃ n, (ptr, n) ∈ s.live) ∧ 0 < size ∧ ¬CanGrow s.alloc ptr size

def runActions (s : Client) (actions : List Action) : Option Client :=
  Runs.run (fun s x => some (s.act x)) s actions

def Orderly (s : Client) (actions : List Action) : Prop :=
  Runs.Regular (fun s x => some (s.act x)) Permits s actions

/-- The size of the block of a pointer. -/
def roomOf (a : Allocator) (p : Nat) : Nat := blockSize a.mem (blockFromPtr p)

/-- The events of a request with its result. -/
def granted (r : Request) : Option Nat × Allocator → List Event
  | (none, _) => []
  | (some p, a) => .alloc p (roomOf a p) :: r.cleared p

/-- The events of a reallocation with its result. -/
def regranted (s : Client) (ptr size : Nat) : Option Nat × Allocator → List Event
  | (none, _) => []
  | (some p, a) =>
    if ptr = 0 then [.alloc p (roomOf a p)]
    else [.move ptr p (roomOf a p) (min (roomOf s.alloc ptr) size)]

/-- What an action does to the buffers. -/
def events (s : Client) : Action → List Event
  | .call (.addPool _ _) => []
  | .call (.request r) => granted r (r.run s.alloc)
  | .call (.free ptr) => [.free ptr]
  | .call (.write w v) => [.store w v]
  | .realloc ptr size => s.regranted ptr size (htfhRealloc ptr size s.alloc)

def trace (s : Client) : List Action → List Event
  | [] => []
  | x :: actions => s.events x ++ (s.act x).trace actions

/-- The live pointers are the buffers with the sizes of their blocks, and the memory holds what is
known of them. -/
structure Matches (s : Client) (B : Store) : Prop where
  live : ∀ p, (∃ n, (p, n) ∈ s.live) ↔ ∃ n, B.size p = some n
  size : ∀ p n, B.size p = some n → n = roomOf s.alloc p
  agrees : B.Agrees s.alloc.mem

/-- The heap holds `L`, whose used blocks are the buffers. -/
structure Backs (s : Client) (L : Layout) (B : Store) : Prop where
  holds : s.Holds L
  mirrors : Mirrors L.used B
  agrees : B.Agrees s.alloc.mem

variable {s s' : Client} {L L' : Layout} {B : Store} {a' : Allocator} {b t : Nat}

theorem Holds.roomOf_eq (h : s.Holds L) (hb : L.used b = some t) : roomOf s.alloc (b + 16) = t := by
  obtain ⟨x, hL, -, rfl⟩ := Layout.used_eq_some.mp hb
  rw [roomOf, h.rep.blockFromPtr_eq hL, h.rep.blockSize_eq hL (by simp)]

theorem Backs.matches (h : s.Backs L B) : s.Matches B where
  live p := by
    rw [h.holds.live p]
    constructor
    · rintro ⟨b, t, hb, ht, rfl⟩
      exact ⟨t, (h.mirrors _ _).mpr ⟨b, hb, ht, rfl⟩⟩
    · rintro ⟨n, hn⟩
      obtain ⟨b, hb, ht, rfl⟩ := (h.mirrors p n).mp hn
      exact ⟨b, n, hb, ht, rfl⟩
  size p n hn := by
    obtain ⟨b, hb, -, rfl⟩ := (h.mirrors p n).mp hn
    exact (h.holds.roomOf_eq hb).symm
  agrees := h.agrees

/-- An action that changes no buffer. -/
theorem Backs.idle (h : s.Backs L B) (h' : s'.Holds L)
    (hkeeps : RepBut.Keeps L.used s.alloc.mem s'.alloc.mem) : s'.Backs L B :=
  ⟨h', h.mirrors, h.agrees.keep fun _ _ hp => h.mirrors.keeps hkeeps hp⟩

/-- A block that was returned is a new buffer. -/
theorem Backs.alloc (h : s.Backs L B) {ok : Nat → Prop}
    (halloc : Allocated s.pools ok L L' b t s.alloc a') (n : Nat) :
    ∃ B', B.Step (.alloc (b + 16) (roomOf a' (b + 16))) B' ∧
      (s.returned n (some (b + 16), a')).Backs L' B' ∧ B'.size (b + 16) = some t := by
  have h' := h.holds.returned halloc n
  have hbused : L'.used b = some t := by rw [halloc.used, Function.update_self]
  have hroom : roomOf a' (b + 16) = t := h'.roomOf_eq hbused
  have hapart : ∀ q k, B.size q = some k → Buffers.Apart (b + 16) t q k := by
    intro q k hq
    obtain ⟨c, hc, -, rfl⟩ := (h.mirrors q k).mp hq
    have hcb : c ≠ b := by
      rintro rfl
      simp [halloc.fresh] at hc
    refine halloc.rep.tiling.apart_used hbused ?_ hcb.symm
    rw [halloc.used, Function.update_of_ne hcb, hc]
  rw [hroom]
  refine ⟨_, .alloc (Nat.pos_of_ne_zero halloc.size_ne_zero) hapart, ⟨h', ?_, ?_⟩,
    Function.update_self ..⟩
  · rw [halloc.used]
    exact h.mirrors.insert halloc.fresh halloc.size_ne_zero rfl
  · exact h.agrees.keep fun _ _ hp => h.mirrors.keeps halloc.frame.keeps hp

theorem Backs.request (h : s.Backs L B) {r : Request} (legal : r.Legal) (fits : r.Fits s.alloc) :
    ∃ L' B', (s.step (.request r)).Backs L' B' ∧ B.Run (s.events (.call (.request r))) B' := by
  have hstep : s.step (.request r) = s.returned r.bytes (r.run s.alloc) := rfl
  have hevents : s.events (.call (.request r)) = granted r (r.run s.alloc) := rfl
  rcases Request.spec h.holds.rep h.holds.coalesced legal fits with
    ⟨a', heq, hmem, hcontroller⟩ | ⟨b, t, a', L', heq, halloc, hlarge, -⟩
  · rw [hstep, hevents, heq]
    refine ⟨L, B, h.idle ?_ fun _ _ _ w _ _ => ?_, .nil B⟩
    · exact ⟨h.holds.rep.congr hmem hcontroller, h.holds.coalesced, h.holds.live⟩
    · exact congrFun (congrArg Mem.byte hmem) w
  · obtain ⟨B1, hstep1, h1, hsize1⟩ := h.alloc halloc r.bytes
    rw [hstep, hevents, heq]
    cases r with
    | malloc size => exact ⟨L', B1, h1, .single hstep1⟩
    | memalign align size => exact ⟨L', B1, h1, .single hstep1⟩
    | calloc count bytes =>
      -- a product that does not fit is refused
      have hsmall : callocBytes count bytes ≤ 2 ^ 64 - 4 := by
        refine fits.resolve_right fun hempty => ?_
        have hnone := htfhMalloc_of_empty h.holds.rep hempty (callocBytes count bytes)
        have hcalloc : htfhCalloc count bytes s.alloc = (some (b + 16), a') := heq
        rw [htfhCalloc] at hcalloc
        split at hcalloc
        · simp at hcalloc
        · rename_i hsome
          simp [hsome] at hnone
      obtain ⟨hne, hle⟩ := hlarge rfl
      have hfit : callocBytes count bytes ≤ t := (le_adjustedSize hsmall hne).trans hle
      obtain ⟨B2, hstep2, hsize2, hbyte2⟩ := B1.step_fill 0 hsize1 hfit
      refine ⟨L', B2, ⟨h1.holds, ?_, ?_⟩, .cons hstep1 (.single hstep2)⟩
      · intro p n
        rw [hsize2]
        exact h1.mirrors p n
      · exact h1.agrees.fill hbyte2 (htfhCalloc_zero heq)

theorem Backs.free (h : s.Backs L B) {ptr : Nat} (legal : s.Legal (.free ptr)) :
    ∃ L' B', (s.step (.free ptr)).Backs L' B' ∧ B.Run (s.events (.call (.free ptr))) B' := by
  obtain ⟨b, t, hb, ht, rfl⟩ := (h.holds.live ptr).mp legal
  obtain ⟨L', h', -, hused, -⟩ := h.holds.free hb ht
  obtain ⟨x, hL, hx, rfl⟩ := Layout.used_eq_some.mp hb
  obtain ⟨a1, L1, heq, hframe, -, -, hused1, -⟩ :=
    htfhFree_spec h.holds.rep h.holds.coalesced hL hx ht
  have hmirrors : Mirrors (Function.update L.used b none) (B.release (b + 16)) :=
    h.mirrors.erase b rfl
  refine ⟨L', B.release (b + 16), ⟨h', hused ▸ hmirrors, ?_⟩,
    .single (.free ((h.mirrors _ _).mpr ⟨b, hb, ht, rfl⟩))⟩
  have hmem : (s.step (.free (b + 16))).alloc.mem = a1.mem := by rw [step, heq]
  rw [hmem]
  exact (h.agrees.release _).keep fun _ _ hp => hmirrors.keeps (hused1 ▸ hframe.keeps) hp

theorem Backs.write (h : s.Backs L B) {w : Nat} {v : UInt8} (legal : s.Legal (.write w v)) :
    ∃ L' B', (s.step (.write w v)).Backs L' B' ∧ B.Run (s.events (.call (.write w v))) B' := by
  obtain ⟨L', h', heffect⟩ := h.holds.write legal
  obtain ⟨p, n, hp, hle, hlt⟩ := legal
  obtain ⟨k, hk⟩ := (h.matches.live p).mp ⟨n, hp⟩
  have hroom := h.matches.size p k hk
  obtain ⟨B', hstep, hsize, hbyte⟩ := B.step_store v ⟨k, hk, hle, by rw [hroom]; exact hlt⟩
  cases heffect with
  | none =>
    refine ⟨L, B', ⟨h', fun q j => ?_, h.agrees.store hbyte⟩, .single hstep⟩
    rw [hsize]
    exact h.mirrors q j

theorem Backs.addPool (h : s.Backs L B) {mem bytes : Nat} (legal : s.Legal (.addPool mem bytes)) :
    ∃ L' B', (s.step (.addPool mem bytes)).Backs L' B' ∧
      B.Run (s.events (.call (.addPool mem bytes))) B' := by
  have hmem : (s.step (.addPool mem bytes)).alloc = (htfhAddPool mem bytes s.alloc).2 := by
    rw [step]
    rcases htfhAddPool mem bytes s.alloc with ⟨_ | p, a⟩ <;> rfl
  have hkeeps : RepBut.Keeps L.used s.alloc.mem (s.step (.addPool mem bytes)).alloc.mem := by
    rw [hmem]
    rcases htfhAddPool_spec h.holds.rep legal with ⟨a', heq, hsame, -⟩ | ⟨a', heq, -, -, hframe, -⟩
    · rw [heq]
      exact fun _ _ _ w _ _ => congrFun (congrArg Mem.byte hsame.mem) w
    · rw [heq]
      exact hframe.keeps
  have hagrees := h.agrees.keep fun _ _ hp => h.mirrors.keeps hkeeps hp
  obtain ⟨L', h', heffect⟩ := h.holds.addPool legal
  refine ⟨L', B, ⟨h', ?_, hagrees⟩, .nil B⟩
  cases heffect with
  | none => exact h.mirrors
  | addPool hP hnew =>
    -- the new sentinel is no buffer
    intro p n
    rw [used_addPool h.holds.rep.tiling hP hnew, h.mirrors p n]
    refine exists_congr fun c => ?_
    by_cases hc : c = (poolOf mem bytes).last
    · subst hc
      rw [Function.update_self]
      constructor
      · rintro ⟨hused, -, -⟩
        obtain ⟨x, hx, -⟩ := Layout.used_eq_some.mp hused
        have := h.holds.rep.tiling.apart_pool hnew hx
        have := hP.last_eq
        omega
      · rintro ⟨hused, hn, -⟩
        exact (hn (Option.some.inj hused).symm).elim
    · rw [Function.update_of_ne hc]

/-- A block that has moved is a buffer that has. -/
theorem Backs.move (h : s.Backs L B) {x : Block} {c size : Nat} (hb : L b = some x)
    (hx : x.free = false) (hsize : x.size ≠ 0)
    (hm : Moved s.pools L L' b c t (min x.size size) s.alloc a') (hle : min x.size size ≤ t) :
    ∃ B', (s.moved (b + 16) (c + 16) size a').Backs L' B' ∧
      B.Step (.move (b + 16) (c + 16) t (min x.size size)) B' := by
  have hbused : L.used b = some x.size := Layout.used_eq_some.mpr ⟨x, hb, hx, rfl⟩
  have hcb : c ≠ b := by
    rintro rfl
    simp [hm.fresh] at hbused
  have hmirrors : Mirrors (Function.update L.used b none) (B.release (b + 16)) :=
    h.mirrors.erase b rfl
  have hfresh : Function.update L.used b none c = none := by
    rw [Function.update_of_ne hcb, hm.fresh]
  have hused : L'.used = Function.update (Function.update L.used b none) c (some t) := by
    rw [hm.used, Function.update_comm hcb]
  have hcused : L'.used c = some t := by rw [hused, Function.update_self]
  have hapart : ∀ r j, (B.release (b + 16)).size r = some j → Buffers.Apart (c + 16) t r j := by
    intro r j hr
    obtain ⟨d, hd, -, rfl⟩ := (hmirrors r j).mp hr
    have hdc : d ≠ c := by
      rintro rfl
      simp [hfresh] at hd
    refine hm.rep.tiling.apart_used hcused ?_ hdc.symm
    rw [hused, Function.update_of_ne hdc, hd]
  obtain ⟨B', hstep, hsize', hbyte⟩ := B.step_move ((h.mirrors _ _).mpr ⟨b, hbused, hsize, rfl⟩)
    (Nat.pos_of_ne_zero hm.size_ne_zero) (min_le_left x.size size) hle hapart
  refine ⟨B', ⟨h.holds.moved hb hx hm, ?_, ?_⟩, hstep⟩
  · rw [hused]
    exact hmirrors.insert hfresh hm.size_ne_zero hsize'
  · exact h.agrees.move hbyte (fun _ _ hr => hmirrors.keeps hm.keeps hr) hm.contents

theorem Backs.realloc (h : s.Backs L B) {ptr size : Nat} (permits : s.Permits (.realloc ptr size)) :
    ∃ L' B', (s.act (.realloc ptr size)).Backs L' B' ∧ B.Run (s.events (.realloc ptr size)) B' := by
  have hact : s.act (.realloc ptr size) = s.resized ptr size (htfhRealloc ptr size s.alloc) := rfl
  have hevents : s.events (.realloc ptr size) =
      s.regranted ptr size (htfhRealloc ptr size s.alloc) := rfl
  have hsame : ∀ a', SameHeap s.alloc a' → (s.withAlloc a').Backs L B := fun a' hsame =>
    h.idle ⟨h.holds.rep.sameHeap hsame, h.holds.coalesced, h.holds.live⟩
      fun _ _ _ w _ _ => congrFun (congrArg Mem.byte hsame.mem) w
  by_cases hzero : ptr = 0
  · -- the null pointer: a new block
    subst hzero
    have heq : htfhRealloc 0 size s.alloc = unlockReturning (htfhMalloc size (htfhLockLock s.alloc)).1
        (htfhMalloc size (htfhLockLock s.alloc)).2 := rfl
    have hreturned : ∀ p a, s.moved 0 p size a = s.returned size (some p, a) := by
      intro p a
      have hlive : s.live.filter (fun e => e.1 ≠ 0) = s.live := by
        refine List.filter_eq_self.mpr fun e he => ?_
        obtain ⟨b, x, hp, -⟩ := h.holds.exists_used he
        simp [hp]
      rw [moved, hlive, returned]
    rw [hact, hevents, heq]
    rcases htfhMalloc_spec (rep_lock h.holds.rep) h.holds.coalesced size with
      ⟨a1, hmalloc, hsame1⟩ | ⟨b, t, a1, L', hmalloc, halloc, -⟩
    · rw [hmalloc, unlockReturning_eq (n := s.alloc.mutex) hsame1.mutex]
      exact ⟨L, B, hsame _ ⟨hsame1.mem, hsame1.controller, rfl⟩, .nil B⟩
    · rw [hmalloc, unlockReturning_eq (n := s.alloc.mutex) halloc.frame.mutex]
      obtain ⟨B', hstep, h', -⟩ := h.alloc halloc.unlock size
      refine ⟨L', B', ?_, .single hstep⟩
      rw [← hreturned] at h'
      exact h'
  · obtain ⟨⟨n, hp⟩, hpos, hgrow⟩ := permits.resolve_left hzero
    rw [hact, hevents]
    rcases h.holds.realloc_cases hp hpos with ⟨hcan, -⟩ | ⟨-, a1, heq, hsame1, -⟩ |
      ⟨hplace, b, x, c, t, a1, L', rfl, hb, hx, heq, hm, hle⟩
    · exact (hgrow hcan).elim
    · rw [heq]
      exact ⟨L, B, hsame a1 hsame1, .nil B⟩
    · have hxsize : x.size ≠ 0 := by
        obtain ⟨d, y, hd, hy, -, hysize, -⟩ := h.holds.exists_used hp
        obtain rfl : b = d := by omega
        obtain rfl := Option.some.inj (hb.symm.trans hy)
        exact hysize
      have hblock := h.holds.rep.blockFromPtr_eq hb
      have hxroom : roomOf s.alloc (b + 16) = x.size := by
        rw [roomOf, hblock, h.holds.rep.blockSize_eq hb (by simp)]
      have hfit : min x.size size ≤ t := by
        by_contra hlarge
        refine hplace (.inl ?_)
        rw [adjusted_eq]
        have : blockSize s.alloc.mem (blockFromPtr (b + 16)) = x.size := hxroom
        omega
      obtain ⟨B', h', hstep⟩ := h.move hb hx hxsize hm hfit
      have hroom : roomOf a1 (c + 16) = t := by
        refine h'.holds.roomOf_eq ?_
        have hcb : c ≠ b := by
          rintro rfl
          have := hm.fresh
          rw [Layout.used_of_eq hb, hx] at this
          simp at this
        rw [hm.used, Function.update_of_ne hcb, Function.update_self]
      refine ⟨L', B', ?_, ?_⟩
      · rw [heq]
        exact h'
      · rw [heq, regranted, if_neg hzero, hroom, hxroom]
        exact .single hstep

theorem Backs.act (h : s.Backs L B) {x : Action} (permits : s.Permits x) :
    ∃ L' B', (s.act x).Backs L' B' ∧ B.Run (s.events x) B' := by
  cases x with
  | realloc ptr size => exact h.realloc permits
  | call c =>
    obtain ⟨legal, fits⟩ := permits
    cases c with
    | addPool mem bytes => exact h.addPool legal
    | request r => exact h.request legal fits
    | free ptr => exact h.free legal
    | write w v => exact h.write legal

/-- The run lemma: by induction on the actions. -/
theorem Backs.run (h : s.Backs L B) {actions : List Action} (orderly : s.Orderly actions) :
    ∃ s' L' B', s.runActions actions = some s' ∧ s'.Backs L' B' ∧ B.Run (s.trace actions) B' := by
  induction actions generalizing s L B with
  | nil => exact ⟨s, L, B, rfl, h, .nil B⟩
  | cons x actions ih =>
    obtain ⟨L1, B1, h1, hrun1⟩ := h.act orderly.1
    obtain ⟨s', L', B', hrun, h', hrest⟩ := ih h1 (orderly.2 _ rfl)
    exact ⟨s', L', B', hrun, h', hrun1.append hrest⟩

/-- A new allocator has no buffers. -/
theorem backs_start {a : Allocator} (hroom : Room a) :
    (start a).Backs (fun _ => none) Store.empty where
  holds := holds_start hroom
  mirrors p n := by simp [Store.empty, Layout.used]
  agrees x v hx := by simp [Store.empty] at hx

theorem orderly_cons {x : Action} {actions : List Action} (permits : s.Permits x)
    (h : (s.act x).Orderly actions) : s.Orderly (x :: actions) := by
  refine ⟨permits, fun s' heq => ?_⟩
  obtain rfl := Option.some.inj heq
  exact h

/-- A block that has to move, with a byte of its own. -/
def moving : List Action :=
  [.call (.addPool 16384 1024), .call (.request (.malloc 100)), .call (.request (.calloc 3 5)),
    .call (.write 16400 7), .realloc 16392 200]

/-- Its byte is where it was in the block. -/
example : (((start zeroed).runActions moving).map fun s => (s.live, s.alloc.mem.byte 16540)) =
    some ([(16532, 200), (16500, 15)], 7) := by decide +kernel

end Client
end Htfh
