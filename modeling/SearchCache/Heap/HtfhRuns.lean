import SearchCache.Heap.PoolSpecs
import SearchCache.Lib.Runs

/-! Clients of an allocator: they add pools, request and free memory, and write to what they were
given.  What such a run preserves is that the allocator represents a layout without adjacent free
blocks whose used blocks are those of the live pointers. -/

namespace Htfh

open Memory

/-- A call that may return memory. -/
inductive Request
  | malloc (size : Nat)
  | calloc (count bytes : Nat)
  | memalign (align size : Nat)
  deriving DecidableEq

namespace Request

def run : Request → Allocator → Option Nat × Allocator
  | malloc size, a => htfhMalloc size a
  | calloc count bytes, a => htfhCalloc count bytes a
  | memalign align size, a => htfhMemalign align size a

/-- The number of bytes that the caller asks for. -/
def bytes : Request → Nat
  | malloc size => size
  | calloc count bytes => count * bytes
  | memalign _ size => size

/-- The number of bytes that the code computes. -/
def computed (r : Request) : Nat := r.bytes % 2 ^ 64

/-- The arguments are values of `size_t`. -/
def Legal : Request → Prop
  | malloc size => size < 2 ^ 64
  | calloc count bytes => count < 2 ^ 64 ∧ bytes < 2 ^ 64
  | memalign align size => align < 2 ^ 64 ∧ size < 2 ^ 64

/-- A `calloc` whose product rounds up to a block size without wrapping, or that finds nothing. -/
def Fits (a : Allocator) : Request → Prop
  | calloc count bytes => callocBytes count bytes ≤ 2 ^ 64 - 4 ∨ a.controller.flBitmap = 0
  | _ => True

def isMemalign : Request → Bool
  | memalign _ _ => true
  | _ => false

/-- The block that is found for the request can be split. -/
def Splits (a : Allocator) : Request → Prop
  | malloc size => MallocSplits size a
  | calloc count bytes => MallocSplits (callocBytes count bytes) a
  | memalign align size => MemalignSplits align size a

variable {pools : List Pool} {L : Layout} {a : Allocator} {r : Request}

/-- A request changes nothing or returns a new used block. -/
theorem spec (h : Rep pools L L.classOf a) (hc : Coalesced L) (legal : r.Legal) (fits : r.Fits a) :
    (∃ a', r.run a = (none, a') ∧ a'.mem = a.mem ∧ a'.controller = a.controller) ∨
      ∃ b t a' L', r.run a = (some (b + 16), a') ∧
        Allocated pools (CutTo (r.Splits a) L r.computed) L L' b t a a' ∧
        (r.isMemalign = false → adjustedSize r.computed ≠ 0 ∧ adjustedSize r.computed ≤ t) ∧
        (r.isMemalign = false → TakenFrom L b t L') := by
  cases r with
  | malloc size =>
    have hsize : computed (malloc size) = size := Nat.mod_eq_of_lt legal
    rw [hsize]
    rcases htfhMalloc_spec h hc size with ⟨a', heq, hsame⟩ | ⟨b, t, a', L', heq, halloc, hne, hle, htaken⟩
    · exact .inl ⟨a', heq, hsame.mem, hsame.controller⟩
    · exact .inr ⟨b, t, a', L', heq, halloc.mono fun _ => .inl, fun _ => ⟨hne, hle⟩, fun _ => htaken⟩
  | calloc count bytes =>
    rcases htfhCalloc_spec h hc fits with ⟨a', heq, hsame⟩ | ⟨b, t, a', L', heq, halloc, hne, hle, htaken⟩
    · exact .inl ⟨a', heq, hsame.mem, hsame.controller⟩
    · exact .inr ⟨b, t, a', L', heq, halloc.mono fun _ => .inl, fun _ => ⟨hne, hle⟩, fun _ => htaken⟩
  | memalign align size =>
    have hsize : computed (memalign align size) = size := Nat.mod_eq_of_lt legal.2
    rw [hsize]
    rcases htfhMemalign_spec h hc legal.1 size with
      ⟨a', heq, hsame⟩ | ⟨b, t, a', L', heq, halloc⟩
    · exact .inl ⟨a', heq, hsame⟩
    · exact .inr ⟨b, t, a', L', heq, halloc, fun hfalse => by simp [isMemalign] at hfalse,
        fun hfalse => by simp [isMemalign] at hfalse⟩

end Request

inductive Call
  | addPool (mem bytes : Nat)
  | request (r : Request)
  | free (ptr : Nat)
  /-- A store to the payload of a live block. -/
  | write (w : Nat) (v : UInt8)

/-- An allocator in use: the pools that it accepted, and the live pointers with the number of bytes
asked for. -/
structure Client where
  alloc : Allocator
  pools : List Pool
  live : List (Nat × Nat)

namespace Client

/-- The state after a request for `n` bytes. -/
def returned (s : Client) (n : Nat) : Option Nat × Allocator → Client
  | (none, a) => { s with alloc := a }
  | (some p, a) => { s with alloc := a, live := (p, n) :: s.live }

/-- The state after adding a pool. -/
def accepted (s : Client) (P : Pool) : Option Nat × Allocator → Client
  | (none, a) => { s with alloc := a }
  | (some _, a) => { s with alloc := a, pools := P :: s.pools }

def step (s : Client) : Call → Client
  | .addPool mem bytes => s.accepted ⟨mem, (poolBytes bytes s.alloc).1⟩ (htfhAddPool mem bytes s.alloc)
  | .request r => s.returned r.bytes (r.run s.alloc)
  | .free ptr =>
    { s with alloc := (htfhFree ptr s.alloc).2, live := s.live.filter fun e => e.1 ≠ ptr }
  | .write w v => { s with alloc := setMem (fun m => write8 m w v) s.alloc }

theorem step_free_pools (s : Client) (ptr : Nat) : (s.step (.free ptr)).pools = s.pools := by
  rw [step]

/-- The clients free live pointers and write inside of live payloads only. -/
def Legal (s : Client) : Call → Prop
  | .addPool mem bytes => Given s.pools s.alloc mem bytes
  | .request r => r.Legal
  | .free ptr => ∃ n, (ptr, n) ∈ s.live
  | .write w _ => ∃ p n, (p, n) ∈ s.live ∧ p ≤ w ∧ w < p + blockSize s.alloc.mem (blockFromPtr p)

def CallFits (s : Client) : Call → Prop
  | .request r => r.Fits s.alloc
  | _ => True

/-- A new allocator without pools.  Its controller is an object of the program. -/
def start (a : Allocator) : Client := ⟨controllerNew a, [], []⟩

def run (s : Client) (calls : List Call) : Option Client :=
  Runs.run (fun s c => some (s.step c)) s calls

/-- Every call of the run is legal and meets the condition `ok`. -/
def Regular (ok : Client → Call → Prop) (s : Client) (calls : List Call) : Prop :=
  Runs.Regular (fun s c => some (s.step c)) (fun s c => s.Legal c ∧ ok s c) s calls

/-- The allocator represents `L`, whose used blocks are those of the live pointers. -/
structure Holds (s : Client) (L : Layout) : Prop where
  rep : Rep s.pools L L.classOf s.alloc
  coalesced : Coalesced L
  live : ∀ p, (∃ n, (p, n) ∈ s.live) ↔ ∃ b t, L.used b = some t ∧ t ≠ 0 ∧ p = b + 16

/-- What a call does to the layout. -/
inductive Effect (s : Client) : Call → Layout → Layout → Prop
  | none {c : Call} {L : Layout} : (s.step c).pools = s.pools → (s.step c).live = s.live →
      Effect s c L L
  | addPool {mem bytes : Nat} {L : Layout} : (poolOf mem bytes).Fits →
      (∀ Q ∈ s.pools, (poolOf mem bytes).Apart Q) →
      (s.step (.addPool mem bytes)).pools = poolOf mem bytes :: s.pools →
      (s.step (.addPool mem bytes)).live = s.live →
      Effect s (.addPool mem bytes) L (L.addPool (poolOf mem bytes))
  | request {r : Request} {b t : Nat} {L L' : Layout} :
      (r.run s.alloc).1 = some (b + 16) → (s.step (.request r)).pools = s.pools →
      (s.step (.request r)).live = (b + 16, r.bytes) :: s.live → L.used b = Option.none → t ≠ 0 →
      L'.used = Function.update L.used b (some t) →
      Layout.Changes (CutTo (r.Splits s.alloc) L r.computed) L L' →
      (r.isMemalign = false → adjustedSize r.computed ≠ 0 ∧ adjustedSize r.computed ≤ t) →
      Effect s (.request r) L L'
  | free {b : Nat} {L L' : Layout} : L'.used = Function.update L.used b Option.none →
      Layout.Changes (fun _ => False) L L' → Effect s (.free (b + 16)) L L'

variable {s : Client} {L : Layout} {a : Allocator}

theorem Holds.exists_used (h : s.Holds L) {p n : Nat} (hp : (p, n) ∈ s.live) :
    ∃ b x, p = b + 16 ∧ L b = some x ∧ x.free = false ∧ x.size ≠ 0 ∧ blockFromPtr p = b := by
  obtain ⟨b, t, hused, ht, rfl⟩ := (h.live p).mp ⟨n, hp⟩
  obtain ⟨x, hb, hx, rfl⟩ := Layout.used_eq_some.mp hused
  exact ⟨b, x, rfl, hb, hx, ht, h.rep.blockFromPtr_eq hb⟩

theorem Holds.addPool (h : s.Holds L) {mem bytes : Nat} (legal : s.Legal (.addPool mem bytes)) :
    ∃ L', (s.step (.addPool mem bytes)).Holds L' ∧ s.Effect (.addPool mem bytes) L L' := by
  have hstep : s.step (.addPool mem bytes) =
      s.accepted (poolOf mem bytes) (htfhAddPool mem bytes s.alloc) := by
    rw [step, poolBytes_eq]
    rfl
  rcases htfhAddPool_spec h.rep legal with ⟨a', heq, hsame, -⟩ | ⟨a', heq, hP, hnew, -, hrep⟩
  · rw [heq] at hstep
    refine ⟨L, ?_, .none (by rw [hstep]; rfl) (by rw [hstep]; rfl)⟩
    rw [hstep]
    exact ⟨RepBut.sameHeap h.rep hsame, h.coalesced, h.live⟩
  · rw [heq] at hstep
    refine ⟨_, ?_, .addPool hP hnew (by rw [hstep]; rfl) (by rw [hstep]; rfl)⟩
    rw [hstep]
    refine ⟨hrep, h.coalesced.addPool h.rep.tiling hP hnew, fun p => (h.live p).trans ?_⟩
    have hlast : ∀ t, L.used (poolOf mem bytes).last = some t → False := by
      intro t hused
      obtain ⟨x, hx, -, -⟩ := Layout.used_eq_some.mp hused
      have := h.rep.tiling.apart_pool hnew hx
      have := hP.last_eq
      omega
    rw [used_addPool h.rep.tiling hP hnew]
    constructor
    · rintro ⟨b, t, hused, ht, rfl⟩
      refine ⟨b, t, ?_, ht, rfl⟩
      rw [Function.update_of_ne, hused]
      rintro rfl
      exact hlast t hused
    · rintro ⟨b, t, hused, ht, rfl⟩
      refine ⟨b, t, ?_, ht, rfl⟩
      by_cases hb : b = (poolOf mem bytes).last
      · rw [hb, Function.update_self] at hused
        exact (ht (Option.some.inj hused).symm).elim
      · rwa [Function.update_of_ne hb] at hused

/-- A returned block is live. -/
theorem Holds.returned (h : s.Holds L) {ok : Nat → Prop} {L' : Layout} {b t : Nat} {a' : Allocator}
    (halloc : Allocated s.pools ok L L' b t s.alloc a') (n : Nat) :
    (s.returned n (some (b + 16), a')).Holds L' := by
  refine ⟨halloc.rep, halloc.coalesced, fun p => ?_⟩
  rw [halloc.used]
  constructor
  · rintro ⟨m, hm⟩
    rcases List.mem_cons.mp hm with heq | hm
    · exact ⟨b, t, Function.update_self .., halloc.size_ne_zero, congrArg Prod.fst heq⟩
    · obtain ⟨c, u, hused, hu, rfl⟩ := (h.live p).mp ⟨m, hm⟩
      refine ⟨c, u, ?_, hu, rfl⟩
      rw [Function.update_of_ne, hused]
      rintro rfl
      simp [halloc.fresh] at hused
  · rintro ⟨c, u, hused, hu, rfl⟩
    by_cases hcb : c = b
    · exact ⟨n, by rw [hcb]; exact List.mem_cons_self⟩
    · rw [Function.update_of_ne hcb] at hused
      obtain ⟨m, hm⟩ := (h.live (c + 16)).mpr ⟨c, u, hused, hu, rfl⟩
      exact ⟨m, List.mem_cons_of_mem _ hm⟩

theorem Holds.request (h : s.Holds L) {r : Request} (legal : r.Legal) (fits : r.Fits s.alloc) :
    ∃ L', (s.step (.request r)).Holds L' ∧ s.Effect (.request r) L L' := by
  have hstep : s.step (.request r) = s.returned r.bytes (r.run s.alloc) := rfl
  rcases Request.spec h.rep h.coalesced legal fits with
    ⟨a', heq, hmem, hcontroller⟩ | ⟨b, t, a', L', heq, halloc, hle, -⟩
  · rw [heq] at hstep
    refine ⟨L, ?_, .none (by rw [hstep]; rfl) (by rw [hstep]; rfl)⟩
    rw [hstep]
    exact ⟨h.rep.congr hmem hcontroller, h.coalesced, h.live⟩
  · rw [heq] at hstep
    refine ⟨L', ?_, .request (by rw [heq]) (by rw [hstep]; rfl) (by rw [hstep]; rfl) halloc.fresh
      halloc.size_ne_zero halloc.used halloc.changes hle⟩
    rw [hstep]
    exact h.returned halloc r.bytes

theorem Holds.free (h : s.Holds L) {b t : Nat} (hb : L.used b = some t) (ht : t ≠ 0) :
    ∃ L', (s.step (.free (b + 16))).Holds L' ∧ (htfhFree (b + 16) s.alloc).1 = 0 ∧
      L'.used = Function.update L.used b none ∧ Layout.Changes (fun _ => False) L L' ∧
      Remembers L' (s.step (.free (b + 16))).alloc b t ∧
      ∀ d u, Remembers L s.alloc d u → Remembers L' (s.step (.free (b + 16))).alloc d u := by
  obtain ⟨x, hL, hx, rfl⟩ := Layout.used_eq_some.mp hb
  obtain ⟨a', L', heq, -, hrep, hc, hused, hchanges, hfreed, hremembers⟩ :=
    htfhFree_spec h.rep h.coalesced hL hx ht
  have hstep : s.step (.free (b + 16)) =
      { s with alloc := a', live := s.live.filter fun e => e.1 ≠ b + 16 } := by
    rw [step, heq]
  refine ⟨L', ?_, by rw [heq], hused, hchanges, by rw [hstep]; exact hfreed,
    by rw [hstep]; exact hremembers⟩
  rw [hstep]
  refine ⟨hrep, hc, fun p => ?_⟩
  rw [hused]
  constructor
  · rintro ⟨m, hm⟩
    obtain ⟨hm, hne⟩ := List.mem_filter.mp hm
    obtain ⟨c, u, hcused, hu, rfl⟩ := (h.live p).mp ⟨m, hm⟩
    refine ⟨c, u, ?_, hu, rfl⟩
    rw [Function.update_of_ne, hcused]
    rintro rfl
    simp at hne
  · rintro ⟨c, u, hcused, hu, rfl⟩
    have hcb : c ≠ b := by
      rintro rfl
      simp at hcused
    rw [Function.update_of_ne hcb] at hcused
    obtain ⟨m, hm⟩ := (h.live (c + 16)).mpr ⟨c, u, hcused, hu, rfl⟩
    exact ⟨m, List.mem_filter.mpr ⟨hm, by simp [hcb]⟩⟩

theorem Holds.write (h : s.Holds L) {w : Nat} {v : UInt8} (legal : s.Legal (.write w v)) :
    ∃ L', (s.step (.write w v)).Holds L' ∧ s.Effect (.write w v) L L' := by
  obtain ⟨p, n, hp, hle, hlt⟩ := legal
  obtain ⟨b, x, rfl, hb, hx, hsize, hblock⟩ := h.exists_used hp
  rw [hblock, h.rep.blockSize_eq hb (by simp)] at hlt
  refine ⟨L, ⟨(RepBut.overwrite (f := fun m => write8 m w v) h.rep hb hx fun u hu => ?_).1,
    h.coalesced, h.live⟩, .none rfl rfl⟩
  simp only [write8]
  rw [if_neg (by omega)]

/-- Every call keeps the heap in order. -/
theorem Holds.step (h : s.Holds L) {c : Call} (legal : s.Legal c) (fits : s.CallFits c) :
    ∃ L', (s.step c).Holds L' ∧ s.Effect c L L' := by
  cases c with
  | addPool mem bytes => exact h.addPool legal
  | request r => exact h.request legal fits
  | free ptr =>
    obtain ⟨b, t, hb, ht, rfl⟩ := (h.live ptr).mp legal
    obtain ⟨L', h', -, hused, hchanges, -⟩ := h.free hb ht
    exact ⟨L', h', .free hused hchanges⟩
  | write w v => exact h.write legal

/-- An allocator on zeroed memory with its controller at 4096. -/
def zeroed : Allocator := ⟨⟨fun _ => 0⟩, ⟨4096, 0, fun _ => 0, fun _ _ => 0⟩, 0, .none, ""⟩

/-- Where the controller may lie. -/
def Room (a : Allocator) : Prop :=
  0 < a.controller.blockNull ∧ a.controller.blockNull + sizeofController ≤ 2 ^ 64

instance (a : Allocator) : Decidable (Room a) := inferInstanceAs (Decidable (_ ∧ _))

theorem given_zeroed : Given [] (start zeroed).alloc 16384 1024 := by
  constructor <;> decide

theorem room_zeroed : Room zeroed := by decide

theorem holds_start (hroom : Room a) : (start a).Holds fun _ => none where
  rep :=
    { tiling := tiling_nil
      header := by simp
      foot := by simp
      listed := fun b k hk => by simp [Layout.classOf] at hk
      index := by
        have hlist : ∀ v : Nat, link v v = none := fun v => link_eq_none.mpr rfl
        refine ⟨fun fl sl => ⟨[], ?_, by simp [Layout.classOf]⟩, fun fl sl => ?_, fun fl => ?_⟩
        · exact ⟨hlist _, rfl⟩
        · simp [start, controllerNew, setController, Layout.classOf]
        · simp [start, controllerNew, setController]
      null_pos := hroom
      null_apart := by simp [start] }
  coalesced := by simp [Coalesced, CoalescedBut]
  live p := by simp [start, Layout.used]

theorem regular_cons {ok : Client → Call → Prop} {c : Call} {calls : List Call} :
    Regular ok s (c :: calls) ↔ (s.Legal c ∧ ok s c) ∧ Regular ok (s.step c) calls := by
  refine and_congr_right fun _ => ⟨fun h => h _ rfl, ?_⟩
  rintro h s' heq
  obtain rfl := Option.some.inj heq
  exact h

theorem run_returns (s : Client) (calls : List Call) : ∃ s', s.run calls = some s' := by
  induction calls generalizing s with
  | nil => exact ⟨s, rfl⟩
  | cons c calls ih => exact ih (s.step c)

/-- The heap is in order. -/
def Sound (s : Client) : Prop := ∃ L, s.Holds L

/-- A run all of whose calls fit keeps the heap in order. -/
theorem Sound.run {ok : Client → Call → Prop} (hok : ∀ s c, ok s c → s.CallFits c)
    {calls : List Call} (hroom : Room a) (regular : Regular ok (start a) calls)
    (hrun : (start a).run calls = some s) : s.Sound := by
  have preserves : ∀ s c s', s.Sound → s.Legal c ∧ ok s c → some (s.step c) = some s' →
      s'.Sound := by
    rintro s c s' ⟨L, h⟩ ⟨legal, fits⟩ hstep
    obtain rfl := Option.some.inj hstep
    obtain ⟨L', h', -⟩ := h.step legal (hok s c fits)
    exact ⟨L', h'⟩
  exact Runs.run_preserves preserves ⟨_, holds_start hroom⟩ regular hrun

end Client
end Htfh
