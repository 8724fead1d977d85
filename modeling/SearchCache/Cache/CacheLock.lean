import SearchCache.Cache.DlirsRefinement
import SearchCache.Lib.RwLock

/-! `cache.c`: handlers behind a lock.  `cache_request` and `cache_get` take it for writing,
`cache_contains` and `cache_is_full` for reading, and a function that does not get it returns a value
that says so.  Whatever the steps of the handlers are and however the threads take turns, the clients
see what the handlers called one after another return. -/

namespace SearchCache

/-- `CacheBackingHandlers`, on backings `S` whose entries the clients see as `E`. -/
structure CacheBackingHandlers (S K V E : Type) where
  requestHandler : S → K → V → Option ((Int × Option E) × S)
  getHandler : S → K → Option ((Option E × Option E) × S)
  containsHandler : S → K → Bool
  isFullHandler : S → Bool

/-- The functions of `cache.c`, with their arguments. -/
inductive CacheFn (K V : Type)
  | request (key : K) (value : V)
  | get (key : K)
  | contains (key : K)
  | isFull

/-- What they return, with what they leave in `*evicted`. -/
inductive CacheReply (E : Type)
  | requested (code : Int) (evicted : Option E)
  | got (entry evicted : Option E)
  | flag (b : Bool)

variable {S K V E L T : Type}

namespace CacheFn

/-- The function takes the lock with `htfh_rwlock_wrlock_handled`. -/
def wrlock : CacheFn K V → Bool
  | request .. | get _ => true
  | contains _ | isFull => false

/-- What the function returns without the lock. -/
def failed : CacheFn K V → CacheReply E
  | request .. => .requested (-1) none
  | get _ => .got none none
  | contains _ | isFull => .flag false

end CacheFn

/-- What a function does with the lock. -/
def CacheBackingHandlers.handle (handlers : CacheBackingHandlers S K V E) (backing : S) :
    CacheFn K V → Option (CacheReply E × S)
  | .request key value => (handlers.requestHandler backing key value).map fun ((code, evicted), backing) =>
    (.requested code evicted, backing)
  | .get key => (handlers.getHandler backing key).map fun ((entry, evicted), backing) =>
    (.got entry evicted, backing)
  | .contains key => some (.flag (handlers.containsHandler backing key), backing)
  | .isFull => some (.flag (handlers.isFullHandler backing), backing)

/-- A function that gets the lock or does not. -/
def CacheBackingHandlers.call (handlers : CacheBackingHandlers S K V E) (backing : S) :
    CacheFn K V × Bool → Option (CacheReply E × S)
  | (fn, true) => handlers.handle backing fn
  | (fn, false) => some (fn.failed, backing)

/-- The steps of the handlers. -/
structure CacheCode (handlers : CacheBackingHandlers S K V E) (L : Type) where
  bodies : RwLock.Bodies (CacheFn K V) (CacheReply E) S L
  exclusive : bodies.exclusive = CacheFn.wrlock
  implements : bodies.Implements handlers.handle
  readsOnly : bodies.ReadsOnly

/-- Handlers whose steps are whole calls. -/
def CacheCode.whole (handlers : CacheBackingHandlers S K V E) :
    CacheCode handlers (CacheFn K V ⊕ CacheReply E) where
  bodies := {
    exclusive := CacheFn.wrlock
    start := .inl
    step := fun l backing => match l with
      | .inl fn => (handlers.handle backing fn).map fun (reply, backing) => (.inr reply, backing)
      | .inr _ => none
    answer := Sum.getRight? }
  exclusive := rfl
  implements := by
    intro backing fn reply backing' h
    refine ⟨.inr reply, .single ⟨rfl, ?_⟩, rfl⟩
    simp [h]
  readsOnly := by
    intro fn backing l l' backing' hshares hreaches hstep
    cases l with
    | inr reply => simp at hstep
    | inl fn' =>
      -- no step leads to a call that has not begun
      rcases Relation.ReflTransGen.cases_tail hreaches with hsame | ⟨⟨l1, backing1⟩, -, hsmall⟩
      · simp only [Prod.mk.injEq, Sum.inl.injEq, and_true] at hsame
        subst hsame
        cases fn' <;> simp [CacheFn.wrlock, CacheBackingHandlers.handle] at hshares hstep <;>
          exact hstep.2.symm
      · have hnext := hsmall.2
        cases l1 <;> simp at hnext

/-! ### Threads -/

/-- The threads that share a cache. -/
abbrev CacheThreads (T S K V E L : Type) := RwLock.System T (CacheFn K V) (CacheReply E) S L

namespace CacheThreads

/-- What the threads have called, and whether they got the lock, in the order of the returns. -/
def calls (s : CacheThreads T S K V E L) : List (CacheFn K V × Bool) :=
  s.returned.map fun r => (r.op, r.answer.isSome)

/-- What the calls have returned. -/
def replies (s : CacheThreads T S K V E L) : List (CacheReply E) :=
  s.returned.map fun r => r.answer.getD r.op.failed

variable {handlers : CacheBackingHandlers S K V E}

/-- A call that does not get the lock changes nothing. -/
theorem serve_calls {s : CacheThreads T S K V E L} {backing backing' : S}
    (h : Servers.serve handlers.handle backing (s.answered.map Prod.fst) =
      some (s.answered.map Prod.snd, backing')) :
    Servers.serve handlers.call backing s.calls = some (s.replies, backing') := by
  unfold RwLock.System.answered at h
  unfold calls replies
  generalize s.returned = returned at h
  induction returned generalizing backing with
  | nil => exact h
  | cons r returned ih =>
    obtain ⟨t, fn, reply⟩ := r
    cases reply with
    | none => exact Servers.serve_cons rfl (ih h)
    | some reply =>
      simp only [List.filterMap_cons, Option.map_some, List.map_cons, Servers.serve] at h
      split at h
      · simp at h
      · rename_i reply1 backing1 hstep
        obtain ⟨⟨answers1, backing2⟩, hrest, heq⟩ := Option.map_eq_some_iff.mp h
        simp only [Prod.mk.injEq, List.cons.injEq] at heq
        obtain ⟨⟨rfl, rfl⟩, rfl⟩ := heq
        have hcall : handlers.call backing (fn, true) = some (reply1, backing1) := hstep
        exact Servers.serve_cons hcall (ih hrest)

end CacheThreads

/-! ### Threads on a DLIRS backing -/

/-- `DLIRS_CACHE_BACKING_HANDLERS`. -/
def dlirsHandlers : CacheBackingHandlers (Served V) Key V (Key × Option V) where
  requestHandler s key value := (dlirsRequest {} s.cache key (some value) none).map fun r =>
    ((r.code, r.cache.look r.evicted), ⟨r.cache, r.evicted.toList ++ s.handles⟩)
  getHandler s key := (dlirsGet {} s.cache key).map fun r =>
    ((r.cache.look r.entry, r.cache.look r.evicted), ⟨r.cache, r.evicted.toList ++ s.handles⟩)
  containsHandler s key := dlirsContains s.cache key
  isFullHandler s := dlirsIsFull s.cache

def CacheFn.toCall : CacheFn Key V → CacheCall V
  | .request key value => .request key value
  | .get key => .get key
  | .contains key => .contains key
  | .isFull => .isFull

def CacheReply.toAnswer : CacheReply (Key × Option V) → Answer V
  | .requested code evicted => .stored code evicted
  | .got entry evicted => .got entry evicted
  | .flag b => .flag b

theorem served_call (s : Served V) (fn : CacheFn Key V) :
    s.call fn.toCall = (dlirsHandlers.handle s fn).map fun r => (r.1.toAnswer, r.2) := by
  cases fn <;> simp [CacheFn.toCall, Served.call, CacheBackingHandlers.handle, dlirsHandlers,
    CacheReply.toAnswer, Function.comp_def]

section Dlirs

open Lirs

variable [DecidableEq T] {code : CacheCode (dlirsHandlers (V := V)) L} {acts : List (RwLock.Act T (CacheFn Key V))}
  {s : CacheThreads T (Served V) Key V (Key × Option V) L} {start : Served V} {a : Lirs Key V}

omit [DecidableEq T] in
/-- Permitted calls return, and answer what the algorithm does. -/
theorem serve_handlers (hstart : start.Shows a) {calls : List (CacheFn Key V)}
    (permitted : Servers.Permitted Served.call Served.Permits start (calls.map CacheFn.toCall)) :
    ∃ answers s' b, Servers.serve dlirsHandlers.handle start calls = some (answers, s') ∧
      Servers.serve Lirs.call a (calls.map CacheFn.toCall) = some (answers.map CacheReply.toAnswer, b) := by
  obtain ⟨told, s', b, hs, hb, -⟩ :=
    Servers.serve_agree (fun _ _ _ h permits => h.call permits) hstart permitted
  rw [Servers.serve_map served_call] at hs
  obtain ⟨⟨answers, s1⟩, hserve, heq⟩ := Option.map_eq_some_iff.mp hs
  cases heq
  exact ⟨answers, s1, b, hserve, hb⟩

end Dlirs

section Threads

open Lirs

variable [DecidableEq T] {htSize cacheSize : Nat} {hirsRatio : ℚ}
  {acts : List (RwLock.Act T (CacheFn Key V))}
  {s : CacheThreads T (Served V) Key V (Key × Option V) L}

/-- Two threads: the second one waits for the first one's request, and is refused a lock later. -/
def twoThreads : List (RwLock.Act Bool (CacheFn Key Nat)) :=
  [.call false (.request keyA 1), .call true (.contains keyA), .enter false, .advance false,
    .leave false, .enter true, .advance true, .call false .isFull, .enter false, .advance false,
    .leave false, .leave true, .call true (.get keyA), .refuse true]

def twoThreadsRun (n : Nat) : Option (CacheThreads Bool (Served Nat) Key Nat (Key × Option Nat)
    (CacheFn Key Nat ⊕ CacheReply (Key × Option Nat))) :=
  Runs.run (RwLock.System.step (CacheCode.whole dlirsHandlers).bodies)
    (RwLock.System.create (Served.create 4 2 (1 / 100))) (twoThreads.take n)

theorem twoThreadsRun_done : (twoThreadsRun 14).isSome := by decide +kernel

theorem twoThreadsRun_inside : (twoThreadsRun 3).isSome := by decide +kernel

end Threads

end SearchCache
