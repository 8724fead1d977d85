import SearchCache.Cache.DlirsAccounting

/-! `cache.c` with a DLIRS backing, and clients that share it.  The lock makes every `cache_get` and
every `cache_request` one step, but a client requests a key some steps after its lookup has missed,
so that other clients may have requested the key meanwhile. -/

namespace SearchCache

open Lirs

variable {V : Type}

/-- `cache_get`, where the lock is taken and released. -/
def cacheGet (cache : DLIRS V) (key : Key) : Option (DlirsGot V) := dlirsGet {} cache key

/-- `cache_request`, where the lock is taken and released. -/
def cacheRequest (cache : DLIRS V) (key : Key) (value : Option V) (evicted : Option Ref) :
    Option (DlirsRequested V) :=
  dlirsRequest {} cache key value evicted

/-- The cache, the evicted entries that no client has released, and the key that each client has
missed and not requested. -/
structure Clients (C V : Type) where
  cache : DLIRS V
  handles : List Ref
  missed : C → Option Key

inductive ClientCall (C V : Type)
  | get (client : C) (key : Key)
  | request (client : C) (value : V)
  | release (r : Ref)

namespace Clients

variable {C : Type} [DecidableEq C]

omit [DecidableEq C] in
def create (htSize cacheSize : Nat) (hirsRatio : ℚ) : Clients C V where
  cache := dlirsCreate htSize cacheSize none hirsRatio
  handles := []
  missed := fun _ => none

/-- One step of one client. -/
def step (s : Clients C V) : ClientCall C V → Option (Clients C V)
  | .get client key => (cacheGet s.cache key).map fun got => {
      cache := got.cache
      handles := got.evicted.toList ++ s.handles
      missed := Function.update s.missed client (if got.entry = none then some key else none) }
  | .request client value =>
    (s.missed client).bind fun key => (cacheRequest s.cache key (some value) none).map fun r => {
      cache := r.cache
      handles := r.evicted.toList ++ s.handles
      missed := Function.update s.missed client none }
  | .release r =>
    if r ∈ s.handles then some {
      s with
      cache := dlirsEntryDestroy s.cache (some r)
      handles := s.handles.erase r }
    else none

def run (s : Clients C V) (calls : List (ClientCall C V)) : Option (Clients C V) :=
  Runs.run step s calls

omit [DecidableEq C] in
/-- A lookup does not find its key in `resident_hirs` only.  A request is for a key that no table
has, and where it makes a LIR entry `lirs_count` is below the size of the cache. -/
def Regular (s : Clients C V) : ClientCall C V → Prop
  | .get _ key => s.cache.findsResidentOnly key = false
  | .request client _ => ∃ key, s.missed client = some key ∧ s.cache.hasKey key = false ∧
      (s.cache.lirsCount < s.cache.lirsLimit.toNat → s.cache.hirsCount = 0 →
        s.cache.lirsCount < s.cache.cacheSize)
  | .release r => r ∈ s.handles

def RunRegular (s : Clients C V) (calls : List (ClientCall C V)) : Prop :=
  Runs.Regular step Regular s calls

omit [DecidableEq C] in
/-- The cache follows the algorithm, within its size. -/
structure Follows (s : Clients C V) (ref : Key → Ref) (a : Lirs Key V) : Prop where
  tracks : Tracks s.cache ref a (s.handles : Multiset Ref)
  residents_le : a.residents ≤ a.cacheSize
  exact : a.cacheSize < 2 ^ 24 → a.Exact

variable {s s' : Clients C V} {ref : Key → Ref} {a : Lirs Key V}

omit [DecidableEq C] in
theorem Follows.lookup (h : s.Follows ref a) {key : Key}
    (hresident : s.cache.findsResidentOnly key = false) : a.Lookup key :=
  h.tracks.lookup hresident fun _ => by
    rw [h.tracks.residents, h.tracks.cacheSize]
    exact h.residents_le

theorem Follows.step (h : s.Follows ref a) {c : ClientCall C V} (regular : s.Regular c)
    (hstep : s.step c = some s') : ∃ ref' b, s'.Follows ref' b ∧ b.cacheSize = a.cacheSize := by
  cases c with
  | get client key =>
    have hl := h.lookup regular
    obtain ⟨got, hgot, rfl⟩ := Option.map_eq_some_iff.mp hstep
    obtain ⟨⟨e, b⟩, hb, -, htracks⟩ := Loop.some_of_rel (h.tracks.get hl) hgot
    obtain ⟨-, hsize, hresidents, -⟩ := h.tracks.stable.get hl hb
    exact ⟨ref, b, ⟨by rw [hold_toList]; exact htracks, hresidents h.residents_le,
      fun hsmall => (h.exact (hsize ▸ hsmall)).get h.tracks.stable hl hb⟩, hsize⟩
  | request client value =>
    obtain ⟨key, hmissed, hkey, hroom⟩ := regular
    have hk := h.tracks.untracked hkey
    rw [Clients.step, hmissed, Option.bind_some] at hstep
    obtain ⟨r, hr, rfl⟩ := Option.map_eq_some_iff.mp hstep
    obtain ⟨⟨e, b⟩, hb, -, -, ref', -, -, htracks⟩ :=
      Loop.some_of_rel (h.tracks.request hk (some value)) hr
    obtain ⟨-, hsize, -, -, hresidents, -⟩ := h.tracks.stable.request hk (some value) hb
    rw [h.tracks.lirsCount, h.tracks.lirsLimit, h.tracks.hirsCount, h.tracks.cacheSize,
      List.length_eq_zero_iff] at hroom
    exact ⟨ref', b, ⟨by rw [hold_toList]; exact htracks,
      hresidents h.residents_le fun hqueue hlt => hroom hlt hqueue,
      fun hsmall => (h.exact (hsize ▸ hsmall)).request h.tracks.stable hk (some value) hb⟩, hsize⟩
  | release r =>
    have hmem : r ∈ s.handles := regular
    rw [Clients.step, if_pos hmem, Option.some_inj] at hstep
    subst hstep
    have htracks := h.tracks
    rw [Multiset.coe_eq_coe.mpr (List.perm_cons_erase hmem), ← Multiset.cons_coe] at htracks
    exact ⟨ref, a, ⟨htracks.release, h.residents_le, h.exact⟩, rfl⟩

/-- Below 2^24 every step returns. -/
theorem Follows.progress (h : s.Follows ref a) (hsmall : a.cacheSize < 2 ^ 24)
    {c : ClientCall C V} (regular : s.Regular c) : ∃ s', s.step c = some s' := by
  cases c with
  | get client key =>
    obtain ⟨q, hq⟩ := get_progress h.tracks.stable h.tracks.founded.rooted (h.exact hsmall) (k := key)
    obtain ⟨got, hgot, -⟩ := Loop.of_rel_some (hq ▸ h.tracks.get (h.lookup regular))
    exact ⟨_, by rw [Clients.step, cacheGet, hgot]; rfl⟩
  | request client value =>
    obtain ⟨key, hmissed, hkey, -⟩ := regular
    have hk := h.tracks.untracked hkey
    obtain ⟨q, hq⟩ := request_progress h.tracks.stable (h.exact hsmall) hk (some value)
    obtain ⟨r, hr, -⟩ := Loop.of_rel_some (hq ▸ h.tracks.request hk (some value))
    exact ⟨_, by rw [Clients.step, hmissed, Option.bind_some, cacheRequest, hr]; rfl⟩
  | release r => exact ⟨_, if_pos regular⟩

theorem Follows.run (h : s.Follows ref a) {calls : List (ClientCall C V)}
    (regular : s.RunRegular calls) : (a.cacheSize < 2 ^ 24 → ∃ s', s.run calls = some s') ∧
      ∀ s', s.run calls = some s' → ∃ ref' b, s'.Follows ref' b := by
  let inv : Clients C V → Prop := fun s => ∃ ref b, s.Follows ref b ∧ b.cacheSize = a.cacheSize
  have start : inv s := ⟨ref, a, h, rfl⟩
  have preserves : ∀ s c s', inv s → s.Regular c → s.step c = some s' → inv s' := by
    rintro s c s' ⟨ref, b, hb, hsize⟩ hregular hstep
    obtain ⟨ref', b', hb', hsize'⟩ := hb.step hregular hstep
    exact ⟨ref', b', hb', hsize'.trans hsize⟩
  constructor
  · intro hsmall
    refine Runs.run_returns preserves ?_ start regular
    rintro s c ⟨ref, b, hb, hsize⟩ hregular
    exact hb.progress (hsize ▸ hsmall) hregular
  · intro s' hs'
    obtain ⟨ref', b, hb, -⟩ := Runs.run_preserves preserves start regular hs'
    exact ⟨ref', b, hb⟩

end Clients

end SearchCache
