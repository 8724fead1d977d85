import SearchCache.Cache.DlirsCoherence
import SearchCache.Cache.DlirsMembership
import SearchCache.Lib.Servers

/-! What the clients of a cache see.  Below 2^24, every answer of `dlirs_get`, `dlirs_request`,
`dlirs_contains` and `dlirs_is_full` is the one that the algorithm on keys gives: the keys and values
of the entries that are found and evicted, and no others. -/

namespace SearchCache

open Lirs

variable {V : Type}

inductive CacheCall (V : Type)
  | get (key : Key)
  | request (key : Key) (value : V)
  | contains (key : Key)
  | isFull
  /-- The client is done with an evicted entry. -/
  | release (r : Ref)

/-- What a call answers, with the entries that it hands out as pairs of a key and a value. -/
inductive Answer (V : Type)
  | got (entry evicted : Option (Key × Option V))
  | stored (code : Int) (evicted : Option (Key × Option V))
  | flag (b : Bool)
  | done
  deriving DecidableEq

/-- A cache with the evicted entries that nobody has released. -/
structure Served (V : Type) where
  cache : DLIRS V
  handles : List Ref

/-- What an entry says. -/
def DLIRS.look (cache : DLIRS V) (r : Option Ref) : Option (Key × Option V) :=
  (r.bind cache.heap).map fun e => (e.key, e.value)

namespace Served

def create (htSize cacheSize : Nat) (hirsRatio : ℚ) : Served V :=
  ⟨dlirsCreate htSize cacheSize none hirsRatio, []⟩

def call (s : Served V) : CacheCall V → Option (Answer V × Served V)
  | .get key => (dlirsGet {} s.cache key).map fun r =>
    (.got (r.cache.look r.entry) (r.cache.look r.evicted), ⟨r.cache, r.evicted.toList ++ s.handles⟩)
  | .request key value => (dlirsRequest {} s.cache key (some value) none).map fun r =>
    (.stored r.code (r.cache.look r.evicted), ⟨r.cache, r.evicted.toList ++ s.handles⟩)
  | .contains key => some (.flag (dlirsContains s.cache key), s)
  | .isFull => some (.flag (dlirsIsFull s.cache), s)
  | .release r =>
    if r ∈ s.handles then some (.done, ⟨dlirsEntryDestroy s.cache (some r), s.handles.erase r⟩)
    else none

/-- A lookup is for a key in `lirs` or in no table, a request for a key in no table, and only a
handle is released. -/
def Permits (s : Served V) : CacheCall V → Prop
  | .get key => s.cache.Permits (.get key)
  | .request key _ => s.cache.hasKey key = false
  | .release r => r ∈ s.handles
  | _ => True

instance (s : Served V) (c : CacheCall V) : Decidable (s.Permits c) := by
  cases c <;> unfold Permits <;> try unfold DLIRS.Permits
  all_goals infer_instance

end Served

/-! ### The algorithm -/

namespace Lirs

/-- What is known about a key. -/
def tell (a : Lirs Key V) (k : Option Key) : Option (Key × Option V) :=
  k.map fun k => (k, (a.info k).value)

instance (a : Lirs Key V) (k : Key) : Decidable (a.Resident k) :=
  inferInstanceAs (Decidable (_ ∨ _ ∧ _))

def call (a : Lirs Key V) : CacheCall V → Option (Answer V × Lirs Key V)
  | .get k => (a.get k).map fun (e, b) =>
    (.got (b.tell (if k ∈ a.stack ∧ (a.info k).inCache then some k else none)) (b.tell e), b)
  | .request k value => (a.request k (some value)).map fun (e, b) => (.stored 0 (b.tell e), b)
  | .contains k => some (.flag (a.Resident k), a)
  | .isFull => some (.flag (a.residents = a.cacheSize), a)
  | .release _ => some (.done, a)

variable {a b : Lirs Key V} {k : Key} {evicted : Option Key}

/-- A lookup changes no value and brings no key in. -/
theorem get_values (h : a.Stable) (hl : a.Lookup k) (hb : a.get k = some (evicted, b)) :
    (∀ j, (b.info j).value = (a.info j).value) ∧ ∀ j, b.Tracked j → a.Tracked j := by
  unfold Lirs.get at hb
  split at hb
  · rename_i hk
    split at hb
    · cases hb
      obtain ⟨-, -, -, -, -, hshrinks⟩ := hitLir_spec h.wf hk
      exact ⟨hshrinks.value, hshrinks.tracked⟩
    · rename_i hlir
      rw [Bool.not_eq_true] at hlir
      have hs := hitHir_spec h.wf (hl.rooted hk hlir) (h.room hl hk hlir) hk hlir hb
      refine ⟨fun j => ?_, hs.tracked⟩
      have hp := promote_promotes a k
      obtain ⟨hwf, -⟩ := h.wf.promote k
      obtain ⟨-, hrooted, -⟩ := promote_spec h.wf hk hlir
      rw [hitHir, Option.bind_eq_bind, Option.bind_eq_some_iff] at hb
      obtain ⟨a1, hdemote, hb⟩ := hb
      rw [Option.bind_eq_bind, Option.bind_eq_some_iff] at hb
      obtain ⟨⟨e, a2⟩, hmake, hb⟩ := hb
      cases hb
      obtain ⟨hwf1, -, -, -, -, hshrinks⟩ := demoteAll_spec hwf (hrooted (hl.rooted hk hlir)) hdemote
      have hpromoted : ((a.promote k).info j).value = (a.info j).value := by
        rcases eq_or_ne j k with rfl | hne
        · rw [hp.info]
        · rw [hp.other j hne]
      exact ((makeRoom_thins hwf1 hmake).value j).trans ((hshrinks.value j).trans hpromoted)
  · cases hb
    exact ⟨fun _ => rfl, fun _ => id⟩

end Lirs

/-! ### The cache and the algorithm -/

theorem Sim.look {cache : DLIRS V} {ref : Key → Ref} {a : Lirs Key V} {hand : List Key}
    {held : Multiset Ref} (h : Sim cache ref a hand held) {k : Option Key}
    (hk : ∀ j ∈ k, (∃ t, j ∈ a.order t) ∨ j ∈ hand) : cache.look (k.map ref) = a.tell k := by
  cases k with
  | none => rfl
  | some j =>
    obtain ⟨n, hn⟩ := h.entries j (hk j rfl)
    simp [DLIRS.look, Lirs.tell, hn, entryOf]

/-- The cache follows the algorithm, and its limits are exact. -/
def Served.Shows (s : Served V) (a : Lirs Key V) : Prop :=
  a.cacheSize < 2 ^ 24 ∧ ∃ ref, Serves s.cache ref a s.handles

namespace Served

variable {s : Served V} {a : Lirs Key V} {k : Key}

theorem Shows.get (h : s.Shows a) (permits : s.Permits (.get k)) :
    ∃ o s' b, s.call (.get k) = some (o, s') ∧ a.call (.get k) = some (o, b) ∧ s'.Shows b := by
  obtain ⟨hsmall, ref, hserves⟩ := h
  have hexact := hserves.exact hsmall
  have hl : a.Lookup k := ⟨hserves.permitted permits, fun _ _ => hserves.founded.rooted,
    fun _ _ => hexact.residents_le⟩
  obtain ⟨⟨e, b⟩, hb⟩ := get_progress hserves.stable hserves.founded.rooted hexact (k := k)
  obtain ⟨r, hr, hgot, htracks⟩ := Loop.of_rel_some (hb ▸ hserves.toTracks.get hl)
  obtain ⟨hvalues, htracked⟩ := get_values hserves.stable hl hb
  obtain ⟨-, hsize, -⟩ := hserves.stable.get hl hb
  have hentry : r.cache.look r.entry =
      b.tell (if k ∈ a.stack ∧ (a.info k).inCache then some k else none) := by
    rw [hgot.entry, ← hgot.sim.look]
    · split <;> rfl
    · intro j hj
      rw [Option.mem_def] at hj
      split at hj
      · rename_i hhit
        obtain rfl := Option.some.inj hj
        rcases (get_cached hserves.stable hl hhit.1 hhit.2 hb).1 with hs | hq
        · exact .inl ⟨.lirs, hs⟩
        · exact .inl ⟨.residentHirs, hq⟩
      · simp at hj
  have hevicted : r.cache.look r.evicted = b.tell e := by
    rw [hgot.evicted]
    exact hgot.sim.look fun j hj => .inr (by simpa using hj)
  refine ⟨_, _, b, by rw [call, hr]; rfl, by rw [Lirs.call, hb, hentry, hevicted]; rfl,
    hsize ▸ hsmall, ref, ?_⟩
  refine ⟨?_, hserves.valued.of_tracked htracked hvalues, fun _ =>
    hexact.get hserves.stable hl hb⟩
  rw [← hold_toList] at htracks
  exact htracks

theorem Shows.request (h : s.Shows a) {value : V} (permits : s.Permits (.request k value)) :
    ∃ o s' b, s.call (.request k value) = some (o, s') ∧ a.call (.request k value) = some (o, b) ∧
      s'.Shows b := by
  obtain ⟨hsmall, ref, hserves⟩ := h
  have hexact := hserves.exact hsmall
  have hk : ¬a.Tracked k := hserves.untracked permits
  obtain ⟨⟨e, b⟩, hb⟩ := request_progress hserves.stable hexact hk (some value)
  obtain ⟨r, hr, hcode, hevicted, ref', href, hsim, htracks⟩ :=
    Loop.of_rel_some (hb ▸ hserves.toTracks.request hk (some value))
  obtain ⟨-, hsize, -⟩ := hserves.stable.request hk (some value) hb
  -- the evicted key is another one, whose reference is still the same
  have hlook : r.cache.look r.evicted = b.tell e := by
    have hmap : e.map ref = e.map ref' := by
      cases e with
      | none => rfl
      | some i =>
        have hne : i ≠ k := by
          rintro rfl
          exact hk (request_evicted hb)
        rw [Option.map_some, Option.map_some, href i hne]
    rw [hevicted, hmap]
    exact hsim.look fun j hj => .inr (by simpa using hj)
  refine ⟨_, _, b, by rw [call, hr]; rfl, by rw [Lirs.call, hb, hcode, hlook]; rfl,
    hsize ▸ hsmall, ref', ?_⟩
  refine ⟨?_, hserves.valued.request hserves.stable hk hb, fun _ =>
    hexact.request hserves.stable hk (some value) hb⟩
  rw [← hold_toList] at htracks
  exact htracks

theorem Shows.release (h : s.Shows a) {r : Ref} (hr : r ∈ s.handles) :
    ∃ s', s.call (.release r) = some (.done, s') ∧ s'.Shows a := by
  obtain ⟨hsmall, ref, hserves⟩ := h
  refine ⟨_, if_pos hr, hsmall, ref, ?_⟩
  have hheld : (s.handles : Multiset Ref) = r ::ₘ (s.handles.erase r : Multiset Ref) := by
    rw [Multiset.cons_coe]
    exact Multiset.coe_eq_coe.mpr (List.perm_cons_erase hr)
  obtain ⟨htracks, hvalued, hexact⟩ := hserves
  rw [hheld] at htracks
  exact ⟨htracks.release, hvalued, hexact⟩

theorem Shows.contains (h : s.Shows a) (k : Key) :
    dlirsContains s.cache k = decide (a.Resident k) := by
  obtain ⟨-, ref, hserves⟩ := h
  have hiff := hserves.toSim.contains_iff hserves.stable.wf hserves.valued (k := k)
  by_cases hk : a.Resident k
  · rw [hiff.mpr hk, decide_eq_true hk]
  · rw [decide_eq_false hk]
    exact Bool.eq_false_iff.mpr fun hcontains => hk (hiff.mp hcontains)

theorem Shows.isFull (h : s.Shows a) :
    dlirsIsFull s.cache = decide (a.residents = a.cacheSize) := by
  obtain ⟨-, ref, hserves⟩ := h
  rw [dlirsIsFull, hserves.residents, hserves.cacheSize]

/-- Every permitted call returns, and answers what the algorithm does. -/
theorem Shows.call (h : s.Shows a) {c : CacheCall V} (permits : s.Permits c) :
    ∃ o s' b, s.call c = some (o, s') ∧ a.call c = some (o, b) ∧ s'.Shows b := by
  cases c with
  | get key => exact h.get permits
  | request key value => exact h.request permits
  | contains key => exact ⟨_, s, a, rfl, by rw [h.contains]; rfl, h⟩
  | isFull => exact ⟨_, s, a, rfl, by rw [h.isFull]; rfl, h⟩
  | release r =>
    obtain ⟨s', hs', h'⟩ := h.release permits
    exact ⟨.done, s', a, hs', rfl, h'⟩

theorem create_shows {htSize cacheSize : Nat} {hirsRatio : ℚ} (hht : 1 ≤ htSize)
    (hsmall : cacheSize < 2 ^ 24)
    (hhirs : 1 ≤ (dlirsCreate htSize cacheSize none hirsRatio : DLIRS V).hirsLimit)
    (hlirs : 1 ≤ (dlirsCreate htSize cacheSize none hirsRatio : DLIRS V).lirsLimit) :
    (create htSize cacheSize hirsRatio : Served V).Shows
      (Lirs.create cacheSize (dlirsCreate htSize cacheSize none hirsRatio : DLIRS V).hirsLimit
        (dlirsCreate htSize cacheSize none hirsRatio : DLIRS V).lirsLimit) :=
  ⟨hsmall, _, Tracks.create hht hlirs, fun j hj => by simp [Tracked, Lirs.create] at hj,
    fun hsmall => dlirsCreate_exact hsmall hhirs hlirs⟩

end Served

/-- The third key evicts the second one, whose ghost is then hit. -/
def ghostHit : List (CacheCall Nat) :=
  [.request keyA 1, .request keyB 2, .isFull, .request keyC 3, .contains keyB, .get keyB, .release 1,
    .contains keyA]

end SearchCache
