import SearchCache.Cache.DlirsTracks

/-! The values that lookups return.  The algorithm keeps the value of every key that stays in the
cache and says which key has left it, so that the values are those of the last requests. -/

namespace SearchCache

open Lirs

variable {V : Type}

namespace Lirs

variable {K : Type} [DecidableEq K] {a b c : Lirs K V} {k j : K} {evicted : Option K}

/-- The key is in the cache. -/
def Cached (a : Lirs K V) (k : K) : Prop := a.Tracked k ∧ (a.info k).inCache = true

/-- A key that is in the cache afterwards was there before, with the same value, and is not the
evicted one. -/
def Keeps (a : Lirs K V) (evicted : Option K) (b : Lirs K V) : Prop :=
  ∀ j, b.Cached j → evicted ≠ some j ∧ a.Cached j ∧ (b.info j).value = (a.info j).value

omit [DecidableEq K] in
theorem Keeps.trans (h : Keeps a none b) (h' : Keeps b evicted c) : Keeps a evicted c := by
  intro j hj
  obtain ⟨hne, hb, hvalue⟩ := h' j hj
  obtain ⟨-, ha, hvalue'⟩ := h j hb
  exact ⟨hne, ha, hvalue.trans hvalue'⟩

omit [DecidableEq K] in
theorem Shrinks.keeps (h : Shrinks a b) : Keeps a none b := fun j hj =>
  ⟨by simp, ⟨h.tracked j hj.1, (h.inCache j).symm.trans hj.2⟩, h.value j⟩

theorem evict_keeps (h : a.WF) (he : a.evict = some (k, b)) : Keeps a (some k) b := by
  have hev := evict_evicts he
  have hnodup := h.queue_nodup
  rw [hev.queue, List.nodup_cons] at hnodup
  intro j hj
  have hne : j ≠ k := by
    rintro rfl
    rcases hj.1 with hs | hq
    · have := hev.ghost (hev.stack ▸ hs)
      simp [hj.2] at this
    · exact hnodup.1 hq
  rw [Cached, hev.other j hne] at hj
  exact ⟨fun heq => hne (Option.some.inj heq).symm, ⟨hev.tracked hj.1, hj.2⟩, hev.value j⟩

theorem makeRoom_keeps (h : a.WF) (hb : a.makeRoom = some (evicted, b)) : Keeps a evicted b := by
  rcases makeRoom_cases hb with ⟨rfl, rfl, -⟩ | ⟨k, rfl, -, he⟩
  · exact fun j hj => ⟨by simp, hj, rfl⟩
  · exact evict_keeps h he

theorem promote_keeps (h : a.WF) (k : K) : Keeps a none (a.promote k) := by
  have hp := promote_promotes a k
  intro j hj
  have hne : j ≠ k := by
    rintro rfl
    exact (h.promote j).2 hj.1
  rw [Cached, hp.other j hne] at hj
  refine ⟨by simp, ⟨?_, hj.2⟩, by rw [hp.other j hne]⟩
  have := hj.1
  rw [Tracked, hp.stack, hp.queue] at this
  exact this.imp List.mem_of_mem_erase List.mem_of_mem_erase

theorem hitHir_keeps (h : a.WF) (rooted : a.Rooted) (hk : k ∈ a.stack)
    (hlir : (a.info k).isLIR = false) (hcached : (a.info k).inCache = true)
    (hb : a.hitHir k = some (evicted, b)) : Keeps a evicted b := by
  have hp := promote_promotes a k
  obtain ⟨hwf, huntracked⟩ := h.promote k
  obtain ⟨-, hrooted, -⟩ := promote_spec h hk hlir
  rw [hitHir, Option.bind_eq_bind, Option.bind_eq_some_iff] at hb
  obtain ⟨a1, hdemote, hb⟩ := hb
  rw [Option.bind_eq_bind, Option.bind_eq_some_iff] at hb
  obtain ⟨⟨e, a2⟩, hmake, hb⟩ := hb
  cases hb
  obtain ⟨hwf1, -, -, -, -, hshrinks⟩ := demoteAll_spec hwf (hrooted rooted) hdemote
  have hk1 : ¬a1.Tracked k := fun hk => huntracked (hshrinks.tracked k hk)
  have hother := (promote_keeps h k).trans (hshrinks.keeps.trans (makeRoom_keeps hwf1 hmake))
  have huntracked2 := (makeRoom_spec hwf1 hmake).2.2.2.2.2.2.2.2.2.1
  intro j hj
  rcases eq_or_ne j k with rfl | hne
  · refine ⟨?_, ⟨.inl hk, hcached⟩, ?_⟩
    · rintro rfl
      exact hk1 (makeRoom_evicted hmake (by simp))
    · show (a2.info j).value = _
      rw [huntracked2 j hk1, hshrinks.untracked j huntracked, hp.info]
  · refine hother j ⟨hj.1.imp_left fun hmem => ?_, hj.2⟩
    exact (List.mem_append.mp hmem).resolve_right (by simpa using hne)

/-- A lookup that does not hit a ghost. -/
theorem get_keeps (h : a.Stable) (hl : a.Lookup k)
    (hghost : k ∈ a.stack → (a.info k).inCache = true) (hb : a.get k = some (evicted, b)) :
    Keeps a evicted b := by
  unfold Lirs.get at hb
  split at hb
  · rename_i hk
    split at hb
    · cases hb
      exact (hitLir_spec h.wf hk).2.2.2.2.2.keeps
    · rename_i hlir
      rw [Bool.not_eq_true] at hlir
      exact hitHir_keeps h.wf (hl.rooted hk hlir) hk hlir (hghost hk) hb
  · cases hb
    exact fun j hj => ⟨by simp, hj, rfl⟩

/-- The key of a hit is in the cache afterwards. -/
theorem get_cached (h : a.Stable) (hl : a.Lookup k) (hk : k ∈ a.stack)
    (hcached : (a.info k).inCache = true) (hb : a.get k = some (evicted, b)) : b.Cached k := by
  rw [Lirs.get, if_pos hk] at hb
  split at hb
  · rename_i hlir
    cases hb
    have hinfo : (a.hitLir k).info = a.info := (hitLir_spec h.wf hk).2.2.2.2.1
    refine ⟨.inl ?_, by rw [hinfo]; exact hcached⟩
    unfold hitLir
    split
    · refine (mem_prune_iff (h.wf.moved hk).stack_nodup).mpr ⟨by simp, fun hmem => ?_⟩
      have := List.mem_takeWhile_imp hmem
      simp [hlir] at this
    · simp
  · rw [hitHir, Option.bind_eq_bind, Option.bind_eq_some_iff] at hb
    rename_i hlir
    rw [Bool.not_eq_true] at hlir
    have hp := promote_promotes a k
    obtain ⟨hwf, huntracked⟩ := h.wf.promote k
    obtain ⟨-, hrooted, -⟩ := promote_spec h.wf hk hlir
    obtain ⟨a1, hdemote, hb⟩ := hb
    rw [Option.bind_eq_bind, Option.bind_eq_some_iff] at hb
    obtain ⟨⟨e, a2⟩, hmake, hb⟩ := hb
    cases hb
    obtain ⟨hwf1, -, -, -, -, hshrinks⟩ := demoteAll_spec hwf (hrooted (hl.rooted hk hlir)) hdemote
    have hk1 : ¬a1.Tracked k := fun hk => huntracked (hshrinks.tracked k hk)
    have huntracked2 := (makeRoom_spec hwf1 hmake).2.2.2.2.2.2.2.2.2.1
    refine ⟨.inl (by simp), ?_⟩
    show (a2.info k).inCache = true
    rw [huntracked2 k hk1, hshrinks.untracked k huntracked, hp.info]

/-- A request keeps the other keys. -/
theorem request_keeps (h : a.Stable) (hk : ¬a.Tracked k) (value : Option V)
    (hb : a.request k value = some (evicted, b)) :
    (b.info k).value = value ∧ ∀ j, j ≠ k → b.Cached j →
      evicted ≠ some j ∧ a.Cached j ∧ (b.info j).value = (a.info j).value := by
  unfold Lirs.request at hb
  split at hb
  · cases hb
    refine ⟨by simp [addLir], fun j hj hc => ?_⟩
    have hinfo : (a.addLir k value).info j = a.info j := Function.update_of_ne hj _ _
    rw [Cached, hinfo] at hc
    refine ⟨by simp, ⟨hc.1.imp_left fun hmem => ?_, hc.2⟩, by rw [hinfo]⟩
    exact (List.mem_append.mp hmem).resolve_right (by simpa using hj)
  · rw [Option.bind_eq_bind, Option.bind_eq_some_iff] at hb
    obtain ⟨⟨e, a1⟩, hmake, hb⟩ := hb
    rw [Option.bind_eq_bind, Option.bind_eq_some_iff] at hb
    obtain ⟨a2, hlimit, hb⟩ := hb
    cases hb
    obtain ⟨hwf1, -, -, -, -, -, -, -, htracked1, -⟩ := makeRoom_spec h.wf hmake
    have hk1 : ¬a1.Tracked k := fun hk1 => hk (htracked1 k hk1)
    rw [limitStack] at hlimit
    split at hlimit
    · rename_i hexcess
      generalize (a1.addHir k value).excess = n at hexcess hlimit
      rw [Option.some_inj] at hlimit
      subst hlimit
      obtain ⟨-, -, -, hinfo2, -, -, hshrinks⟩ := forget_iterate (hwf1.addHir hk1 value) hexcess
      refine ⟨by rw [hinfo2]; simp [addHir], fun j hj hc => ?_⟩
      have hinfo : (a1.addHir k value).info j = a1.info j := Function.update_of_ne hj _ _
      obtain ⟨-, hc1, hvalue1⟩ := hshrinks.keeps j hc
      rw [Cached, hinfo] at hc1
      have hc2 : a1.Cached j := by
        refine ⟨hc1.1.imp (fun hmem => ?_) fun hmem => ?_, hc1.2⟩
        · exact (List.mem_append.mp hmem).resolve_right (by simpa using hj)
        · exact (List.mem_append.mp hmem).resolve_right (by simpa using hj)
      obtain ⟨hne, ha, hvalue⟩ := makeRoom_keeps h.wf hmake j hc2
      exact ⟨hne, ha, by rw [hvalue1, hinfo, hvalue]⟩
    · simp at hlimit

/-- The evicted key was in the cache. -/
theorem request_evicted {value : Option V} (hb : a.request k value = some (some j, b)) :
    a.Tracked j := by
  unfold Lirs.request at hb
  split at hb
  · simp at hb
  · rw [Option.bind_eq_bind, Option.bind_eq_some_iff] at hb
    obtain ⟨⟨e, a1⟩, hmake, hb⟩ := hb
    rw [Option.bind_eq_bind, Option.bind_eq_some_iff] at hb
    obtain ⟨a2, hlimit, hb⟩ := hb
    cases hb
    exact makeRoom_evicted hmake (by simp)

end Lirs

/-! ### Sessions -/

/-- What the clients know: the cache, the evicted entries that nobody has released, and the value of
the last successful request of each key, unless an entry for the key has been evicted since. -/
structure Session (V : Type) where
  cache : DLIRS V
  handles : List Ref
  latest : Key → Option V

inductive DlirsCall (V : Type)
  | get (key : Key)
  | request (key : Key) (value : V)
  | release (r : Ref)

namespace Session

def create (htSize cacheSize : Nat) (hirsRatio : ℚ) : Session V where
  cache := dlirsCreate htSize cacheSize none hirsRatio
  handles := []
  latest := fun _ => none

/-- A call leaves the cache `cache` and hands out `evicted`. -/
def after (s : Session V) (cache : DLIRS V) (evicted : Option Ref) : Session V :=
  match evicted with
  | none => { s with cache }
  | some r => {
      cache
      handles := r :: s.handles
      latest := match cache.heap r with
        | none => s.latest
        | some e => Function.update s.latest e.key none }

/-- A call, which a client makes with an empty `*evicted`, and with a value that is not NULL.  Only
a handle can be released. -/
def call (s : Session V) : DlirsCall V → Option (Session V)
  | .get key => (dlirsGet {} s.cache key).map fun got => s.after got.cache got.evicted
  | .request key value =>
    (dlirsRequest {} s.cache key (some value) none).map fun r =>
      let s := s.after r.cache r.evicted
      if r.code = 0 then { s with latest := Function.update s.latest key (some value) } else s
  | .release r =>
    if r ∈ s.handles then some {
      s with
      cache := dlirsEntryDestroy s.cache (some r)
      handles := s.handles.erase r }
    else none

def run (s : Session V) (calls : List (DlirsCall V)) : Option (Session V) :=
  Runs.run call s calls

/-- A request is for a key that no table has, and a lookup finds neither an evicted entry in `lirs`
nor an entry in `resident_hirs` only. -/
def Regular (s : Session V) : DlirsCall V → Prop
  | .get key => s.cache.findsGhost key = false ∧ s.cache.findsResidentOnly key = false
  | .request key _ => s.cache.hasKey key = false
  | .release r => r ∈ s.handles

def RunRegular (s : Session V) (calls : List (DlirsCall V)) : Prop :=
  Runs.Regular call Regular s calls

/-- The session follows the algorithm, where the value of each key in the cache is the latest. -/
structure Follows (s : Session V) (ref : Key → Ref) (a : Lirs Key V) : Prop where
  tracks : Tracks s.cache ref a (s.handles : Multiset Ref)
  latest : ∀ j, a.Cached j → ∃ v, (a.info j).value = some v ∧ s.latest j = some v
  exact : a.cacheSize < 2 ^ 24 → a.Exact

variable {s s' : Session V} {ref : Key → Ref} {a : Lirs Key V} {key : Key}

theorem after_cache (s : Session V) (cache : DLIRS V) (evicted : Option Ref) :
    (s.after cache evicted).cache = cache := by
  cases evicted <;> rfl

theorem after_handles (s : Session V) (cache : DLIRS V) (evicted : Option Ref) :
    ((s.after cache evicted).handles : Multiset Ref) = hold evicted (s.handles : Multiset Ref) := by
  cases evicted <;> rfl

/-- Only the evicted key loses its value. -/
theorem after_latest {cache : DLIRS V} {evicted : Option Key} {held : Multiset Ref}
    (h : Sim cache ref a evicted.toList held) (s : Session V) {j : Key} (hj : evicted ≠ some j) :
    (s.after cache (evicted.map ref)).latest j = s.latest j := by
  cases evicted with
  | none => rfl
  | some e =>
    obtain ⟨n, hn⟩ := h.entries e (.inr (by simp))
    have hne : j ≠ e := by
      rintro rfl
      exact hj rfl
    simp [after, hn, entryOf, Function.update_of_ne hne]

theorem Follows.get (h : s.Follows ref a) (regular : s.Regular (.get key)) {got : DlirsGot V}
    (hgot : dlirsGet {} s.cache key = some got) :
    ∃ b, (s.after got.cache got.evicted).Follows ref b ∧ b.cacheSize = a.cacheSize ∧
      ∀ r, got.entry = some r → r = ref key ∧ b.Cached key := by
  obtain ⟨hghost, hresident⟩ := regular
  have hl := h.tracks.lookup hresident fun hfinds => by simp [hghost] at hfinds
  obtain ⟨⟨e, b⟩, hb, hr, htracks⟩ := Loop.some_of_rel (h.tracks.get hl) hgot
  have hcached : key ∈ a.stack → (a.info key).inCache = true := by
    intro hk
    by_contra hnot
    have := (Tracks.findsGhost_iff h.tracks.toSim).mpr ⟨hk, by simpa using hnot⟩
    simp [hghost] at this
  have hkeeps := get_keeps h.tracks.stable hl hcached hb
  obtain ⟨-, hsize, -⟩ := h.tracks.stable.get hl hb
  refine ⟨b, ⟨?_, ?_, fun hsmall => ?_⟩, hsize, fun r hentry => ?_⟩
  · rw [after_cache, after_handles]
    exact htracks
  · intro j hj
    obtain ⟨hne, ha, hvalue⟩ := hkeeps j hj
    obtain ⟨v, hv, hlatest⟩ := h.latest j ha
    exact ⟨v, hvalue.trans hv, by rw [hr.evicted, after_latest hr.sim s hne, hlatest]⟩
  · exact (h.exact (hsize ▸ hsmall)).get h.tracks.stable hl hb
  · rw [hr.entry] at hentry
    split at hentry
    · rename_i hhit
      exact ⟨(Option.some.inj hentry).symm,
        get_cached h.tracks.stable hl hhit.1 hhit.2 hb⟩
    · simp at hentry

theorem Follows.request (h : s.Follows ref a) {value : V}
    (regular : s.Regular (.request key value)) (hcall : s.call (.request key value) = some s') :
    ∃ ref' b, s'.Follows ref' b ∧ b.cacheSize = a.cacheSize := by
  have hk : ¬a.Tracked key := h.tracks.untracked regular
  obtain ⟨r, hr, hs'⟩ := Option.map_eq_some_iff.mp hcall
  obtain ⟨⟨e, b⟩, hb, hcode, hevicted, ref', href, hsim, htracks⟩ :=
    Loop.some_of_rel (h.tracks.request hk (some value)) hr
  obtain ⟨hvalue, hkeeps⟩ := request_keeps h.tracks.stable hk (some value) hb
  obtain ⟨-, hsize, -⟩ := h.tracks.stable.request hk (some value) hb
  have hmap : r.evicted = e.map ref' := by
    rw [hevicted]
    cases e with
    | none => rfl
    | some i =>
      have hne : i ≠ key := by
        rintro rfl
        exact hk (request_evicted hb)
      rw [Option.map_some, Option.map_some, href i hne]
  rw [if_pos hcode] at hs'
  subst hs'
  refine ⟨ref', b, ⟨?_, ?_, fun hsmall => ?_⟩, hsize⟩
  · show Tracks (s.after r.cache r.evicted).cache ref' b
      ((s.after r.cache r.evicted).handles : Multiset Ref)
    rw [after_cache, after_handles]
    exact htracks
  · intro j hj
    rcases eq_or_ne j key with rfl | hne
    · exact ⟨value, hvalue, Function.update_self ..⟩
    · obtain ⟨hev, ha, hsame⟩ := hkeeps j hne hj
      obtain ⟨v, hv, hlatest⟩ := h.latest j ha
      refine ⟨v, hsame.trans hv, ?_⟩
      show Function.update _ key _ j = _
      rw [Function.update_of_ne hne, hmap, after_latest hsim s hev, hlatest]
  · exact (h.exact (hsize ▸ hsmall)).request h.tracks.stable hk (some value) hb

/-- A call of a run. -/
theorem Follows.call (h : s.Follows ref a) {c : DlirsCall V} (regular : s.Regular c)
    (hcall : s.call c = some s') : ∃ ref' b, s'.Follows ref' b ∧ b.cacheSize = a.cacheSize := by
  cases c with
  | get key =>
    obtain ⟨got, hgot, rfl⟩ := Option.map_eq_some_iff.mp hcall
    obtain ⟨b, hb, hsize, -⟩ := h.get regular hgot
    exact ⟨ref, b, hb, hsize⟩
  | request key value => exact h.request regular hcall
  | release r =>
    have hmem : r ∈ s.handles := regular
    rw [Session.call, if_pos hmem, Option.some_inj] at hcall
    subst hcall
    have hheld : (s.handles : Multiset Ref) = r ::ₘ (s.handles.erase r : Multiset Ref) := by
      rw [Multiset.cons_coe]
      exact Multiset.coe_eq_coe.mpr (List.perm_cons_erase hmem)
    have htracks := h.tracks
    rw [hheld] at htracks
    exact ⟨ref, a, ⟨htracks.release, h.latest, h.exact⟩, rfl⟩

/-- Below 2^24 every call returns. -/
theorem Follows.progress (h : s.Follows ref a) (hsmall : a.cacheSize < 2 ^ 24) {c : DlirsCall V}
    (regular : s.Regular c) : ∃ s', s.call c = some s' := by
  cases c with
  | get key =>
    obtain ⟨hghost, hresident⟩ := regular
    have hl := h.tracks.lookup hresident fun hfinds => by simp [hghost] at hfinds
    obtain ⟨q, hq⟩ := get_progress h.tracks.stable h.tracks.founded.rooted (h.exact hsmall) (k := key)
    obtain ⟨got, hgot, -⟩ := Loop.of_rel_some (hq ▸ h.tracks.get hl)
    exact ⟨_, by rw [Session.call, hgot]; rfl⟩
  | request key value =>
    have hk : ¬a.Tracked key := h.tracks.untracked regular
    obtain ⟨q, hq⟩ := request_progress h.tracks.stable (h.exact hsmall) hk (some value)
    obtain ⟨r, hr, -⟩ := Loop.of_rel_some (hq ▸ h.tracks.request hk (some value))
    exact ⟨_, by rw [Session.call, hr]; rfl⟩
  | release r => exact ⟨_, if_pos regular⟩

theorem Follows.run (h : s.Follows ref a) {calls : List (DlirsCall V)}
    (regular : s.RunRegular calls) : (a.cacheSize < 2 ^ 24 → ∃ s', s.run calls = some s') ∧
      ∀ s', s.run calls = some s' → ∃ ref' b, s'.Follows ref' b := by
  let inv : Session V → Prop := fun s => ∃ ref b, s.Follows ref b ∧ b.cacheSize = a.cacheSize
  have start : inv s := ⟨ref, a, h, rfl⟩
  have preserves : ∀ s c s', inv s → s.Regular c → s.call c = some s' → inv s' := by
    rintro s c s' ⟨ref, b, hb, hsize⟩ hregular hcall
    obtain ⟨ref', b', hb', hsize'⟩ := hb.call hregular hcall
    exact ⟨ref', b', hb', hsize'.trans hsize⟩
  constructor
  · intro hsmall
    refine Runs.run_returns preserves ?_ start regular
    rintro s c ⟨ref, b, hb, hsize⟩ hregular
    exact hb.progress (hsize ▸ hsmall) hregular
  · intro s' hs'
    obtain ⟨ref', b, hb, -⟩ := Runs.run_preserves preserves start regular hs'
    exact ⟨ref', b, hb⟩

theorem create_follows {htSize cacheSize : Nat} {hirsRatio : ℚ} (hht : 1 ≤ htSize)
    (hhirs : 1 ≤ (dlirsCreate htSize cacheSize none hirsRatio : DLIRS V).hirsLimit)
    (hlirs : 1 ≤ (dlirsCreate htSize cacheSize none hirsRatio : DLIRS V).lirsLimit) :
    ∃ ref a, (create htSize cacheSize hirsRatio : Session V).Follows ref a ∧
      a.cacheSize = cacheSize :=
  ⟨_, _, ⟨Tracks.create hht hlirs, fun j hj => by simp [Cached, Tracked, Lirs.create] at hj,
    fun hsmall => dlirsCreate_exact hsmall hhirs hlirs⟩, rfl⟩

/-- An entry that `dlirs_get` returns for the key has the value of the last successful request, and
no entry for the key has been evicted since. -/
def GetsLatest (s : Session V) (key : Key) : Prop :=
  ∀ got r, dlirsGet {} s.cache key = some got → got.entry = some r →
    ∃ v, (got.cache.heap r).bind DLIRSEntry.value = some v ∧
      (s.after got.cache got.evicted).latest key = some v

theorem Follows.getsLatest (h : s.Follows ref a) (regular : s.Regular (.get key)) :
    s.GetsLatest key := by
  intro got r hgot hentry
  obtain ⟨b, hb, -, hhit⟩ := h.get regular hgot
  obtain ⟨rfl, hcached⟩ := hhit r hentry
  obtain ⟨v, hvalue, hlatest⟩ := hb.latest key hcached
  refine ⟨v, ?_, hlatest⟩
  have hknown : ∃ t, key ∈ b.order t :=
    hcached.1.elim (fun hs => ⟨.lirs, hs⟩) fun hq => ⟨.residentHirs, hq⟩
  obtain ⟨n, hn⟩ := hb.tracks.entries key (.inl hknown)
  rw [after_cache] at hn
  rw [hn]
  exact hvalue

end Session

end SearchCache
