import SearchCache.Cache.DlirsRefinement

/-! A scan: lookups that find LIR entries or nothing, and requests of new keys.  Below 2^24, no scan of
any length takes a LIR entry out of the cache, whatever it brings in. -/

namespace SearchCache

open Lirs

variable {V : Type}

/-- The value of the LIR entry of a key. -/
def DLIRS.lirValue (cache : DLIRS V) (key : Key) : Option (Option V) :=
  ((dqhtGet cache.lirs key).bind cache.heap).bind fun e => if e.isLIR then some e.value else none

/-- A lookup finds a LIR entry or its key is in no table, a request is for a key in no table, and only a
handle is released. -/
def Served.Scans (s : Served V) : CacheCall V → Prop
  | .get key => (s.cache.lirValue key).isSome ∨ s.cache.hasKey key = false
  | .request key _ => s.cache.hasKey key = false
  | .release r => r ∈ s.handles
  | _ => True

instance (s : Served V) : (c : CacheCall V) → Decidable (s.Scans c)
  | .get _ => inferInstanceAs (Decidable (_ ∨ _ = _))
  | .request _ _ => inferInstanceAs (Decidable (_ = _))
  | .release r => inferInstanceAs (Decidable (r ∈ s.handles))
  | .contains _ | .isFull => .isTrue trivial

theorem Served.Scans.permits {s : Served V} {c : CacheCall V} (h : s.Scans c) : s.Permits c := by
  cases c with
  | get key =>
    refine Or.imp_left (fun hlir => ?_) h
    obtain ⟨value, hvalue⟩ := Option.isSome_iff_exists.mp hlir
    obtain ⟨e, he, -⟩ := Option.bind_eq_some_iff.mp hvalue
    obtain ⟨r, hr, -⟩ := Option.bind_eq_some_iff.mp he
    simp [hr]
  | request key value => exact h
  | contains key => trivial
  | isFull => trivial
  | release r => exact h

/-! ### The algorithm -/

namespace Lirs

variable {a b : Lirs Key V} {j k : Key} {evicted : Option Key}

/-- The value of a LIR key. -/
def lirValue (a : Lirs Key V) (k : Key) : Option (Option V) :=
  if k ∈ a.stack ∧ (a.info k).isLIR then some (a.info k).value else none

theorem lirValue_eq_some {value : Option V} : a.lirValue k = some value ↔
    (k ∈ a.stack ∧ (a.info k).isLIR = true) ∧ (a.info k).value = value := by
  rw [lirValue]
  split <;> simp_all

/-- A LIR key that stays resident as it is stays a LIR key. -/
theorem lirValue_of_resident (wf : b.WF) (hinfo : b.info j = a.info j) (hj : b.Resident j)
    {value : Option V} (h : a.lirValue j = some value) : b.lirValue j = some value := by
  obtain ⟨⟨-, hlir⟩, rfl⟩ := lirValue_eq_some.mp h
  refine lirValue_eq_some.mpr ⟨⟨?_, by rw [hinfo, hlir]⟩, by rw [hinfo]⟩
  rcases hj with hqueue | hstack
  · have := wf.queue_hir j hqueue
    simp [hinfo, hlir] at this
  · exact hstack.1

theorem hitLir_lirValue (wf : a.WF) (hk : k ∈ a.stack) {value : Option V}
    (h : a.lirValue j = some value) : (a.hitLir k).lirValue j = some value := by
  obtain ⟨hwf, -, -, -, hinfo, -⟩ := hitLir_spec wf hk
  exact lirValue_of_resident hwf (congrFun hinfo j)
    ((hitLir_resident wf hk j).mpr (.inr (lirValue_eq_some.mp h).1)) h

/-- A request evicts no LIR key and makes no LIR key a HIR key. -/
theorem request_lirValue (h : a.Stable) (hk : ¬a.Tracked k) {value : Option V}
    (hb : a.request k value = some (evicted, b)) {old : Option V} (hj : a.lirValue j = some old) :
    b.lirValue j = some old := by
  have hlir := (lirValue_eq_some.mp hj).1
  have hne : j ≠ k := by
    rintro rfl
    exact hk (.inl hlir.1)
  have hresident : evicted ≠ some j → b.Resident j := fun hevicted =>
    (request_resident h hk hb j).mpr (.inl ⟨.inr hlir, hevicted⟩)
  have hwf := (h.request hk value hb).1.wf
  unfold Lirs.request at hb
  split at hb
  · cases hb
    exact lirValue_of_resident hwf (Function.update_of_ne hne _ _) (hresident (by simp)) hj
  · rw [Option.bind_eq_bind, Option.bind_eq_some_iff] at hb
    obtain ⟨⟨e, a1⟩, hmake, hb⟩ := hb
    rw [Option.bind_eq_bind, Option.bind_eq_some_iff] at hb
    obtain ⟨a2, hlimit, hb⟩ := hb
    cases hb
    have hthins := makeRoom_thins h.wf hmake
    have hk1 : ¬a1.Tracked k := fun hk1 => hk (hthins.tracked k hk1)
    -- the front of the queue is a HIR key
    have hroom : evicted ≠ some j ∧ a1.info j = a.info j := by
      rcases makeRoom_cases hmake with ⟨rfl, rfl, -⟩ | ⟨i, rfl, -, he⟩
      · simp
      · have hev := evict_evicts he
        have hi := h.wf.queue_hir i (by simp [hev.queue])
        have hij : j ≠ i := by
          rintro rfl
          simp [hlir.2] at hi
        exact ⟨by simpa using hij.symm, hev.other j hij⟩
    refine lirValue_of_resident hwf ?_ (hresident hroom.1) hj
    rw [limitStack] at hlimit
    split at hlimit
    · rename_i hexcess
      rw [Option.some_inj] at hlimit
      subst hlimit
      rw [(forget_iterate (hthins.wf.addHir hk1 value) hexcess).2.2.2.1, ← hroom.2]
      exact Function.update_of_ne hne _ _
    · simp at hlimit

end Lirs

/-! ### The cache -/

namespace Served

variable {s s' : Served V} {a : Lirs Key V} {k : Key}

theorem Shows.lirValue (h : s.Shows a) (k : Key) : s.cache.lirValue k = a.lirValue k := by
  obtain ⟨-, ref, hserves⟩ := h
  have hsim := hserves.toSim
  rw [DLIRS.lirValue, Lirs.lirValue]
  by_cases hk : k ∈ a.stack
  · obtain ⟨n, hn⟩ := hsim.entries k (.inl ⟨.lirs, hk⟩)
    rw [show dqhtGet s.cache.lirs k = some (ref k) from hsim.get_mem (t := .lirs) hk, Option.bind_some,
      hn, Option.bind_some]
    cases hlir : (a.info k).isLIR <;> simp [entryOf, hk, hlir]
  · rw [show dqhtGet s.cache.lirs k = none from hsim.get_absent (t := .lirs) hk]
    simp [hk]

/-- A lookup of a LIR key finds its entry and evicts nothing. -/
theorem Shows.get_lir (h : s.Shows a) {value : Option V} (hk : s.cache.lirValue k = some value) :
    ∃ s', s.call (.get k) = some (.got (some (k, value)) none, s') ∧ s'.Shows (a.hitLir k) := by
  have permits : s.Permits (.get k) := Scans.permits (c := .get k) (.inl (by simp [hk]))
  rw [h.lirValue, lirValue_eq_some] at hk
  obtain ⟨⟨hmem, hlir⟩, rfl⟩ := hk
  obtain ⟨o, s', b, hs, ha, h'⟩ := h.get permits
  obtain ⟨-, ref, hserves⟩ := h
  have hwf := hserves.stable.wf
  obtain ⟨-, -, -, -, hinfo, -⟩ := hitLir_spec hwf hmem
  rw [Lirs.call, Lirs.get, if_pos hmem, if_pos hlir, Option.map_some, Option.some_inj,
    Prod.mk.injEq] at ha
  obtain ⟨rfl, rfl⟩ := ha
  refine ⟨s', ?_, h'⟩
  rw [hs, if_pos ⟨hmem, hwf.lir_cached k hmem hlir⟩]
  simp [Lirs.tell, hinfo]

/-- One call of a scan. -/
theorem Shows.scan (h : s.Shows a) {c : CacheCall V} (scans : s.Scans c) :
    ∃ o s' b, s.call c = some (o, s') ∧ s'.Shows b ∧
      ∀ j value, a.lirValue j = some value → b.lirValue j = some value := by
  obtain ⟨o, s', b, hs, ha, h'⟩ := h.call scans.permits
  refine ⟨o, s', b, hs, h', fun j value hj => ?_⟩
  have hshows := h
  obtain ⟨-, ref, hserves⟩ := hshows
  cases c with
  | get k =>
    rw [Lirs.call, Option.map_eq_some_iff] at ha
    obtain ⟨⟨e, b'⟩, hb, heq⟩ := ha
    obtain rfl : b' = b := congrArg Prod.snd heq
    rcases scans with hlir | hnone
    · rw [h.lirValue] at hlir
      obtain ⟨old, hold⟩ := Option.isSome_iff_exists.mp hlir
      obtain ⟨hmem, hlir⟩ := (lirValue_eq_some.mp hold).1
      rw [Lirs.get, if_pos hmem, if_pos hlir, Option.some_inj, Prod.mk.injEq] at hb
      rw [← hb.2]
      exact hitLir_lirValue hserves.stable.wf hmem hj
    · have hk := hserves.untracked hnone
      rw [Lirs.get, if_neg fun hmem => hk (.inl hmem), Option.some_inj, Prod.mk.injEq] at hb
      rwa [← hb.2]
  | request k value =>
    rw [Lirs.call, Option.map_eq_some_iff] at ha
    obtain ⟨⟨e, b'⟩, hb, heq⟩ := ha
    obtain rfl : b' = b := congrArg Prod.snd heq
    exact request_lirValue hserves.stable (hserves.untracked scans) hb hj
  | contains k =>
    obtain rfl : a = b := congrArg Prod.snd (Option.some.inj ha)
    exact hj
  | isFull =>
    obtain rfl : a = b := congrArg Prod.snd (Option.some.inj ha)
    exact hj
  | release r =>
    obtain rfl : a = b := congrArg Prod.snd (Option.some.inj ha)
    exact hj

/-- By induction on the calls. -/
theorem Shows.scans (h : s.Shows a) {scan : List (CacheCall V)}
    (scans : Servers.Permitted Served.call Scans s scan) :
    ∃ answers s' b, Servers.serve Served.call s scan = some (answers, s') ∧ s'.Shows b ∧
      ∀ j value, a.lirValue j = some value → b.lirValue j = some value := by
  induction scan generalizing s a with
  | nil => exact ⟨[], s, a, rfl, h, fun _ _ => id⟩
  | cons c scan ih =>
    obtain ⟨o, s1, a1, hs1, h1, hkeeps1⟩ := h.scan scans.1
    obtain ⟨answers, s', b, hs', h', hkeeps⟩ := ih h1 (scans.next hs1)
    exact ⟨o :: answers, s', b, Servers.serve_cons hs1 hs', h',
      fun j value hj => hkeeps j value (hkeeps1 j value hj)⟩

end Served

/-- After any permitted run, no scan takes a LIR entry out of the cache or changes its value, and a
lookup of it afterwards finds it. -/
theorem served_scan {htSize cacheSize : Nat} {hirsRatio : ℚ} (hht : 1 ≤ htSize)
    (hsmall : cacheSize < 2 ^ 24)
    (hhirs : 1 ≤ (dlirsCreate htSize cacheSize none hirsRatio : DLIRS V).hirsLimit)
    (hlirs : 1 ≤ (dlirsCreate htSize cacheSize none hirsRatio : DLIRS V).lirsLimit)
    {calls scan : List (CacheCall V)}
    (permitted : Servers.Permitted Served.call Served.Permits
      (Served.create htSize cacheSize hirsRatio) calls)
    (scans : ∀ answers s, Servers.serve Served.call (Served.create htSize cacheSize hirsRatio) calls =
      some (answers, s) → Servers.Permitted Served.call Served.Scans s scan) :
    ∃ answers s answers' s',
      Servers.serve Served.call (Served.create htSize cacheSize hirsRatio) calls = some (answers, s) ∧
      Servers.serve Served.call s scan = some (answers', s') ∧
      ∀ key value, s.cache.lirValue key = some value → s'.cache.lirValue key = some value ∧
        ∃ s'', s'.call (.get key) = some (.got (some (key, value)) none, s'') := by
  obtain ⟨answers, s, a, hs, -, h⟩ := Servers.serve_agree (fun _ _ _ h permits => h.call permits)
    (Served.create_shows hht hsmall hhirs hlirs) permitted
  obtain ⟨answers', s', b, hs', h', hkeeps⟩ := h.scans (scans answers s hs)
  refine ⟨answers, s, answers', s', hs, hs', fun key value hkey => ?_⟩
  have hkept : s'.cache.lirValue key = some value := by
    rw [h'.lirValue]
    exact hkeeps key value (h.lirValue key ▸ hkey)
  obtain ⟨s'', hget, -⟩ := h'.get_lir hkept
  exact ⟨hkept, s'', hget⟩

/-- The scan brings in three keys, of which the cache has room for one. -/
def scanned : List (CacheCall Nat) :=
  [.request keyB 2, .get keyA, .request keyC 3, .contains keyB, .get keyE, .request keyE 4]

theorem scanned_isSome :
    (Servers.serve Served.call (Served.create 4 2 (1 / 100)) [.request keyA 1]).isSome := by
  decide +kernel

theorem served_scan_three : ∃ answers s answers' s',
    Servers.serve Served.call (Served.create 4 2 (1 / 100)) [.request keyA 1] = some (answers, s) ∧
    Servers.serve Served.call s scanned = some (answers', s') ∧
    ∀ key value, s.cache.lirValue key = some value → s'.cache.lirValue key = some value ∧
      ∃ s'', s'.call (.get key) = some (.got (some (key, value)) none, s'') := by
  refine served_scan (by decide) (by decide) (by decide +kernel) (by decide +kernel)
    (by unfold Servers.Permitted; decide +kernel) fun answers s hs => ?_
  obtain rfl : ((Servers.serve Served.call (Served.create 4 2 (1 / 100))
      [.request keyA 1]).get scanned_isSome).2 = s := by
    rw [Option.get_of_eq_some _ hs]
  unfold Servers.Permitted
  decide +kernel

end SearchCache
