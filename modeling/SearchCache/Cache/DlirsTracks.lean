import SearchCache.Cache.DlirsSteps
import SearchCache.Lib.Runs

/-! What holds of a cache between the calls of its clients, as long as they keep to three rules: a
request is for a key that no table has, a lookup does not find its key in `resident_hirs` only, and
a lookup that finds an evicted entry in `lirs` finds the cache within its size. -/

namespace SearchCache

open Lirs

variable {V : Type}

/-- `dlirs_get` finds an entry in `lirs` that has been evicted. -/
def DLIRS.findsGhost (cache : DLIRS V) (k : Key) : Bool :=
  ((dqhtGet cache.lirs k).bind cache.heap).any fun e => !e.inCache

/-- `dlirs_get` calls `dlirs_hit_hir_in_resident_hirs`. -/
def DLIRS.findsResidentOnly (cache : DLIRS V) (k : Key) : Bool :=
  (dqhtGet cache.lirs k).isNone && (dqhtGet cache.residentHirs k).isSome

/-- A table has the key. -/
def DLIRS.hasKey (cache : DLIRS V) (k : Key) : Bool :=
  (dqhtGet cache.lirs k).isSome || (dqhtGet cache.nonResidentHirs k).isSome ||
    (dqhtGet cache.residentHirs k).isSome

/-- The algorithm on an empty cache. -/
def Lirs.create (cacheSize : Nat) (hirsLimit lirsLimit : Int) : Lirs Key V where
  cacheSize := cacheSize
  hirsLimit := hirsLimit
  lirsLimit := lirsLimit
  demoted := 0
  stack := []
  hirs := []
  queue := []
  info := fun _ => { isLIR := false, isDemoted := false, inCache := false, value := none }

/-- The cache follows the algorithm from call to call. -/
structure Tracks (cache : DLIRS V) (ref : Key → Ref) (a : Lirs Key V) (held : Multiset Ref) :
    Prop extends Sim cache ref a [] held where
  stable : a.Stable
  founded : a.Founded
  float : ∃ n, a.lirsLimit = toFloat n

theorem Lirs.create_stable (cacheSize : Nat) (hirsLimit lirsLimit : Int) :
    (Lirs.create cacheSize hirsLimit lirsLimit : Lirs Key V).Stable where
  wf := by constructor <;> simp [Lirs.create]
  lirs_le := Nat.zero_le _
  residents_le := .inl rfl

theorem Lirs.create_queued (cacheSize : Nat) (hirsLimit lirsLimit : Int) :
    (Lirs.create cacheSize hirsLimit lirsLimit : Lirs Key V).Queued where
  cached := by simp [Lirs.create]
  count := rfl
  out := by simp [Lirs.create]

theorem Sim.create {htSize cacheSize : Nat} {hirsRatio : ℚ} (hsize : 0 < htSize) :
    Sim (dlirsCreate htSize cacheSize none hirsRatio) (fun _ => 0)
      (Lirs.create (V := V) cacheSize (dlirsCreate htSize cacheSize none hirsRatio : DLIRS V).hirsLimit
        (dlirsCreate htSize cacheSize none hirsRatio : DLIRS V).lirsLimit) [] 0 := by
  refine ⟨⟨rfl, rfl, rfl, ?_, ?_, by simp, ?_, ?_, by simp [dlirsCreate], ?_⟩, rfl⟩
  · rintro (_ | _ | _) <;> exact Represents.create hsize
  · rintro k (⟨t, hk⟩ | hk)
    · cases t <;> simp [Lirs.create, Lirs.order] at hk
    · simp at hk
  · exact ⟨by simp [DLIRS.counter, dlirsCreate], by simp [DLIRS.counter, dlirsCreate],
      by simp [tableRefs, Lirs.create]⟩
  · simp [dlirsCreate]
  · simp [dlirsCreate]

/-- The limits of a new cache add up to its size. -/
theorem dlirsCreate_exact {htSize cacheSize : Nat} {hirsRatio : ℚ} (hsize : cacheSize < 2 ^ 24)
    (hhirs : 1 ≤ (dlirsCreate htSize cacheSize none hirsRatio : DLIRS V).hirsLimit)
    (hlirs : 1 ≤ (dlirsCreate htSize cacheSize none hirsRatio : DLIRS V).lirsLimit) :
    (Lirs.create (V := V) cacheSize (dlirsCreate htSize cacheSize none hirsRatio : DLIRS V).hirsLimit
      (dlirsCreate htSize cacheSize none hirsRatio : DLIRS V).lirsLimit).Exact := by
  have hlimit : (dlirsCreate htSize cacheSize none hirsRatio : DLIRS V).lirsLimit =
      toFloat (toFloat cacheSize -
        (dlirsCreate htSize cacheSize none hirsRatio : DLIRS V).hirsLimit) := rfl
  generalize (dlirsCreate htSize cacheSize none hirsRatio : DLIRS V).hirsLimit = hirsLimit at *
  generalize (dlirsCreate htSize cacheSize none hirsRatio : DLIRS V).lirsLimit = lirsLimit at *
  rw [toFloat_eq (n := cacheSize) (by omega)] at hlimit
  have hpos : 0 < (cacheSize : Int) - hirsLimit := by
    by_contra hle
    have := toFloat_nonpos (n := cacheSize - hirsLimit) (by omega)
    omega
  rw [toFloat_eq (by omega)] at hlimit
  refine ⟨hsize, ?_, hhirs, hlirs, Nat.zero_le _⟩
  show hirsLimit + lirsLimit = cacheSize
  omega

namespace Tracks

variable {cache : DLIRS V} {ref : Key → Ref} {a : Lirs Key V} {held : Multiset Ref} {k : Key}
  {r : Ref}

theorem create {htSize cacheSize : Nat} {hirsRatio : ℚ} (hsize : 0 < htSize)
    (hlimit : 1 ≤ (dlirsCreate htSize cacheSize none hirsRatio : DLIRS V).lirsLimit) :
    Tracks (dlirsCreate htSize cacheSize none hirsRatio) (fun _ => 0)
      (Lirs.create (V := V) cacheSize (dlirsCreate htSize cacheSize none hirsRatio : DLIRS V).hirsLimit
        (dlirsCreate htSize cacheSize none hirsRatio : DLIRS V).lirsLimit) 0 := by
  refine ⟨Sim.create hsize, Lirs.create_stable .., ⟨?_, ?_, fun _ => rfl⟩, ⟨_, rfl⟩⟩
  · show 0 < (dlirsCreate htSize cacheSize none hirsRatio : DLIRS V).lirsLimit.toNat
    omega
  · rintro k rest hk
    simp [Lirs.create] at hk

/-! ### The tables and the keys -/

theorem findsGhost_iff (h : Sim cache ref a [] held) :
    cache.findsGhost k = true ↔ k ∈ a.stack ∧ (a.info k).inCache = false := by
  unfold DLIRS.findsGhost
  by_cases hk : k ∈ a.stack
  · obtain ⟨n, hn⟩ := h.entries k (.inl ⟨.lirs, hk⟩)
    rw [show dqhtGet cache.lirs k = some (ref k) from h.get_mem (t := .lirs) hk]
    simp [hn, hk, entryOf]
  · rw [show dqhtGet cache.lirs k = none from h.get_absent (t := .lirs) hk]
    simp [hk]

theorem mem_stack (h : Sim cache ref a [] held) (hk : cache.findsResidentOnly k = false)
    (htracked : a.Tracked k) : k ∈ a.stack := by
  by_contra hmem
  have hlirs : dqhtGet cache.lirs k = none := h.get_absent (t := .lirs) hmem
  have hresident : dqhtGet cache.residentHirs k = some (ref k) :=
    h.get_mem (t := .residentHirs) (htracked.resolve_left hmem)
  simp [DLIRS.findsResidentOnly, hlirs, hresident] at hk

theorem hasKey_iff (h : Sim cache ref a [] held) (wf : a.WF) :
    cache.hasKey k = true ↔ a.Tracked k := by
  have hget : ∀ t, (dqhtGet (cache.table t) k).isSome = true ↔ k ∈ a.order t := by
    intro t
    by_cases hk : k ∈ a.order t
    · simp [h.get_mem hk, hk]
    · simp [h.get_absent hk, hk]
  have hlirs := hget .lirs
  have hhirs := hget .nonResidentHirs
  have hqueue := hget .residentHirs
  simp only [DLIRS.table, Lirs.order] at hlirs hhirs hqueue
  simp only [DLIRS.hasKey, Bool.or_eq_true, hlirs, hhirs, hqueue, Tracked]
  constructor
  · rintro ((hk | hk) | hk)
    · exact .inl hk
    · exact .inl ((wf.mem_hirs k).mp hk).1
    · exact .inr hk
  · exact fun hk => hk.imp_left .inl

theorem untracked (h : Tracks cache ref a held) (hk : cache.hasKey k = false) : ¬a.Tracked k :=
  fun ht => by simp [(hasKey_iff h.toSim h.stable.wf).mpr ht] at hk

/-! ### The calls -/

theorem lookup (h : Tracks cache ref a held) (hk : cache.findsResidentOnly k = false)
    (hroom : cache.findsGhost k = true → cache.residents ≤ cache.cacheSize) : a.Lookup k where
  known := mem_stack h.toSim hk
  rooted _ _ := h.founded.rooted
  room hmem hghost := by
    rw [← h.residents, ← h.cacheSize]
    exact hroom ((findsGhost_iff h.toSim).mpr ⟨hmem, hghost⟩)

theorem get (h : Tracks cache ref a held) (hl : a.Lookup k) :
    Option.Rel (fun r q =>
        Sim.Got ref (if k ∈ a.stack ∧ (a.info k).inCache then some (ref k) else none) held r q ∧
          Tracks r.cache ref q.2 (hold r.evicted held))
      (dlirsGet {} cache k) (a.get k) := by
  rw [← Option.bind_fun_some (dlirsGet {} cache k), ← Option.bind_fun_some (a.get k)]
  refine Loop.rel_bind (h.toSim.get h.stable hl) fun r q _ hq hr => ?_
  obtain ⟨e, b⟩ := q
  obtain ⟨hstable, -, -, hfounded⟩ := h.stable.get hl hq
  refine .some ⟨hr, hr.sim.forgetHand, hstable, hfounded h.founded, ?_⟩
  obtain ⟨n, hn⟩ := h.float
  rcases get_lirsLimit h.stable hl hq with hsame | hgrown
  · exact ⟨n, hsame.trans hn⟩
  · exact ⟨_, hgrown⟩

theorem limit_kept (h : Tracks cache ref a held) : ¬a.lirsLimit < toFloat a.lirCount := by
  obtain ⟨n, hn⟩ := h.float
  have hle := h.stable.lirs_le
  have hpos := h.founded.limit_pos
  rw [hn] at hle hpos ⊢
  exact not_lt.mpr (toFloat_le_toFloat (by omega))

theorem request (h : Tracks cache ref a held) (hk : ¬a.Tracked k) (value : Option V) :
    Option.Rel (fun r q => r.code = 0 ∧ r.evicted = q.1.map ref ∧
        ∃ ref', (∀ j, j ≠ k → ref' j = ref j) ∧
          Sim r.cache ref' q.2 q.1.toList (hold r.evicted held) ∧
          Tracks r.cache ref' q.2 (hold r.evicted held))
      (dlirsRequest {} cache k value none) (a.request k value) := by
  rw [← Option.bind_fun_some (dlirsRequest {} cache k value none),
    ← Option.bind_fun_some (a.request k value)]
  refine Loop.rel_bind (h.toSim.request h.stable hk h.limit_kept value) fun r q _ hq hr => ?_
  obtain ⟨hcode, hevicted, ref', href, hsim⟩ := hr
  obtain ⟨e, b⟩ := q
  obtain ⟨hstable, -, hlimit, -, -, hfounded⟩ := h.stable.request hk value hq
  obtain ⟨n, hn⟩ := h.float
  exact .some ⟨hcode, hevicted, ref', href, hsim, hsim.forgetHand, hstable, hfounded h.founded, n,
    hlimit.trans hn⟩

/-- A client releases an evicted entry. -/
theorem release (h : Tracks cache ref a (r ::ₘ held)) :
    Tracks (dlirsEntryDestroy cache (some r)) ref a held := by
  obtain ⟨hcounts, hmodels⟩ := h.toModels.destroy (G := []) fun j hj => by simp at hj
  exact ⟨⟨hmodels, hcounts.trans h.counts⟩, h.stable, h.founded, h.float⟩

theorem releaseEvicted {evicted : Option Ref} (h : Tracks cache ref a (hold evicted held)) :
    Tracks (dlirsEntryDestroy cache evicted) ref a held := by
  cases evicted with
  | none => exact h
  | some r => exact h.release

end Tracks

end SearchCache
