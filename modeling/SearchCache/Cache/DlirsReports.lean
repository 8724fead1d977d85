import SearchCache.Cache.DlirsTransitions

/-! What `*evicted` says about a call on a well formed cache.  `dlirs_get` sets it to NULL first, and
`dlirs_request` does not where it finds room for a HIR entry. -/

namespace SearchCache

open Lirs

variable {V : Type}

namespace Lirs

variable {K : Type} [DecidableEq K] {a b : Lirs K V} {k : K} {evicted : Option K}

theorem hitHir_value (h : a.WF) (rooted : a.Rooted) (hk : k ∈ a.stack)
    (hlir : (a.info k).isLIR = false) (hb : a.hitHir k = some (evicted, b)) (j : K) :
    (b.info j).value = (a.info j).value := by
  have hp := promote_promotes a k
  obtain ⟨hwf, -⟩ := h.promote k
  obtain ⟨-, hrooted, -⟩ := promote_spec h hk hlir
  rw [hitHir, Option.bind_eq_bind, Option.bind_eq_some_iff] at hb
  obtain ⟨a1, hdemote, hb⟩ := hb
  rw [Option.bind_eq_bind, Option.bind_eq_some_iff] at hb
  obtain ⟨⟨e, a2⟩, hmake, hb⟩ := hb
  cases hb
  obtain ⟨hwf1, -, -, -, -, hshrinks⟩ := demoteAll_spec hwf (hrooted rooted) hdemote
  show (a2.info j).value = (a.info j).value
  rw [(makeRoom_thins hwf1 hmake).value, hshrinks.value]
  rcases eq_or_ne j k with rfl | hne
  · rw [hp.info]
  · rw [hp.other j hne]

theorem Valued.get (h : a.Valued) (stable : a.Stable) (hl : a.Lookup k)
    (hb : a.get k = some (evicted, b)) : b.Valued := by
  unfold Lirs.get at hb
  split at hb
  · rename_i hk
    split at hb
    · cases hb
      have hs := (hitLir_spec stable.wf hk).2.2.2.2.2
      exact h.of_tracked hs.tracked hs.value
    · rename_i hlir
      rw [Bool.not_eq_true] at hlir
      have hs := hitHir_spec stable.wf (hl.rooted hk hlir) (stable.room hl hk hlir) hk hlir hb
      exact h.of_tracked hs.tracked (hitHir_value stable.wf (hl.rooted hk hlir) hk hlir hb)
  · cases hb
    exact h

end Lirs

namespace DLIRS

variable {cache cache' : DLIRS V} {pairs : Table → List (Key × Ref)} {handles : Multiset Ref}
  {key : Key} {evicted : Option Ref}

/-- The values of the entries are not NULL. -/
def Valued (cache : DLIRS V) (pairs : Table → List (Key × Ref)) : Prop :=
  ∀ t p, p ∈ pairs t → ∃ e, cache.heap p.2 = some e ∧ e.value.isSome

/-- A call takes the key out of the cache. -/
def Loses (cache cache' : DLIRS V) (key : Key) : Prop :=
  dlirsContains cache key = true ∧ dlirsContains cache' key = false

/-- At most one key has left the cache, and `*evicted` is its entry, or NULL where none has. -/
def Reports (cache cache' : DLIRS V) (evicted : Option Ref) : Prop :=
  match evicted with
  | none => ∀ key, ¬cache.Loses cache' key
  | some r => ∃ key, cache.entryAt key = some r ∧ ∀ j, cache.Loses cache' j ↔ j = key

theorem Valued.toLirs (hv : cache.Valued pairs) (h : cache.Ordered pairs handles) :
    (cache.toLirs pairs).Valued := by
  intro k hk
  obtain ⟨t, r, hmem⟩ := Ordered.tracked_pairs hk
  obtain ⟨e, he, hvalue⟩ := hv t (k, r) hmem
  obtain ⟨n, hn⟩ := (h.info_eq hmem).1
  rw [he, Option.some_inj] at hn
  rw [hn] at hvalue
  exact hvalue

/-- Where the only key that leaves the cache is `lost`, its entry is what `*evicted` should be. -/
theorem reports_iff {lost : Option Key} (hloses : ∀ j, cache.Loses cache' j ↔ lost = some j)
    (hentry : ∀ j, lost = some j → ∃ r, cache.entryAt j = some r) :
    cache.Reports cache' evicted ↔ evicted = lost.bind cache.entryAt := by
  cases lost with
  | none =>
    cases evicted with
    | none => simp [Reports, hloses]
    | some r =>
      simp only [Reports, hloses, Option.bind_none, reduceCtorEq, false_iff, iff_false]
      rintro ⟨key, -, hnone⟩
      exact hnone key rfl
  | some j =>
    obtain ⟨r, hr⟩ := hentry j rfl
    cases evicted with
    | none => simp [Reports, hloses, hr]
    | some r' =>
      simp only [Reports, hloses, Option.some_inj, Option.bind_some, hr]
      constructor
      · rintro ⟨key, hkey, hiff⟩
        rw [(hiff j).mp rfl, hkey, Option.some_inj] at hr
        exact hr
      · rintro rfl
        exact ⟨j, hr, fun i => eq_comm⟩

end DLIRS

end SearchCache
