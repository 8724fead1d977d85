import SearchCache.Cache.DlirsTracks
import Mathlib.Tactic.Linarith
import Mathlib.Tactic.NormNum

/-! Runs of `dlirs_get` and `dlirs_request` from `dlirs_create`, of any size and with either limit.
Where the cache is too large for its limits to be exact it can come to hold more entries than its
size, and a lookup of an evicted entry then evicts several. -/

namespace SearchCache

open Lirs

variable {V : Type}

/-- A call on a cache.  A request has a value that is not NULL, and what `*evicted` holds before. -/
inductive DlirsOp (V : Type)
  | get (key : Key)
  | request (key : Key) (value : V) (evicted : Option Ref) (ok : DlirsAlloc)

def DLIRS.op (cache : DLIRS V) : DlirsOp V → Option (DLIRS V)
  | .get key => (dlirsGet {} cache key).map DlirsGot.cache
  | .request key value evicted ok =>
    (dlirsRequest ok cache key (some value) evicted).map DlirsRequested.cache

/-- A lookup is for a key in `lirs` or in no table, and a request for a key in no table. -/
def DLIRS.Permits (cache : DLIRS V) : DlirsOp V → Prop
  | .get key => (dqhtGet cache.lirs key).isSome ∨ cache.hasKey key = false
  | .request key _ _ _ => cache.hasKey key = false

/-- All allocations of the call succeed. -/
def DlirsOp.Allocates : DlirsOp V → Prop
  | .get _ => True
  | .request _ _ _ ok => ok = {}

def DLIRS.run (cache : DLIRS V) (ops : List (DlirsOp V)) : Option (DLIRS V) :=
  Runs.run DLIRS.op cache ops

def DLIRS.RunPermitted (cache : DLIRS V) (ops : List (DlirsOp V)) : Prop :=
  Runs.Regular DLIRS.op (fun cache op => cache.Permits op ∧ op.Allocates) cache ops

/-! ### `*evicted` -/

/-- What `*evicted` holds before does not matter to a loop that evicts. -/
theorem dlirsMakeRoomLoop_evicted (ok : Alloc) (cache : DLIRS V) (evicted : Option Ref) :
    dlirsMakeRoomLoop ok cache evicted =
      if cache.cacheSize ≤ cache.residents then dlirsMakeRoomLoop ok cache none
      else some (evicted, cache) := by
  unfold dlirsMakeRoomLoop
  split
  · rename_i hfull
    simp only [Loop.run, hfull, if_true]
  · rename_i hroom
    exact Loop.run_done (if_neg hroom)

theorem dlirsRequestHir_evicted (ok : DlirsAlloc) (cache : DLIRS V) (key : Key) (value : Option V)
    (evicted evicted' : Option Ref) :
    dlirsRequestHir ok cache key value evicted =
      (dlirsRequestHir ok cache key value evicted').map fun r => { r with evicted } := by
  unfold dlirsRequestHir
  generalize dlirsEntryCreate ok.entry cache key value = created
  obtain ⟨entry, cache⟩ := created
  dsimp only
  generalize dlirsEntryReferenceCopy cache entry = copied
  obtain ⟨entry2, cache⟩ := copied
  dsimp only
  generalize dlirsEntryReferenceCopy cache entry = copied
  obtain ⟨entry3, cache⟩ := copied
  dsimp only
  split
  · rfl
  · cases cache.insert .lirs ok.lirs key entry with
    | none => rfl
    | some i =>
      obtain ⟨code, cache⟩ := i
      simp only [Option.bind_eq_bind, Option.bind_some]
      split
      · rfl
      · cases cache.insert .nonResidentHirs ok.nonResidentHirs key entry2 with
        | none => rfl
        | some i =>
          obtain ⟨code, cache⟩ := i
          simp only [Option.bind_some]
          split
          · rfl
          · cases cache.insert .residentHirs ok.residentHirs key entry3 with
            | none => rfl
            | some i =>
              obtain ⟨code, cache⟩ := i
              simp only [Option.bind_some]
              split
              · rfl
              · cases dlirsLimitStack { cache with hirsCount := cache.hirsCount + 1 } <;> rfl

/-- A request sets `*evicted` where it makes a LIR entry or finds the cache full. -/
def DLIRS.setsEvicted (cache : DLIRS V) (code : Int) : Prop :=
  if cache.lirsCount < cache.lirsLimit.toNat ∧ cache.hirsCount = 0 then code = 0
  else cache.cacheSize ≤ cache.residents

instance (cache : DLIRS V) (code : Int) : Decidable (cache.setsEvicted code) := by
  unfold DLIRS.setsEvicted
  infer_instance

theorem dlirsRequest_evicted (ok : DlirsAlloc) (cache : DLIRS V) (key : Key) (value : Option V)
    (evicted : Option Ref) :
    dlirsRequest ok cache key value evicted =
      (dlirsRequest ok cache key value none).map fun r =>
        { r with evicted := if cache.setsEvicted r.code then r.evicted else evicted } := by
  unfold dlirsRequest DLIRS.setsEvicted
  split
  · generalize dlirsEntryCreate ok.entry cache key value = created
    obtain ⟨_ | entry, cache⟩ := created
    · rfl
    · dsimp only
      cases DLIRS.insert _ .lirs ok.lirs key (some entry) with
      | none => rfl
      | some i =>
        obtain ⟨code, cache⟩ := i
        simp only [Option.bind_eq_bind, Option.bind_some]
        by_cases hcode : code = 0
        · simp [hcode]
        · simp [hcode]
  · rename_i hfirst
    rw [dlirsMakeRoomLoop_evicted]
    by_cases hfull : cache.cacheSize ≤ cache.residents
    · simp only [if_pos hfull]
      cases dlirsMakeRoomLoop ok.demoted cache none with
      | none => rfl
      | some p =>
        simp only [Option.bind_eq_bind, Option.bind_some]
        cases dlirsRequestHir ok p.2 key value p.1 <;> rfl
    · have hrest : dlirsMakeRoomLoop ok.demoted cache none = some (none, cache) := by
        rw [dlirsMakeRoomLoop_evicted, if_neg hfull]
      simp only [if_neg hfull, hrest, Option.bind_eq_bind, Option.bind_some]
      exact dlirsRequestHir_evicted ok cache key value evicted none

namespace Lirs

variable {K : Type} {a b : Lirs K V}

/-- The values of the tracked keys are not NULL. -/
def Valued (a : Lirs K V) : Prop := ∀ j, a.Tracked j → (a.info j).value.isSome

theorem Valued.of_tracked (h : a.Valued) (htracked : ∀ j, b.Tracked j → a.Tracked j)
    (hvalue : ∀ j, (b.info j).value = (a.info j).value) : b.Valued := fun j hj => by
  rw [hvalue j]
  exact h j (htracked j hj)

/-- A new key with a value. -/
theorem Valued.add [DecidableEq K] {k : K} (h : a.Valued) (value : V)
    (htracked : ∀ j, b.Tracked j → j = k ∨ a.Tracked j)
    (hinfo : b.info = Function.update a.info k (b.info k)) (hk : (b.info k).value = some value) :
    b.Valued := by
  intro j hj
  rcases eq_or_ne j k with rfl | hne
  · simp [hk]
  · rw [hinfo, Function.update_of_ne hne]
    exact h j ((htracked j hj).resolve_left hne)

theorem Valued.request [DecidableEq K] {k : K} {value : V} {evicted : Option K} (h : a.Valued)
    (stable : a.Stable) (hk : ¬a.Tracked k) (hb : a.request k (some value) = some (evicted, b)) :
    b.Valued := by
  have hmem : ∀ (l : List K) (j : K), j ∈ l ++ [k] ↔ j ∈ l ∨ j = k := by simp
  unfold Lirs.request at hb
  split at hb
  · cases hb
    refine h.add (k := k) value (fun j hj => ?_) (by simp [addLir]) (by simp [addLir])
    rcases hj with hj | hj
    · exact ((hmem _ j).mp hj).symm.imp_right .inl
    · exact .inr (.inr hj)
  · rw [Option.bind_eq_bind, Option.bind_eq_some_iff] at hb
    obtain ⟨⟨e, a1⟩, hmake, hb⟩ := hb
    rw [Option.bind_eq_bind, Option.bind_eq_some_iff] at hb
    obtain ⟨a2, hlimit, hb⟩ := hb
    cases hb
    have hthins := makeRoom_thins stable.wf hmake
    have hk1 : ¬a1.Tracked k := fun hk1 => hk (hthins.tracked k hk1)
    have hadd : (a1.addHir k (some value)).Valued := by
      refine (h.of_tracked hthins.tracked hthins.value).add (k := k) value
        (fun j hj => ?_) (by simp [addHir]) (by simp [addHir])
      rcases hj with hj | hj
      · exact ((hmem _ j).mp hj).symm.imp_right .inl
      · exact ((hmem _ j).mp hj).symm.imp_right .inr
    rw [limitStack] at hlimit
    split at hlimit
    · rename_i hexcess
      rw [Option.some_inj] at hlimit
      subst hlimit
      obtain ⟨-, -, -, -, -, -, hshrinks⟩ := forget_iterate (hthins.wf.addHir hk1 _) hexcess
      exact hadd.of_tracked hshrinks.tracked hshrinks.value
    · simp at hlimit

end Lirs

namespace Tracks

variable {cache : DLIRS V} {ref : Key → Ref} {a : Lirs Key V} {held : Multiset Ref}

theorem of_sim {cache' : DLIRS V} {b : Lirs Key V} {held' : Multiset Ref}
    (h : Tracks cache ref a held) (hsim : Sim cache' ref b [] held') (hstable : b.Stable)
    (hfounded : b.Founded)
    (hlimit : b.lirsLimit = a.lirsLimit ∨ b.lirsLimit = a.grow.lirsLimit) :
    Tracks cache' ref b held' := by
  refine ⟨hsim, hstable, hfounded, ?_⟩
  obtain ⟨n, hn⟩ := h.float
  rcases hlimit with hsame | hgrown
  · exact ⟨n, hsame.trans hn⟩
  · exact ⟨_, hgrown⟩

end Tracks

/-! ### Several evictions -/

namespace Sim

variable {cache : DLIRS V} {ref : Key → Ref} {a b : Lirs Key V} {held : Multiset Ref} {k j : Key}

/-- The loop that evicts, from any state: it goes on for ever when it has emptied `resident_hirs`
too early.  Of the evicted entries only the last one is known to a caller. -/
theorem evictRun_thins (h : Sim cache ref a [k] (ref k ::ₘ held)) (wf : a.WF)
    {body : Option Ref × DLIRS V → Option (Loop.Step (Option Ref × DLIRS V))}
    (hbody : ∀ e c, c.cacheSize ≤ c.residents →
      body (e, c) = (dlirsEvictResidentHir c).map .next)
    (hdone : ∀ e c, ¬c.cacheSize ≤ c.residents → body (e, c) = some (.done (e, c)))
    (evicted : Option Ref) (fuel : Nat) :
    Loop.run body fuel (evicted, cache) = none ∨
      ∃ p b held', Loop.run body fuel (evicted, cache) = some p ∧
        Sim p.2 ref b [k] (ref k ::ₘ held') ∧ Thins a b ∧ b.residents < b.cacheSize := by
  induction fuel generalizing cache a held evicted with
  | zero => exact .inl rfl
  | succ n ih =>
    have hresidents := h.residents
    have hsize := h.cacheSize
    by_cases hfull : cache.cacheSize ≤ cache.residents
    · cases hqueue : a.queue with
      | nil =>
        refine .inl (Loop.run_eq_none (I := fun p => p.2 = cache) ?_ rfl)
        rintro ⟨e, c⟩ rfl
        exact .inr ⟨(none, c), by rw [hbody e c hfull, h.evictHir_nil hqueue]; rfl, rfl⟩
      | cons i rest =>
        obtain ⟨b, he⟩ : ∃ b, a.evict = some (i, b) := ⟨_, by rw [evict, hqueue]⟩
        obtain ⟨cache1, hevict, h1⟩ := h.evictHir wf he
        have h2 : Sim cache1 ref b [k] (ref k ::ₘ ref i ::ₘ held) := by
          rw [Multiset.cons_swap]
          exact ⟨h1.weaken fun j hj => List.mem_cons_of_mem _ hj, h1.counts⟩
        have hthins := wf.evict_thins he
        have hnext : Loop.run body (n + 1) (evicted, cache) =
            Loop.run body n (some (ref i), cache1) :=
          Loop.run_next (by rw [hbody _ _ hfull, hevict]; rfl)
        rw [hnext]
        refine (ih h2 hthins.wf (some (ref i))).imp_right ?_
        rintro ⟨p, c, held', hrun, hsim, hthins', hlt⟩
        exact ⟨p, c, held', hrun, hsim, hthins.trans hthins', hlt⟩
    · refine .inr ⟨(evicted, cache), a, held, Loop.run_done (hdone _ _ hfull), h,
        Thins.refl wf, ?_⟩
      rw [hsize, hresidents] at hfull
      omega

theorem evictLoop_thins (h : Sim cache ref a [k] (ref k ::ₘ held)) (wf : a.WF)
    (evicted : Option Ref) :
    dlirsEvictLoop cache evicted = none ∨
      ∃ p b held', dlirsEvictLoop cache evicted = some p ∧
        Sim p.2 ref b [k] (ref k ::ₘ held') ∧ Thins a b ∧ b.residents < b.cacheSize := by
  unfold dlirsEvictLoop
  exact h.evictRun_thins wf (fun e c hfull => if_pos hfull) (fun e c hroom => if_neg hroom) _ _

/-- `dlirs_hir_in_lirs`, from any state. -/
theorem hitHir_any (h : Sim cache ref a [] held) (wf : a.WF) (rooted : a.Rooted) (hk : k ∈ a.stack)
    (hlir : (a.info k).isLIR = false) :
    dlirsHirInLirs {} cache k none = none ∨
      ∃ r b held', dlirsHirInLirs {} cache k none = some r ∧
        r.code = (if (a.info k).inCache then 0 else 1) ∧ Sim r.cache ref b [] held' ∧
        HitsHir a k b ∧ ∀ j, (b.info j).value = (a.info j).value := by
  have hp := promote_promotes a k
  obtain ⟨hwf, huntracked⟩ := wf.promote k
  obtain ⟨-, hrooted, -⟩ := promote_spec wf hk hlir
  obtain ⟨cache1, cache2, hremove, hpromote, h2⟩ := h.promote wf hk hlir
  rw [h.hirInLirs_eq hremove hpromote]
  have hdemote := h2.demoteLoop hwf (hrooted rooted)
  cases hdemote' : (a.promote k).demoteAll with
  | none =>
    rw [hdemote'] at hdemote
    generalize dlirsDemoteLoop {} cache2 = x at hdemote ⊢
    cases hdemote
    exact .inl rfl
  | some a3 =>
    rw [hdemote'] at hdemote
    obtain ⟨cache3, hloop, h3⟩ := Loop.of_rel_some hdemote
    obtain ⟨hwf3, hrooted3, hlirs3, -, -, hshrinks⟩ := demoteAll_spec hwf (hrooted rooted) hdemote'
    have hk3 : ¬a3.Tracked k := fun hk => huntracked (hshrinks.tracked k hk)
    rw [hloop, Option.bind_some]
    rcases h3.evictLoop_thins hwf3 none with hnone | ⟨p, a4, held', hrun, h4, hthins, hlt⟩
    · exact .inl (by rw [hnone]; rfl)
    · have hinfo : a4.info k = { a.info k with isLIR := true, inCache := true } := by
        rw [hthins.untracked k hk3, hshrinks.untracked k huntracked, hp.info]
      have hk4 : ¬a4.Tracked k := fun hk => hk3 (hthins.tracked k hk)
      obtain ⟨cache5, hinsert, h5⟩ := h4.push (G := []) (by simp)
        (fun hmem => hk4 (.inl hmem)) (by rw [hinfo]) (by rw [hinfo]) fun j hj => by simp at hj
      refine .inr ⟨{
        code := if (a.info k).inCache then 0 else 1
        evicted := p.1
        cache := { cache5 with lirsCount := cache5.lirsCount + 1 } },
        { a4 with stack := a4.stack ++ [k] }, held', ?_, rfl, h5, ?_, fun j => ?_⟩
      · rw [hrun, Option.bind_some, hinsert]
        rfl
      · exact hitsHir_push hk (promote_promotes a k) hshrinks hrooted3 hlirs3 hthins hlt hk4 hinfo
      · show (a4.info j).value = (a.info j).value
        rw [hthins.value, hshrinks.value]
        rcases eq_or_ne j k with rfl | hne
        · rw [hp.info]
        · rw [hp.other j hne]

/-! ### Lookups -/

/-- A lookup of a key that no table has. -/
theorem get_untracked (h : Sim cache ref a [] held) (hk : ¬a.Tracked k) :
    dlirsGet {} cache k = some ⟨none, none, cache⟩ := by
  rw [dlirsGet, show dqhtGet cache.lirs k = none from h.get_absent (t := .lirs)
    fun hs => hk (.inl hs), show dqhtGet cache.residentHirs k = none from
    h.get_absent (t := .residentHirs) fun hq => hk (.inr hq)]

/-- A lookup of a LIR key. -/
theorem get_lir (h : Sim cache ref a [] held) (wf : a.WF) (hk : k ∈ a.stack)
    (hlir : (a.info k).isLIR = true) :
    ∃ cache', dlirsGet {} cache k = some ⟨some (ref k), none, cache'⟩ ∧
      Sim cache' ref (a.hitLir k) [] held := by
  obtain ⟨n, hn⟩ := h.entries k (.inl ⟨.lirs, hk⟩)
  obtain ⟨cache1, hhit, h1⟩ := h.hitLir wf hk
  refine ⟨cache1, ?_, h1⟩
  rw [dlirsGet, show dqhtGet cache.lirs k = some (ref k) from h.get_mem (t := .lirs) hk]
  simp only [hn, Option.bind_eq_bind, Option.bind_some, entryOf, hlir, if_true, hhit]
  rfl

/-- A lookup of a HIR key of the stack. -/
theorem get_hir (h : Sim cache ref a [] held) (hk : k ∈ a.stack)
    (hlir : (a.info k).isLIR = false) :
    dlirsGet {} cache k = (dlirsHirInLirs {} cache k none).bind fun r =>
      some ⟨if r.code = 1 then none else some (ref k), r.evicted, r.cache⟩ := by
  obtain ⟨n, hn⟩ := h.entries k (.inl ⟨.lirs, hk⟩)
  rw [dlirsGet, show dqhtGet cache.lirs k = some (ref k) from h.get_mem (t := .lirs) hk]
  simp only [hn, Option.bind_eq_bind, Option.bind_some, entryOf, hlir, Bool.false_eq_true, if_false]
  rfl

end Sim

/-! ### Runs -/

/-- A permitted lookup is for a key of the stack or for an untracked key. -/
theorem Tracks.permitted {cache : DLIRS V} {ref : Key → Ref} {a : Lirs Key V} {held : Multiset Ref}
    {k : Key} (h : Tracks cache ref a held) (hk : cache.Permits (.get k)) (ht : a.Tracked k) :
    k ∈ a.stack := by
  rcases hk with hlirs | habsent
  · by_contra hmem
    rw [show dqhtGet cache.lirs k = none from h.get_absent (t := .lirs) hmem] at hlirs
    simp at hlirs
  · exact absurd ht (h.untracked habsent)

/-- The cache follows the algorithm, its values are not NULL, and below 2^24 its limits are exact. -/
structure Serves (cache : DLIRS V) (ref : Key → Ref) (a : Lirs Key V) (held : Multiset Ref) :
    Prop extends Tracks cache ref a held where
  valued : a.Valued
  exact : a.cacheSize < 2 ^ 24 → a.Exact

namespace Serves

variable {cache cache' : DLIRS V} {ref : Key → Ref} {a : Lirs Key V} {held : Multiset Ref} {k : Key}

theorem create {htSize cacheSize : Nat} {hirsRatio : ℚ} (hht : 1 ≤ htSize)
    (hhirs : 1 ≤ (dlirsCreate htSize cacheSize none hirsRatio : DLIRS V).hirsLimit)
    (hlirs : 1 ≤ (dlirsCreate htSize cacheSize none hirsRatio : DLIRS V).lirsLimit) :
    ∃ a : Lirs Key V, Serves (dlirsCreate htSize cacheSize none hirsRatio) (fun _ => 0) a 0 ∧
      a.cacheSize = cacheSize :=
  ⟨_, ⟨Tracks.create hht hlirs, fun j hj => by simp [Tracked, Lirs.create] at hj,
    fun hsmall => dlirsCreate_exact hsmall hhirs hlirs⟩, rfl⟩

theorem get (h : Serves cache ref a held) (hk : cache.Permits (.get k)) {r : DlirsGot V}
    (hr : dlirsGet {} cache k = some r) :
    ∃ b held', Serves r.cache ref b held' ∧ b.cacheSize = a.cacheSize := by
  by_cases htracked : a.Tracked k
  · have hmem := h.permitted hk htracked
    cases hlir : (a.info k).isLIR with
    | true =>
      obtain ⟨cache1, hget, h1⟩ := h.toSim.get_lir h.stable.wf hmem hlir
      obtain rfl := Option.some.inj (hget.symm.trans hr)
      have hl : a.Lookup k := ⟨fun _ => hmem, fun _ _ => h.founded.rooted, fun _ hghost => by
        simp [h.stable.wf.lir_cached k hmem hlir] at hghost⟩
      have hb : a.get k = some (none, a.hitLir k) := by rw [Lirs.get, if_pos hmem, if_pos hlir]
      obtain ⟨hstable, hsize, -, hfounded⟩ := h.stable.get hl hb
      obtain ⟨-, -, -, -, -, hshrinks⟩ := hitLir_spec h.stable.wf hmem
      exact ⟨_, held, ⟨h.toTracks.of_sim h1 hstable (hfounded h.founded) (.inl hshrinks.lirsLimit),
        h.valued.of_tracked hshrinks.tracked hshrinks.value, fun hsmall =>
          (h.exact (hsize ▸ hsmall)).hitLir h.stable.wf hmem⟩, hsize⟩
    | false =>
      rw [h.toSim.get_hir hmem hlir] at hr
      rcases h.toSim.hitHir_any h.stable.wf h.founded.rooted hmem hlir with
        hnone | ⟨q, b, held', hq, -, h1, hs, hvalue⟩
      · simp [hnone] at hr
      · rw [hq, Option.bind_some, Option.some_inj] at hr
        subst hr
        have hlimit : b.lirsLimit = a.lirsLimit ∨ b.lirsLimit = a.grow.lirsLimit := by
          cases hcached : (a.info k).inCache with
          | true => exact .inl (hs.limits hcached).2
          | false => exact .inr (hs.grown hcached).2
        exact ⟨b, held', ⟨h.toTracks.of_sim h1 ⟨hs.wf, hs.lirs_le, .inr hs.residents_le⟩
          ⟨hs.limit_pos, hs.rooted, fun hnil => absurd hnil hs.stack_ne⟩ hlimit,
          h.valued.of_tracked hs.tracked hvalue, fun hsmall =>
            hs.exact (h.exact (hs.cacheSize ▸ hsmall))⟩, hs.cacheSize⟩
  · obtain rfl := Option.some.inj ((h.toSim.get_untracked htracked).symm.trans hr)
    exact ⟨a, held, h, rfl⟩

/-- What `*evicted` holds before makes no difference to the cache. -/
theorem request_none {value : V} {evicted : Option Ref} {r : DlirsRequested V}
    (hr : dlirsRequest {} cache k (some value) evicted = some r) :
    ∃ q, dlirsRequest {} cache k (some value) none = some q ∧ q.cache = r.cache := by
  rw [dlirsRequest_evicted] at hr
  obtain ⟨q, hq, rfl⟩ := Option.map_eq_some_iff.mp hr
  exact ⟨q, hq, rfl⟩

theorem request (h : Serves cache ref a held) (hk : cache.hasKey k = false) {value : V}
    {evicted : Option Ref} {r : DlirsRequested V}
    (hr : dlirsRequest {} cache k (some value) evicted = some r) :
    ∃ ref' b held', Serves r.cache ref' b held' ∧ b.cacheSize = a.cacheSize := by
  have huntracked := h.untracked hk
  obtain ⟨q, hq, hcache⟩ := request_none hr
  obtain ⟨⟨e, b⟩, hb, -, -, ref', -, -, htracks⟩ :=
    Loop.some_of_rel (h.toTracks.request huntracked (some value)) hq
  obtain ⟨-, hsize, -⟩ := h.stable.request huntracked (some value) hb
  refine ⟨ref', b, _, ⟨hcache ▸ htracks, ?_, fun hsmall =>
    (h.exact (hsize ▸ hsmall)).request h.stable huntracked (some value) hb⟩, hsize⟩
  exact h.valued.request h.stable huntracked hb

theorem op (h : Serves cache ref a held) {op : DlirsOp V} (hop : cache.Permits op)
    (hok : op.Allocates) (hcache : cache.op op = some cache') :
    ∃ ref' b held', Serves cache' ref' b held' ∧ b.cacheSize = a.cacheSize := by
  cases op with
  | get key =>
    obtain ⟨r, hr, rfl⟩ := Option.map_eq_some_iff.mp hcache
    obtain ⟨b, held', hb, hsize⟩ := h.get hop hr
    exact ⟨ref, b, held', hb, hsize⟩
  | request key value evicted ok =>
    rw [show ok = {} from hok] at hcache
    obtain ⟨r, hr, rfl⟩ := Option.map_eq_some_iff.mp hcache
    exact h.request hop hr

/-- Below 2^24 every permitted call returns. -/
theorem op_progress (h : Serves cache ref a held) (hsmall : a.cacheSize < 2 ^ 24) {op : DlirsOp V}
    (hop : cache.Permits op) (hok : op.Allocates) : ∃ cache', cache.op op = some cache' := by
  have he := h.exact hsmall
  cases op with
  | get key =>
    have hl : a.Lookup key := ⟨h.permitted hop, fun _ _ => h.founded.rooted,
      fun _ _ => he.residents_le⟩
    obtain ⟨q, hq⟩ := get_progress h.stable h.founded.rooted he (k := key)
    obtain ⟨r, hr, -⟩ := Loop.of_rel_some (hq ▸ h.toTracks.get hl)
    exact ⟨r.cache, by rw [DLIRS.op, hr]; rfl⟩
  | request key value evicted ok =>
    have hk := h.untracked (k := key) hop
    obtain ⟨q, hq⟩ := request_progress h.stable he hk (some value)
    obtain ⟨r, hr, -⟩ := Loop.of_rel_some (hq ▸ h.toTracks.request hk (some value))
    refine ⟨r.cache, ?_⟩
    rw [show ok = {} from hok, DLIRS.op, dlirsRequest_evicted, hr]
    rfl

theorem run (h : Serves cache ref a held) {ops : List (DlirsOp V)}
    (permitted : cache.RunPermitted ops) :
    (a.cacheSize < 2 ^ 24 → ∃ cache', cache.run ops = some cache') ∧
      ∀ cache', cache.run ops = some cache' →
        ∃ ref' b held', Serves cache' ref' b held' ∧ b.cacheSize = a.cacheSize := by
  let inv : DLIRS V → Prop := fun cache =>
    ∃ ref b held, Serves cache ref b held ∧ b.cacheSize = a.cacheSize
  have start : inv cache := ⟨ref, a, held, h, rfl⟩
  have preserves : ∀ cache op cache', inv cache → cache.Permits op ∧ op.Allocates →
      cache.op op = some cache' → inv cache' := by
    rintro cache op cache' ⟨ref, b, held, hb, hsize⟩ ⟨hop, hok⟩ hcache
    obtain ⟨ref', b', held', hb', hsize'⟩ := hb.op hop hok hcache
    exact ⟨ref', b', held', hb', hsize'.trans hsize⟩
  constructor
  · intro hsmall
    refine Runs.run_returns preserves ?_ start permitted
    rintro cache op ⟨ref, b, held, hb, hsize⟩ ⟨hop, hok⟩
    exact hb.op_progress (hsize ▸ hsmall) hop hok
  · intro cache' hrun
    have hinv : inv cache' := Runs.run_preserves preserves start permitted hrun
    exact hinv

end Serves

/-! ### Limits -/

/-- Below 2^24 both limits are exact. -/
theorem dlirsCreate_limits (htSize : Nat) {cacheSize : Nat} {hirsRatio : ℚ}
    (hsmall : cacheSize < 2 ^ 24) (hsize : 1 ≤ cacheSize) (hratio : hirsRatio < 1) :
    (dlirsCreate htSize cacheSize none hirsRatio : DLIRS V).hirsLimit =
        max 1 (rint (cacheSize * hirsRatio + 1 / 2)) ∧
      (dlirsCreate htSize cacheSize none hirsRatio : DLIRS V).lirsLimit =
        cacheSize - max 1 (rint (cacheSize * hirsRatio + 1 / 2)) ∧
      max 1 (rint (cacheSize * hirsRatio + 1 / 2)) ≤ cacheSize := by
  have hpos : (0 : ℚ) < cacheSize := by exact_mod_cast hsize
  have hle : rint (cacheSize * hirsRatio + 1 / 2) ≤ cacheSize := by
    refine rint_le_of_lt ?_
    have : (cacheSize : ℚ) * hirsRatio < cacheSize * 1 := mul_lt_mul_of_pos_left hratio hpos
    push_cast
    linarith
  have hhirs : (dlirsCreate htSize cacheSize none hirsRatio : DLIRS V).hirsLimit =
      max 1 (rint (cacheSize * hirsRatio + 1 / 2)) := toFloat_eq (by omega)
  refine ⟨hhirs, ?_, by omega⟩
  have hlirs : (dlirsCreate htSize cacheSize none hirsRatio : DLIRS V).lirsLimit =
      toFloat (toFloat cacheSize -
        (dlirsCreate htSize cacheSize none hirsRatio : DLIRS V).hirsLimit) := rfl
  rw [hlirs, hhirs, toFloat_eq (n := cacheSize) (by omega), toFloat_eq (by omega)]

/-- Without room for a LIR entry, the first lookup of the first entry ejects LIR entries from an
empty `lirs` for ever. -/
theorem Sim.diverges {cache : DLIRS V} {ref : Key → Ref} {a : Lirs Key V} {held : Multiset Ref}
    (h : Sim cache ref a [] held) (stable : a.Stable) (hstack : a.stack = []) (hqueue : a.queue = [])
    (hsize : 1 ≤ a.cacheSize) (hsmall : a.cacheSize < 2 ^ 24) (hlimit : a.lirsLimit = 0) (key : Key)
    (value : V) :
    cache.RunPermitted [.request key value none {}, .get key] ∧
      cache.run [.request key value none {}, .get key] = none := by
  have hk : ¬a.Tracked key := by simp [Tracked, hstack, hqueue]
  have hlirs : a.lirCount = 0 := by simp [lirCount, hstack]
  have hwf := stable.wf.addHir hk (some value)
  have hrequest := request_empty stable.wf hstack hqueue hsize hsmall hlimit key (some value)
  obtain ⟨r, hr, -, hevicted, ref', -, h1⟩ := Loop.of_rel_some (hrequest ▸
    h.request stable hk (by rw [hlimit, hlirs, toFloat_eq (by decide)]; decide) (some value))
  rw [hevicted] at h1
  have hmem : key ∈ (a.addHir key (some value)).stack := by simp [Lirs.addHir]
  have hlir : ((a.addHir key (some value)).info key).isLIR = false := by simp [Lirs.addHir]
  have hop : cache.op (.request key value none {}) = some r.cache := by rw [DLIRS.op, hr]; rfl
  refine ⟨⟨⟨?_, rfl⟩, fun cache1 hcache1 => ?_⟩, ?_⟩
  · by_contra hkey
    exact hk ((Tracks.hasKey_iff h stable.wf).mp (by simpa [DLIRS.Permits] using hkey))
  · obtain rfl := Option.some.inj (hop.symm.trans hcache1)
    refine ⟨⟨.inl ?_, trivial⟩, fun _ _ => trivial⟩
    rw [show dqhtGet r.cache.lirs key = some (ref' key) from h1.get_mem (t := .lirs) hmem]
    rfl
  · have hp := promote_promotes (a.addHir key (some value)) key
    have hempty : ((a.addHir key (some value)).promote key).Rooted := by
      intro j rest hj
      rw [hp.stack] at hj
      simp [Lirs.addHir, hstack] at hj
    obtain ⟨cache1, cache2, hremove, hpromote, h2⟩ := h1.promote hwf hmem hlir
    have hdemote := h2.demoteLoop (hwf.promote key).1 hempty
    rw [demoteAll, if_pos (by
      rw [(hp.limits (by simp [Lirs.addHir])).2]
      exact (congrArg Int.toNat hlimit))] at hdemote
    have hloop : dlirsDemoteLoop {} cache2 = none := by
      generalize dlirsDemoteLoop {} cache2 = x at hdemote
      cases hdemote
      rfl
    have hget : dlirsGet {} r.cache key = none := by
      rw [h1.get_hir hmem hlir, h1.hirInLirs_eq hremove hpromote, hloop]
      rfl
    rw [DLIRS.run, Runs.run_cons hop]
    simp [Runs.run, DLIRS.op, hget]

/-- Permitted runs return whatever the calls are if and only if the limit for HIR entries, which is
at least 1, leaves room for a LIR entry. -/
theorem dlirsRun_returns_iff [Inhabited V] {htSize cacheSize : Nat} {hirsRatio : ℚ} (hht : 1 ≤ htSize)
    (hsize : 1 ≤ cacheSize) (hsmall : cacheSize < 2 ^ 24) (_hpos : 0 ≤ hirsRatio)
    (hratio : hirsRatio < 1) :
    (∀ ops, (dlirsCreate htSize cacheSize none hirsRatio : DLIRS V).RunPermitted ops →
        ∃ cache, (dlirsCreate htSize cacheSize none hirsRatio : DLIRS V).run ops = some cache) ↔
      max 1 (rint (cacheSize * hirsRatio + 1 / 2)) < cacheSize := by
  obtain ⟨hhirs, hlirs, hle⟩ := dlirsCreate_limits (V := V) htSize hsmall hsize hratio
  constructor
  · intro hreturns
    by_contra hfull
    obtain ⟨hpermitted, hnone⟩ := (Sim.create (V := V) hht).diverges (Lirs.create_stable ..) rfl rfl
      hsize hsmall (show (dlirsCreate htSize cacheSize none hirsRatio : DLIRS V).lirsLimit = 0 by
        omega) keyA default
    obtain ⟨cache, hcache⟩ := hreturns _ hpermitted
    simp [hnone] at hcache
  · intro hroom ops hpermitted
    obtain ⟨a, h, hsame⟩ := @Serves.create V htSize cacheSize hirsRatio hht (by omega) (by omega)
    exact (h.run hpermitted).1 (hsame ▸ hsmall)

theorem dlirsRun_returns_iff_two :
    (∀ ops, (dlirsCreate 4 2 none (1 / 100) : DLIRS Unit).RunPermitted ops →
        ∃ cache, (dlirsCreate 4 2 none (1 / 100) : DLIRS Unit).run ops = some cache) ↔
      max 1 (rint ((2 : Nat) * (1 / 100) + 1 / 2)) < ((2 : Nat) : Int) :=
  dlirsRun_returns_iff (by decide) (by decide) (by decide) (by norm_num) (by norm_num)

/-- A cache of one entry has no room for a LIR entry. -/
theorem dlirsRun_not_returns :
    ¬∀ ops, (dlirsCreate 4 1 none 0 : DLIRS Unit).RunPermitted ops →
      ∃ cache, (dlirsCreate 4 1 none 0 : DLIRS Unit).run ops = some cache := by
  intro hreturns
  have hsim : Sim (dlirsCreate 4 1 none 0 : DLIRS Unit) _ _ _ _ := Sim.create (by decide)
  obtain ⟨hpermitted, hnone⟩ := hsim.diverges (Lirs.create_stable ..) rfl rfl (by decide) (by decide)
    (by decide +kernel) keyA ()
  obtain ⟨cache, hcache⟩ := hreturns _ hpermitted
  simp [hnone] at hcache

end SearchCache
