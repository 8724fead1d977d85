import SearchCache.Cache.DlirsSimulation

/-! The steps of a lookup and of a request that evict, promote and limit the stack, and the two
operations, against the algorithm. -/

namespace SearchCache

open Lirs

variable {V : Type}

/-- An evicted entry is one more held reference. -/
def hold (evicted : Option Ref) (held : Multiset Ref) : Multiset Ref :=
  match evicted with
  | none => held
  | some r => r ::ₘ held

theorem hold_cons (evicted : Option Ref) (r : Ref) (held : Multiset Ref) :
    hold evicted (r ::ₘ held) = r ::ₘ hold evicted held := by
  cases evicted with
  | none => rfl
  | some e => exact Multiset.cons_swap e r held

theorem hold_toList (evicted : Option Ref) (handles : List Ref) :
    ((evicted.toList ++ handles : List Ref) : Multiset Ref) =
      hold evicted (handles : Multiset Ref) := by
  cases evicted <;> rfl

theorem mem_hold {ref : Key → Ref} {evicted : Option Key} {k : Key} {held : Multiset Ref}
    (h : k ∈ evicted.toList) : ref k ∈ hold (evicted.map ref) held := by
  cases evicted with
  | none => simp at h
  | some e =>
    rw [show k = e by simpa using h]
    exact Multiset.mem_cons_self _ _

namespace Lirs

variable {K : Type} [DecidableEq K] {a : Lirs K V} {k : K}

theorem setInfo_congr {f g : Info V → Info V} (h : f (a.info k) = g (a.info k)) :
    a.setInfo k f = a.setInfo k g := by
  rw [setInfo, setInfo, h]

theorem setInfo_setInfo (a : Lirs K V) (k : K) (f g : Info V → Info V) :
    (a.setInfo k f).setInfo k g = a.setInfo k (g ∘ f) := by
  simp [setInfo]

theorem setInfo_self {f : Info V → Info V} (h : f (a.info k) = a.info k) :
    a.setInfo k f = a := by
  rw [setInfo, h, Function.update_eq_self]

end Lirs

namespace Sim

variable {cache : DLIRS V} {ref : Key → Ref} {a b : Lirs Key V} {hand G : List Key}
  {held : Multiset Ref} {t : Table} {k j : Key} {r : Ref} {rest : List Key}

/-! ### Eviction of a resident HIR entry -/

theorem counts_evict (wf : a.WF) (he : a.evict = some (k, b)) :
    b.counts = (dec a.queue.length, a.lirCount,
      if (a.info k).isDemoted then dec a.demoted else a.demoted,
      if k ∈ a.stack then a.ghostCount + 1 else a.ghostCount) := by
  have hev := evict_evicts he
  have hqueue := hev.queue
  have hk : k ∈ a.queue := by simp [hqueue]
  have hnodup := wf.queue_nodup
  rw [hqueue, List.nodup_cons] at hnodup
  have hlength : b.queue.length = dec a.queue.length := by
    rw [hqueue, dec, List.length_cons, if_neg (by omega), Nat.add_sub_cancel]
  have hghosts : b.ghostCount = if k ∈ a.stack then a.ghostCount + 1 else a.ghostCount := by
    rw [ghostCount, hev.stack]
    split
    · rename_i hmem
      have hother : (a.stack.erase k).countP (fun j => !(b.info j).inCache) =
          (a.stack.erase k).countP fun j => !(a.info j).inCache := by
        refine List.countP_congr fun j hj => ?_
        rw [hev.other j (wf.stack_nodup.mem_erase_iff.mp hj).1]
      rw [ghostCount, (List.perm_cons_erase hmem).countP_eq, (List.perm_cons_erase hmem).countP_eq,
        List.countP_cons, List.countP_cons, hother, hev.ghost hmem, wf.queue_cached k hk hmem]
      rfl
    · rename_i hmem
      refine List.countP_congr fun j hj => ?_
      rw [hev.other j (by rintro rfl; exact hmem hj)]
  rw [Lirs.counts, hlength, hev.lirCount, hev.demoted, hghosts]

theorem evictHir (h : Sim cache ref a hand held) (wf : a.WF) (he : a.evict = some (k, b)) :
    ∃ cache', dlirsEvictResidentHir cache = some (some (ref k), cache') ∧
      Sim cache' ref b (k :: hand) (ref k ::ₘ held) := by
  have hqueue := (evict_evicts he).queue
  have hcounts := counts_evict wf he
  let demoted := if (a.info k).isDemoted then dec a.demoted else a.demoted
  have hb : b = Lirs.setInfo { a with demoted, queue := b.queue } k fun i =>
      { i with isDemoted := false, inCache := if k ∈ a.stack then false else i.inCache } := by
    have he' := he
    rw [Lirs.evict, hqueue] at he'
    dsimp only at he'
    rw [Option.some_inj, Prod.mk.injEq] at he'
    exact he'.2.symm
  obtain ⟨cache1, hpop, hcounts1, hpopped⟩ :=
    h.toModels.popFront_cons (t := .residentHirs) hqueue
  have h1 := hpopped.withDemoted demoted
  have hknown : (∃ t, k ∈ (a.setOrder .residentHirs b.queue).order t) ∨ k ∈ k :: hand :=
    .inr (by simp)
  obtain ⟨n, hn⟩ := h1.entries k hknown
  have hget : (dqhtGet cache1.lirs k).isSome = decide (k ∈ a.stack) := by
    by_cases hmem : k ∈ a.stack
    · have hfound : dqhtGet cache1.lirs k = some (ref k) := h1.get_mem (t := .lirs) hmem
      simp [hfound, hmem]
    · have hfound : dqhtGet cache1.lirs k = none := h1.get_absent (t := .lirs) hmem
      simp [hfound, hmem]
  -- The entry leaves the cache where it is still in `lirs`, and is no longer demoted.
  let cache2 : DLIRS V := if k ∈ a.stack then
    { cache1.modify (ref k) fun e => { e with inCache := false } with
      nonResident := cache1.nonResident + 1 } else cache1
  have h2 : Models cache2 ref (Lirs.setInfo { a with demoted, queue := b.queue } k fun i =>
      { i with inCache := if k ∈ a.stack then false else i.inCache }) (k :: hand)
      (ref k ::ₘ held) := by
    by_cases hmem : k ∈ a.stack
    · simp only [cache2, if_pos hmem]
      exact (h1.modify hknown (g := fun i => { i with inCache := false })
        fun i n => rfl).withCounts _ _ _ (cache1.nonResident + 1)
    · simp only [cache2, if_neg hmem]
      rw [setInfo_self (by rfl)]
      exact h1
  let cache3 : DLIRS V := if (a.info k).isDemoted then
    { cache2.modify (ref k) fun e => { e with isDemoted := false } with
      demoted := dec cache2.demoted } else cache2
  have h3 : Models cache3 ref b (k :: hand) (ref k ::ₘ held) := by
    rw [hb]
    by_cases hdemoted : (a.info k).isDemoted = true
    · simp only [cache3, if_pos hdemoted]
      have h3 := (h2.modify (k := k) (f := fun e => { e with isDemoted := false })
        (g := fun i => { i with isDemoted := false }) (.inr (by simp))
        fun i n => rfl).withCounts cache2.hirsCount cache2.lirsCount (dec cache2.demoted)
          cache2.nonResident
      rw [setInfo_setInfo] at h3
      exact h3
    · simp only [cache3, if_neg hdemoted]
      rw [Bool.not_eq_true] at hdemoted
      rw [setInfo_congr (g := fun i =>
        { i with inCache := if k ∈ a.stack then false else i.inCache }) (by simp [hdemoted])]
      exact h2
  have hcount2 : cache2.counts = (a.queue.length, a.lirCount, a.demoted,
      if k ∈ a.stack then a.ghostCount + 1 else a.ghostCount) := by
    have hsame := hcounts1.trans h.counts
    simp only [DLIRS.counts, Lirs.counts, Prod.mk.injEq] at hsame
    by_cases hmem : k ∈ a.stack
    · simp [cache2, hmem, DLIRS.counts, DLIRS.modify, hsame]
    · simp [cache2, hmem, DLIRS.counts, hsame]
  refine ⟨{ cache3 with hirsCount := dec cache3.hirsCount }, ?_,
    ofModels h3 (dec cache3.hirsCount) _ _ _ ?_⟩
  · unfold dlirsEvictResidentHir
    simp only [hpop]
    rw [hn]
    simp only [Option.bind_eq_bind, Option.bind_some, entryOf, hget, decide_eq_true_eq,
      setOrder_info]
    rfl
  · simp only [DLIRS.counts, Prod.mk.injEq] at hcount2
    rw [hcounts]
    by_cases hdemoted : (a.info k).isDemoted = true
    · simp [cache3, hdemoted, DLIRS.modify, hcount2]
    · simp [cache3, hdemoted, hcount2]

theorem evictHir_nil (h : Sim cache ref a hand held) (hqueue : a.queue = []) :
    dlirsEvictResidentHir cache = some (none, cache) := by
  simp [dlirsEvictResidentHir, h.popFront_nil (t := .residentHirs) hqueue]

/-- What a loop that evicts has done, against `makeRoom`. -/
def Evicted (ref : Key → Ref) (hand : List Key) (held : Multiset Ref)
    (p : Option Ref × DLIRS V) (q : Option Key × Lirs Key V) : Prop :=
  p.1 = q.1.map ref ∧ Sim p.2 ref q.2 (q.1.toList ++ hand) (hold p.1 held)

/-- A loop that evicts while the cache is full.  It evicts one entry at most, or goes on for ever
when there is none. -/
theorem evictRun (h : Sim cache ref a hand held) (wf : a.WF)
    (hle : a.queue = [] ∨ a.residents ≤ a.cacheSize)
    {body : Option Ref × DLIRS V → Option (Loop.Step (Option Ref × DLIRS V))}
    (hbody : ∀ e, cache.cacheSize ≤ cache.residents →
      body (e, cache) = (dlirsEvictResidentHir cache).map .next)
    (hdone : ∀ e c, ¬c.cacheSize ≤ c.residents → body (e, c) = some (.done (e, c)))
    {fuel : Nat} (hfuel : a.queue.length < fuel) :
    Option.Rel (Evicted ref hand held) (Loop.run body fuel (none, cache)) a.makeRoom := by
  obtain ⟨m, rfl⟩ : ∃ m, fuel = m + 1 := ⟨fuel - 1, by omega⟩
  have hresidents := h.residents
  have hsize := h.cacheSize
  rw [makeRoom]
  by_cases hfull : a.cacheSize ≤ a.residents
  · rw [if_pos hfull]
    rw [← h.cacheSize, ← hresidents] at hfull
    cases hqueue : a.queue with
    | nil =>
      have hnone : Loop.run body (m + 1) (none, cache) = none := by
        refine Loop.run_eq_none (I := fun p => p.2 = cache) ?_ rfl
        rintro ⟨e, c⟩ rfl
        exact .inr ⟨(none, c), by rw [hbody e hfull, h.evictHir_nil hqueue]; rfl, rfl⟩
      rw [hnone, evict, hqueue]
      exact .none
    | cons k rest =>
      obtain ⟨b, he⟩ : ∃ b, a.evict = some (k, b) := ⟨_, by rw [evict, hqueue]⟩
      obtain ⟨cache1, hevict, h1⟩ := h.evictHir wf he
      have hroom := (makeRoom_spec wf (by rw [makeRoom, if_pos (by omega), he]; rfl)).2.2.2
      have hstop : ¬cache1.cacheSize ≤ cache1.residents := by
        have := hroom.2.2.2.2.2.2.2 (hle.resolve_left (by simp [hqueue]))
        rw [h1.cacheSize, h1.residents, hroom.1]
        omega
      have hlength := congrArg List.length hqueue
      rw [List.length_cons] at hlength
      obtain ⟨m, rfl⟩ : ∃ n, m = n + 1 := ⟨m - 1, by omega⟩
      rw [Loop.run_next (t := (some (ref k), cache1)) (by rw [hbody none hfull, hevict]; rfl),
        Loop.run_done (hdone _ _ hstop), he]
      exact .some ⟨rfl, h1⟩
  · rw [if_neg hfull, Loop.run_done (hdone _ _ (by rwa [h.cacheSize, hresidents]))]
    exact .some ⟨rfl, h⟩

theorem evictLoop (h : Sim cache ref a hand held) (wf : a.WF)
    (hle : a.queue = [] ∨ a.residents ≤ a.cacheSize) :
    Option.Rel (Evicted ref hand held) (dlirsEvictLoop cache none) a.makeRoom := by
  have hcount : cache.residentHirs.ht.count = a.queue.length := h.count_eq .residentHirs
  exact h.evictRun wf hle (fun e hfull => if_pos hfull) (fun e c hroom => if_neg hroom) (by omega)

/-- Where the limit of LIR entries is kept, the inner loop of a request does nothing. -/
theorem overLimitLoop (ok : Alloc) (hlimit : ¬cache.lirsLimit < toFloat cache.lirsCount) :
    dlirsOverLimitLoop ok cache = some cache :=
  Loop.run_done (by rw [if_neg hlimit])

theorem makeRoomLoop (h : Sim cache ref a hand held) (wf : a.WF)
    (hle : a.queue = [] ∨ a.residents ≤ a.cacheSize) (ok : Alloc)
    (hlimit : ¬cache.lirsLimit < toFloat cache.lirsCount) :
    Option.Rel (Evicted ref hand held) (dlirsMakeRoomLoop ok cache none) a.makeRoom := by
  have hcount : cache.residentHirs.ht.count = a.queue.length := h.count_eq .residentHirs
  refine h.evictRun wf hle (fun e hfull => ?_) (fun e c hroom => if_neg hroom) (by omega)
  dsimp only
  rw [if_pos hfull, overLimitLoop ok hlimit, Option.bind_some]

/-! ### The stack limit -/

/-- The loop needs only the two tables it works on.  It counts the ghosts where they were counted
before. -/
theorem popLoop {n : Nat} (h : Models cache ref a hand held) (layered : a.Layered) :
    Option.Rel (fun cache' b => Models cache' ref b hand held ∧
        cache'.counts =
          (cache.hirsCount, cache.lirsCount, cache.demoted, cache'.nonResident) ∧
        (cache.nonResident = a.ghostCount → cache'.nonResident = b.ghostCount))
      (dlirsLimitStackLoop n cache)
      (if n ≤ a.hirs.length then some (Lirs.forget^[n] a) else none) := by
  induction n generalizing cache a with
  | zero => exact .some ⟨h, rfl, id⟩
  | succ n ih =>
    cases hhirs : a.hirs with
    | nil =>
      rw [dlirsLimitStackLoop, h.popFront_nil (t := .nonResidentHirs) hhirs]
      exact .none
    | cons k rest =>
      have hmem := (layered.mem_hirs k).mp (by simp [hhirs])
      obtain ⟨cache1, hpop, hcounts1, h1⟩ := h.popFront_cons (t := .nonResidentHirs) hhirs
      obtain ⟨m, hm⟩ := h1.entries k (.inr (by simp))
      let cache2 : DLIRS V := if (a.info k).inCache then cache1
        else { cache1 with nonResident := dec cache1.nonResident }
      have h2 : Models cache2 ref (a.setOrder .nonResidentHirs rest) (k :: hand)
          (ref k ::ₘ held) := by
        by_cases hcached : (a.info k).inCache = true
        · simpa only [cache2, if_pos hcached] using h1
        · simpa only [cache2, if_neg hcached] using h1.withCounts _ _ _ _
      obtain ⟨cache3, hremove, hcounts3, h3⟩ := h2.remove_mem (t := .lirs) (k := k) hmem.1
      obtain ⟨hcounts4, h4⟩ := h3.destroy (G := k :: hand) fun j hj =>
        ⟨List.mem_cons_of_mem _ hj, h2.hand_held j hj⟩
      obtain ⟨hcounts5, h5⟩ := h4.destroy (G := hand) fun j hj =>
        ⟨List.mem_cons_of_mem _ hj, h.hand_held j hj⟩
      have hforget : a.forget = (a.setOrder .nonResidentHirs rest).setOrder .lirs
          ((a.setOrder .nonResidentHirs rest).order .lirs |>.erase k) := by
        rw [forget, hhirs]
        rfl
      let left := if (a.info k).inCache then cache.nonResident else dec cache.nonResident
      have hcounts2 : cache2.counts =
          (cache.hirsCount, cache.lirsCount, cache.demoted, left) := by
        simp only [DLIRS.counts, Prod.mk.injEq] at hcounts1
        by_cases hcached : (a.info k).inCache = true
        · simp [cache2, left, hcached, DLIRS.counts, hcounts1]
        · simp [cache2, left, hcached, DLIRS.counts, hcounts1]
      have hleft : cache.nonResident = a.ghostCount → left = a.forget.ghostCount := by
        intro hghosts
        have hdrop := congrArg (fun c => c.2.2.2) (counts_drop hmem.1 hmem.2)
        simp only [Lirs.counts] at hdrop
        rw [forget_eq hhirs, hdrop, ← hghosts]
      let cache5 := dlirsEntryDestroy (dlirsEntryDestroy cache3 (some (ref k))) (some (ref k))
      have hcounts : cache5.counts =
          (cache.hirsCount, cache.lirsCount, cache.demoted, left) := by
        rw [hcounts5, hcounts4, hcounts3, hcounts2]
      have hstep : dlirsLimitStackLoop (n + 1) cache = dlirsLimitStackLoop n cache5 := by
        rw [dlirsLimitStackLoop, hpop]
        simp only [Option.bind_eq_bind, Option.bind_some]
        rw [hm]
        simp only [Option.bind_some, entryOf, setOrder_info]
        rw [show (if (a.info k).inCache = true then cache1
          else { cache1 with nonResident := dec cache1.nonResident }) = cache2 from rfl, hremove]
        simp [cache5]
      simp only [DLIRS.counts, Prod.mk.injEq] at hcounts
      have hrest := ih (show Models cache5 ref a.forget hand held from hforget ▸ h5)
        (forget_eq hhirs ▸ layered.drop k)
      have hlength : a.forget.hirs.length = rest.length := by rw [forget, hhirs]
      rw [hstep, List.length_cons, Function.iterate_succ_apply]
      rw [hlength, hcounts.1, hcounts.2.1, hcounts.2.2.1, hcounts.2.2.2] at hrest
      simp only [Nat.add_le_add_iff_right]
      rw [← Option.bind_fun_some (dlirsLimitStackLoop n cache5), ← Option.bind_fun_some (ite ..)]
      exact Loop.rel_bind hrest fun cache' b _ _ hb =>
        .some ⟨hb.1, hb.2.1, fun hghosts => hb.2.2 (hleft hghosts)⟩

theorem limitStackLoop {n : Nat} (h : Sim cache ref a hand held) (wf : a.WF) :
    Option.Rel (fun cache' b => Sim cache' ref b hand held) (dlirsLimitStackLoop n cache)
      (if n ≤ a.hirs.length then some (Lirs.forget^[n] a) else none) := by
  have hloop := popLoop (n := n) h.toModels wf.layered
  split at hloop
  · rename_i hn
    obtain ⟨cache', hrun, hmodels, hcounts, hghosts⟩ := Loop.of_rel_some hloop
    obtain ⟨-, hlirs, hqueue, -⟩ := forget_iterate wf hn
    rw [if_pos hn, hrun]
    refine .some ⟨hmodels, hcounts.trans ?_⟩
    rw [Lirs.counts, hlirs, hqueue, forget_iterate_demoted, h.hirsCount, h.lirsCount, h.demoted,
      hghosts h.nonResident]
  · rename_i hn
    rw [if_neg hn]
    generalize dlirsLimitStackLoop n cache = x at hloop ⊢
    cases hloop
    exact .none

theorem limitStack (h : Sim cache ref a hand held) (wf : a.WF) :
    Option.Rel (fun cache' b => Sim cache' ref b hand held) (dlirsLimitStack cache) a.limitStack := by
  have hexcess : dlirsLimitStack cache = dlirsLimitStackLoop a.excess cache := by
    rw [dlirsLimitStack, excess, h.hirsCount, h.lirsCount, h.nonResident, h.cacheSize]
  rw [hexcess, Lirs.limitStack]
  exact h.limitStackLoop wf

/-! ### Hits -/

theorem hitLir (h : Sim cache ref a [] held) (wf : a.WF) (hk : k ∈ a.stack) :
    ∃ cache', dlirsHitLir {} cache k = some cache' ∧ Sim cache' ref (a.hitLir k) [] held := by
  obtain ⟨i, rest, hstack⟩ := List.exists_cons_of_ne_nil (List.ne_nil_of_mem hk)
  have hfront : dqhtGetFront cache.lirs = some (ref i) := by
    rw [show dqhtGetFront cache.lirs = a.stack.head?.map ref from h.getFront .lirs, hstack]
    rfl
  obtain ⟨cache1, hremove, hcounts1, h1⟩ := h.toModels.remove_mem (t := .lirs) hk
  obtain ⟨n, hn⟩ := h1.entries k (.inr (by simp))
  obtain ⟨cache2, hinsert, hcounts2, h2⟩ := h1.insert (t := .lirs) (G := []) (by simp)
    (fun hmem => (wf.stack_nodup.mem_erase_iff.mp hmem).1 rfl) fun j hj => by simp at hj
  have hperm := moved_perm hk
  obtain ⟨m, hm⟩ := h2.entries i (.inl ⟨.lirs, hperm.mem_iff.mpr (by simp [hstack])⟩)
  have hsim : Sim cache2 ref { a with stack := a.stack.erase k ++ [k] } [] held := by
    refine ⟨h2, hcounts2.trans (hcounts1.trans (h.counts.trans ?_))⟩
    rw [Lirs.counts, Lirs.counts]
    exact congrArg₂ (fun x y => (a.queue.length, x, a.demoted, y))
      (hperm.countP_eq _).symm (hperm.countP_eq _).symm
  have hrest : dlirsHitLir {} cache k =
      if TableKey.cmp i k = 0 then dlirsPrune cache2 else some cache2 := by
    rw [dlirsHitLir, hfront]
    simp only [hremove, Option.bind_eq_bind, Option.bind_some]
    rw [hn]
    simp only [Option.bind_some, entryOf]
    rw [hinsert]
    simp only [Option.bind_some]
    rw [hm]
    simp [entryOf]
  rw [hrest, Lirs.hitLir, hstack]
  by_cases hik : i = k
  · rw [if_pos ((LawfulTableKey.cmp_eq_zero i k).mpr hik), if_pos (by simp [hik]), ← hstack]
    exact hsim.prune (wf.moved hk)
  · rw [if_neg (fun hcmp => hik ((LawfulTableKey.cmp_eq_zero i k).mp hcmp)),
      if_neg (by simpa using hik), ← hstack]
    exact ⟨cache2, rfl, hsim⟩

/-! ### A hit on a HIR key of the stack -/

theorem counts_promote (wf : a.WF) (hk : k ∈ a.stack) (hlir : (a.info k).isLIR = false) :
    (a.promote k).counts =
      (if (a.info k).inCache then dec a.queue.length else a.queue.length, a.lirCount,
        a.demoted, if (a.info k).inCache then a.ghostCount else dec a.ghostCount) := by
  have hp := promote_promotes a k
  obtain ⟨hcount, -, hqueue⟩ := promote_spec wf hk hlir
  have hghosts : (a.promote k).ghostCount = (a.drop k).ghostCount := by
    rw [ghostCount, ghostCount, hp.stack]
    refine List.countP_congr fun j hj => ?_
    rw [hp.other j (wf.stack_nodup.mem_erase_iff.mp hj).1]
    rfl
  have hlength : (a.promote k).queue.length =
      if (a.info k).inCache then dec a.queue.length else a.queue.length := by
    split at hqueue
    · rename_i hcached
      rw [if_pos hcached, dec, if_neg (by omega)]
      omega
    · rename_i hcached
      rw [if_neg hcached]
      exact hqueue
  have hdrop := congrArg (fun c => c.2.2.2) (counts_drop hk hlir)
  rw [Lirs.counts, hcount, hp.demoted, hlength, hghosts]
  exact congrArg (fun x => (_, _, _, x)) hdrop

/-- `dlirs_hir_in_lirs` up to its loops, for an entry that has left `lirs`. -/
theorem promote (h : Sim cache ref a [] held) (wf : a.WF) (hk : k ∈ a.stack)
    (hlir : (a.info k).isLIR = false) :
    ∃ cache1 cache2, cache.remove .lirs k = (0, some (ref k), cache1) ∧
      dlirsPromote cache1 k (ref k) = some ((a.info k).inCache, cache2) ∧
      Sim cache2 ref (a.promote k) [k] (ref k ::ₘ held) := by
  obtain ⟨cache1, hremove1, hcounts1, h1⟩ := h.toModels.remove_mem (t := .lirs) hk
  obtain ⟨n, hn⟩ := h1.entries k (.inr (by simp))
  have h2 := h1.modify (k := k) (f := fun e => { e with isLIR := true })
    (g := fun i => { i with isLIR := true }) (.inr (by simp)) fun i n => rfl
  have hhirs : k ∈ a.hirs := (wf.mem_hirs k).mpr ⟨hk, hlir⟩
  obtain ⟨cache3, hremove3, hcounts3, h3⟩ := h2.remove_mem (t := .nonResidentHirs) (k := k) hhirs
  obtain ⟨hcounts4, h4⟩ := h3.destroy (G := [k]) fun j hj => ⟨by simp_all, by simp_all⟩
  have hcounts := hcounts4.trans (hcounts3.trans (hcounts1.trans h.counts))
  have hpromote := counts_promote wf hk hlir
  refine ⟨cache1, ?_⟩
  unfold dlirsPromote
  rw [hn]
  simp only [Option.bind_eq_bind, Option.bind_some, entryOf, setOrder_info]
  rw [hremove3]
  simp only [Option.bind_some]
  cases hcached : (a.info k).inCache with
  | true =>
    have hqueue := wf.resident k hk hlir hcached
    obtain ⟨cache5, hremove5, hcounts5, h5⟩ := h4.remove_mem (t := .residentHirs) (k := k) hqueue
    have h6 := h5.withCounts (dec cache5.hirsCount) cache5.lirsCount cache5.demoted
      cache5.nonResident
    obtain ⟨hcounts7, h7⟩ := h6.destroy (G := [k]) fun j hj => ⟨by simp_all, by simp_all⟩
    have hsame : (a.setOrder .lirs (a.stack.erase k)).setInfo k (fun i => { i with isLIR := true }) =
        (a.setOrder .lirs (a.stack.erase k)).setInfo k
          fun i => { i with isLIR := true, inCache := true } :=
      setInfo_congr (by simp [hcached])
    have hb : a.promote k = (((a.setOrder .lirs (a.stack.erase k)).setInfo k fun i =>
        { i with isLIR := true, inCache := true }).setOrder .nonResidentHirs
          (a.hirs.erase k)).setOrder .residentHirs (a.queue.erase k) := by
      rw [Lirs.promote, hcached]
      rfl
    refine ⟨dlirsEntryDestroy { cache5 with hirsCount := dec cache5.hirsCount } (some (ref k)),
      hremove1, ?_, ?_, ?_⟩
    · simp only [if_true]
      rw [hremove5]
      rfl
    · rw [hb, ← hsame]
      exact h7
    · have hafter := hcounts5.trans hcounts
      simp only [DLIRS.counts, Lirs.counts, Prod.mk.injEq] at hafter
      rw [hcounts7, hpromote, hcached]
      simp [DLIRS.counts, hafter]
  | false =>
    let cache4 := dlirsEntryDestroy cache3 (some (ref k))
    have hafter : cache4.counts = a.counts := hcounts
    simp only [DLIRS.counts, Lirs.counts, Prod.mk.injEq] at hafter
    obtain ⟨-, -, hdemoted, hghosts⟩ := hafter
    have hlimit : dlirsResize cache4 true =
        { cache4 with hirsLimit := a.grow.hirsLimit, lirsLimit := a.grow.lirsLimit } := by
      have hsize : cache4.cacheSize = a.cacheSize := h4.cacheSize
      have hhirs : cache4.hirsLimit = a.hirsLimit := h4.hirsLimit
      rw [dlirsResize, if_pos rfl, hsize, hhirs, hdemoted, hghosts]
      rfl
    have h5 := h4.withLimits a.grow.hirsLimit a.grow.lirsLimit
    have h6 := h5.modify (k := k) (f := fun e => { e with inCache := true })
      (g := fun i => { i with inCache := true }) (.inr (by simp)) fun i n => rfl
    have hqueue : k ∉ a.queue := fun hq => by simp [wf.queue_cached k hq hk] at hcached
    have hb : a.promote k = (({ ((a.setOrder .lirs (a.stack.erase k)).setInfo k fun i =>
        { i with isLIR := true }).setOrder .nonResidentHirs (a.hirs.erase k) with
          hirsLimit := a.grow.hirsLimit, lirsLimit := a.grow.lirsLimit } : Lirs Key V).setInfo k
            fun i => { i with inCache := true }) := by
      rw [Lirs.promote, hcached, if_neg (by simp)]
      simp [Lirs.setInfo, Lirs.detach, Lirs.setOrder, Lirs.grow, List.erase_of_not_mem hqueue]
    refine ⟨_, hremove1, ?_, ofModels (hb.symm ▸ h6) cache4.hirsCount cache4.lirsCount cache4.demoted
      (dec cache4.nonResident) ?_⟩
    · rw [if_neg (by simp), show dlirsEntryDestroy cache3 (some (ref k)) = cache4 from rfl, hlimit]
      rfl
    · have hafter : cache4.counts = a.counts := hcounts
      simp only [DLIRS.counts, Lirs.counts, Prod.mk.injEq] at hafter
      rw [hpromote, hcached]
      simp [hafter]

/-- What `dlirs_hir_in_lirs` has done, against `hitHir`. -/
structure HitHir (ref : Key → Ref) (code : Int) (held : Multiset Ref) (r : HirInLirs V)
    (q : Option Key × Lirs Key V) : Prop where
  code : r.code = code
  evicted : r.evicted = q.1.map ref
  sim : Sim r.cache ref q.2 q.1.toList (hold r.evicted held)

/-- The entry goes back to `lirs`, on top. -/
theorem push (h : Sim cache ref a hand (ref k ::ₘ held)) (hmem : k ∈ hand) (hk : k ∉ a.stack)
    (hlir : (a.info k).isLIR = true) (hcached : (a.info k).inCache = true)
    (hhand : ∀ j ∈ G, j ∈ hand ∧ ref j ∈ held) :
    ∃ cache', cache.insert .lirs {} k (some (ref k)) = some (0, cache') ∧
      Sim { cache' with lirsCount := cache'.lirsCount + 1 } ref
        { a with stack := a.stack ++ [k] } G held := by
  obtain ⟨cache1, hinsert, hcounts1, h1⟩ := h.insert (t := .lirs) hmem hk hhand
  refine ⟨cache1, hinsert, ofModels h1 _ (cache1.lirsCount + 1) _ _ ?_⟩
  have hcounts := hcounts1.trans h.counts
  simp only [DLIRS.counts, Lirs.counts, Prod.mk.injEq] at hcounts
  have hghosts : ({ a with stack := a.stack ++ [k] } : Lirs Key V).ghostCount = a.ghostCount := by
    rw [ghostCount, ghostCount, List.countP_append, List.countP_singleton, hcached]
    rfl
  show _ = ({ a with stack := a.stack ++ [k] } : Lirs Key V).counts
  rw [Lirs.counts, hghosts, (push_spec hlir).1, hcounts.1, hcounts.2.1, hcounts.2.2.1,
    hcounts.2.2.2]

theorem hirInLirs_eq (_ : Sim cache ref a [] held) {cache1 cache2 : DLIRS V} {inCache : Bool}
    (hremove : cache.remove .lirs k = (0, some r, cache1))
    (hpromote : dlirsPromote cache1 k r = some (inCache, cache2)) :
    dlirsHirInLirs {} cache k none = (dlirsDemoteLoop {} cache2).bind fun cache =>
      (dlirsEvictLoop cache none).bind fun p => (p.2.insert .lirs {} k (some r)).bind
        fun i => if i.1 ≠ 0 then none else some {
          code := if inCache then 0 else 1
          evicted := p.1
          cache := { i.2 with lirsCount := i.2.lirsCount + 1 } } := by
  rw [dlirsHirInLirs]
  simp only [hremove, Option.bind_eq_bind, Option.bind_some]
  rw [hpromote]
  rfl

/-- The end of `dlirs_hir_in_lirs`, where the promoted entry is in no table. -/
theorem hitHirRest (h : Sim cache ref a [k] (ref k ::ₘ held)) (wf : a.WF)
    (hroom : a.residents ≤ a.cacheSize) (hk : ¬a.Tracked k) (hlir : (a.info k).isLIR = true)
    (hcached : (a.info k).inCache = true) (code : Int) :
    Option.Rel (HitHir ref code held)
      ((dlirsEvictLoop cache none).bind fun p => (p.2.insert .lirs {} k (some (ref k))).bind
        fun i => if i.1 ≠ 0 then none else some {
          code
          evicted := p.1
          cache := { i.2 with lirsCount := i.2.lirsCount + 1 } })
      (a.makeRoom.bind fun p => some (p.1, { p.2 with stack := p.2.stack ++ [k] })) := by
  refine Loop.rel_bind (h.evictLoop wf (.inr hroom)) fun p q _ hq hpq => ?_
  obtain ⟨e, b⟩ := q
  obtain ⟨hevicted, h1⟩ := hpq
  obtain ⟨-, -, -, -, -, -, -, -, htracked, hinfo, -⟩ := makeRoom_spec wf hq
  rw [hold_cons] at h1
  obtain ⟨cache1, hinsert, h2⟩ := h1.push (G := e.toList) (by simp)
    (fun hmem => hk (htracked k (.inl hmem))) (by rw [hinfo k hk, hlir])
    (by rw [hinfo k hk, hcached])
    fun j hj => ⟨List.mem_append_left _ hj, by rw [hevicted]; exact mem_hold hj⟩
  rw [hinsert]
  exact .some ⟨rfl, hevicted, h2⟩

theorem hitHir (h : Sim cache ref a [] held) (wf : a.WF) (rooted : a.Rooted) (hk : k ∈ a.stack)
    (hlir : (a.info k).isLIR = false) (hroom : a.residents ≤ a.cacheSize) :
    Option.Rel (HitHir ref (if (a.info k).inCache then 0 else 1) held)
      (dlirsHirInLirs {} cache k none) (a.hitHir k) := by
  have hp := promote_promotes a k
  obtain ⟨hwf, huntracked⟩ := wf.promote k
  obtain ⟨hcount, hrooted, hqueue⟩ := promote_spec wf hk hlir
  obtain ⟨cache1, cache2, hremove, hpromote, h2⟩ := h.promote wf hk hlir
  rw [h.hirInLirs_eq hremove hpromote, Lirs.hitHir]
  refine Loop.rel_bind (h2.demoteLoop hwf (hrooted rooted)) fun cache3 a3 _ ha3 h3 => ?_
  obtain ⟨hwf3, -, -, hresidents3, -, hshrinks⟩ := demoteAll_spec hwf (hrooted rooted) ha3
  have hk3 : ¬a3.Tracked k := fun hk => huntracked (hshrinks.tracked k hk)
  have hle3 : a3.residents ≤ a3.cacheSize := by
    rw [hresidents3, hshrinks.cacheSize, hp.cacheSize, Lirs.residents, hcount]
    rw [Lirs.residents] at hroom
    split at hqueue <;> omega
  have hinfo : a3.info k = { a.info k with isLIR := true, inCache := true } := by
    rw [hshrinks.untracked k huntracked, hp.info]
  exact h3.hitHirRest hwf3 hle3 hk3 (by rw [hinfo]) (by rw [hinfo]) _

/-! ### Lookups -/

/-- What `dlirs_get` has done, against `get`. -/
structure Got (ref : Key → Ref) (entry : Option Ref) (held : Multiset Ref) (r : DlirsGot V)
    (q : Option Key × Lirs Key V) : Prop where
  entry : r.entry = entry
  evicted : r.evicted = q.1.map ref
  sim : Sim r.cache ref q.2 q.1.toList (hold r.evicted held)

/-- `dlirs_get` finds an entry of `lirs` whose value is in the cache. -/
theorem get (h : Sim cache ref a [] held) (stable : a.Stable) (hl : a.Lookup k) :
    Option.Rel (Got ref (if k ∈ a.stack ∧ (a.info k).inCache then some (ref k) else none) held)
      (dlirsGet {} cache k) (a.get k) := by
  unfold dlirsGet Lirs.get
  by_cases hk : k ∈ a.stack
  · have hget : dqhtGet cache.lirs k = some (ref k) := h.get_mem (t := .lirs) hk
    obtain ⟨n, hn⟩ := h.entries k (.inl ⟨.lirs, hk⟩)
    rw [hget, if_pos hk]
    simp only [hn, Option.bind_eq_bind, Option.bind_some, entryOf, hk, true_and]
    cases hlir : (a.info k).isLIR with
    | true =>
      obtain ⟨cache1, hhit, h1⟩ := h.hitLir stable.wf hk
      simp only [if_true, hhit, stable.wf.lir_cached k hk hlir]
      exact .some ⟨rfl, rfl, h1⟩
    | false =>
      have hhit := h.hitHir stable.wf (hl.rooted hk hlir) hk hlir (stable.room hl hk hlir)
      simp only [Bool.false_eq_true, if_false]
      rw [← Option.bind_fun_some (a.hitHir k)]
      refine Loop.rel_bind hhit fun r q _ _ hr => .some ⟨?_, hr.evicted, hr.sim⟩
      rw [hr.code]
      cases (a.info k).inCache <;> simp
  · have hget : dqhtGet cache.lirs k = none := h.get_absent (t := .lirs) hk
    have hresident : dqhtGet cache.residentHirs k = none :=
      h.get_absent (t := .residentHirs) fun hq => hk (hl.known (.inr hq))
    rw [hget, hresident, if_neg hk]
    simp only [hk, false_and, if_false]
    exact .some ⟨rfl, rfl, h⟩

/-! ### Requests -/

/-- What `dlirs_request` has done, against `request`: the requested key has a new object. -/
structure Requested (ref : Key → Ref) (k : Key) (held : Multiset Ref) (r : DlirsRequested V)
    (q : Option Key × Lirs Key V) : Prop where
  code : r.code = 0
  evicted : r.evicted = q.1.map ref
  sim : ∃ ref', (∀ j, j ≠ k → ref' j = ref j) ∧
    Sim r.cache ref' q.2 q.1.toList (hold r.evicted held)

theorem requestLir (h : Sim cache ref a [] held) (hk : ¬a.Tracked k) (hhirs : k ∉ a.hirs)
    (value : Option V) (hroom : a.lirCount < a.lirsLimit.toNat ∧ a.queue = []) :
    ∃ r, dlirsRequest {} cache k value none = some r ∧
      Requested ref k held r (none, a.addLir k value) := by
  have habsent : ∀ t, k ∉ a.order t := by
    rintro (_ | _ | _)
    · exact fun hmem => hk (.inl hmem)
    · exact hhirs
    · exact fun hmem => hk (.inr hmem)
  obtain ⟨cache1, hcreate, hcounts1, h1⟩ := h.create habsent (by simp) value
  generalize hnew : Function.update ref k cache.fresh = ref' at h1
  have href : ref' k = cache.fresh := by rw [← hnew, Function.update_self]
  have h2 := h1.modify (k := k) (f := fun e => { e with isLIR := true })
    (g := fun i => { i with isLIR := true }) (.inr (by simp)) fun i n => rfl
  rw [setInfo_setInfo, href] at h2
  let new : Info V := { isLIR := true, isDemoted := false, inCache := true, value }
  have hcounts : (a.setInfo k fun _ => new).counts = a.counts := by
    have hstack : ∀ j ∈ a.stack, j ≠ k := by
      rintro j hj rfl
      exact hk (.inl hj)
    rw [Lirs.counts, Lirs.counts, lirCount_setInfo fun hmem => hk (.inl hmem)]
    refine congrArg (fun x => (a.queue.length, a.lirCount, a.demoted, x)) ?_
    refine List.countP_congr fun j hj => ?_
    rw [setInfo_info_of_ne _ _ (hstack j hj)]
  have h3 : Sim (cache1.modify cache.fresh fun e => { e with isLIR := true }) ref'
      (a.setInfo k fun _ => new) [k] (ref' k ::ₘ held) :=
    ⟨href.symm ▸ h2, (hcounts1.trans h.counts).trans hcounts.symm⟩
  obtain ⟨cache4, hinsert, h4⟩ := h3.push (G := []) (by simp) (fun hmem => hk (.inl hmem))
    (by simp [setInfo_info, new]) (by simp [setInfo_info, new]) fun j hj => by simp at hj
  have hfirst : cache.lirsCount < cache.lirsLimit.toNat ∧ cache.hirsCount = 0 := by
    rw [h.lirsCount, h.lirsLimit, h.hirsCount, hroom.2]
    exact ⟨hroom.1, rfl⟩
  refine ⟨{ code := 0, evicted := none, cache := { cache4 with
    lirsCount := cache4.lirsCount + 1 } }, ?_, rfl, rfl, ref', fun j hj => ?_, h4⟩
  · rw [href] at hinsert
    rw [dlirsRequest, if_pos hfirst, hcreate]
    simp only [hinsert, Option.bind_eq_bind, Option.bind_some]
    rfl
  · rw [← hnew, Function.update_of_ne hj]

theorem counts_addHir (hk : ¬a.Tracked k) (value : Option V) : (a.addHir k value).counts =
    (a.queue.length + 1, a.lirCount, a.demoted, a.ghostCount) := by
  have hinfo : ∀ j, j ≠ k → (a.addHir k value).info j = a.info j := fun j hj =>
    Function.update_of_ne hj _ _
  have hself : (a.addHir k value).info k =
      { isLIR := false, isDemoted := false, inCache := true, value } := Function.update_self ..
  have hghosts : (a.addHir k value).ghostCount = a.ghostCount := by
    rw [ghostCount, show (a.addHir k value).stack = a.stack ++ [k] from rfl,
      List.countP_append, List.countP_singleton, hself]
    refine List.countP_congr fun j hj => ?_
    rw [hinfo j (by rintro rfl; exact hk (.inl hj))]
  rw [Lirs.counts, addHir_lirCount fun hmem => hk (.inl hmem), hghosts]
  simp [Lirs.addHir]

/-- The new entry is in the three tables before the stack is limited. -/
theorem addHir (h : Sim cache ref a hand held) (hk : ¬a.Tracked k) (hhirs : k ∉ a.hirs)
    (hhand : k ∉ hand) (value : Option V) (evicted : Option Ref) :
    ∃ cache' ref', (∀ j, j ≠ k → ref' j = ref j) ∧ Sim cache' ref' (a.addHir k value) hand held ∧
      dlirsRequestHir {} cache k value evicted = (dlirsLimitStack cache').bind fun cache =>
        some { code := 0, evicted, cache } := by
  have habsent : ∀ t, k ∉ a.order t := by
    rintro (_ | _ | _)
    · exact fun hmem => hk (.inl hmem)
    · exact hhirs
    · exact fun hmem => hk (.inr hmem)
  obtain ⟨cache1, hcreate, hcounts1, h1⟩ := h.create habsent hhand value
  generalize hnew : Function.update ref k cache.fresh = ref' at h1
  have href : ref' k = cache.fresh := by rw [← hnew, Function.update_self]
  have hheld : ∀ j ∈ hand, ref' j ∈ held := fun j hj => by
    have hne : j ≠ k := fun hjk => hhand (hjk ▸ hj)
    rw [← hnew, Function.update_of_ne hne]
    exact h.hand_held j hj
  rw [← href] at h1 hcreate
  obtain ⟨cache2, hcopy2, hcounts2, h2⟩ := h1.referenceCopy (k := k) (.inr (by simp))
  obtain ⟨cache3, hcopy3, hcounts3, h3⟩ := h2.referenceCopy (k := k) (.inr (by simp))
  obtain ⟨cache4, hinsert4, hcounts4, h4⟩ := h3.insert (t := .lirs) (by simp)
    (fun hmem => hk (.inl hmem)) fun j hj => ⟨hj, h2.hand_held j hj⟩
  obtain ⟨cache5, hinsert5, hcounts5, h5⟩ := h4.insert (t := .nonResidentHirs) (by simp) hhirs
    fun j hj => ⟨hj, h1.hand_held j hj⟩
  obtain ⟨cache6, hinsert6, hcounts6, h6⟩ := h5.insert (t := .residentHirs) (G := hand)
    (by simp) (fun hmem => hk (.inr hmem)) fun j hj => ⟨List.mem_cons_of_mem _ hj, hheld j hj⟩
  have hb : (((a.setInfo k fun _ => { isLIR := false, isDemoted := false, inCache := true, value }
      ).setOrder .lirs (a.stack ++ [k])).setOrder .nonResidentHirs (a.hirs ++ [k])).setOrder
        .residentHirs (a.queue ++ [k]) = a.addHir k value := rfl
  have hbefore := hcounts6.trans (hcounts5.trans (hcounts4.trans (hcounts3.trans
    (hcounts2.trans (hcounts1.trans h.counts)))))
  simp only [DLIRS.counts, Lirs.counts, Prod.mk.injEq] at hbefore
  refine ⟨{ cache6 with hirsCount := cache6.hirsCount + 1 }, ref', fun j hj => ?_,
    ofModels (hb ▸ h6) (cache6.hirsCount + 1) _ _ _ ?_, ?_⟩
  · rw [← hnew, Function.update_of_ne hj]
  · rw [counts_addHir hk, hbefore.1, hbefore.2.1, hbefore.2.2.1, hbefore.2.2.2]
  · unfold dlirsRequestHir
    rw [hcreate]
    dsimp only
    rw [hcopy2]
    dsimp only
    rw [hcopy3, if_neg (by simp)]
    dsimp only
    rw [hinsert4, Option.bind_eq_bind, Option.bind_some]
    dsimp only
    rw [if_neg (by simp), hinsert5, Option.bind_eq_bind, Option.bind_some]
    dsimp only
    rw [if_neg (by simp), hinsert6, Option.bind_some]
    dsimp only
    rw [if_neg (by simp)]
    generalize dlirsLimitStack _ = x
    rfl

theorem requestHir (h : Sim cache ref a hand held) (wf : a.WF) (hk : ¬a.Tracked k)
    (hhand : k ∉ hand) (value : Option V) (evicted : Option Ref) :
    Option.Rel (fun r b => r.code = 0 ∧ r.evicted = evicted ∧
        ∃ ref', (∀ j, j ≠ k → ref' j = ref j) ∧ Sim r.cache ref' b hand held)
      (dlirsRequestHir {} cache k value evicted) (a.addHir k value).limitStack := by
  have hhirs : k ∉ a.hirs := fun hmem => hk (.inl ((wf.mem_hirs k).mp hmem).1)
  obtain ⟨cache1, ref', href, h1, hrest⟩ := h.addHir hk hhirs hhand value evicted
  have hlimit := h1.limitStack (wf.addHir hk value)
  rw [hrest]
  generalize (a.addHir k value).limitStack = limited at hlimit ⊢
  rw [← Option.bind_fun_some limited]
  exact Loop.rel_bind hlimit fun cache2 b _ _ h2 => .some ⟨rfl, rfl, ref', href, h2⟩

/-- A request of a key that no table has. -/
theorem request (h : Sim cache ref a [] held) (stable : a.Stable) (hk : ¬a.Tracked k)
    (hlimit : ¬a.lirsLimit < toFloat a.lirCount) (value : Option V) :
    Option.Rel (Requested ref k held) (dlirsRequest {} cache k value none) (a.request k value) := by
  by_cases hroom : a.lirCount < a.lirsLimit.toNat ∧ a.queue = []
  · have hhirs : k ∉ a.hirs := fun hmem => hk (.inl ((stable.wf.mem_hirs k).mp hmem).1)
    obtain ⟨r, hrequest, hr⟩ := h.requestLir hk hhirs value hroom
    rw [hrequest, Lirs.request, if_pos hroom]
    exact .some hr
  · have hfirst : ¬(cache.lirsCount < cache.lirsLimit.toNat ∧ cache.hirsCount = 0) := by
      rw [h.lirsCount, h.lirsLimit, h.hirsCount, List.length_eq_zero_iff]
      exact hroom
    rw [dlirsRequest, if_neg hfirst, Lirs.request, if_neg hroom]
    refine Loop.rel_bind (h.makeRoomLoop stable.wf stable.residents_le {}
      (by rwa [h.lirsLimit, h.lirsCount])) fun p q _ hq hpq => ?_
    obtain ⟨e, cache1⟩ := p
    obtain ⟨i, a1⟩ := q
    obtain ⟨hevicted, h1⟩ := hpq
    obtain ⟨hwf, -, -, -, -, -, -, -, htracked, -⟩ := makeRoom_spec stable.wf hq
    rw [List.append_nil] at h1
    dsimp only
    rw [← Option.bind_fun_some (dlirsRequestHir _ _ _ _ _)]
    refine Loop.rel_bind (h1.requestHir hwf (fun hk' => hk (htracked k hk'))
      (fun hmem => hk (makeRoom_evicted hq hmem)) value e)
      fun r b _ _ hr => .some ⟨hr.1, hr.2.1.trans hevicted, ?_⟩
    rw [hr.2.1]
    exact hr.2.2

end Sim

end SearchCache
