import SearchCache.Cache.LirsOperations

/-! The keys of the queue are in the cache, and the count of the demoted ones.  The count depends on
all demoted keys being in the queue and none of them in the stack, which no other part of the
invariant needs. -/

namespace SearchCache.Lirs

variable {K V : Type} [DecidableEq K] {a b : Lirs K V} {k j : K} {rest : List K}
  {evicted : Option K}

omit [DecidableEq K] in
/-- The same queue, and no new keys in the stack. -/
theorem Queued.of_queue (h : a.Queued) (hdemoted : b.demoted = a.demoted)
    (hqueue : b.queue = a.queue)
    (hinfo : ∀ j ∈ a.queue, (b.info j).isDemoted = (a.info j).isDemoted ∧
      (b.info j).inCache = (a.info j).inCache)
    (hstack : ∀ j ∈ b.stack, j ∈ a.stack ∧ (b.info j).isDemoted = (a.info j).isDemoted) :
    b.Queued where
  cached j hj := by
    rw [hqueue] at hj
    rw [(hinfo j hj).2]
    exact h.cached j hj
  count := by
    rw [hdemoted, h.count, demotedCount, demotedCount, hqueue]
    exact List.countP_congr fun j hj => by rw [(hinfo j hj).1]
  out j hj := by
    obtain ⟨hmem, hsame⟩ := hstack j hj
    rw [hsame]
    exact h.out j hmem

theorem Queued.prune (h : a.Queued) : a.prune.Queued :=
  h.of_queue rfl rfl (fun _ _ => ⟨rfl, rfl⟩) fun _ hj => ⟨(prune_sublist a).mem hj, rfl⟩

theorem Queued.toQueue (h : a.Queued) (wf : a.WF) (hstack : a.stack = k :: rest)
    (hk : (a.info k).isLIR = true) : (a.toQueue k rest).Queued := by
  have hnodup := wf.stack_nodup
  rw [hstack, List.nodup_cons] at hnodup
  have hother : ∀ j, j ≠ k → (a.toQueue k rest).info j = a.info j := fun j hj =>
    setInfo_info_of_ne _ _ hj
  have hself : ((a.toQueue k rest).info k).isDemoted = true := by
    simp [Lirs.toQueue, setInfo_info]
  have hqueue : ∀ j ∈ a.queue, j ≠ k := by
    rintro j hj rfl
    simp [wf.queue_hir j hj] at hk
  constructor
  · intro j hj
    rcases List.mem_append.mp hj with hj | hj
    · rw [hother j (hqueue j hj)]
      exact h.cached j hj
    · rw [List.mem_singleton.mp hj]
      simpa [Lirs.toQueue, setInfo_info] using wf.lir_cached k (by simp [hstack]) hk
  · rw [demotedCount, show (a.toQueue k rest).queue = a.queue ++ [k] from rfl, List.countP_append,
      List.countP_singleton, hself, show (a.toQueue k rest).demoted = a.demoted + 1 from rfl,
      h.count]
    refine congrArg (· + 1) (List.countP_congr fun j hj => ?_)
    rw [hother j (hqueue j hj)]
  · intro j hj
    rw [hother j (by rintro rfl; exact hnodup.1 hj)]
    exact h.out j (by rw [hstack]; exact List.mem_cons_of_mem _ hj)

theorem Queued.demote_iterate (h : a.Queued) (wf : a.WF) (rooted : a.Rooted) {n : Nat}
    (hn : n ≤ a.lirCount) : (Lirs.demote^[n] a).Queued := by
  induction n generalizing a with
  | zero => exact h
  | succ n ih =>
    obtain ⟨j, hj, -⟩ := exists_lir (a := a) (by omega)
    obtain ⟨k, rest, hstack⟩ := List.exists_cons_of_ne_nil (List.ne_nil_of_mem hj)
    have hlir := rooted k rest hstack
    have hcount := demote_lirCount wf hstack hlir
    have hnext : a.demote.Queued := by
      rw [demote_eq hstack]
      exact (h.toQueue wf hstack hlir).prune
    rw [Function.iterate_succ_apply]
    exact ih hnext (wf.demote hstack hlir) (demote_rooted rooted) (by omega)

theorem Queued.demoteAll (h : a.Queued) (wf : a.WF) (rooted : a.Rooted)
    (hb : a.demoteAll = some b) : b.Queued := by
  rw [Lirs.demoteAll] at hb
  split at hb
  · simp at hb
  · cases hb
    exact h.demote_iterate wf rooted (by omega)

theorem Queued.evict (h : a.Queued) (wf : a.WF) (he : a.evict = some (k, b)) :
    b.Queued := by
  have hev := evict_evicts he
  have hnodup := wf.queue_nodup
  rw [hev.queue, List.nodup_cons] at hnodup
  have hrest : b.queue.countP (fun j => (b.info j).isDemoted) =
      b.queue.countP fun j => (a.info j).isDemoted := by
    refine List.countP_congr fun j hj => ?_
    rw [hev.other j (by rintro rfl; exact hnodup.1 hj)]
  have hcount := h.count
  rw [demotedCount, hev.queue, List.countP_cons] at hcount
  constructor
  · intro j hj
    rw [hev.other j (by rintro rfl; exact hnodup.1 hj)]
    exact h.cached j (by rw [hev.queue]; exact List.mem_cons_of_mem _ hj)
  · rw [hev.demoted, demotedCount, hrest]
    cases hdemoted : (a.info k).isDemoted
    · simpa [hdemoted] using hcount
    · rw [hdemoted, if_pos rfl] at hcount
      rw [if_pos rfl, dec, if_neg (by omega)]
      omega
  · intro j hj
    rw [hev.stack] at hj
    rcases eq_or_ne j k with rfl | hne
    · exact hev.isDemoted
    · rw [hev.other j hne]
      exact h.out j hj

theorem Queued.makeRoom (h : a.Queued) (wf : a.WF) (hb : a.makeRoom = some (evicted, b)) :
    b.Queued := by
  rcases makeRoom_cases hb with ⟨-, rfl, -⟩ | ⟨k, -, -, he⟩
  · exact h
  · exact h.evict wf he

theorem Queued.forget_iterate (h : a.Queued) (n : Nat) : (Lirs.forget^[n] a).Queued := by
  induction n generalizing a with
  | zero => exact h
  | succ n ih =>
    rw [Function.iterate_succ_apply]
    refine ih ?_
    cases hhirs : a.hirs with
    | nil => rwa [show a.forget = a by simp only [Lirs.forget, hhirs]]
    | cons k rest =>
      rw [forget_eq hhirs]
      exact h.of_queue rfl rfl (fun _ _ => ⟨rfl, rfl⟩) fun _ hj => ⟨List.mem_of_mem_erase hj, rfl⟩

theorem Queued.hitLir (h : a.Queued) (hk : k ∈ a.stack) : (a.hitLir k).Queued := by
  have hmoved : Queued { a with stack := a.stack.erase k ++ [k] } :=
    h.of_queue rfl rfl (fun _ _ => ⟨rfl, rfl⟩) fun j hj => ⟨(moved_perm hk).mem_iff.mp hj, rfl⟩
  unfold Lirs.hitLir
  split
  · exact hmoved.prune
  · exact hmoved

theorem Queued.promote (h : a.Queued) (wf : a.WF) (hk : k ∈ a.stack) :
    (a.promote k).Queued := by
  have hp := promote_promotes a k
  constructor
  · intro j hj
    rw [hp.queue] at hj
    obtain ⟨hne, hmem⟩ := wf.queue_nodup.mem_erase_iff.mp hj
    rw [hp.other j hne]
    exact h.cached j hmem
  · have hsame : (a.queue.erase k).countP (fun j => ((a.promote k).info j).isDemoted) =
        (a.queue.erase k).countP fun j => (a.info j).isDemoted := by
      refine List.countP_congr fun j hj => ?_
      rw [hp.other j (wf.queue_nodup.mem_erase_iff.mp hj).1]
    rw [demotedCount, hp.queue, hsame, hp.demoted, h.count, demotedCount]
    by_cases hmem : k ∈ a.queue
    · rw [(List.perm_cons_erase hmem).countP_eq, List.countP_cons, h.out k hk]
      rfl
    · rw [List.erase_of_not_mem hmem]
  · intro j hj
    rw [hp.stack] at hj
    obtain ⟨hne, hmem⟩ := wf.stack_nodup.mem_erase_iff.mp hj
    rw [hp.other j hne]
    exact h.out j hmem

omit [DecidableEq K] in
/-- A key on top of the stack. -/
theorem Queued.push (h : a.Queued) (hk : (a.info k).isDemoted = false) :
    Queued { a with stack := a.stack ++ [k] } where
  cached := h.cached
  count := h.count
  out j hj := by
    rcases List.mem_append.mp hj with hj | hj
    · exact h.out j hj
    · simpa [List.mem_singleton.mp hj] using hk

theorem Queued.setInfo (h : a.Queued) (hk : ¬a.Tracked k) (f : Info V → Info V) :
    (a.setInfo k f).Queued := by
  refine h.of_queue rfl rfl (fun j hj => ?_) fun j hj => ⟨hj, ?_⟩
  · rw [setInfo_info_of_ne _ _ (by rintro rfl; exact hk (.inr hj))]
    exact ⟨rfl, rfl⟩
  · rw [setInfo_info_of_ne _ _ (by rintro rfl; exact hk (.inl hj))]

theorem Queued.hitHir (h : a.Queued) (wf : a.WF) (rooted : a.Rooted) (hk : k ∈ a.stack)
    (hlir : (a.info k).isLIR = false) (hb : a.hitHir k = some (evicted, b)) : b.Queued := by
  have hp := promote_promotes a k
  obtain ⟨hwf, huntracked⟩ := wf.promote k
  obtain ⟨-, hrooted, -⟩ := promote_spec wf hk hlir
  rw [Lirs.hitHir, Option.bind_eq_bind, Option.bind_eq_some_iff] at hb
  obtain ⟨a1, hdemote, hb⟩ := hb
  rw [Option.bind_eq_bind, Option.bind_eq_some_iff] at hb
  obtain ⟨⟨e, a2⟩, hmake, hb⟩ := hb
  cases hb
  obtain ⟨hwf1, -, -, -, -, hshrinks⟩ := demoteAll_spec hwf (hrooted rooted) hdemote
  have hk1 : ¬a1.Tracked k := fun hk => huntracked (hshrinks.tracked k hk)
  have huntracked2 := (makeRoom_spec hwf1 hmake).2.2.2.2.2.2.2.2.2.1
  refine (((h.promote wf hk).demoteAll hwf (hrooted rooted) hdemote).makeRoom hwf1 hmake).push ?_
  rw [huntracked2 k hk1, hshrinks.untracked k huntracked, hp.info]
  exact h.out k hk

theorem Queued.get (h : a.Queued) (stable : a.Stable) (hl : a.Lookup k)
    (hb : a.get k = some (evicted, b)) : b.Queued := by
  unfold Lirs.get at hb
  split at hb
  · rename_i hk
    split at hb
    · cases hb
      exact h.hitLir hk
    · rename_i hlir
      rw [Bool.not_eq_true] at hlir
      exact h.hitHir stable.wf (hl.rooted hk hlir) hk hlir hb
  · cases hb
    exact h

theorem Queued.addHir (h : a.Queued) (hk : ¬a.Tracked k) (value : Option V) :
    (a.addHir k value).Queued := by
  let new : Info V := { isLIR := false, isDemoted := false, inCache := true, value }
  have hnew : ((a.setInfo k fun _ => new).info k).isDemoted = false := by
    simp [setInfo_info, new]
  have hpush := (h.setInfo hk fun _ => new).push hnew
  refine ⟨fun j hj => ?_, ?_, hpush.out⟩
  · rcases List.mem_append.mp hj with hj | hj
    · exact hpush.cached j hj
    · simp [List.mem_singleton.mp hj, Lirs.addHir]
  have hcount := hpush.count
  rw [demotedCount] at hcount ⊢
  rw [show (a.addHir k value).queue = a.queue ++ [k] from rfl, List.countP_append,
    List.countP_singleton]
  exact hcount.trans (by simp [Lirs.addHir, Lirs.setInfo, new])

theorem Queued.request (h : a.Queued) (stable : a.Stable) (hk : ¬a.Tracked k)
    (value : Option V) (hb : a.request k value = some (evicted, b)) : b.Queued := by
  unfold Lirs.request at hb
  split at hb
  · cases hb
    exact (h.setInfo hk fun _ => _).push (by simp [setInfo_info])
  · rw [Option.bind_eq_bind, Option.bind_eq_some_iff] at hb
    obtain ⟨⟨e, a1⟩, hmake, hb⟩ := hb
    rw [Option.bind_eq_bind, Option.bind_eq_some_iff] at hb
    obtain ⟨a2, hlimit, hb⟩ := hb
    cases hb
    obtain ⟨-, -, -, -, -, -, -, -, htracked1, -⟩ := makeRoom_spec stable.wf hmake
    rw [limitStack] at hlimit
    split at hlimit
    · rw [Option.some_inj] at hlimit
      subst hlimit
      exact ((h.makeRoom stable.wf hmake).addHir (fun hk1 => hk (htracked1 k hk1))
        value).forget_iterate _
    · simp at hlimit

end SearchCache.Lirs
