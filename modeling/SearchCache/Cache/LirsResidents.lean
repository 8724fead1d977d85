import SearchCache.Cache.LirsProgress

/-! The resident keys: an operation evicts one of them at most, and the size of the stack. -/

namespace SearchCache.Lirs

variable {K V : Type}

/-- The key is in the queue, or it is a LIR key. -/
def Resident (a : Lirs K V) (k : K) : Prop := k ∈ a.queue ∨ k ∈ a.stack ∧ (a.info k).isLIR = true

variable [DecidableEq K] {a b : Lirs K V} {k j : K} {rest : List K} {evicted : Option K}

/-! ### The steps -/

omit [DecidableEq K] in
theorem Resident.tracked (h : a.Resident k) : a.Tracked k := h.symm.imp_left And.left

theorem prune_resident (wf : a.WF) (j : K) : a.prune.Resident j ↔ a.Resident j := by
  refine or_congr Iff.rfl ?_
  rw [mem_prune_iff wf.stack_nodup, prune_info, and_assoc]
  refine and_congr_right fun _ => ⟨And.right, fun hlir => ⟨fun hmem => ?_, hlir⟩⟩
  simpa [hlir] using List.mem_takeWhile_imp hmem

theorem toQueue_resident (wf : a.WF) (hstack : a.stack = k :: rest)
    (hk : (a.info k).isLIR = true) (j : K) : (a.toQueue k rest).Resident j ↔ a.Resident j := by
  have hnodup := wf.stack_nodup
  rw [hstack, List.nodup_cons] at hnodup
  have hqueue : (a.toQueue k rest).queue = a.queue ++ [k] := rfl
  have hrest : (a.toQueue k rest).stack = rest := rfl
  rw [Resident, Resident, hqueue, hrest, hstack, List.mem_append, List.mem_singleton, List.mem_cons]
  rcases eq_or_ne j k with rfl | hne
  · simp [hk]
  · rw [toQueue, setInfo_info_of_ne _ _ hne]
    simp [hne]

theorem demote_iterate_resident (wf : a.WF) (rooted : a.Rooted) {n : Nat} (hn : n ≤ a.lirCount)
    (j : K) : (Lirs.demote^[n] a).Resident j ↔ a.Resident j := by
  induction n generalizing a with
  | zero => exact Iff.rfl
  | succ n ih =>
    obtain ⟨i, hi, -⟩ := exists_lir (a := a) (by omega)
    obtain ⟨k, rest, hstack⟩ := List.exists_cons_of_ne_nil (List.ne_nil_of_mem hi)
    have hlir := rooted k rest hstack
    have hcount := demote_lirCount wf hstack hlir
    rw [Function.iterate_succ_apply,
      ih (wf.demote hstack hlir) (demote_rooted rooted) (by omega), demote_eq hstack,
      prune_resident (wf.toQueue hstack hlir), toQueue_resident wf hstack hlir]

theorem demoteAll_resident (wf : a.WF) (rooted : a.Rooted) (hb : a.demoteAll = some b) (j : K) :
    b.Resident j ↔ a.Resident j := by
  rw [demoteAll] at hb
  split at hb
  · simp at hb
  · cases hb
    exact demote_iterate_resident wf rooted (by omega) j

theorem evict_resident (wf : a.WF) (he : a.evict = some (k, b)) (j : K) :
    b.Resident j ↔ a.Resident j ∧ j ≠ k := by
  have hev := evict_evicts he
  have hnodup := wf.queue_nodup
  have hlir := wf.queue_hir k (by simp [hev.queue])
  rw [hev.queue, List.nodup_cons] at hnodup
  rw [Resident, Resident, hev.stack, hev.isLIR, hev.queue, List.mem_cons]
  constructor
  · rintro (hj | hj)
    · exact ⟨.inl (.inr hj), by rintro rfl; exact hnodup.1 hj⟩
    · exact ⟨.inr hj, by rintro rfl; simp [hlir] at hj⟩
  · rintro ⟨(rfl | hj) | hj, hne⟩
    · exact absurd rfl hne
    · exact .inl hj
    · exact .inr hj

theorem makeRoom_resident (wf : a.WF) (hb : a.makeRoom = some (evicted, b)) (j : K) :
    b.Resident j ↔ a.Resident j ∧ evicted ≠ some j := by
  rcases makeRoom_cases hb with ⟨rfl, rfl, -⟩ | ⟨k, rfl, -, he⟩
  · simp
  · rw [evict_resident wf he, ne_eq, ne_eq, Option.some_inj, eq_comm]

/-- The evicted key was resident. -/
theorem makeRoom_lost (hb : a.makeRoom = some (evicted, b)) (hk : evicted = some k) :
    a.Resident k := by
  rcases makeRoom_cases hb with ⟨rfl, -⟩ | ⟨e, rfl, -, he⟩
  · simp at hk
  · obtain rfl := Option.some.inj hk
    exact .inl (by simp [(evict_evicts he).queue])

theorem forget_resident (wf : a.WF) (j : K) : a.forget.Resident j ↔ a.Resident j := by
  cases hhirs : a.hirs with
  | nil => rw [show a.forget = a by simp only [Lirs.forget, hhirs]]
  | cons k rest =>
    have hk := (wf.mem_hirs k).mp (by simp [hhirs])
    rw [forget_eq hhirs]
    refine or_congr Iff.rfl ?_
    show j ∈ a.stack.erase k ∧ _ ↔ _
    rw [wf.stack_nodup.mem_erase_iff]
    constructor
    · exact fun hj => ⟨hj.1.2, hj.2⟩
    · rintro ⟨hj, hlir⟩
      exact ⟨⟨by rintro rfl; simp [hk.2] at hlir, hj⟩, hlir⟩

theorem forget_iterate_resident (wf : a.WF) {n : Nat} (hn : n ≤ a.hirs.length) (j : K) :
    (Lirs.forget^[n] a).Resident j ↔ a.Resident j := by
  induction n generalizing a with
  | zero => exact Iff.rfl
  | succ n ih =>
    obtain ⟨k, rest, hhirs⟩ := List.exists_cons_of_length_pos (l := a.hirs) (by omega)
    have hlength : a.forget.hirs.length + 1 = a.hirs.length := by
      simp [forget_eq hhirs, drop, hhirs]
    rw [Function.iterate_succ_apply, ih (forget_spec wf hhirs).1 (by omega), forget_resident wf]

theorem hitLir_resident (wf : a.WF) (hk : k ∈ a.stack) (j : K) :
    (a.hitLir k).Resident j ↔ a.Resident j := by
  have hmoved : ({ a with stack := a.stack.erase k ++ [k] } : Lirs K V).Resident j ↔
      a.Resident j := by
    refine or_congr Iff.rfl ?_
    show j ∈ a.stack.erase k ++ [k] ∧ _ ↔ _
    rw [(moved_perm hk).mem_iff]
  unfold hitLir
  split
  · rw [prune_resident (wf.moved hk), hmoved]
  · exact hmoved

/-- The promoted key is taken out. -/
theorem promote_resident (wf : a.WF) (k j : K) :
    (a.promote k).Resident j ↔ a.Resident j ∧ j ≠ k := by
  have hp := promote_promotes a k
  rcases eq_or_ne j k with rfl | hne
  · simp only [ne_eq, not_true_eq_false, and_false, iff_false]
    exact fun hr => (wf.promote j).2 hr.tracked
  · rw [Resident, Resident, hp.stack, hp.queue, hp.other j hne, List.mem_erase_of_ne hne,
      List.mem_erase_of_ne hne]
    simp [hne]

omit [DecidableEq K] in
theorem push_resident (hlir : (a.info k).isLIR = true) (j : K) :
    ({ a with stack := a.stack ++ [k] } : Lirs K V).Resident j ↔ a.Resident j ∨ j = k := by
  show j ∈ a.queue ∨ j ∈ a.stack ++ [k] ∧ _ ↔ _
  rw [Resident, List.mem_append, List.mem_singleton, or_assoc]
  refine or_congr Iff.rfl ?_
  constructor
  · exact fun hj => hj.1.imp (⟨·, hj.2⟩) id
  · rintro (hj | rfl)
    · exact ⟨.inl hj.1, hj.2⟩
    · exact ⟨.inr rfl, hlir⟩

theorem addHir_resident (hk : ¬a.Tracked k) (value : Option V) (j : K) :
    (a.addHir k value).Resident j ↔ a.Resident j ∨ j = k := by
  show j ∈ a.queue ++ [k] ∨ j ∈ a.stack ++ [k] ∧ ((a.addHir k value).info j).isLIR = true ↔ _
  rcases eq_or_ne j k with rfl | hne
  · simp
  · rw [show (a.addHir k value).info j = a.info j from Function.update_of_ne hne _ _]
    simp [Resident, hne]

theorem addLir_resident (hk : ¬a.Tracked k) (value : Option V) (j : K) :
    (a.addLir k value).Resident j ↔ a.Resident j ∨ j = k := by
  show j ∈ a.queue ∨ j ∈ a.stack ++ [k] ∧ ((a.addLir k value).info j).isLIR = true ↔ _
  rcases eq_or_ne j k with rfl | hne
  · simp [addLir]
  · rw [show (a.addLir k value).info j = a.info j from Function.update_of_ne hne _ _]
    simp [Resident, hne]

/-! ### The operations -/

/-- A lookup of a key of the stack makes it resident, and takes the evicted key out. -/
theorem get_resident (h : a.Stable) (hl : a.Lookup k) (hb : a.get k = some (evicted, b)) (j : K) :
    b.Resident j ↔ (a.Resident j ∧ evicted ≠ some j) ∨ j = k ∧ k ∈ a.stack := by
  unfold Lirs.get at hb
  split at hb
  · rename_i hk
    split at hb
    · rename_i hlir
      cases hb
      rw [hitLir_resident h.wf hk]
      constructor
      · exact fun hj => .inl ⟨hj, by simp⟩
      · rintro (hj | ⟨rfl, -⟩)
        · exact hj.1
        · exact .inr ⟨hk, hlir⟩
    · rename_i hlir
      rw [Bool.not_eq_true] at hlir
      have hp := promote_promotes a k
      obtain ⟨hwf, huntracked⟩ := h.wf.promote k
      obtain ⟨-, hrooted, -⟩ := promote_spec h.wf hk hlir
      have rooted := hrooted (hl.rooted hk hlir)
      rw [hitHir, Option.bind_eq_bind, Option.bind_eq_some_iff] at hb
      obtain ⟨a1, hdemote, hb⟩ := hb
      rw [Option.bind_eq_bind, Option.bind_eq_some_iff] at hb
      obtain ⟨⟨e, a2⟩, hmake, hb⟩ := hb
      cases hb
      obtain ⟨hwf1, -, -, -, -, hshrinks⟩ := demoteAll_spec hwf rooted hdemote
      have hk1 : ¬a1.Tracked k := fun hk => huntracked (hshrinks.tracked k hk)
      have hinfo : (a2.info k).isLIR = true := by
        rw [(makeRoom_thins hwf1 hmake).untracked k hk1, hshrinks.untracked k huntracked, hp.info]
      have hother : evicted = some k → False := fun he => hk1 (makeRoom_lost hmake he).tracked
      rw [push_resident hinfo, makeRoom_resident hwf1 hmake, demoteAll_resident hwf rooted hdemote,
        promote_resident h.wf]
      rcases eq_or_ne j k with rfl | hne
      · simp [hk]
      · simp [hne]
  · rename_i hk
    cases hb
    simp [hk]

/-- A request makes its key resident, and takes the evicted key out. -/
theorem request_resident (h : a.Stable) (hk : ¬a.Tracked k) {value : Option V}
    (hb : a.request k value = some (evicted, b)) (j : K) :
    b.Resident j ↔ (a.Resident j ∧ evicted ≠ some j) ∨ j = k := by
  unfold Lirs.request at hb
  split at hb
  · cases hb
    simp [addLir_resident hk]
  · rw [Option.bind_eq_bind, Option.bind_eq_some_iff] at hb
    obtain ⟨⟨e, a1⟩, hmake, hb⟩ := hb
    rw [Option.bind_eq_bind, Option.bind_eq_some_iff] at hb
    obtain ⟨a2, hlimit, hb⟩ := hb
    cases hb
    have hthins := makeRoom_thins h.wf hmake
    have hk1 : ¬a1.Tracked k := fun hk1 => hk (hthins.tracked k hk1)
    rw [limitStack] at hlimit
    split at hlimit
    · rename_i hexcess
      rw [Option.some_inj] at hlimit
      subst hlimit
      rw [forget_iterate_resident (hthins.wf.addHir hk1 value) hexcess, addHir_resident hk1,
        makeRoom_resident h.wf hmake]
    · simp at hlimit

/-- The evicted key was resident, and is not the key of the lookup. -/
theorem get_lost (h : a.Stable) (hl : a.Lookup k) (hb : a.get k = some (some j, b)) :
    a.Resident j ∧ j ≠ k := by
  unfold Lirs.get at hb
  split at hb
  · rename_i hk
    split at hb
    · cases hb
    · rename_i hlir
      rw [Bool.not_eq_true] at hlir
      obtain ⟨hwf, huntracked⟩ := h.wf.promote k
      obtain ⟨-, hrooted, -⟩ := promote_spec h.wf hk hlir
      have rooted := hrooted (hl.rooted hk hlir)
      rw [hitHir, Option.bind_eq_bind, Option.bind_eq_some_iff] at hb
      obtain ⟨a1, hdemote, hb⟩ := hb
      rw [Option.bind_eq_bind, Option.bind_eq_some_iff] at hb
      obtain ⟨⟨e, a2⟩, hmake, hb⟩ := hb
      cases hb
      have hlost := makeRoom_lost hmake rfl
      rw [demoteAll_resident hwf rooted hdemote, promote_resident h.wf] at hlost
      exact hlost
  · cases hb

theorem request_makeRoom {value : Option V} (hb : a.request k value = some (some j, b)) :
    ∃ a', a.makeRoom = some (some j, a') := by
  unfold Lirs.request at hb
  split at hb
  · cases hb
  · rw [Option.bind_eq_bind, Option.bind_eq_some_iff] at hb
    obtain ⟨⟨e, a1⟩, hmake, hb⟩ := hb
    rw [Option.bind_eq_bind, Option.bind_eq_some_iff] at hb
    obtain ⟨a2, hlimit, hb⟩ := hb
    cases hb
    exact ⟨a1, hmake⟩

theorem request_lost {value : Option V} (hb : a.request k value = some (some j, b)) :
    a.Resident j := by
  obtain ⟨a', hmake⟩ := request_makeRoom hb
  exact makeRoom_lost hmake rfl

/-- A request evicts only when the cache is full. -/
theorem request_full {value : Option V} (hb : a.request k value = some (some j, b)) :
    a.cacheSize ≤ a.residents := by
  obtain ⟨a', hmake⟩ := request_makeRoom hb
  rcases makeRoom_cases hmake with ⟨hnone, -⟩ | ⟨i, -, hfull, -⟩
  · cases hnone
  · exact hfull

/-! ### The size of the stack -/

omit [DecidableEq K] in
/-- Each key of the stack is a LIR key or one of the HIR keys. -/
theorem stack_length (h : a.WF) : a.stack.length = a.lirCount + a.hirs.length := by
  have hsplit := List.length_eq_countP_add_countP (fun j => (a.info j).isLIR) (l := a.stack)
  have hperm : (a.stack.filter fun j => ¬(a.info j).isLIR = true).Perm a.hirs := by
    rw [List.perm_ext_iff_of_nodup (h.stack_nodup.filter _) h.hirs_nodup]
    intro j
    rw [List.mem_filter, h.mem_hirs]
    simp
  rw [hsplit, lirCount, List.countP_eq_length_filter (p := fun j => ¬(a.info j).isLIR = true),
    hperm.length_eq]

theorem get_stack_length (h : a.Stable) (hl : a.Lookup k) (hb : a.get k = some (evicted, b)) :
    b.stack.length ≤ a.stack.length := by
  unfold Lirs.get at hb
  split at hb
  · rename_i hk
    split at hb
    · cases hb
      exact (hitLir_spec h.wf hk).2.2.2.2.2.stack_length
    · rename_i hlir
      rw [Bool.not_eq_true] at hlir
      exact (hitHir_spec h.wf (hl.rooted hk hlir) (h.room hl hk hlir) hk hlir hb).stack_length
  · cases hb
    exact Nat.le_refl _

/-- The stack limit takes out as many HIR keys as the stack has too many keys. -/
theorem limitStack_length (h : a.WF) (hsize : a.cacheSize < 2 ^ 24)
    (hres : a.residents ≤ a.cacheSize) (hlength : a.stack.length ≤ 2 * a.cacheSize + 1)
    (hb : a.limitStack = some b) : b.stack.length ≤ 2 * a.cacheSize := by
  have hstack := stack_length h
  have hhirs := hirs_length_le h
  have hexcess := excess_eq h hsize hres (by omega)
  rw [limitStack, if_pos (excess_le h hsize hres), Option.some_inj] at hb
  subst hb
  obtain ⟨hwf, hcount, -, -, -, hlist, -⟩ := forget_iterate h (excess_le h hsize hres)
  rw [stack_length hwf, hcount]
  rw [residents] at hexcess
  omega

/-- Where a request leaves the stack within twice the size of the cache. -/
theorem request_stack_length (h : a.Stable) (he : a.Exact) (hk : ¬a.Tracked k) (value : Option V)
    (hlength : a.stack.length ≤ 2 * a.cacheSize)
    (hroom : a.lirCount < a.lirsLimit.toNat ∧ a.queue = [] → a.stack.length < 2 * a.cacheSize)
    (hb : a.request k value = some (evicted, b)) : b.stack.length ≤ 2 * b.cacheSize := by
  rw [(h.request hk value hb).2.1]
  unfold Lirs.request at hb
  split at hb
  · rename_i hfirst
    cases hb
    have := hroom hfirst
    have hnew : (a.addLir k value).stack.length = a.stack.length + 1 := by simp [addLir]
    omega
  · rw [Option.bind_eq_bind, Option.bind_eq_some_iff] at hb
    obtain ⟨⟨e, a1⟩, hmake, hb⟩ := hb
    rw [Option.bind_eq_bind, Option.bind_eq_some_iff] at hb
    obtain ⟨a2, hlimit, hb⟩ := hb
    cases hb
    obtain ⟨hwf, hsize, hres⟩ := makeRoom_addHir h he hk value hmake
    have hthins := makeRoom_thins h.wf hmake
    have hcache : (a1.addHir k value).cacheSize = a.cacheSize := hthins.cacheSize
    have hnew : (a1.addHir k value).stack.length = a.stack.length + 1 := by
      simp [addHir, hthins.stack]
    have hle := limitStack_length hwf hsize hres (by omega) hlimit
    omega

end SearchCache.Lirs
