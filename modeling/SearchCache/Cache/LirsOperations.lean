import SearchCache.Cache.LirsInvariant

/-! Lookups and requests on the stack and the queue. -/

namespace SearchCache.Lirs

variable {K V : Type} [DecidableEq K] {a b c : Lirs K V} {k j : K} {evicted : Option K}

/-- What holds between calls: the LIR keys keep to their limit, and where there are resident HIR
keys the cache keeps to its size. -/
structure Stable (a : Lirs K V) : Prop where
  wf : a.WF
  lirs_le : a.lirCount ≤ a.lirsLimit.toNat
  residents_le : a.queue = [] ∨ a.residents ≤ a.cacheSize

/-- With a limit of at least 1 the stack stands on a LIR key from the first request on. -/
structure Founded (a : Lirs K V) : Prop where
  limit_pos : 0 < a.lirsLimit.toNat
  rooted : a.Rooted
  queue_nil : a.stack = [] → a.queue = []

/-! ### A hit on a LIR key -/

theorem moved_perm (hk : k ∈ a.stack) : (a.stack.erase k ++ [k]).Perm a.stack :=
  (List.perm_append_singleton k _).trans (List.perm_cons_erase hk).symm

/-- The key on top of the stack. -/
theorem WF.moved (h : a.WF) (hk : k ∈ a.stack) :
    WF { a with stack := a.stack.erase k ++ [k] } := by
  have hmem : ∀ j, j ∈ a.stack.erase k ++ [k] ↔ j ∈ a.stack := fun j => (moved_perm hk).mem_iff
  constructor
  · exact (moved_perm hk).nodup_iff.mpr h.stack_nodup
  · exact h.hirs_nodup
  · exact h.queue_nodup
  · exact fun j => by rw [hmem, h.mem_hirs]
  · exact h.queue_hir
  · exact fun j hq hj => h.queue_cached j hq ((hmem j).mp hj)
  · exact fun j hj => h.resident j ((hmem j).mp hj)
  · exact fun j hj => h.lir_cached j ((hmem j).mp hj)

theorem hitLir_spec (h : a.WF) (hk : k ∈ a.stack) :
    (a.hitLir k).WF ∧ (a.Rooted → (a.hitLir k).Rooted) ∧ (a.hitLir k).lirCount = a.lirCount ∧
      (a.hitLir k).queue = a.queue ∧ (a.hitLir k).info = a.info ∧
      Shrinks a (a.hitLir k) := by
  have hwf := h.moved hk
  have hcount : ({ a with stack := a.stack.erase k ++ [k] } : Lirs K V).lirCount = a.lirCount :=
    (moved_perm hk).countP_eq _
  have hshrinks : Shrinks a { a with stack := a.stack.erase k ++ [k] } :=
    ⟨rfl, rfl, rfl, fun j hj => hj.imp_left (moved_perm hk).mem_iff.mp, (moved_perm hk).length_eq.le,
      fun _ => rfl,
      fun _ => rfl, fun _ _ => rfl⟩
  unfold hitLir
  split
  · exact ⟨hwf.prune, fun _ => prune_rooted _, (prune_lirCount _).trans hcount, rfl, rfl,
      hshrinks.trans (prune_shrinks _)⟩
  · rename_i hhead
    refine ⟨hwf, fun rooted j rest hj => ?_, hcount, rfl, rfl, hshrinks⟩
    cases hstack : a.stack with
    | nil => simp [hstack] at hk
    | cons i l =>
      have hne : i ≠ k := by
        rintro rfl
        simp [hstack] at hhead
      have hj' : a.stack.erase k ++ [k] = j :: rest := hj
      rw [hstack, List.erase_cons_tail (by simpa using hne), List.cons_append,
        List.cons_eq_cons] at hj'
      exact hj'.1 ▸ rooted i l hstack

/-! ### A hit on a HIR key of the stack -/

theorem WF.detach (h : a.WF) (k : K) : (a.detach k).WF := by
  constructor
  · exact h.stack_nodup.erase k
  · exact h.hirs_nodup.erase k
  · exact h.queue_nodup.erase k
  · intro j
    show j ∈ a.hirs.erase k ↔ j ∈ a.stack.erase k ∧ _
    rw [h.stack_nodup.mem_erase_iff, h.hirs_nodup.mem_erase_iff, h.mem_hirs, and_assoc]
    rfl
  · exact fun j hj => h.queue_hir j (List.mem_of_mem_erase hj)
  · exact fun j hq hj =>
      h.queue_cached j (List.mem_of_mem_erase hq) (List.mem_of_mem_erase hj)
  · intro j hj hlir hcached
    have hj' := h.stack_nodup.mem_erase_iff.mp hj
    exact h.queue_nodup.mem_erase_iff.mpr ⟨hj'.1, h.resident j hj'.2 hlir hcached⟩
  · exact fun j hj => h.lir_cached j (List.mem_of_mem_erase hj)

/-- What is known about an untracked key does not matter. -/
theorem WF.setInfo (h : a.WF) (hk : ¬a.Tracked k) (f : Info V → Info V) :
    (a.setInfo k f).WF := by
  have hstack : ∀ j ∈ a.stack, j ≠ k := by
    rintro j hj rfl
    exact hk (.inl hj)
  have hqueue : ∀ j ∈ a.queue, j ≠ k := by
    rintro j hj rfl
    exact hk (.inr hj)
  constructor
  · exact h.stack_nodup
  · exact h.hirs_nodup
  · exact h.queue_nodup
  · intro j
    rw [setInfo_hirs, setInfo_stack, h.mem_hirs]
    refine and_congr_right fun hj => ?_
    rw [setInfo_info_of_ne _ _ (hstack j hj)]
  · intro j hj
    rw [setInfo_info_of_ne _ _ (hqueue j hj)]
    exact h.queue_hir j hj
  · intro j hj
    rw [setInfo_info_of_ne _ _ (hqueue j hj)]
    exact h.queue_cached j hj
  · intro j hj
    rw [setInfo_info_of_ne _ _ (hstack j hj)]
    exact h.resident j hj
  · intro j hj
    rw [setInfo_info_of_ne _ _ (hstack j hj)]
    exact h.lir_cached j hj

theorem untracked_detach (h : a.WF) (k : K) : ¬(a.detach k).Tracked k := by
  rintro (hk | hk)
  · exact (h.stack_nodup.mem_erase_iff.mp hk).1 rfl
  · exact (h.queue_nodup.mem_erase_iff.mp hk).1 rfl

theorem lirCount_setInfo (hk : k ∉ a.stack) (f : Info V → Info V) :
    (a.setInfo k f).lirCount = a.lirCount := by
  refine lirCount_congr rfl fun j hj => ?_
  rw [setInfo_info_of_ne _ _ (by rintro rfl; exact hk hj)]

omit [DecidableEq K] in
/-- The limits may change; all else is the same. -/
theorem WF.withLimits (h : a.WF) (hirsLimit lirsLimit : Int) :
    WF { a with hirsLimit, lirsLimit } :=
  ⟨h.stack_nodup, h.hirs_nodup, h.queue_nodup, h.mem_hirs, h.queue_hir, h.queue_cached,
    h.resident, h.lir_cached⟩

/-- What `promote` does to the key `k`, which it takes out. -/
structure Promotes (a : Lirs K V) (k : K) (b : Lirs K V) : Prop where
  cacheSize : b.cacheSize = a.cacheSize
  limits : (a.info k).inCache = true → b.hirsLimit = a.hirsLimit ∧ b.lirsLimit = a.lirsLimit
  grown : (a.info k).inCache = false → b.hirsLimit = a.grow.hirsLimit ∧
    b.lirsLimit = a.grow.lirsLimit
  demoted : b.demoted = a.demoted
  stack : b.stack = a.stack.erase k
  hirs : b.hirs = a.hirs.erase k
  queue : b.queue = a.queue.erase k
  info : b.info k = { a.info k with isLIR := true, inCache := true }
  other : ∀ j, j ≠ k → b.info j = a.info j

theorem promote_promotes (a : Lirs K V) (k : K) : Promotes a k (a.promote k) := by
  unfold promote
  split
  · rename_i hcached
    exact ⟨rfl, fun _ => ⟨rfl, rfl⟩, fun h => by simp [hcached] at h, rfl, rfl, rfl, rfl,
      by simp [setInfo_info, detach], fun j hj => setInfo_info_of_ne _ _ hj⟩
  · rename_i hghost
    exact ⟨rfl, fun h => by simp [h] at hghost, fun _ => ⟨rfl, rfl⟩, rfl, rfl, rfl, rfl,
      by simp [setInfo_info, detach, grow], fun j hj => setInfo_info_of_ne _ _ hj⟩

theorem WF.promote (h : a.WF) (k : K) : (a.promote k).WF ∧ ¬(a.promote k).Tracked k := by
  unfold Lirs.promote
  split
  · exact ⟨(h.detach k).setInfo (untracked_detach h k) _, untracked_detach h k⟩
  · have hgrow : a.grow.WF := h.withLimits _ _
    exact ⟨(hgrow.detach k).setInfo (untracked_detach hgrow k) _, untracked_detach hgrow k⟩

theorem promote_spec (h : a.WF) (hk : k ∈ a.stack) (hlir : (a.info k).isLIR = false) :
    (a.promote k).lirCount = a.lirCount ∧ (a.Rooted → (a.promote k).Rooted) ∧
      (a.promote k).queue.length + (if (a.info k).inCache then 1 else 0) = a.queue.length := by
  have hp := promote_promotes a k
  obtain ⟨hcount, hrooted⟩ := erase_hir hk hlir
  have hstack : ∀ j ∈ a.stack.erase k, j ≠ k := fun j hj =>
    (h.stack_nodup.mem_erase_iff.mp hj).1
  refine ⟨?_, ?_, ?_⟩
  · rw [← hcount]
    refine lirCount_congr hp.stack fun j hj => ?_
    rw [hp.other j (hstack j hj)]
  · intro rooted j rest hj
    rw [hp.stack] at hj
    rw [hp.other j (hstack j (by simp [hj]))]
    exact hrooted rooted j rest hj
  · rw [hp.queue]
    split
    · rename_i hcached
      have hmem := h.resident k hk hlir hcached
      rw [List.length_erase_of_mem hmem]
      have := List.length_pos_of_mem hmem
      omega
    · rename_i hghost
      rw [List.erase_of_not_mem (fun hq => hghost (h.queue_cached k hq hk))]
      rfl

omit [DecidableEq K] in
/-- A LIR key on top of the stack. -/
theorem WF.push (h : a.WF) (hk : ¬a.Tracked k) (hlir : (a.info k).isLIR = true)
    (hcached : (a.info k).inCache = true) :
    WF { a with stack := a.stack ++ [k] } := by
  have hstack : k ∉ a.stack := fun hs => hk (.inl hs)
  have hqueue : k ∉ a.queue := fun hq => hk (.inr hq)
  constructor
  · refine List.nodup_append.mpr ⟨h.stack_nodup, by simp, ?_⟩
    rintro j hj i hi rfl
    exact hstack (List.mem_singleton.mp hi ▸ hj)
  · exact h.hirs_nodup
  · exact h.queue_nodup
  · intro j
    rw [h.mem_hirs]
    simp only [List.mem_append, List.mem_singleton]
    constructor
    · exact fun hj => ⟨.inl hj.1, hj.2⟩
    · rintro ⟨hj | rfl, hl⟩
      · exact ⟨hj, hl⟩
      · simp [hlir] at hl
  · exact h.queue_hir
  · intro j hq hj
    refine h.queue_cached j hq ((List.mem_append.mp hj).resolve_right fun hj => hqueue ?_)
    exact List.mem_singleton.mp hj ▸ hq
  · intro j hj hl
    rcases List.mem_append.mp hj with hj | hj
    · exact h.resident j hj hl
    · simp [List.mem_singleton.mp hj, hlir] at hl
  · intro j hj
    rcases List.mem_append.mp hj with hj | hj
    · exact h.lir_cached j hj
    · simp [List.mem_singleton.mp hj, hcached]

omit [DecidableEq K] in
theorem push_spec (hlir : (a.info k).isLIR = true) :
    ({ a with stack := a.stack ++ [k] } : Lirs K V).lirCount = a.lirCount + 1 ∧
      (a.Rooted → ({ a with stack := a.stack ++ [k] } : Lirs K V).Rooted) := by
  constructor
  · rw [lirCount, lirCount, List.countP_append, List.countP_singleton, hlir]
    rfl
  · intro rooted j rest hj
    have hj' : a.stack ++ [k] = j :: rest := hj
    rcases List.append_eq_cons_iff.mp hj' with ⟨-, hj''⟩ | ⟨l, hl, -⟩
    · exact (List.cons_eq_cons.mp hj'').1 ▸ hlir
    · exact rooted j l hl

/-- What a hit on a HIR key of the stack leaves. -/
structure HitsHir (a : Lirs K V) (k : K) (b : Lirs K V) : Prop where
  wf : b.WF
  rooted : b.Rooted
  lirs_le : b.lirCount ≤ b.lirsLimit.toNat
  limit_pos : 0 < b.lirsLimit.toNat
  residents_le : b.residents ≤ b.cacheSize
  cacheSize : b.cacheSize = a.cacheSize
  limits : (a.info k).inCache = true → b.hirsLimit = a.hirsLimit ∧ b.lirsLimit = a.lirsLimit
  grown : (a.info k).inCache = false → b.hirsLimit = a.grow.hirsLimit ∧
    b.lirsLimit = a.grow.lirsLimit
  stack_ne : b.stack ≠ []
  stack_length : b.stack.length ≤ a.stack.length
  tracked : ∀ j, b.Tracked j → a.Tracked j

/-- The key that has been promoted on top of the stack, after demotions and evictions. -/
theorem hitsHir_push {d : Lirs K V} (hk : k ∈ a.stack) (hp : Promotes a k b) (hs : Shrinks b c)
    (rooted : c.Rooted) (hlt : c.lirCount < c.lirsLimit.toNat) (ht : Thins c d)
    (hroom : d.residents < d.cacheSize) (huntracked : ¬d.Tracked k)
    (hinfo : d.info k = { a.info k with isLIR := true, inCache := true }) :
    HitsHir a k { d with stack := d.stack ++ [k] } := by
  obtain ⟨hcount, hrooted⟩ := push_spec (a := d) (k := k) (by rw [hinfo])
  have hlirs := ht.lirCount
  have htracked : ∀ j, d.Tracked j → a.Tracked j := fun j hj => by
    have := hs.tracked j (ht.tracked j hj)
    rw [Tracked, hp.stack, hp.queue] at this
    exact this.imp List.mem_of_mem_erase List.mem_of_mem_erase
  constructor
  · exact ht.wf.push huntracked (by rw [hinfo]) (by rw [hinfo])
  · exact hrooted (ht.rooted rooted)
  · rw [hcount]
    show d.lirCount + 1 ≤ d.lirsLimit.toNat
    rw [hlirs, ht.lirsLimit]
    omega
  · show 0 < d.lirsLimit.toNat
    rw [ht.lirsLimit]
    omega
  · show d.queue.length + _ ≤ d.cacheSize
    rw [hcount]
    rw [residents] at hroom
    omega
  · exact ht.cacheSize.trans (hs.cacheSize.trans hp.cacheSize)
  · intro hcached
    exact ⟨ht.hirsLimit.trans (hs.hirsLimit.trans (hp.limits hcached).1),
      ht.lirsLimit.trans (hs.lirsLimit.trans (hp.limits hcached).2)⟩
  · intro hghost
    exact ⟨ht.hirsLimit.trans (hs.hirsLimit.trans (hp.grown hghost).1),
      ht.lirsLimit.trans (hs.lirsLimit.trans (hp.grown hghost).2)⟩
  · exact List.append_ne_nil_of_right_ne_nil _ (by simp)
  · have hlength := hs.stack_length
    rw [hp.stack, List.length_erase_of_mem hk, ← ht.stack] at hlength
    have := List.length_pos_of_mem hk
    rw [List.length_append, List.length_singleton]
    omega
  · rintro j (hj | hj)
    · rcases List.mem_append.mp hj with hj | hj
      · exact htracked j (.inl hj)
      · exact .inl (List.mem_singleton.mp hj ▸ hk)
    · exact htracked j (.inr hj)

theorem hitHir_spec (h : a.WF) (rooted : a.Rooted) (hroom : a.residents ≤ a.cacheSize)
    (hk : k ∈ a.stack) (hlir : (a.info k).isLIR = false)
    (hb : a.hitHir k = some (evicted, b)) : HitsHir a k b := by
  have hp := promote_promotes a k
  obtain ⟨hwf, huntracked⟩ := h.promote k
  obtain ⟨hcount, hrooted, hqueue⟩ := promote_spec h hk hlir
  rw [hitHir, Option.bind_eq_bind, Option.bind_eq_some_iff] at hb
  obtain ⟨a1, hdemote, hb⟩ := hb
  rw [Option.bind_eq_bind, Option.bind_eq_some_iff] at hb
  obtain ⟨⟨e, a2⟩, hmake, hb⟩ := hb
  cases hb
  obtain ⟨hwf1, hrooted1, hlirs1, hresidents1, -, hshrinks⟩ :=
    demoteAll_spec hwf (hrooted rooted) hdemote
  have hk1 : ¬a1.Tracked k := fun hk => huntracked (hshrinks.tracked k hk)
  have hthins := makeRoom_thins hwf1 hmake
  have hinfo : a2.info k = { a.info k with isLIR := true, inCache := true } := by
    rw [hthins.untracked k hk1, hshrinks.untracked k huntracked, hp.info]
  have hle : a1.residents ≤ a1.cacheSize := by
    rw [hresidents1, hshrinks.cacheSize, hp.cacheSize, residents, hcount]
    rw [residents] at hroom
    split at hqueue <;> omega
  exact hitsHir_push hk hp hshrinks hrooted1 hlirs1 hthins (makeRoom_room hmake hle)
    (fun hk => hk1 (hthins.tracked k hk)) hinfo

/-! ### Lookups -/

/-- A lookup that the operations are made for: its key is in the stack or not tracked, a hit on a
HIR key finds a LIR key at the bottom, and a hit on a ghost finds the cache within its size. -/
structure Lookup (a : Lirs K V) (k : K) : Prop where
  known : a.Tracked k → k ∈ a.stack
  rooted : k ∈ a.stack → (a.info k).isLIR = false → a.Rooted
  room : k ∈ a.stack → (a.info k).inCache = false → a.residents ≤ a.cacheSize

omit [DecidableEq K] in
theorem Stable.room (h : a.Stable) (hl : a.Lookup k) (hk : k ∈ a.stack)
    (hlir : (a.info k).isLIR = false) : a.residents ≤ a.cacheSize := by
  cases hcached : (a.info k).inCache with
  | false => exact hl.room hk hcached
  | true =>
    have hqueue := h.wf.resident k hk hlir hcached
    exact h.residents_le.resolve_left (List.ne_nil_of_mem hqueue)

theorem Stable.get (h : a.Stable) (hl : a.Lookup k) (hb : a.get k = some (evicted, b)) :
    b.Stable ∧ b.cacheSize = a.cacheSize ∧ (a.residents ≤ a.cacheSize →
      b.residents ≤ b.cacheSize) ∧ (a.Founded → b.Founded) := by
  unfold Lirs.get at hb
  split at hb
  · rename_i hk
    split at hb
    · cases hb
      obtain ⟨hwf, hrooted, hcount, hqueue, -, hshrinks⟩ := hitLir_spec h.wf hk
      have hresidents : (a.hitLir k).residents = a.residents := by
        rw [residents, residents, hcount, hqueue]
      refine ⟨⟨hwf, ?_, ?_⟩, hshrinks.cacheSize, ?_, ?_⟩
      · rw [hcount, hshrinks.lirsLimit]
        exact h.lirs_le
      · rw [hqueue, hresidents, hshrinks.cacheSize]
        exact h.residents_le
      · rw [hresidents, hshrinks.cacheSize]
        exact id
      · intro hf
        refine ⟨by rw [hshrinks.lirsLimit]; exact hf.limit_pos, hrooted hf.rooted, fun hnil => ?_⟩
        have hzero : (a.hitLir k).lirCount = 0 := by
          rw [lirCount, hnil]
          rfl
        have hpos : 0 < a.lirCount := List.countP_pos_iff.mpr ⟨k, hk, by assumption⟩
        omega
    · rename_i hlir
      rw [Bool.not_eq_true] at hlir
      have hs := hitHir_spec h.wf (hl.rooted hk hlir) (h.room hl hk hlir) hk hlir hb
      exact ⟨⟨hs.wf, hs.lirs_le, .inr hs.residents_le⟩, hs.cacheSize, fun _ => hs.residents_le,
        fun _ => ⟨hs.limit_pos, hs.rooted, fun hnil => absurd hnil hs.stack_ne⟩⟩
  · cases hb
    exact ⟨h, rfl, id, id⟩

/-- A lookup keeps the limit, or grows the other one. -/
theorem get_lirsLimit (h : a.Stable) (hl : a.Lookup k) (hb : a.get k = some (evicted, b)) :
    b.lirsLimit = a.lirsLimit ∨ b.lirsLimit = a.grow.lirsLimit := by
  unfold Lirs.get at hb
  split at hb
  · rename_i hk
    split at hb
    · cases hb
      exact .inl (hitLir_spec h.wf hk).2.2.2.2.2.lirsLimit
    · rename_i hlir
      rw [Bool.not_eq_true] at hlir
      have hs := hitHir_spec h.wf (hl.rooted hk hlir) (h.room hl hk hlir) hk hlir hb
      cases hcached : (a.info k).inCache with
      | true => exact .inl (hs.limits hcached).2
      | false => exact .inr (hs.grown hcached).2
  · cases hb
    exact .inl rfl

/-! ### Requests -/

theorem WF.addLir (h : a.WF) (hk : ¬a.Tracked k) (value : Option V) : (a.addLir k value).WF :=
  (h.setInfo hk fun _ => { isLIR := true, isDemoted := false, inCache := true, value }).push hk
    (by simp [setInfo_info]) (by simp [setInfo_info])

theorem addLir_lirCount (hk : k ∉ a.stack) (value : Option V) :
    (a.addLir k value).lirCount = a.lirCount + 1 := by
  let new : Info V := { isLIR := true, isDemoted := false, inCache := true, value }
  rw [← lirCount_setInfo hk fun _ => new]
  exact (push_spec (a := a.setInfo k fun _ => new) (by simp [setInfo_info, new])).1

theorem WF.addHir (h : a.WF) (hk : ¬a.Tracked k) (value : Option V) : (a.addHir k value).WF := by
  have hstack : ∀ j ∈ a.stack, j ≠ k := by
    rintro j hj rfl
    exact hk (.inl hj)
  have hqueue : ∀ j ∈ a.queue, j ≠ k := by
    rintro j hj rfl
    exact hk (.inr hj)
  have hhirs : ∀ j ∈ a.hirs, j ≠ k := fun j hj => hstack j ((h.mem_hirs j).mp hj).1
  have hinfo : ∀ j, j ≠ k → (a.addHir k value).info j = a.info j := fun j hj =>
    Function.update_of_ne hj _ _
  have hself : (a.addHir k value).info k =
      { isLIR := false, isDemoted := false, inCache := true, value } := Function.update_self ..
  have hnew : ∀ l : List K, (∀ j ∈ l, j ≠ k) → l.Nodup → (l ++ [k]).Nodup := by
    intro l hl hnodup
    refine List.nodup_append.mpr ⟨hnodup, by simp, ?_⟩
    rintro j hj i hi rfl
    exact hl j hj (List.mem_singleton.mp hi)
  have hmem : ∀ (l : List K) (j : K), j ∈ l ++ [k] ↔ j ∈ l ∨ j = k := by simp
  constructor
  · exact hnew _ hstack h.stack_nodup
  · exact hnew _ hhirs h.hirs_nodup
  · exact hnew _ hqueue h.queue_nodup
  · intro j
    show j ∈ a.hirs ++ [k] ↔ j ∈ a.stack ++ [k] ∧ _
    rw [hmem, hmem]
    rcases eq_or_ne j k with rfl | hne
    · simp [hself]
    · rw [hinfo j hne, h.mem_hirs]
      simp [hne]
  · intro j hj
    rcases (hmem _ j).mp hj with hj | rfl
    · rw [hinfo j (hqueue j hj)]
      exact h.queue_hir j hj
    · rw [hself]
  · intro j hj hs
    rcases (hmem _ j).mp hj with hj | rfl
    · rw [hinfo j (hqueue j hj)]
      exact h.queue_cached j hj (((hmem _ j).mp hs).resolve_right (hqueue j hj))
    · rw [hself]
  · intro j hj hlir hcached
    refine (hmem _ j).mpr ?_
    rcases (hmem _ j).mp hj with hj | rfl
    · rw [hinfo j (hstack j hj)] at hlir hcached
      exact .inl (h.resident j hj hlir hcached)
    · exact .inr rfl
  · intro j hj hlir
    rcases (hmem _ j).mp hj with hj | rfl
    · rw [hinfo j (hstack j hj)] at hlir ⊢
      exact h.lir_cached j hj hlir
    · rw [hself]

theorem addHir_lirCount (hk : k ∉ a.stack) (value : Option V) :
    (a.addHir k value).lirCount = a.lirCount := by
  have hcongr := List.countP_congr (p := fun j => ((a.addHir k value).info j).isLIR)
    (q := fun j => (a.info j).isLIR) (l := a.stack) fun j hj => by
      rw [show (a.addHir k value).info j = a.info j from
        Function.update_of_ne (by rintro rfl; exact hk hj) _ _]
  rw [lirCount, show (a.addHir k value).stack = a.stack ++ [k] from rfl, List.countP_append,
    hcongr, lirCount]
  simp [Lirs.addHir]

theorem addHir_rooted (h : a.Rooted) (hk : k ∉ a.stack) (hne : a.stack ≠ []) (value : Option V) :
    (a.addHir k value).Rooted := by
  intro j rest hj
  have hj' : a.stack ++ [k] = j :: rest := hj
  rcases List.append_eq_cons_iff.mp hj' with ⟨hnil, -⟩ | ⟨l, hl, -⟩
  · exact absurd hnil hne
  · rw [show (a.addHir k value).info j = a.info j from
      Function.update_of_ne (by rintro rfl; exact hk (by simp [hl])) _ _]
    exact h j l hl

/-- A request of a key that no table has, or that is evicted first. -/
theorem Stable.request_evicted (h : a.Stable) (hs : k ∉ a.stack)
    (hmiss : ∀ e b, a.makeRoom = some (e, b) → ¬b.Tracked k) (value : Option V)
    (hb : a.request k value = some (evicted, b)) :
    b.Stable ∧ b.cacheSize = a.cacheSize ∧ b.lirsLimit = a.lirsLimit ∧
      b.hirsLimit = a.hirsLimit ∧
      (a.residents ≤ a.cacheSize → (a.queue = [] → a.lirCount < a.lirsLimit.toNat →
        a.lirCount < a.cacheSize) → b.residents ≤ b.cacheSize) ∧
      (a.Founded → b.Founded) := by
  unfold Lirs.request at hb
  split at hb
  · rename_i hroom
    cases hb
    have hk : ¬a.Tracked k := fun hk => by simp [Tracked, hs, hroom.2] at hk
    have hcount := addLir_lirCount hs value
    refine ⟨⟨h.wf.addLir hk value, by rw [hcount]; exact hroom.1, .inl hroom.2⟩, rfl, rfl, rfl, ?_,
      ?_⟩
    · intro _ hlimit
      rw [residents, hcount]
      show a.queue.length + _ ≤ a.cacheSize
      rw [hroom.2]
      have := hlimit hroom.2 hroom.1
      simp only [List.length_nil]
      omega
    · intro hf
      refine ⟨hf.limit_pos, ?_, fun hnil => by simp [Lirs.addLir] at hnil⟩
      refine (push_spec (a := a.setInfo k fun _ => _) (by simp [setInfo_info])).2 ?_
      intro j rest hj
      rw [setInfo_info_of_ne _ _ (by rintro rfl; exact hs (by simp_all))]
      exact hf.rooted j rest hj
  · rename_i hfull
    rw [Option.bind_eq_bind, Option.bind_eq_some_iff] at hb
    obtain ⟨⟨e, a1⟩, hmake, hb⟩ := hb
    rw [Option.bind_eq_bind, Option.bind_eq_some_iff] at hb
    obtain ⟨a2, hlimit, hb⟩ := hb
    cases hb
    obtain ⟨hwf1, hrooted1, hlirs1, hsize1, hhirs1, hlimit1, hstack1, -, -, -, hroom1⟩ :=
      makeRoom_spec h.wf hmake
    have hk1 := hmiss _ a1 hmake
    have hks : k ∉ a1.stack := fun hs => hk1 (.inl hs)
    rw [limitStack] at hlimit
    split at hlimit
    · rename_i hexcess
      generalize (a1.addHir k value).excess = n at hexcess hlimit
      rw [Option.some_inj] at hlimit
      subst hlimit
      obtain ⟨hwf2, hcount2, hqueue2, hinfo2, hrooted2, -, hshrinks⟩ :=
        forget_iterate (hwf1.addHir hk1 value) hexcess
      -- An empty queue leaves nothing to evict, so the cache had room.
      have hle : a.residents ≤ a.cacheSize := by
        rcases makeRoom_cases hmake with ⟨-, -, hlt⟩ | ⟨i, -, -, he⟩
        · exact hlt.le
        · refine h.residents_le.resolve_left ?_
          rw [(evict_evicts he).queue]
          simp
      have hres : (forget^[n] (a1.addHir k value)).residents ≤
          a1.cacheSize := by
        have := hroom1 hle
        rw [residents, hqueue2, hcount2, addHir_lirCount hks]
        show (a1.queue ++ [k]).length + _ ≤ _
        rw [residents] at this
        rw [List.length_append, List.length_singleton]
        omega
      refine ⟨⟨hwf2, ?_, ?_⟩, ?_, ?_, ?_, ?_, ?_⟩
      · rw [hcount2, addHir_lirCount hks, hlirs1, hshrinks.lirsLimit]
        show _ ≤ a1.lirsLimit.toNat
        rw [hlimit1]
        exact h.lirs_le
      · rw [hshrinks.cacheSize]
        exact .inr hres
      · exact hshrinks.cacheSize.trans hsize1
      · exact hshrinks.lirsLimit.trans hlimit1
      · exact hshrinks.hirsLimit.trans hhirs1
      · intro _ _
        rw [hshrinks.cacheSize]
        exact hres
      · intro hf
        have hne : a1.stack ≠ [] := by
          rw [hstack1]
          intro hnil
          refine hfull ⟨?_, hf.queue_nil hnil⟩
          rw [lirCount, hnil]
          exact hf.limit_pos
        have hroot := hrooted2 (addHir_rooted (hrooted1 hf.rooted) hks hne value)
        refine ⟨?_, hroot, fun hnil => ?_⟩
        · rw [hshrinks.lirsLimit]
          show 0 < a1.lirsLimit.toNat
          rw [hlimit1]
          exact hf.limit_pos
        · obtain ⟨i, l, hi⟩ := List.exists_cons_of_ne_nil hne
          have hpos : 0 < a1.lirCount :=
            List.countP_pos_iff.mpr ⟨i, by simp [hi], hrooted1 hf.rooted i l hi⟩
          have hzero : (forget^[n] (a1.addHir k value)).lirCount = 0 := by
            rw [lirCount, hnil]
            rfl
          rw [hcount2, addHir_lirCount hks] at hzero
          omega
    · simp at hlimit

theorem Stable.request (h : a.Stable) (hk : ¬a.Tracked k) (value : Option V)
    (hb : a.request k value = some (evicted, b)) :
    b.Stable ∧ b.cacheSize = a.cacheSize ∧ b.lirsLimit = a.lirsLimit ∧
      b.hirsLimit = a.hirsLimit ∧
      (a.residents ≤ a.cacheSize → (a.queue = [] → a.lirCount < a.lirsLimit.toNat →
        a.lirCount < a.cacheSize) → b.residents ≤ b.cacheSize) ∧
      (a.Founded → b.Founded) :=
  h.request_evicted (fun hs => hk (.inl hs)) (fun _ _ hmake hb => hk
    ((makeRoom_spec h.wf hmake).2.2.2.2.2.2.2.2.1 k hb)) value hb

end SearchCache.Lirs
