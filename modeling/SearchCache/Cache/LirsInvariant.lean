import SearchCache.Cache.Lirs
import Mathlib.Data.List.TakeWhile

/-! What each operation on the stack and the queue does to the invariant and to the number of LIR
keys.  An operation that fails leaves no state, so these are statements about its result. -/

namespace SearchCache.Lirs

variable {K V : Type} [DecidableEq K] {a b : Lirs K V} {k j : K} {rest : List K}

theorem setInfo_info (a : Lirs K V) (k j : K) (f : Info V → Info V) :
    (a.setInfo k f).info j = if j = k then f (a.info k) else a.info j := by
  simp [setInfo, Function.update_apply]

theorem setInfo_info_of_ne (a : Lirs K V) (f : Info V → Info V) (h : j ≠ k) :
    (a.setInfo k f).info j = a.info j := by
  rw [setInfo_info, if_neg h]

@[simp] theorem setInfo_demoted (a : Lirs K V) (k : K) (f : Info V → Info V) :
    (a.setInfo k f).demoted = a.demoted := rfl

@[simp] theorem setInfo_stack (a : Lirs K V) (k : K) (f : Info V → Info V) :
    (a.setInfo k f).stack = a.stack := rfl

@[simp] theorem setInfo_hirs (a : Lirs K V) (k : K) (f : Info V → Info V) :
    (a.setInfo k f).hirs = a.hirs := rfl

@[simp] theorem setInfo_queue (a : Lirs K V) (k : K) (f : Info V → Info V) :
    (a.setInfo k f).queue = a.queue := rfl

@[simp] theorem prune_info (a : Lirs K V) : a.prune.info = a.info := rfl

@[simp] theorem prune_queue (a : Lirs K V) : a.prune.queue = a.queue := rfl

omit [DecidableEq K] in
theorem lirCount_congr (hstack : b.stack = a.stack)
    (hinfo : ∀ j ∈ a.stack, (b.info j).isLIR = (a.info j).isLIR) : b.lirCount = a.lirCount := by
  rw [lirCount, lirCount, hstack]
  exact List.countP_congr fun j hj => by rw [hinfo j hj]

/-- Without the key from the stack. -/
theorem lirCount_erase (hk : k ∈ a.stack) : a.lirCount =
    (a.stack.erase k).countP (fun j => (a.info j).isLIR) +
      if (a.info k).isLIR then 1 else 0 := by
  rw [lirCount, (List.perm_cons_erase hk).countP_eq, List.countP_cons]

omit [DecidableEq K] in
theorem exists_lir (h : 0 < a.lirCount) : ∃ k ∈ a.stack, (a.info k).isLIR = true :=
  List.countP_pos_iff.mp h

/-! ### Pruning -/

theorem prune_stack_append (a : Lirs K V) :
    (a.stack.takeWhile fun k => !(a.info k).isLIR) ++ a.prune.stack = a.stack :=
  List.takeWhile_append_dropWhile

theorem prune_sublist (a : Lirs K V) : a.prune.stack.Sublist a.stack :=
  List.dropWhile_sublist _

theorem prune_rooted (a : Lirs K V) : a.prune.Rooted := by
  intro k rest h
  have hnot : ¬ (!(a.info k).isLIR) = true := by
    have := List.head?_dropWhile_not (fun k => !(a.info k).isLIR) a.stack
    rw [show a.stack.dropWhile (fun k => !(a.info k).isLIR) = k :: rest from h] at this
    simpa using this
  simpa only [prune_info, Bool.not_eq_true', Bool.not_eq_false] using hnot

theorem mem_prune_iff (h : a.stack.Nodup) : k ∈ a.prune.stack ↔
    k ∈ a.stack ∧ k ∉ a.stack.takeWhile fun k => !(a.info k).isLIR := by
  have happend := prune_stack_append a
  have hnodup := h
  rw [← happend, List.nodup_append] at hnodup
  constructor
  · intro hk
    exact ⟨(prune_sublist a).mem hk, fun hk' => hnodup.2.2 k hk' k hk rfl⟩
  · rintro ⟨hk, hk'⟩
    rw [← happend, List.mem_append] at hk
    exact hk.resolve_left hk'

theorem WF.prune (h : a.WF) : a.prune.WF where
  stack_nodup := h.stack_nodup.sublist (prune_sublist a)
  hirs_nodup := h.hirs_nodup.filter _
  queue_nodup := h.queue_nodup
  mem_hirs k := by
    rw [mem_prune_iff h.stack_nodup, and_right_comm, prune_info, ← h.mem_hirs]
    simp [Lirs.prune]
  queue_hir := h.queue_hir
  queue_cached k hq hk := h.queue_cached k hq ((prune_sublist a).mem hk)
  resident k hk := h.resident k ((prune_sublist a).mem hk)
  lir_cached k hk := h.lir_cached k ((prune_sublist a).mem hk)

theorem prune_lirCount (a : Lirs K V) : a.prune.lirCount = a.lirCount := by
  have hzero : (a.stack.takeWhile fun k => !(a.info k).isLIR).countP
      (fun k => (a.info k).isLIR) = 0 := by
    refine List.countP_eq_zero.mpr fun k hk => ?_
    simpa using List.mem_takeWhile_imp hk
  have := congrArg (List.countP fun k => (a.info k).isLIR) (prune_stack_append a)
  rw [List.countP_append, hzero, Nat.zero_add] at this
  exact this

/-! ### Demotion -/

/-- The state that `demote` prunes. -/
def toQueue (a : Lirs K V) (k : K) (rest : List K) : Lirs K V :=
  setInfo { a with demoted := a.demoted + 1, stack := rest, queue := a.queue ++ [k] } k
    fun i => { i with isLIR := false, isDemoted := true }

theorem demote_eq (hstack : a.stack = k :: rest) : a.demote = (a.toQueue k rest).prune := by
  simp only [demote, toQueue, hstack]

theorem WF.toQueue (h : a.WF) (hstack : a.stack = k :: rest) (hk : (a.info k).isLIR = true) :
    (a.toQueue k rest).WF := by
  have hnodup := h.stack_nodup
  rw [hstack, List.nodup_cons] at hnodup
  have hmem : ∀ j, j ∈ a.stack ↔ j = k ∨ j ∈ rest := by simp [hstack]
  have hqueue : k ∉ a.queue := fun hq => by simp [h.queue_hir k hq] at hk
  have hother : ∀ j ∈ rest, j ≠ k := by
    rintro j hj rfl
    exact hnodup.1 hj
  have hwaiting : ∀ j ∈ a.queue, j ≠ k := by
    rintro j hj rfl
    exact hqueue hj
  unfold Lirs.toQueue
  constructor
  · exact hnodup.2
  · exact h.hirs_nodup
  · exact List.nodup_append.mpr ⟨h.queue_nodup, by simp, by simpa using hwaiting⟩
  · intro j
    rw [setInfo_info, setInfo_hirs, setInfo_stack, h.mem_hirs, hmem]
    split
    · subst j
      simp [hk, hnodup.1]
    · simp_all
  · intro j hj
    simp only [setInfo_queue, List.mem_append, List.mem_singleton] at hj
    rcases hj with hj | rfl
    · rw [setInfo_info_of_ne _ _ (hwaiting j hj)]
      exact h.queue_hir j hj
    · simp [setInfo_info]
  · intro j hj hs
    simp only [setInfo_queue, List.mem_append, List.mem_singleton] at hj
    have hne := hother j hs
    rw [setInfo_info_of_ne _ _ hne]
    exact h.queue_cached j (hj.resolve_right hne) ((hmem j).mpr (.inr hs))
  · intro j hj
    rw [setInfo_info_of_ne _ _ (hother j hj)]
    intro hlir hcached
    exact List.mem_append_left _ (h.resident j ((hmem j).mpr (.inr hj)) hlir hcached)
  · intro j hj
    rw [setInfo_info_of_ne _ _ (hother j hj)]
    exact h.lir_cached j ((hmem j).mpr (.inr hj))

theorem WF.demote (h : a.WF) (hstack : a.stack = k :: rest) (hk : (a.info k).isLIR = true) :
    a.demote.WF := by
  rw [demote_eq hstack]
  exact (h.toQueue hstack hk).prune

theorem toQueue_lirCount (h : a.WF) (hstack : a.stack = k :: rest)
    (hk : (a.info k).isLIR = true) : (a.toQueue k rest).lirCount + 1 = a.lirCount := by
  have hnodup := h.stack_nodup
  rw [hstack, List.nodup_cons] at hnodup
  rw [lirCount, lirCount, hstack, List.countP_cons, hk]
  congr 1
  refine List.countP_congr fun j hj => ?_
  rw [toQueue, setInfo_info_of_ne _ _ (by rintro rfl; exact hnodup.1 hj)]

theorem demote_lirCount (h : a.WF) (hstack : a.stack = k :: rest)
    (hk : (a.info k).isLIR = true) : a.demote.lirCount + 1 = a.lirCount := by
  rw [demote_eq hstack, prune_lirCount, toQueue_lirCount h hstack hk]

/-- `b` comes from `a` by demotions and by forgetting keys. -/
structure Shrinks (a b : Lirs K V) : Prop where
  cacheSize : b.cacheSize = a.cacheSize
  hirsLimit : b.hirsLimit = a.hirsLimit
  lirsLimit : b.lirsLimit = a.lirsLimit
  tracked : ∀ k, b.Tracked k → a.Tracked k
  stack_length : b.stack.length ≤ a.stack.length
  inCache : ∀ k, (b.info k).inCache = (a.info k).inCache
  value : ∀ k, (b.info k).value = (a.info k).value
  untracked : ∀ k, ¬a.Tracked k → b.info k = a.info k

omit [DecidableEq K] in
theorem Shrinks.refl (a : Lirs K V) : Shrinks a a :=
  ⟨rfl, rfl, rfl, fun _ => id, Nat.le_refl _, fun _ => rfl, fun _ => rfl, fun _ _ => rfl⟩

omit [DecidableEq K] in
theorem Shrinks.trans {c : Lirs K V} (h : Shrinks a b) (h' : Shrinks b c) : Shrinks a c where
  cacheSize := h'.cacheSize.trans h.cacheSize
  hirsLimit := h'.hirsLimit.trans h.hirsLimit
  lirsLimit := h'.lirsLimit.trans h.lirsLimit
  tracked k hk := h.tracked k (h'.tracked k hk)
  stack_length := h'.stack_length.trans h.stack_length
  inCache k := (h'.inCache k).trans (h.inCache k)
  value k := (h'.value k).trans (h.value k)
  untracked k hk := by
    rw [h'.untracked k fun hb => hk (h.tracked k hb), h.untracked k hk]

theorem prune_shrinks (a : Lirs K V) : Shrinks a a.prune where
  cacheSize := rfl
  hirsLimit := rfl
  lirsLimit := rfl
  tracked _ hk := hk.imp_left (prune_sublist a).mem
  stack_length := (prune_sublist a).length_le
  inCache _ := rfl
  value _ := rfl
  untracked _ _ := rfl

theorem demote_shrinks (a : Lirs K V) : Shrinks a a.demote := by
  cases hstack : a.stack with
  | nil =>
    rw [show a.demote = a by simp only [demote, hstack]]
    exact Shrinks.refl a
  | cons k rest =>
    rw [demote_eq hstack, toQueue]
    refine Shrinks.trans ?_ (prune_shrinks _)
    refine ⟨rfl, rfl, rfl, ?_, by simp [hstack], ?_, ?_, ?_⟩
    · rintro j (hj | hj)
      · exact .inl (by rw [hstack]; exact List.mem_cons_of_mem _ hj)
      · rw [setInfo_queue, List.mem_append, List.mem_singleton] at hj
        exact hj.elim .inr fun hj => .inl (by simp [hstack, hj])
    · intro j
      rw [setInfo_info]
      split <;> simp_all
    · intro j
      rw [setInfo_info]
      split <;> simp_all
    · intro j hj
      exact setInfo_info_of_ne _ _ (by rintro rfl; exact hj (.inl (by simp [hstack])))

theorem demote_rooted (h : a.Rooted) : a.demote.Rooted := by
  cases hstack : a.stack with
  | nil =>
    rw [show a.demote = a by simp only [demote, hstack]]
    exact h
  | cons k rest =>
    rw [demote_eq hstack]
    exact prune_rooted _

theorem demote_queue_length (hstack : a.stack = k :: rest) :
    a.demote.queue.length = a.queue.length + 1 := by
  rw [demote_eq hstack]
  simp [toQueue]

/-- With a LIR key at the bottom, each demotion turns a LIR key into a resident HIR key. -/
theorem demote_iterate (h : a.WF) (rooted : a.Rooted) {n : Nat} (hn : n ≤ a.lirCount) :
    (Lirs.demote^[n] a).WF ∧ (Lirs.demote^[n] a).Rooted ∧
      (Lirs.demote^[n] a).lirCount + n = a.lirCount ∧
      (Lirs.demote^[n] a).queue.length = a.queue.length + n ∧
      Shrinks a (Lirs.demote^[n] a) := by
  induction n generalizing a with
  | zero => exact ⟨h, rooted, rfl, rfl, Shrinks.refl a⟩
  | succ n ih =>
    obtain ⟨j, hj, -⟩ := exists_lir (a := a) (by omega)
    obtain ⟨k, rest, hstack⟩ := List.exists_cons_of_ne_nil (List.ne_nil_of_mem hj)
    have hcount := demote_lirCount h hstack (rooted k rest hstack)
    obtain ⟨hwf, hroot, hlir, hqueue, hshrinks⟩ :=
      ih (h.demote hstack (rooted k rest hstack)) (demote_rooted rooted) (by omega)
    rw [Function.iterate_succ_apply]
    refine ⟨hwf, hroot, by omega, ?_, (demote_shrinks a).trans hshrinks⟩
    rw [hqueue, demote_queue_length hstack]
    omega

theorem demoteAll_spec (h : a.WF) (rooted : a.Rooted) (hb : a.demoteAll = some b) :
    b.WF ∧ b.Rooted ∧ b.lirCount < b.lirsLimit.toNat ∧ b.residents = a.residents ∧
      a.queue.length ≤ b.queue.length ∧ Shrinks a b := by
  rw [demoteAll] at hb
  split at hb
  · simp at hb
  · rename_i hlimit
    cases hb
    obtain ⟨hwf, hroot, hlir, hqueue, hshrinks⟩ :=
      demote_iterate (n := a.lirCount + 1 - a.lirsLimit.toNat) h rooted (by omega)
    refine ⟨hwf, hroot, ?_, ?_, by omega, hshrinks⟩
    · rw [hshrinks.lirsLimit]
      omega
    · rw [residents, residents]
      omega

/-! ### Eviction -/

theorem WF.evict (h : a.WF) (he : a.evict = some (k, b)) : b.WF := by
  unfold Lirs.evict at he
  split at he
  · simp at he
  · rename_i k' rest hqueue
    cases he
    have hnodup := h.queue_nodup
    rw [hqueue, List.nodup_cons] at hnodup
    have hmem : ∀ j, j ∈ a.queue ↔ j = k ∨ j ∈ rest := by simp [hqueue]
    have hlir := h.queue_hir k ((hmem k).mpr (.inl rfl))
    have hother : ∀ j ∈ rest, j ≠ k := by
      rintro j hj rfl
      exact hnodup.1 hj
    constructor
    · exact h.stack_nodup
    · exact h.hirs_nodup
    · exact hnodup.2
    · intro j
      rw [setInfo_info, setInfo_hirs, setInfo_stack, h.mem_hirs]
      by_cases hjk : j = k <;> simp_all
    · intro j hj
      rw [setInfo_info_of_ne _ _ (hother j hj)]
      exact h.queue_hir j ((hmem j).mpr (.inr hj))
    · intro j hj
      rw [setInfo_info_of_ne _ _ (hother j hj)]
      exact h.queue_cached j ((hmem j).mpr (.inr hj))
    · intro j hj
      rw [setInfo_info]
      rw [setInfo_stack] at hj
      split
      · subst j
        simp [hj]
      · rename_i hne
        intro hl hc
        exact ((hmem j).mp (h.resident j hj hl hc)).resolve_left hne
    · intro j hj
      rw [setInfo_info]
      split
      · subst j
        simp [hlir]
      · exact h.lir_cached j hj

/-- What an eviction leaves as it was. -/
structure Evicts (a : Lirs K V) (k : K) (b : Lirs K V) : Prop where
  cacheSize : b.cacheSize = a.cacheSize
  hirsLimit : b.hirsLimit = a.hirsLimit
  lirsLimit : b.lirsLimit = a.lirsLimit
  demoted : b.demoted = if (a.info k).isDemoted then dec a.demoted else a.demoted
  stack : b.stack = a.stack
  hirs : b.hirs = a.hirs
  queue : a.queue = k :: b.queue
  isLIR : ∀ j, (b.info j).isLIR = (a.info j).isLIR
  value : ∀ j, (b.info j).value = (a.info j).value
  other : ∀ j, j ≠ k → b.info j = a.info j
  isDemoted : (b.info k).isDemoted = false
  ghost : k ∈ a.stack → (b.info k).inCache = false

theorem evict_evicts (he : a.evict = some (k, b)) : Evicts a k b := by
  unfold Lirs.evict at he
  split at he
  · simp at he
  · rename_i k' rest hqueue
    cases he
    refine ⟨rfl, rfl, rfl, rfl, rfl, rfl, hqueue, ?_, ?_, ?_, by simp [setInfo_info], ?_⟩
    · intro j
      rw [setInfo_info]
      split <;> simp_all
    · intro j
      rw [setInfo_info]
      split <;> simp_all
    · intro j hj
      exact setInfo_info_of_ne _ _ hj
    · intro hk
      simp [setInfo_info, hk]

omit [DecidableEq K] in
theorem Evicts.lirCount (h : Evicts a k b) : b.lirCount = a.lirCount :=
  lirCount_congr h.stack fun j _ => h.isLIR j

omit [DecidableEq K] in
theorem Evicts.tracked (h : Evicts a k b) (hj : b.Tracked j) : a.Tracked j := by
  rw [Tracked, h.stack] at hj
  exact hj.imp_right fun hj => by simp [h.queue, hj]

omit [DecidableEq K] in
theorem Evicts.rooted (h : Evicts a k b) (rooted : a.Rooted) : b.Rooted := by
  intro j rest hj
  rw [h.isLIR]
  exact rooted j rest (h.stack ▸ hj)

/-- `b` comes from `a` by evictions. -/
structure Thins (a b : Lirs K V) : Prop where
  wf : b.WF
  cacheSize : b.cacheSize = a.cacheSize
  hirsLimit : b.hirsLimit = a.hirsLimit
  lirsLimit : b.lirsLimit = a.lirsLimit
  stack : b.stack = a.stack
  hirs : b.hirs = a.hirs
  isLIR : ∀ j, (b.info j).isLIR = (a.info j).isLIR
  value : ∀ j, (b.info j).value = (a.info j).value
  tracked : ∀ j, b.Tracked j → a.Tracked j
  untracked : ∀ j, ¬a.Tracked j → b.info j = a.info j

omit [DecidableEq K] in
theorem Thins.refl (wf : a.WF) : Thins a a :=
  ⟨wf, rfl, rfl, rfl, rfl, rfl, fun _ => rfl, fun _ => rfl, fun _ => id, fun _ _ => rfl⟩

theorem WF.evict_thins (wf : a.WF) (he : a.evict = some (k, b)) : Thins a b := by
  have hev := evict_evicts he
  refine ⟨wf.evict he, hev.cacheSize, hev.hirsLimit, hev.lirsLimit, hev.stack, hev.hirs,
    hev.isLIR, hev.value, fun j => hev.tracked, fun j hj => hev.other j ?_⟩
  rintro rfl
  exact hj (.inr (by simp [hev.queue]))

omit [DecidableEq K] in
theorem Thins.trans {c : Lirs K V} (h : Thins a b) (h' : Thins b c) : Thins a c where
  wf := h'.wf
  cacheSize := h'.cacheSize.trans h.cacheSize
  hirsLimit := h'.hirsLimit.trans h.hirsLimit
  lirsLimit := h'.lirsLimit.trans h.lirsLimit
  stack := h'.stack.trans h.stack
  hirs := h'.hirs.trans h.hirs
  isLIR j := (h'.isLIR j).trans (h.isLIR j)
  value j := (h'.value j).trans (h.value j)
  tracked j hj := h.tracked j (h'.tracked j hj)
  untracked j hj := by
    rw [h'.untracked j fun hb => hj (h.tracked j hb), h.untracked j hj]

omit [DecidableEq K] in
theorem Thins.lirCount (h : Thins a b) : b.lirCount = a.lirCount :=
  lirCount_congr h.stack fun j _ => h.isLIR j

omit [DecidableEq K] in
theorem Thins.rooted (h : Thins a b) (rooted : a.Rooted) : b.Rooted := by
  intro j rest hj
  rw [h.isLIR]
  exact rooted j rest (h.stack ▸ hj)

/-- There is room already, or the first key of the queue makes room. -/
theorem makeRoom_cases {evicted : Option K} (hb : a.makeRoom = some (evicted, b)) :
    (evicted = none ∧ b = a ∧ a.residents < a.cacheSize) ∨
      ∃ k, evicted = some k ∧ a.cacheSize ≤ a.residents ∧ a.evict = some (k, b) := by
  rw [makeRoom] at hb
  split at hb
  · rename_i hfull
    obtain ⟨⟨k, b'⟩, he, hkb⟩ := Option.map_eq_some_iff.mp hb
    cases hkb
    exact .inr ⟨k, rfl, hfull, he⟩
  · cases hb
    exact .inl ⟨rfl, rfl, by omega⟩

theorem makeRoom_thins {evicted : Option K} (h : a.WF) (hb : a.makeRoom = some (evicted, b)) :
    Thins a b := by
  rcases makeRoom_cases hb with ⟨-, rfl, -⟩ | ⟨k, -, -, he⟩
  · exact Thins.refl h
  · exact h.evict_thins he

/-- A cache within its size has room afterwards. -/
theorem makeRoom_room {evicted : Option K} (hb : a.makeRoom = some (evicted, b))
    (hle : a.residents ≤ a.cacheSize) : b.residents < b.cacheSize := by
  rcases makeRoom_cases hb with ⟨-, rfl, hroom⟩ | ⟨k, -, -, he⟩
  · exact hroom
  · have hev := evict_evicts he
    have := congrArg List.length hev.queue
    rw [List.length_cons] at this
    rw [residents, hev.lirCount, hev.cacheSize]
    rw [residents] at hle
    omega

theorem makeRoom_spec {evicted : Option K} (h : a.WF) (hb : a.makeRoom = some (evicted, b)) :
    b.WF ∧ (a.Rooted → b.Rooted) ∧ b.lirCount = a.lirCount ∧ b.cacheSize = a.cacheSize ∧
      b.hirsLimit = a.hirsLimit ∧ b.lirsLimit = a.lirsLimit ∧
      b.stack = a.stack ∧ b.hirs = a.hirs ∧ (∀ j, b.Tracked j → a.Tracked j) ∧
      (∀ j, ¬a.Tracked j → b.info j = a.info j) ∧
      (a.residents ≤ a.cacheSize → b.residents < a.cacheSize) := by
  have ht := makeRoom_thins h hb
  exact ⟨ht.wf, ht.rooted, ht.lirCount, ht.cacheSize, ht.hirsLimit, ht.lirsLimit, ht.stack, ht.hirs,
    ht.tracked, ht.untracked, fun hle => ht.cacheSize ▸ makeRoom_room hb hle⟩

/-- The evicted key was in the queue. -/
theorem makeRoom_evicted {evicted : Option K} (hb : a.makeRoom = some (evicted, b))
    (hk : k ∈ evicted.toList) : a.Tracked k := by
  rcases makeRoom_cases hb with ⟨rfl, -⟩ | ⟨e, rfl, -, he⟩
  · simp at hk
  · rw [show k = e by simpa using hk]
    exact .inr (by simp [(evict_evicts he).queue])

/-! ### The stack limit -/

/-- Take a HIR key out of the stack. -/
def drop (a : Lirs K V) (k : K) : Lirs K V :=
  { a with stack := a.stack.erase k, hirs := a.hirs.erase k }

/-- The two lists of the stack fit together. -/
structure Layered (a : Lirs K V) : Prop where
  stack_nodup : a.stack.Nodup
  hirs_nodup : a.hirs.Nodup
  mem_hirs : ∀ k, k ∈ a.hirs ↔ k ∈ a.stack ∧ (a.info k).isLIR = false

omit [DecidableEq K] in
theorem WF.layered (h : a.WF) : a.Layered := ⟨h.stack_nodup, h.hirs_nodup, h.mem_hirs⟩

theorem Layered.drop (h : a.Layered) (k : K) : (a.drop k).Layered := by
  refine ⟨h.stack_nodup.erase k, h.hirs_nodup.erase k, fun j => ?_⟩
  show j ∈ a.hirs.erase k ↔ j ∈ a.stack.erase k ∧ _
  rw [h.stack_nodup.mem_erase_iff, h.hirs_nodup.mem_erase_iff, h.mem_hirs, and_assoc]
  rfl

theorem WF.drop (h : a.WF) (k : K) : (a.drop k).WF := by
  have hl := h.layered.drop k
  exact ⟨hl.stack_nodup, hl.hirs_nodup, h.queue_nodup, hl.mem_hirs, h.queue_hir,
    fun j hq hj => h.queue_cached j hq (List.mem_of_mem_erase hj),
    fun j hj => h.resident j (List.mem_of_mem_erase hj),
    fun j hj => h.lir_cached j (List.mem_of_mem_erase hj)⟩

theorem forget_eq (hhirs : a.hirs = k :: rest) : a.forget = a.drop k := by
  simp only [forget, drop, hhirs, List.erase_cons_head]

theorem prune_eq_self (hroot : a.Rooted) : a.prune = a := by
  obtain ⟨_, _, _, _, stack, _, _, info⟩ := a
  cases stack with
  | nil => simp [prune]
  | cons k rest =>
    have hlir : (info k).isLIR = true := hroot k rest rfl
    simp [prune, hlir]

theorem prune_drop (h : a.WF) (hstack : a.stack = k :: rest) (hlir : (a.info k).isLIR = false) :
    (a.drop k).prune = a.prune := by
  have hfilter := h.hirs_nodup.erase_eq_filter k
  simp only [prune, drop, hstack, List.erase_cons_head, List.dropWhile_cons, List.takeWhile_cons,
    hlir, hfilter, List.filter_filter]
  congr 1
  refine List.filter_congr fun j _ => ?_
  by_cases hjk : j = k <;> simp [hjk]

theorem forget_shrinks (a : Lirs K V) : Shrinks a a.forget := by
  cases hhirs : a.hirs with
  | nil =>
    rw [show a.forget = a by simp only [Lirs.forget, hhirs]]
    exact Shrinks.refl a
  | cons k rest =>
    rw [forget_eq hhirs]
    exact ⟨rfl, rfl, rfl, fun j hj => hj.imp_left List.mem_of_mem_erase, List.length_erase_le,
      fun _ => rfl, fun _ => rfl, fun _ _ => rfl⟩

/-- Taking a HIR key out of the stack leaves the LIR keys where they were. -/
theorem erase_hir (hk : k ∈ a.stack) (hlir : (a.info k).isLIR = false) :
    ({ a with stack := a.stack.erase k } : Lirs K V).lirCount = a.lirCount ∧
      (a.Rooted → ∀ j rest, a.stack.erase k = j :: rest → (a.info j).isLIR = true) := by
  constructor
  · have := lirCount_erase hk
    rw [hlir] at this
    exact this.symm
  · intro rooted j rest hj
    cases hstack : a.stack with
    | nil => simp [hstack] at hk
    | cons i l =>
      have hi := rooted i l hstack
      have hne : i ≠ k := by
        rintro rfl
        simp [hlir] at hi
      rw [hstack, List.erase_cons_tail (by simpa using hne), List.cons_eq_cons] at hj
      exact hj.1 ▸ hi

theorem forget_spec (h : a.WF) (hhirs : a.hirs = k :: rest) : a.forget.WF ∧
    a.forget.lirCount = a.lirCount ∧ a.forget.queue = a.queue ∧ a.forget.info = a.info ∧
    (a.Rooted → a.forget.Rooted) := by
  have hk := (h.mem_hirs k).mp (by simp [hhirs])
  obtain ⟨hcount, hrooted⟩ := erase_hir hk.1 hk.2
  rw [forget_eq hhirs]
  exact ⟨h.drop k, hcount, rfl, rfl, fun hr => hrooted hr⟩

theorem forget_iterate_demoted (a : Lirs K V) (n : Nat) :
    (Lirs.forget^[n] a).demoted = a.demoted := by
  induction n generalizing a with
  | zero => rfl
  | succ n ih =>
    rw [Function.iterate_succ_apply, ih]
    unfold Lirs.forget
    split <;> rfl

theorem forget_iterate (h : a.WF) {n : Nat} (hn : n ≤ a.hirs.length) :
    (Lirs.forget^[n] a).WF ∧ (Lirs.forget^[n] a).lirCount = a.lirCount ∧
      (Lirs.forget^[n] a).queue = a.queue ∧ (Lirs.forget^[n] a).info = a.info ∧
      (a.Rooted → (Lirs.forget^[n] a).Rooted) ∧
      (Lirs.forget^[n] a).hirs.length + n = a.hirs.length ∧ Shrinks a (Lirs.forget^[n] a) := by
  induction n generalizing a with
  | zero => exact ⟨h, rfl, rfl, rfl, id, rfl, Shrinks.refl a⟩
  | succ n ih =>
    obtain ⟨k, rest, hhirs⟩ := List.exists_cons_of_length_pos (l := a.hirs) (by omega)
    obtain ⟨hwf, hcount, hqueue, hinfo, hrooted⟩ := forget_spec h hhirs
    have hlength : a.forget.hirs.length + 1 = a.hirs.length := by
      simp [forget_eq hhirs, drop, hhirs]
    obtain ⟨hwf', hcount', hqueue', hinfo', hrooted', hlength', hshrinks⟩ :=
      ih hwf (by omega)
    rw [Function.iterate_succ_apply]
    exact ⟨hwf', hcount'.trans hcount, hqueue'.trans hqueue, hinfo'.trans hinfo,
      fun hr => hrooted' (hrooted hr), by omega, (forget_shrinks a).trans hshrinks⟩

end SearchCache.Lirs
