import SearchCache.Cache.DlirsAccounting
import SearchCache.Cache.DlirsScan
import SearchCache.Lib.Recency

/-! The order of `lirs` and `non_resident_hirs`: both have their keys in the order of their last use,
whatever was evicted, demoted or forgotten in between.  So `dlirs_evict_lir` demotes the LIR entry and
`dlirs_limit_stack` forgets the HIR entry that nobody has used for longest. -/

namespace SearchCache

open Lirs

variable {V : Type}

/-- The key that a call looks up or requests. -/
def CacheCall.uses : CacheCall V → Option Key
  | .get key => some key
  | .request key _ => some key
  | _ => none

namespace Lirs

variable {K : Type} [DecidableEq K] {a b : Lirs K V} {used : List K} {k : K} {evicted : Option K}

/-! ### What leaves the stack -/

theorem demote_iterate_sublist (a : Lirs K V) (n : Nat) :
    (Lirs.demote^[n] a).stack.Sublist a.stack := by
  induction n generalizing a with
  | zero => exact List.Sublist.refl _
  | succ n ih =>
    rw [Function.iterate_succ_apply]
    refine (ih a.demote).trans ?_
    cases hstack : a.stack with
    | nil => simp [Lirs.demote, hstack]
    | cons k rest =>
      rw [demote_eq hstack]
      exact (prune_sublist _).trans (List.sublist_cons_self k rest)

theorem forget_iterate_sublist (a : Lirs K V) (n : Nat) :
    (Lirs.forget^[n] a).stack.Sublist a.stack := by
  induction n generalizing a with
  | zero => exact List.Sublist.refl _
  | succ n ih =>
    rw [Function.iterate_succ_apply]
    refine (ih a.forget).trans ?_
    unfold Lirs.forget
    split
    · exact List.Sublist.refl _
    · exact List.erase_sublist

theorem hitLir_sublist (a : Lirs K V) (k : K) :
    (a.hitLir k).stack.Sublist (a.stack.erase k ++ [k]) := by
  unfold Lirs.hitLir
  dsimp only
  split
  · exact prune_sublist _
  · exact List.Sublist.refl _

/-! ### The order of the HIR keys -/

/-- The HIR keys come in the order of the stack. -/
def Aligned (a : Lirs K V) : Prop := a.hirs.Sublist a.stack

theorem Aligned.prune (h : a.Aligned) : a.prune.Aligned := by
  have hsplit := prune_stack_append a
  have hout : (a.stack.takeWhile fun k => !(a.info k).isLIR).filter
      (fun k => k ∉ a.stack.takeWhile fun k => !(a.info k).isLIR) = [] := by
    rw [List.filter_eq_nil_iff]
    simp
  have hfilter := List.Sublist.filter
    (fun k => k ∉ a.stack.takeWhile fun k => !(a.info k).isLIR) h
  rw [← hsplit, List.filter_append, hsplit, hout, List.nil_append] at hfilter
  exact hfilter.trans List.filter_sublist

/-- A LIR key leaves its place in the stack. -/
theorem Aligned.erase (h : a.Aligned) (wf : a.WF) (hlir : (a.info k).isLIR = true) :
    a.hirs.Sublist (a.stack.erase k) := by
  have hk : k ∉ a.hirs := fun hmem => by
    simpa [hlir] using ((wf.mem_hirs k).mp hmem).2
  have herase := List.Sublist.erase k h
  rwa [List.erase_of_not_mem hk] at herase

theorem Aligned.demote (h : a.Aligned) (wf : a.WF) (rooted : a.Rooted) : a.demote.Aligned := by
  cases hstack : a.stack with
  | nil =>
    rw [show a.demote = a by simp only [Lirs.demote, hstack]]
    exact h
  | cons k rest =>
    have herase := h.erase wf (rooted k rest hstack)
    rw [hstack, List.erase_cons_head] at herase
    have hqueue : (a.toQueue k rest).Aligned := herase
    rw [demote_eq hstack]
    exact hqueue.prune

theorem Aligned.demote_iterate (h : a.Aligned) (wf : a.WF) (rooted : a.Rooted) {n : Nat}
    (hn : n ≤ a.lirCount) : (Lirs.demote^[n] a).Aligned := by
  induction n with
  | zero => exact h
  | succ n ih =>
    obtain ⟨hwf, hroot, -⟩ := Lirs.demote_iterate wf rooted (n := n) (by omega)
    rw [Function.iterate_succ_apply']
    exact (ih (by omega)).demote hwf hroot

theorem Aligned.forget (h : a.Aligned) : a.forget.Aligned := by
  cases hhirs : a.hirs with
  | nil =>
    rw [show a.forget = a by simp only [Lirs.forget, hhirs]]
    exact h
  | cons k rest =>
    have herase := List.Sublist.erase k h
    rw [hhirs, List.erase_cons_head] at herase
    simpa only [Aligned, Lirs.forget, hhirs] using herase

theorem Aligned.forget_iterate (h : a.Aligned) (n : Nat) : (Lirs.forget^[n] a).Aligned := by
  induction n generalizing a with
  | zero => exact h
  | succ n ih => exact ih h.forget

theorem Aligned.hitLir (h : a.Aligned) (wf : a.WF) (hlir : (a.info k).isLIR = true) :
    (a.hitLir k).Aligned := by
  have hmoved : Aligned { a with stack := a.stack.erase k ++ [k] } :=
    (h.erase wf hlir).trans (List.sublist_append_left _ [k])
  unfold Lirs.hitLir
  dsimp only
  split
  · exact hmoved.prune
  · exact hmoved

omit [DecidableEq K] in
theorem Aligned.hirs_eq (h : a.Aligned) (wf : a.WF) :
    a.hirs = a.stack.filter fun k => !(a.info k).isLIR := by
  have hfilter := h.filter fun k => !(a.info k).isLIR
  rw [List.filter_eq_self.mpr fun k hk => by simp [((wf.mem_hirs k).mp hk).2]] at hfilter
  refine hfilter.eq_of_length_le (List.Nodup.subperm (wf.stack_nodup.filter _) fun k hk => ?_).length_le
  obtain ⟨hmem, hlir⟩ := List.mem_filter.mp hk
  exact (wf.mem_hirs k).mpr ⟨hmem, by simpa using hlir⟩

/-! ### The order of the last use -/

/-- The keys of the stack come in the order of their last use, after the keys `used`, and the HIR keys
in the order of the stack. -/
structure Recent (a : Lirs K V) (used : List K) : Prop where
  stack : a.stack.Sublist used.dedup
  aligned : a.Aligned

/-- A key that is used comes last in the order of last use. -/
theorem recent_snoc (hstack : b.stack.Sublist (a.stack.erase k ++ [k])) (h : a.Recent used)
    (haligned : b.Aligned) : b.Recent (used ++ [k]) := by
  refine ⟨?_, haligned⟩
  rw [Recency.dedup_snoc]
  exact hstack.trans ((h.stack.erase k).append_right [k])

theorem Recent.hitHir (h : a.Recent used) (stable : a.Stable) (hl : a.Lookup k)
    (hk : k ∈ a.stack) (hlir : (a.info k).isLIR = false) (hb : a.hitHir k = some (evicted, b)) :
    b.Recent (used ++ [k]) := by
  obtain ⟨hwf, -⟩ := stable.wf.promote k
  obtain ⟨-, hrooted, -⟩ := promote_spec stable.wf hk hlir
  have hpromotes := promote_promotes a k
  have halign : (a.promote k).Aligned := by
    rw [Aligned, hpromotes.hirs, hpromotes.stack]
    exact List.Sublist.erase k h.aligned
  rw [Lirs.hitHir, Option.bind_eq_bind, Option.bind_eq_some_iff] at hb
  obtain ⟨a1, hdemote, hb⟩ := hb
  rw [Option.bind_eq_bind, Option.bind_eq_some_iff] at hb
  obtain ⟨⟨e, a2⟩, hmake, hb⟩ := hb
  cases hb
  obtain ⟨hwf1, -⟩ := demoteAll_spec hwf (hrooted (hl.rooted hk hlir)) hdemote
  have hthins := makeRoom_thins hwf1 hmake
  rw [demoteAll] at hdemote
  split at hdemote
  · simp at hdemote
  · cases hdemote
    have hsub := demote_iterate_sublist (a.promote k)
      ((a.promote k).lirCount + 1 - (a.promote k).lirsLimit.toNat)
    have halign1 := halign.demote_iterate hwf (hrooted (hl.rooted hk hlir))
      (n := (a.promote k).lirCount + 1 - (a.promote k).lirsLimit.toNat) (by omega)
    rw [hpromotes.stack, ← hthins.stack] at hsub
    rw [Aligned, ← hthins.hirs, ← hthins.stack] at halign1
    exact recent_snoc (hsub.append_right [k]) h (halign1.trans (List.sublist_append_left _ [k]))

/-- A lookup of a key that the cache does not track leaves the stack as it is. -/
theorem Recent.get (h : a.Recent used) (stable : a.Stable) (hl : a.Lookup k)
    (hb : a.get k = some (evicted, b)) : b.Recent (used ++ [k]) := by
  unfold Lirs.get at hb
  split at hb
  · rename_i hk
    cases hlir : (a.info k).isLIR with
    | true =>
      rw [if_pos hlir, Option.some_inj, Prod.mk.injEq] at hb
      obtain ⟨-, rfl⟩ := hb
      exact recent_snoc (hitLir_sublist a k) h (h.aligned.hitLir stable.wf hlir)
    | false =>
      rw [if_neg (by simp [hlir])] at hb
      exact h.hitHir stable hl hk hlir hb
  · rename_i hk
    cases hb
    refine recent_snoc ?_ h h.aligned
    rw [List.erase_of_not_mem hk]
    exact List.sublist_append_left _ [k]

theorem Recent.request (h : a.Recent used) (wf : a.WF) (hk : ¬a.Tracked k) {value : Option V}
    (hb : a.request k value = some (evicted, b)) : b.Recent (used ++ [k]) := by
  have herase : a.stack.erase k = a.stack := List.erase_of_not_mem fun hmem => hk (.inl hmem)
  unfold Lirs.request at hb
  split at hb
  · cases hb
    refine recent_snoc ?_ h (h.aligned.trans (List.sublist_append_left _ [k]))
    rw [herase]
    exact List.Sublist.refl _
  · rw [Option.bind_eq_bind, Option.bind_eq_some_iff] at hb
    obtain ⟨⟨e, a1⟩, hmake, hb⟩ := hb
    rw [Option.bind_eq_bind, Option.bind_eq_some_iff] at hb
    obtain ⟨a2, hlimit, hb⟩ := hb
    cases hb
    have hthins := makeRoom_thins wf hmake
    rw [limitStack] at hlimit
    split at hlimit
    · rw [Option.some_inj] at hlimit
      subst hlimit
      have halign : (a1.addHir k value).Aligned := by
        rw [Aligned, Lirs.addHir, hthins.hirs, hthins.stack]
        exact h.aligned.append_right [k]
      refine recent_snoc ?_ h (halign.forget_iterate _)
      rw [herase, ← hthins.stack]
      exact forget_iterate_sublist (a1.addHir k value) _
    · simp at hlimit

end Lirs

/-! ### The cache -/

namespace Served

variable {s : Served V} {a : Lirs Key V} {used : List Key}

theorem Shows.recent (h : s.Shows a) (hrecent : a.Recent used) {c : CacheCall V}
    (permits : s.Permits c) : ∃ o s' b, s.call c = some (o, s') ∧ s'.Shows b ∧
      b.Recent (used ++ c.uses.toList) := by
  obtain ⟨o, s', b, hs, ha, h'⟩ := h.call permits
  refine ⟨o, s', b, hs, h', ?_⟩
  obtain ⟨hsmall, ref, hserves⟩ := h
  have hle := (hserves.exact hsmall).residents_le
  cases c with
  | get k =>
    obtain ⟨⟨e, b'⟩, hb, heq⟩ := Option.map_eq_some_iff.mp ha
    obtain rfl : b' = b := congrArg Prod.snd heq
    exact hrecent.get hserves.stable ⟨hserves.permitted permits, fun _ _ => hserves.founded.rooted,
      fun _ _ => hle⟩ hb
  | request k value =>
    obtain ⟨⟨e, b'⟩, hb, heq⟩ := Option.map_eq_some_iff.mp ha
    obtain rfl : b' = b := congrArg Prod.snd heq
    exact hrecent.request hserves.stable.wf (hserves.untracked permits) hb
  | contains k =>
    obtain rfl : a = b := congrArg Prod.snd (Option.some.inj ha)
    simpa [CacheCall.uses] using hrecent
  | isFull =>
    obtain rfl : a = b := congrArg Prod.snd (Option.some.inj ha)
    simpa [CacheCall.uses] using hrecent
  | release r =>
    obtain rfl : a = b := congrArg Prod.snd (Option.some.inj ha)
    simpa [CacheCall.uses] using hrecent

/-- By induction on the calls. -/
theorem Shows.recents (h : s.Shows a) (hrecent : a.Recent used) {calls : List (CacheCall V)}
    (permitted : Servers.Permitted Served.call Served.Permits s calls) :
    ∃ answers s' b, Servers.serve Served.call s calls = some (answers, s') ∧ s'.Shows b ∧
      b.Recent (used ++ calls.filterMap CacheCall.uses) := by
  induction calls generalizing s a used with
  | nil => exact ⟨[], s, a, rfl, h, by rwa [List.filterMap_nil, List.append_nil]⟩
  | cons c calls ih =>
    obtain ⟨o, s1, a1, hs1, h1, hrecent1⟩ := h.recent hrecent permitted.1
    obtain ⟨answers, s', b, hs', h', hlast⟩ := ih h1 hrecent1 (permitted.next hs1)
    refine ⟨o :: answers, s', b, Servers.serve_cons hs1 hs', h', ?_⟩
    cases huses : c.uses <;> simpa [List.filterMap_cons, huses] using hlast

end Served

end SearchCache
