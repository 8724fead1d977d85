import SearchCache.Cache.DlirsRecency
import SearchCache.Cache.LruRecency

/-! Loops over more keys than the cache has room for.  An LRU cache never finds a key of the loop, since
each one leaves before its turn comes again.  A DLIRS cache keeps the first keys as LIR entries, which
the others cannot drive out, and finds them in every round. -/

namespace SearchCache

open Lirs

variable {V : Type}

/-- A round of `queryProcessor`, with the value of the entry that its lookup finds. -/
def dlirsFetch (cache : DLIRS V) (x : Key × V) : Option (Option (Option V) × DLIRS V) := do
  let got ← dlirsGet {} cache x.1
  let found := (got.entry.bind got.cache.heap).map DLIRSEntry.value
  let cache := dlirsEntryDestroy got.cache got.evicted
  if got.entry.isSome then return (found, cache)
  let requested ← dlirsRequest {} cache x.1 (some x.2) none
  return (none, dlirsEntryDestroy requested.cache requested.evicted)

theorem dlirsFetch_access (cache : DLIRS V) (x : Key × V) :
    (dlirsFetch cache x).map Prod.snd = dlirsAccess cache x.1 x.2 := by
  unfold dlirsFetch dlirsAccess
  cases dlirsGet {} cache x.1 with
  | none => rfl
  | some got =>
    simp only [Option.bind_eq_bind, Option.bind_some]
    split
    · rfl
    · cases dlirsRequest {} (dlirsEntryDestroy got.cache got.evicted) x.1 (some x.2) none <;> rfl

/-! ### The algorithm -/

namespace Lirs

variable {a b : Lirs Key V} {lirs : List (Key × V)} {seen turn done : List Key} {k : Key}
  {value : V} {evicted : Option Key}

/-- The request of a HIR key: the front of the queue may leave, and the stack may lose keys. -/
theorem request_queued (wf : a.WF) (hk : ¬a.Tracked k) (hroom : a.residents ≤ a.cacheSize)
    (hlir : ¬(a.lirCount < a.lirsLimit.toNat ∧ a.queue = [])) {value : Option V}
    (hb : a.request k value = some (evicted, b)) :
    (∃ rest, rest <:+ a.queue ∧ rest.length + a.lirCount < a.cacheSize ∧ b.queue = rest ++ [k]) ∧
      ∀ j ∈ b.stack, j ∈ a.stack ∨ j = k := by
  rw [Lirs.request, if_neg hlir, Option.bind_eq_bind, Option.bind_eq_some_iff] at hb
  obtain ⟨⟨e, a1⟩, hmake, hb⟩ := hb
  rw [Option.bind_eq_bind, Option.bind_eq_some_iff] at hb
  obtain ⟨a2, hlimit, hb⟩ := hb
  cases hb
  have hthins := makeRoom_thins wf hmake
  have hlt := makeRoom_room hmake hroom
  have hk1 : ¬a1.Tracked k := fun hk1 => hk (hthins.tracked k hk1)
  rw [limitStack] at hlimit
  split at hlimit
  · rename_i hexcess
    rw [Option.some_inj] at hlimit
    subst hlimit
    obtain ⟨-, -, hqueue, -⟩ := forget_iterate (hthins.wf.addHir hk1 value) hexcess
    refine ⟨⟨a1.queue, ?_, ?_, hqueue⟩, fun j hj => ?_⟩
    · rcases makeRoom_cases hmake with ⟨-, rfl, -⟩ | ⟨i, -, -, he⟩
      · exact List.suffix_rfl
      · rw [(evict_evicts he).queue]
        exact List.suffix_cons ..
    · have hlirs := hthins.lirCount
      have hsize := hthins.cacheSize
      rw [residents] at hlt
      omega
    · have hmem := (forget_iterate_sublist _ _).mem hj
      simpa [Lirs.addHir, hthins.stack] using hmem
  · simp at hlimit

/-- The first keys of a loop, which come in as LIR keys. -/
structure Fills (a : Lirs Key V) (lirs : List (Key × V)) : Prop where
  stack : a.stack = lirs.map Prod.fst
  queue : a.queue = []
  lir : ∀ x ∈ lirs, a.lirValue x.1 = some (some x.2)

theorem Fills.lirCount (h : a.Fills lirs) : a.lirCount = lirs.length := by
  rw [Lirs.lirCount, ← List.length_map (f := Prod.fst), ← h.stack, List.countP_eq_length]
  intro j hj
  rw [h.stack] at hj
  obtain ⟨x, hx, rfl⟩ := List.mem_map.mp hj
  exact (lirValue_eq_some.mp (h.lir x hx)).1.2

theorem Fills.untracked (h : a.Fills lirs) (hk : k ∉ lirs.map Prod.fst) : ¬a.Tracked k := by
  simpa [Tracked, h.stack, h.queue] using hk

theorem Fills.request (h : a.Fills lirs) (stable : a.Stable) (hk : k ∉ lirs.map Prod.fst)
    (hlimit : lirs.length < a.lirsLimit.toNat) (hb : a.request k (some value) = some (evicted, b)) :
    b.Fills (lirs ++ [(k, value)]) := by
  have hkept := fun x hx => request_lirValue stable (h.untracked hk) hb (h.lir x hx)
  rw [Lirs.request, if_pos ⟨h.lirCount ▸ hlimit, h.queue⟩, Option.some_inj, Prod.mk.injEq] at hb
  obtain ⟨-, rfl⟩ := hb
  refine ⟨by simp [Lirs.addLir, h.stack], h.queue, fun x hx => ?_⟩
  rcases List.mem_append.mp hx with hx | hx
  · exact hkept x hx
  · rw [List.mem_singleton.mp hx, lirValue_eq_some]
    simp [Lirs.addLir]

/-- The keys `lirs` of a loop have become LIR keys.  The others come in the order `turn`, and of these
only the keys `seen` can be in the stack. -/
structure Loops (a : Lirs Key V) (lirs : List (Key × V)) (seen turn : List Key) : Prop where
  limit : lirs.length = a.lirsLimit.toNat
  long : a.cacheSize < lirs.length + turn.length
  nodup : (lirs.map Prod.fst ++ turn).Nodup
  lir : ∀ x ∈ lirs, a.lirValue x.1 = some (some x.2)
  stack : ∀ j ∈ a.stack, j ∈ lirs.map Prod.fst ∨ j ∈ seen
  queue : a.queue <:+ turn.tail

theorem Fills.loops (h : a.Fills lirs) (hlimit : lirs.length = a.lirsLimit.toNat)
    (hlong : a.cacheSize < lirs.length + turn.length) (nodup : (lirs.map Prod.fst ++ turn).Nodup) :
    a.Loops lirs [] turn where
  limit := hlimit
  long := hlong
  nodup := nodup
  lir := h.lir
  stack _ hj := .inl (h.stack ▸ hj)
  queue := h.queue ▸ List.nil_suffix

namespace Loops

theorem perm (h : a.Loops lirs seen turn) (stable : a.Stable) :
    (lirs.map Prod.fst).Perm (a.stack.filter fun j => (a.info j).isLIR) := by
  have hsub : (lirs.map Prod.fst).Subperm (a.stack.filter fun j => (a.info j).isLIR) := by
    refine List.Nodup.subperm (List.nodup_append.mp h.nodup).1 fun j hj => ?_
    obtain ⟨x, hx, rfl⟩ := List.mem_map.mp hj
    exact List.mem_filter.mpr (lirValue_eq_some.mp (h.lir x hx)).1
  refine hsub.perm_of_length_le ?_
  have hle := stable.lirs_le
  rwa [lirCount, List.countP_eq_length_filter, ← h.limit, ← List.length_map (f := Prod.fst)] at hle

theorem lirCount_eq (h : a.Loops lirs seen turn) (stable : a.Stable) : a.lirCount = lirs.length := by
  rw [lirCount, List.countP_eq_length_filter, ← (h.perm stable).length_eq, List.length_map]

/-- The next key has not been in the stack since the LIR keys came by, and has left the queue. -/
theorem untracked (h : a.Loops lirs seen (k :: turn)) (hk : k ∉ seen) : ¬a.Tracked k := by
  obtain ⟨-, hturn, hapart⟩ := List.nodup_append.mp h.nodup
  rintro (hs | hq)
  · rcases h.stack k hs with hlir | hseen
    · exact hapart k hlir k List.mem_cons_self rfl
    · exact hk hseen
  · exact (List.nodup_cons.mp hturn).1 (h.queue.subset hq)

theorem request (h : a.Loops lirs seen (k :: turn)) (stable : a.Stable) (he : a.Exact)
    (hk : k ∉ seen) (hb : a.request k (some value) = some (evicted, b)) :
    b.Loops lirs (seen ++ [k]) (turn ++ [k]) := by
  have huntracked := h.untracked hk
  have hcount := h.lirCount_eq stable
  have hperm : (turn ++ [k]).Perm (k :: turn) := List.perm_append_singleton k turn
  have hlong := h.long
  obtain ⟨-, hsize, hlimit, -⟩ := stable.request huntracked _ hb
  obtain ⟨⟨rest, hrest, hroom, hqueue⟩, hstack⟩ := request_queued stable.wf huntracked he.residents_le
    (fun hfirst => absurd hfirst.1 (by rw [hcount, h.limit]; exact lt_irrefl _)) hb
  have hturn : a.queue <:+ turn := h.queue
  rw [List.length_cons] at hlong
  refine ⟨h.limit.trans (by rw [hlimit]), ?_, ?_, ?_, ?_, ?_⟩
  · rw [hsize, hperm.length_eq, List.length_cons]
    exact hlong
  · exact (hperm.append_left _).nodup_iff.mpr h.nodup
  · exact fun x hx => request_lirValue stable huntracked hb (h.lir x hx)
  · intro j hj
    rw [List.mem_append, List.mem_singleton, ← or_assoc]
    exact (hstack j hj).imp_left (h.stack j)
  · rw [hqueue]
    exact Recency.suffix_turn hturn hrest (by omega) k

theorem hitLir (h : a.Loops lirs seen turn) (stable : a.Stable) (hk : k ∈ lirs.map Prod.fst) :
    (a.hitLir k).Loops lirs seen turn := by
  obtain ⟨x, hx, rfl⟩ := List.mem_map.mp hk
  have hmem := (lirValue_eq_some.mp (h.lir x hx)).1.1
  obtain ⟨-, -, -, hqueue, -, hshrinks⟩ := hitLir_spec stable.wf hmem
  refine ⟨h.limit.trans (by rw [hshrinks.lirsLimit]), hshrinks.cacheSize ▸ h.long, h.nodup, ?_, ?_,
    hqueue ▸ h.queue⟩
  · exact fun y hy => hitLir_lirValue stable.wf hmem (h.lir y hy)
  · exact fun j hj => h.stack j ((moved_perm hmem).mem_iff.mp ((hitLir_sublist a x.1).mem hj))

/-- When all LIR keys have come by, pruning has taken everything else out of the stack. -/
theorem fresh (h : a.Loops lirs seen turn) (stable : a.Stable) (rooted : a.Rooted)
    (htop : lirs.map Prod.fst <:+ a.stack) : a.Loops lirs [] turn := by
  obtain ⟨below, hstack⟩ := htop
  have hnil : below = [] := by
    cases below with
    | nil => rfl
    | cons j below =>
      have hlir := rooted j _ hstack.symm
      have hmem : j ∈ lirs.map Prod.fst := (h.perm stable).mem_iff.mpr
        (List.mem_filter.mpr ⟨by simp [← hstack], hlir⟩)
      have hnodup := stable.wf.stack_nodup
      rw [← hstack, List.cons_append, List.nodup_cons] at hnodup
      exact absurd (List.mem_append_right _ hmem) hnodup.1
  rw [hnil, List.nil_append] at hstack
  exact { h with stack := fun j hj => .inl (hstack ▸ hj) }

end Loops

/-- A key that comes by goes on top of those before. -/
theorem hitLir_top (hk : k ∈ a.stack) (hdone : done <:+ a.stack) (hnew : k ∉ done)
    (hlir : ∀ j ∈ done ++ [k], (a.info j).isLIR = true) : done ++ [k] <:+ (a.hitLir k).stack := by
  obtain ⟨below, hstack⟩ := hdone
  have hbelow : k ∈ below := by
    rw [← hstack] at hk
    exact (List.mem_append.mp hk).resolve_right hnew
  have hmoved : a.stack.erase k ++ [k] = below.erase k ++ (done ++ [k]) := by
    rw [← hstack, List.erase_append_left _ hbelow, List.append_assoc]
  unfold Lirs.hitLir
  dsimp only
  split
  · show done ++ [k] <:+ (a.stack.erase k ++ [k]).dropWhile _
    rw [hmoved, List.dropWhile_append]
    split
    · rw [List.dropWhile_eq_self_iff.mpr fun hpos => by simp [hlir _ (List.getElem_mem hpos)]]
    · exact List.suffix_append ..
  · rw [hmoved]
    exact List.suffix_append ..

end Lirs

/-! ### The cache -/

/-- A round that finds the first `limit` keys, with the values that they came in with. -/
def loopAnswers (limit : Nat) (first : List (Key × V)) : List (Option (Option V)) :=
  ((first.take limit).map fun x => some (some x.2)) ++ List.replicate (first.length - limit) none

namespace Served

variable {cache : DLIRS V} {a : Lirs Key V} {lirs done xs ys : List (Key × V)}
  {seen turn : List Key} {x : Key × V}

theorem Shows.fetch_lir (h : Shows ⟨cache, []⟩ a) {value : V}
    (hx : a.lirValue x.1 = some (some value)) :
    ∃ cache', dlirsFetch cache x = some (some (some value), cache') ∧
      Shows ⟨cache', []⟩ (a.hitLir x.1) := by
  obtain ⟨s', hcall, hs'⟩ := h.get_lir ((h.lirValue x.1).trans hx)
  obtain ⟨-, ref, hserves⟩ := h
  obtain ⟨⟨hmem, hlir⟩, -⟩ := lirValue_eq_some.mp hx
  obtain ⟨cache1, hget, -⟩ := hserves.toSim.get_lir hserves.stable.wf hmem hlir
  rw [Served.call, hget, Option.map_some, Option.some_inj, Prod.mk.injEq] at hcall
  obtain ⟨hanswer, rfl⟩ := hcall
  have hlook : cache1.look (some (ref x.1)) = some (x.1, some value) := by
    injection hanswer
  have hfound : ((some (ref x.1)).bind cache1.heap).map DLIRSEntry.value = some (some value) := by
    have hsnd := congrArg (Option.map Prod.snd) hlook
    rwa [DLIRS.look, Option.map_map] at hsnd
  refine ⟨cache1, ?_, hs'⟩
  rw [dlirsFetch, hget]
  simp only [Option.bind_eq_bind, Option.bind_some] at hfound ⊢
  rw [hfound]
  rfl

theorem Shows.fetch_miss (h : Shows ⟨cache, []⟩ a) (hk : ¬a.Tracked x.1) : ∃ cache' evicted b,
    dlirsFetch cache x = some (none, cache') ∧ a.request x.1 (some x.2) = some (evicted, b) ∧
      Shows ⟨cache', []⟩ b := by
  have hserved := h
  obtain ⟨-, ref, hserves⟩ := hserved
  have hkey : cache.hasKey x.1 = false := by
    rw [← Bool.not_eq_true, Tracks.hasKey_iff hserves.toSim hserves.stable.wf]
    exact hk
  have permits : Served.Permits ⟨cache, []⟩ (.request x.1 x.2) := hkey
  obtain ⟨o, s', b, hs, ha, h'⟩ := h.request permits
  obtain ⟨r, hr, heq⟩ := Option.map_eq_some_iff.mp hs
  cases heq
  obtain ⟨⟨evicted, b'⟩, hb, heq⟩ := Option.map_eq_some_iff.mp ha
  obtain rfl : b' = b := congrArg Prod.snd heq
  have hlast : Shows ⟨dlirsEntryDestroy r.cache r.evicted, []⟩ b' := by
    cases hevicted : r.evicted with
    | none =>
      rw [hevicted] at h'
      exact h'
    | some i =>
      rw [hevicted] at h'
      obtain ⟨s'', hs'', hshows⟩ := h'.release (r := i) (by simp)
      obtain ⟨-, hs''⟩ := Option.ite_none_right_eq_some.mp hs''
      cases hs''
      simpa using hshows
  refine ⟨_, evicted, b', ?_, hb, hlast⟩
  rw [dlirsFetch, hserves.toSim.get_untracked hk, Option.bind_eq_bind, Option.bind_some]
  simp only [Option.isSome_none, Bool.false_eq_true, if_false]
  rw [show dlirsEntryDestroy cache none = cache from rfl, hr]
  rfl

/-- The first keys come in, by induction on them. -/
theorem Shows.fill (h : Shows ⟨cache, []⟩ a) (hfills : a.Fills lirs)
    (hlimit : lirs.length + xs.length ≤ a.lirsLimit.toNat)
    (nodup : ((lirs ++ xs).map Prod.fst).Nodup) : ∃ cache' b,
    Servers.serve dlirsFetch cache xs = some (List.replicate xs.length none, cache') ∧
      Shows ⟨cache', []⟩ b ∧ b.Fills (lirs ++ xs) ∧ b.lirsLimit = a.lirsLimit ∧
      b.cacheSize = a.cacheSize := by
  induction xs generalizing cache a lirs with
  | nil => exact ⟨cache, a, rfl, h, by rwa [List.append_nil], rfl, rfl⟩
  | cons x xs ih =>
    rw [List.length_cons] at hlimit
    have hnew : x.1 ∉ lirs.map Prod.fst := fun hmem => by
      rw [List.map_append] at nodup
      exact (List.nodup_append.mp nodup).2.2 x.1 hmem x.1 (by simp) rfl
    obtain ⟨cache1, evicted, b, hfetch, hb, h1⟩ := h.fetch_miss (hfills.untracked hnew)
    obtain ⟨-, ref, hserves⟩ := h
    obtain ⟨-, hsize, hsame, -⟩ := hserves.stable.request (hfills.untracked hnew) _ hb
    have hnext := hfills.request hserves.stable hnew (by omega) hb
    obtain ⟨cache', c, hserve, h', hlast, hlimit', hsize'⟩ := ih h1 hnext
      (by rw [List.length_append, List.length_singleton, hsame]; omega)
      (by rwa [List.append_assoc, List.singleton_append])
    refine ⟨cache', c, Servers.serve_cons hfetch hserve, h', ?_, hlimit'.trans hsame,
      hsize'.trans hsize⟩
    rwa [List.append_assoc, List.singleton_append] at hlast

/-- The keys that are not LIR keys come in turn, and none of them is found. -/
theorem Shows.misses (h : Shows ⟨cache, []⟩ a)
    (hloops : a.Loops lirs seen (xs.map Prod.fst ++ seen)) : ∃ cache' b,
    Servers.serve dlirsFetch cache xs = some (List.replicate xs.length none, cache') ∧
      Shows ⟨cache', []⟩ b ∧ b.Loops lirs (seen ++ xs.map Prod.fst) (seen ++ xs.map Prod.fst) := by
  induction xs generalizing cache a seen with
  | nil => exact ⟨cache, a, rfl, h, by simpa using hloops⟩
  | cons x xs ih =>
    rw [List.map_cons, List.cons_append] at hloops
    have hnew : x.1 ∉ seen := fun hmem =>
      (List.nodup_cons.mp (List.nodup_append.mp hloops.nodup).2.1).1 (List.mem_append_right _ hmem)
    obtain ⟨cache1, evicted, b, hfetch, hb, h1⟩ := h.fetch_miss (hloops.untracked hnew)
    obtain ⟨hsmall, ref, hserves⟩ := h
    have hnext := hloops.request hserves.stable (hserves.exact hsmall) hnew hb
    rw [List.append_assoc] at hnext
    obtain ⟨cache', c, hserve, h', hlast⟩ := ih h1 hnext
    refine ⟨cache', c, Servers.serve_cons hfetch hserve, h', ?_⟩
    rwa [List.append_assoc] at hlast

/-- The LIR keys come by and are found, from those behind `done` on. -/
theorem Shows.finds (h : Shows ⟨cache, []⟩ a) (hloops : a.Loops (done ++ xs) seen turn)
    (hkeys : ys.map Prod.fst = xs.map Prod.fst) (htop : done.map Prod.fst <:+ a.stack) :
    ∃ cache' b, Servers.serve dlirsFetch cache ys =
        some (xs.map fun x => some (some x.2), cache') ∧
      Shows ⟨cache', []⟩ b ∧ b.Loops (done ++ xs) [] turn := by
  induction xs generalizing cache a done ys with
  | nil =>
    obtain rfl : ys = [] := by simpa using hkeys
    obtain ⟨-, ref, hserves⟩ := id h
    rw [List.append_nil] at hloops
    exact ⟨cache, a, rfl, h, by
      rw [List.append_nil]
      exact hloops.fresh hserves.stable hserves.founded.rooted htop⟩
  | cons x xs ih =>
    obtain ⟨y, ys, rfl, hy, hys⟩ := List.map_eq_cons_iff.mp hkeys
    have hx := hloops.lir x (by simp)
    obtain ⟨cache1, hfetch, h1⟩ := h.fetch_lir (x := y) (hy ▸ hx)
    obtain ⟨-, ref, hserves⟩ := h
    rw [hy] at h1
    have hnodup := (List.nodup_append.mp hloops.nodup).1
    rw [List.map_append] at hnodup
    have hnew : x.1 ∉ done.map Prod.fst := fun hmem =>
      (List.nodup_append.mp hnodup).2.2 x.1 hmem x.1 (by simp) rfl
    have hmem := (lirValue_eq_some.mp hx).1.1
    have hnext := hloops.hitLir hserves.stable (k := x.1) (by simp)
    have htop' := hitLir_top hmem htop hnew (by
      intro j hj
      obtain ⟨z, hz, rfl⟩ : ∃ z ∈ done ++ x :: xs, z.1 = j := by
        rcases List.mem_append.mp hj with hj | hj
        · obtain ⟨z, hz, rfl⟩ := List.mem_map.mp hj
          exact ⟨z, by simp [hz], rfl⟩
        · exact ⟨x, by simp, (List.mem_singleton.mp hj).symm⟩
      exact (lirValue_eq_some.mp (hloops.lir z hz)).1.2)
    rw [List.append_cons] at hnext
    obtain ⟨cache', b, hserve, h', hlast⟩ := ih h1 hnext hys (by simpa using htop')
    rw [← List.append_cons] at hlast
    exact ⟨cache', b, Servers.serve_cons hfetch hserve, h', hlast⟩

/-- A round of the loop. -/
theorem Shows.round (h : Shows ⟨cache, []⟩ a) (hloops : a.Loops lirs turn turn)
    (hkeys : xs.map Prod.fst = lirs.map Prod.fst ++ turn) : ∃ cache' b,
    Servers.serve dlirsFetch cache xs =
        some ((lirs.map fun x => some (some x.2)) ++ List.replicate turn.length none, cache') ∧
      Shows ⟨cache', []⟩ b ∧ b.Loops lirs turn turn := by
  obtain ⟨ys, zs, rfl, hys, rfl⟩ := List.map_eq_append_iff.mp hkeys
  have hstart : a.Loops ([] ++ lirs) (zs.map Prod.fst) (zs.map Prod.fst) := hloops
  obtain ⟨cache1, b, hserve1, h1, hfresh⟩ := h.finds hstart hys List.nil_suffix
  obtain ⟨cache', c, hserve, h', hlast⟩ := h1.misses (by
    rw [List.append_nil]
    exact hfresh)
  refine ⟨cache', c, ?_, h', hlast⟩
  rw [List.length_map]
  exact Servers.serve_followed hserve1 hserve

theorem Shows.rounds (h : Shows ⟨cache, []⟩ a) (hloops : a.Loops lirs turn turn)
    {rounds : List (List (Key × V))}
    (hkeys : ∀ round ∈ rounds, round.map Prod.fst = lirs.map Prod.fst ++ turn) : ∃ cache',
    Servers.serve dlirsFetch cache rounds.flatten = some ((rounds.map fun _ =>
      (lirs.map fun x => some (some x.2)) ++ List.replicate turn.length none).flatten, cache') := by
  induction rounds generalizing cache a with
  | nil => exact ⟨cache, rfl⟩
  | cons xs rounds ih =>
    obtain ⟨cache1, b, hserve1, h1, hloops1⟩ := h.round hloops (hkeys xs List.mem_cons_self)
    obtain ⟨cache', hserve⟩ := ih h1 hloops1 fun ys hys => hkeys ys (List.mem_cons_of_mem _ hys)
    exact ⟨cache', Servers.serve_followed hserve1 hserve⟩

/-- The first keys of the first round become LIR keys. -/
theorem Shows.loop (h : Shows ⟨cache, []⟩ a) (hfills : a.Fills []) (he : a.Exact)
    {first : List (Key × V)} {rounds : List (List (Key × V))} (nodup : (first.map Prod.fst).Nodup)
    (hlong : a.cacheSize < first.length)
    (hkeys : ∀ round ∈ rounds, round.map Prod.fst = first.map Prod.fst) :
    ∃ cache', Servers.serve dlirsFetch cache (first :: rounds).flatten =
      some (List.replicate first.length none ++ (rounds.map fun _ =>
        loopAnswers a.lirsLimit.toNat first).flatten, cache') := by
  have hsum := he.sum
  have hhirs := he.hirs_pos
  have htake : (first.take a.lirsLimit.toNat).length = a.lirsLimit.toNat :=
    List.length_take_of_le (by omega)
  have hsplit : (first.take a.lirsLimit.toNat).map Prod.fst ++
      (first.drop a.lirsLimit.toNat).map Prod.fst = first.map Prod.fst := by
    rw [← List.map_append, List.take_append_drop]
  have hfits : ([] : List (Key × V)).length + (first.take a.lirsLimit.toNat).length ≤
      a.lirsLimit.toNat := by rw [List.length_nil, htake, Nat.zero_add]
  obtain ⟨cache1, b, hserve1, h1, hfilled, hlimit, hsize⟩ :=
    h.fill hfills hfits (nodup.sublist ((List.take_sublist _ _).map _))
  rw [List.nil_append] at hfilled
  have hloops : b.Loops (first.take a.lirsLimit.toNat) []
      ((first.drop a.lirsLimit.toNat).map Prod.fst ++ []) := by
    rw [List.append_nil]
    refine hfilled.loops (by rw [htake, hlimit]) ?_ (by rwa [hsplit])
    rw [hsize, htake, List.length_map, List.length_drop]
    omega
  obtain ⟨cache2, c, hserve2, h2, hloops2⟩ := h1.misses hloops
  obtain ⟨cache', hserve⟩ := h2.rounds hloops2 fun round hround =>
    (hkeys round hround).trans hsplit.symm
  have hround := Servers.serve_followed (Servers.serve_followed hserve1 hserve2) hserve
  rw [List.take_append_drop, List.replicate_append_replicate, ← List.length_append,
    List.take_append_drop] at hround
  refine ⟨cache', ?_⟩
  rw [List.flatten_cons, hround]
  simp only [loopAnswers, List.nil_append, List.length_map, List.length_drop]

end Served

/-! ### Loops -/

/-- An LRU cache finds nothing. -/
theorem lruFetches_loop {htSize cacheSize : Nat} (hht : 1 ≤ htSize) (hsize : 1 ≤ cacheSize)
    {keys : List Key} (nodup : keys.Nodup) (hlong : cacheSize < keys.length)
    {rounds : List (List (Key × V))} (hkeys : ∀ round ∈ rounds, round.map Prod.fst = keys) :
    ∃ cache, Servers.serve lruFetch (lruCreate htSize cacheSize none) rounds.flatten =
      some (List.replicate rounds.flatten.length none, cache) := by
  obtain ⟨answers, cache, l, hserve, -, -, hhits, -⟩ :=
    HoldsRecent.fetches_create hht hsize rounds.flatten
  have huses : rounds.flatten.map Prod.fst = (List.replicate rounds.length keys).flatten := by
    rw [List.map_flatten, List.map_congr_left hkeys, List.map_const']
  have hstart : Recency.recent cacheSize ([] : List Key) <:+ keys.tail := by
    simp [Recency.recent, List.nil_suffix]
  rw [huses, Recency.hits_loop nodup hlong hstart] at hhits
  have hnone : ∀ o ∈ answers, o = none := by
    intro o ho
    have hmem := List.mem_map_of_mem (f := Option.isSome) ho
    rw [hhits] at hmem
    simpa using List.eq_of_mem_replicate hmem
  have hlength : answers.length = rounds.flatten.length := by
    rw [← List.length_map (f := Option.isSome), hhits, ← List.length_map (f := Prod.fst), huses]
    simp
  exact ⟨cache, by rw [hserve, List.eq_replicate_of_mem hnone, hlength]⟩

/-- One key more than a cache for a LIR key and a HIR key has room for. -/
def threeKeys : List (Key × Nat) := [(keyA, 1), (keyB, 2), (keyC, 3)]

end SearchCache
