import SearchCache.Cache.LirsOperations
import Mathlib.Data.List.Perm.Subperm
import Mathlib.Tactic.Linarith

/-! Below 2^24 the limits are exact integers, and with both of them at least 1 every operation
returns. -/

namespace SearchCache

/-! ### Arithmetic -/

theorem rint_intCast (n : Int) : rint n = n := by
  simp [rint, Rat.floor_intCast]

theorem rint_le {q : ℚ} {n : Int} (h : q ≤ n) : rint q ≤ n := by
  have hfloor : q.floor ≤ n := by
    have := Rat.floor_le q
    exact_mod_cast this.trans h
  have hstep : ¬q - q.floor < 1 / 2 → q.floor + 1 ≤ n := by
    intro hhalf
    by_contra hlt
    have heq : q.floor = n := by omega
    rw [heq] at hhalf
    linarith
  unfold rint
  simp only
  split
  · exact hfloor
  · rename_i hhalf
    have := hstep hhalf
    split
    · omega
    · split <;> omega

theorem rint_le_of_lt {q : ℚ} {n : Int} (h : q < n + 1 / 2) : rint q ≤ n := by
  have hfloor : q.floor ≤ n := by
    by_contra hlt
    have hle : n + 1 ≤ q.floor := by omega
    have hcast : ((n + 1 : Int) : ℚ) ≤ q := Rat.le_floor_iff.mp hle
    push_cast at hcast
    linarith
  rcases hfloor.lt_or_eq with hlt | heq
  · have : q ≤ n := by
      have hnext := Rat.lt_floor_add_one q
      have hcast : ((q.floor + 1 : Int) : ℚ) ≤ n := by exact_mod_cast hlt
      push_cast at hcast hnext
      linarith
    exact rint_le this
  · simp only [rint, heq]
    rw [if_pos (by linarith)]

theorem toFloat_eq {n : Int} (h : n.natAbs < 2 ^ 24) : toFloat n = n := by
  have hlog : n.natAbs.log2 - 23 = 0 := by
    rcases Nat.eq_zero_or_pos n.natAbs with hzero | hpos
    · rw [hzero]
      rfl
    · have := (Nat.log2_lt hpos.ne').mpr h
      omega
  simp [toFloat, hlog, rint_intCast]

theorem toFloat_nonpos {n : Int} (h : n ≤ 0) : toFloat n ≤ 0 := by
  have hle : rint ((n : ℚ) / ((2 ^ (n.natAbs.log2 - 23) : Nat) : ℚ)) ≤ 0 := by
    refine rint_le ?_
    have hn : (n : ℚ) ≤ 0 := by exact_mod_cast h
    exact div_nonpos_of_nonpos_of_nonneg hn (Nat.cast_nonneg _)
  exact Int.mul_nonpos_of_nonpos_of_nonneg hle (Int.natCast_nonneg _)

theorem toFloat_natCast (n : Nat) :
    toFloat n = rint ((n : ℚ) / (2 ^ (n.log2 - 23) : Nat)) * (2 ^ (n.log2 - 23) : Nat) := by
  simp [toFloat]

/-- Rounding keeps to an upper bound that is a multiple of the last place. -/
theorem toFloat_le_of_dvd {n : Nat} {limit : Int} (h : n ≤ limit)
    (hdvd : ((2 ^ (n.log2 - 23) : Nat) : Int) ∣ limit) : toFloat n ≤ limit := by
  obtain ⟨c, rfl⟩ := hdvd
  have hpos : (0 : ℚ) < (2 ^ (n.log2 - 23) : Nat) := by exact_mod_cast Nat.two_pow_pos _
  have hle : (n : ℚ) / (2 ^ (n.log2 - 23) : Nat) ≤ c := by
    rw [div_le_iff₀ hpos]
    have : (n : ℚ) ≤ (2 ^ (n.log2 - 23) : Nat) * c := by exact_mod_cast h
    linarith
  rw [toFloat_natCast, mul_comm]
  exact Int.mul_le_mul_of_nonneg_left (rint_le hle) (by positivity)

/-- No natural number up to a `float` is rounded past it. -/
theorem toFloat_le_toFloat {n : Nat} {m : Int} (h : n ≤ toFloat m) : toFloat n ≤ toFloat m := by
  rcases Nat.eq_zero_or_pos n with rfl | hn
  · rw [toFloat_eq (by simp)]
    exact h
  have hm : 0 < m := by
    by_contra hle
    have := toFloat_nonpos (n := m) (by omega)
    omega
  obtain ⟨m, rfl⟩ : ∃ l : Nat, m = l := ⟨m.toNat, by omega⟩
  refine toFloat_le_of_dvd h ?_
  have hlow : 2 ^ n.log2 ≤ n := Nat.log2_self_le hn.ne'
  obtain ⟨e, he⟩ : ∃ e, m.log2 - 23 = e := ⟨_, rfl⟩
  have hhigh : m < 2 ^ (e + 24) :=
    Nat.lt_log2_self.trans_le (Nat.pow_le_pow_right (by omega) (by omega))
  rw [toFloat_natCast, he] at h ⊢
  have hrint : rint ((m : ℚ) / (2 ^ e : Nat)) ≤ ((2 ^ 24 : Nat) : Int) := by
    refine rint_le ?_
    have hpos : (0 : ℚ) < (2 ^ e : Nat) := by exact_mod_cast Nat.two_pow_pos _
    rw [div_le_iff₀ hpos]
    have : (m : ℚ) ≤ (2 ^ (e + 24) : Nat) := by exact_mod_cast hhigh.le
    rw [pow_add, Nat.cast_mul, mul_comm] at this
    exact_mod_cast this
  generalize rint ((m : ℚ) / (2 ^ e : Nat)) = q at h hrint ⊢
  by_cases hd : n.log2 - 23 ≤ e
  · have hdvd : ((2 ^ (n.log2 - 23) : Nat) : Int) ∣ (2 ^ e : Nat) :=
      Int.natCast_dvd_natCast.mpr (pow_dvd_pow 2 hd)
    exact hdvd.mul_left q
  · -- The bound is the power of two above the last place of `m`.
    have hbound : q * (2 ^ e : Nat) ≤ ((2 ^ (e + 24) : Nat) : Int) := by
      rw [pow_add, Nat.mul_comm, Nat.cast_mul]
      exact Int.mul_le_mul_of_nonneg_right hrint (by positivity)
    have hpow : 2 ^ (e + 24) ≤ 2 ^ n.log2 := Nat.pow_le_pow_right (by omega) (by omega)
    have heq : q * (2 ^ e : Nat) = ((2 ^ (e + 24) : Nat) : Int) := by omega
    have hle : 2 ^ n.log2 ≤ 2 ^ (e + 24) := by omega
    have hlog : n.log2 ≤ e + 24 := (Nat.pow_le_pow_iff_right (by omega)).mp hle
    rw [heq]
    exact Int.natCast_dvd_natCast.mpr (pow_dvd_pow 2 (by omega))

theorem toInt32_eq {n : Int} (h : n.natAbs < 2 ^ 31) : toInt32 n = n :=
  Int.bmod_eq_of_le (by omega) (by omega)

theorem toInt32_lt (n : Int) : toInt32 n < 2 ^ 31 := Int.bmod_lt (by decide)

/-- A limit grows by at least 1 or to the cache size less 1. -/
theorem grownLimit_bounds {cacheSize : Nat} {limit : Int} (hsize : 2 ≤ cacheSize)
    (hlimit : 1 ≤ limit) (a b : Nat) :
    1 ≤ grownLimit cacheSize limit a b ∧ grownLimit cacheSize limit a b ≤ cacheSize - 1 := by
  unfold grownLimit
  split
  · split <;> omega
  · omega

theorem grownLimit_grows {cacheSize : Nat} (limit : Int) (a b : Nat) :
    limit + 1 ≤ grownLimit cacheSize limit a b ∨ (cacheSize : Int) - 1 ≤ limit := by
  unfold grownLimit
  split
  · split <;> omega
  · omega

namespace Lirs

variable {K V : Type} [DecidableEq K] {a b : Lirs K V} {k : K} {evicted : Option K}

/-- The limits are exact and at least 1, and the cache keeps within its size. -/
structure Exact (a : Lirs K V) : Prop where
  size_lt : a.cacheSize < 2 ^ 24
  sum : a.hirsLimit + a.lirsLimit = a.cacheSize
  hirs_pos : 1 ≤ a.hirsLimit
  lirs_pos : 1 ≤ a.lirsLimit
  residents_le : a.residents ≤ a.cacheSize

/-! ### The size of the stack -/

omit [DecidableEq K] in
theorem ghostCount_le (h : a.WF) : a.ghostCount ≤ a.hirs.length := by
  rw [ghostCount, List.countP_eq_length_filter]
  refine (List.Nodup.subperm (h.stack_nodup.filter _) fun j hj => ?_).length_le
  obtain ⟨hmem, hghost⟩ := List.mem_filter.mp hj
  rw [h.mem_hirs]
  refine ⟨hmem, ?_⟩
  cases hlir : (a.info j).isLIR with
  | false => rfl
  | true => simp [h.lir_cached j hmem hlir] at hghost

omit [DecidableEq K] in
/-- A HIR key of the stack is a ghost or resident. -/
theorem hirs_length_le (h : a.WF) : a.hirs.length ≤ a.ghostCount + a.queue.length := by
  have hsplit := List.length_eq_countP_add_countP (fun j => !(a.info j).inCache) (l := a.hirs)
  have hghosts : a.hirs.countP (fun j => !(a.info j).inCache) ≤ a.ghostCount :=
    (List.Nodup.subperm h.hirs_nodup fun j hj => ((h.mem_hirs j).mp hj).1).countP_le _
  have hqueue : a.hirs.countP (fun j => ¬(!(a.info j).inCache) = true) ≤ a.queue.length := by
    rw [List.countP_eq_length_filter]
    refine (List.Nodup.subperm (h.hirs_nodup.filter _) fun j hj => ?_).length_le
    obtain ⟨hmem, hcached⟩ := List.mem_filter.mp hj
    obtain ⟨hstack, hlir⟩ := (h.mem_hirs j).mp hmem
    exact h.resident j hstack hlir (by simpa using hcached)
  omega

omit [DecidableEq K] in
/-- Without wrapping around. -/
theorem excess_eq (h : a.WF) (hsize : a.cacheSize < 2 ^ 24) (hres : a.residents ≤ a.cacheSize)
    (hlength : a.hirs.length ≤ 2 * a.cacheSize + 1) :
    a.excess = a.residents + a.ghostCount - 2 * a.cacheSize := by
  have hghosts := ghostCount_le h
  rw [residents] at hres
  have hsmall : ∀ n : Nat, n < 2 ^ 31 → toInt32 n = n := fun n hn => toInt32_eq (by omega)
  rw [excess, hsmall a.queue.length (by omega), hsmall a.lirCount (by omega),
    hsmall a.ghostCount (by omega), hsmall a.cacheSize (by omega), toInt32_eq (by omega), residents]
  omega

omit [DecidableEq K] in
/-- There are at least as many HIR keys in the stack, even where the sum wraps around. -/
theorem excess_le (h : a.WF) (hsize : a.cacheSize < 2 ^ 24) (hres : a.residents ≤ a.cacheSize) :
    a.excess ≤ a.hirs.length := by
  have hghosts := ghostCount_le h
  by_cases hsmall : a.ghostCount < 2 ^ 31
  · rw [residents] at hres
    have hnat : ∀ n : Nat, n < 2 ^ 31 → toInt32 n = n := fun n hn => toInt32_eq (by omega)
    rw [excess, hnat a.queue.length (by omega), hnat a.lirCount (by omega),
      hnat a.ghostCount hsmall, hnat a.cacheSize (by omega), toInt32_eq (by omega)]
    omega
  · have hlt := toInt32_lt (toInt32 a.queue.length + toInt32 a.lirCount + toInt32 a.ghostCount -
      toInt32 a.cacheSize * 2)
    rw [excess]
    omega

/-! ### Progress -/

theorem demoteAll_progress (hlimit : 1 ≤ a.lirsLimit) : ∃ b, a.demoteAll = some b := by
  rw [demoteAll, if_neg (by omega)]
  exact ⟨_, rfl⟩

theorem makeRoom_progress (hqueue : a.cacheSize ≤ a.residents → a.queue ≠ []) :
    ∃ r, a.makeRoom = some r := by
  rw [makeRoom]
  split
  · rename_i hfull
    obtain ⟨k, rest, hk⟩ := List.exists_cons_of_ne_nil (hqueue hfull)
    exact ⟨_, by rw [evict, hk]; rfl⟩
  · exact ⟨_, rfl⟩

theorem limitStack_progress (h : a.WF) (hsize : a.cacheSize < 2 ^ 24)
    (hres : a.residents ≤ a.cacheSize) : ∃ b, a.limitStack = some b :=
  ⟨_, if_pos (excess_le h hsize hres)⟩

omit [DecidableEq K] in
/-- The limits of a cache whose ghost is hit. -/
theorem grow_limits (hsize : a.cacheSize < 2 ^ 24) (hsum : a.hirsLimit + a.lirsLimit = a.cacheSize)
    (hhirs : 1 ≤ a.hirsLimit) (hlirs : 1 ≤ a.lirsLimit) :
    a.grow.hirsLimit + a.grow.lirsLimit = a.cacheSize ∧ 1 ≤ a.grow.hirsLimit ∧
      1 ≤ a.grow.lirsLimit := by
  obtain ⟨hlow, hhigh⟩ := grownLimit_bounds (show 2 ≤ a.cacheSize by omega) hhirs
    a.demoted a.ghostCount
  generalize hgrown : grownLimit a.cacheSize a.hirsLimit a.demoted a.ghostCount = limit
    at hlow hhigh
  have hlimit : toFloat limit = limit := toFloat_eq (by omega)
  have hcache : toFloat a.cacheSize = a.cacheSize := toFloat_eq (by omega)
  have hdiff : toFloat (a.cacheSize - limit) = a.cacheSize - limit := toFloat_eq (by omega)
  have h1 : a.grow.hirsLimit = limit := by simp only [grow, hgrown, hlimit]
  have h2 : a.grow.lirsLimit = a.cacheSize - limit := by
    simp only [grow, hgrown, hlimit, hcache, hdiff]
  omega

theorem promote_limits (he : a.Exact) (k : K) :
    (a.promote k).hirsLimit + (a.promote k).lirsLimit = a.cacheSize ∧
      1 ≤ (a.promote k).hirsLimit ∧ 1 ≤ (a.promote k).lirsLimit := by
  have hp := promote_promotes a k
  cases hcached : (a.info k).inCache with
  | true =>
    rw [(hp.limits hcached).1, (hp.limits hcached).2]
    exact ⟨he.sum, he.hirs_pos, he.lirs_pos⟩
  | false =>
    rw [(hp.grown hcached).1, (hp.grown hcached).2]
    exact grow_limits he.size_lt he.sum he.hirs_pos he.lirs_pos

/-- A hit on a resident HIR key leaves the limits, and finds room where the key was. -/
theorem hitHir_progress (h : a.Stable) (hf : a.Founded) (hk : k ∈ a.stack)
    (hlir : (a.info k).isLIR = false) (hcached : (a.info k).inCache = true) :
    ∃ r, a.hitHir k = some r := by
  have hp := promote_promotes a k
  obtain ⟨hwf, -⟩ := h.wf.promote k
  obtain ⟨hcount, hrooted, hqueue⟩ := promote_spec h.wf hk hlir
  have hres := h.residents_le.resolve_left (List.ne_nil_of_mem (h.wf.resident k hk hlir hcached))
  have hpos := hf.limit_pos
  obtain ⟨a1, ha1⟩ := demoteAll_progress (a := a.promote k) (by
    rw [(hp.limits hcached).2]
    omega)
  obtain ⟨-, -, -, hresidents, -, hshrinks⟩ := demoteAll_spec hwf (hrooted hf.rooted) ha1
  obtain ⟨⟨e, a2⟩, ha2⟩ := makeRoom_progress (a := a1) fun hfull => by
    rw [hresidents, hshrinks.cacheSize, hp.cacheSize, residents, hcount] at hfull
    rw [hcached, if_pos rfl] at hqueue
    rw [residents] at hres
    omega
  exact ⟨_, by simp only [hitHir, ha1, ha2, Option.bind_eq_bind, Option.bind_some]; rfl⟩

theorem get_progress (h : a.Stable) (rooted : a.Rooted) (he : a.Exact) :
    ∃ r, a.get k = some r := by
  unfold get
  split
  · rename_i hk
    split
    · exact ⟨_, rfl⟩
    · rename_i hlir
      rw [Bool.not_eq_true] at hlir
      have hp := promote_promotes a k
      obtain ⟨hsum, hhirs, hlirs⟩ := promote_limits he k
      obtain ⟨hwf, -⟩ := h.wf.promote k
      obtain ⟨-, hrooted, -⟩ := promote_spec h.wf hk hlir
      obtain ⟨a1, ha1⟩ := demoteAll_progress hlirs
      obtain ⟨-, -, hlt, -, -, hshrinks⟩ := demoteAll_spec hwf (hrooted rooted) ha1
      obtain ⟨⟨e, a2⟩, ha2⟩ := makeRoom_progress (a := a1) fun hfull hnil => by
        have hc := hshrinks.cacheSize.trans hp.cacheSize
        have hl := hshrinks.lirsLimit
        rw [residents, hnil, List.length_nil] at hfull
        omega
      exact ⟨_, by simp only [hitHir, ha1, ha2, Option.bind_eq_bind, Option.bind_some]; rfl⟩
  · exact ⟨_, rfl⟩

/-- The state of a request before the stack limit. -/
theorem makeRoom_addHir (h : a.Stable) (he : a.Exact) (hk : ¬a.Tracked k) (value : Option V)
    (hb : a.makeRoom = some (evicted, b)) :
    (b.addHir k value).WF ∧ (b.addHir k value).cacheSize < 2 ^ 24 ∧
      (b.addHir k value).residents ≤ (b.addHir k value).cacheSize := by
  obtain ⟨hwf, -, -, hsize, -, -, -, -, htracked, -, hroom⟩ := makeRoom_spec h.wf hb
  have hk' : ¬b.Tracked k := fun hk' => hk (htracked k hk')
  have hlirs := addHir_lirCount (fun hs => hk' (.inl hs)) value
  have hsame : (b.addHir k value).cacheSize = a.cacheSize := hsize
  have hres := hroom he.residents_le
  have hsmall := he.size_lt
  refine ⟨hwf.addHir hk' value, by omega, ?_⟩
  rw [residents] at hres ⊢
  have : (b.addHir k value).queue.length = b.queue.length + 1 := by simp [addHir]
  omega

theorem request_progress (h : a.Stable) (he : a.Exact) (hk : ¬a.Tracked k) (value : Option V) :
    ∃ r, a.request k value = some r := by
  unfold request
  split
  · exact ⟨_, rfl⟩
  · obtain ⟨⟨e, a1⟩, ha1⟩ := makeRoom_progress (a := a) fun hfull hnil => by
      rw [residents, hnil, List.length_nil] at hfull
      have hle := h.lirs_le
      have hhirs := he.hirs_pos
      have hlirs := he.lirs_pos
      have hsum := he.sum
      omega
    obtain ⟨hwf, hsize, hres⟩ := makeRoom_addHir h he hk value ha1
    obtain ⟨b, hb⟩ := limitStack_progress hwf hsize hres
    refine ⟨(e, b), ?_⟩
    rw [ha1, Option.bind_eq_bind, Option.bind_some]
    dsimp only
    rw [hb, Option.bind_eq_bind, Option.bind_some]
    rfl

/-- Where no LIR key is allowed, the first key is a HIR key. -/
theorem request_empty (h : a.WF) (hstack : a.stack = []) (hqueue : a.queue = [])
    (hsize : 1 ≤ a.cacheSize) (hsmall : a.cacheSize < 2 ^ 24) (hlimit : a.lirsLimit = 0) (k : K)
    (value : Option V) : a.request k value = some (none, a.addHir k value) := by
  have hk : ¬a.Tracked k := by simp [Tracked, hstack, hqueue]
  have hlirs : a.lirCount = 0 := by simp [lirCount, hstack]
  have hhirs : a.hirs = [] := List.eq_nil_iff_forall_not_mem.mpr fun j hj => by
    simpa [hstack] using ((h.mem_hirs j).mp hj).1
  have hres : a.residents = 0 := by simp [residents, hqueue, hlirs]
  have hmake : a.makeRoom = some (none, a) := by rw [makeRoom, if_neg (by omega)]
  have hnew : (a.addHir k value).residents = 1 := by
    rw [residents, addHir_lirCount (by simp [hstack]), hlirs]
    simp [addHir, hqueue]
  have hghosts : (a.addHir k value).ghostCount = 0 := by simp [ghostCount, addHir, hstack]
  have hexcess : (a.addHir k value).excess = 0 := by
    have hsame : (a.addHir k value).cacheSize = a.cacheSize := rfl
    rw [excess_eq (h.addHir hk value) hsmall (by omega) (by simp [addHir, hhirs]), hnew, hghosts]
    omega
  have hstay : (a.addHir k value).limitStack = some (a.addHir k value) := by
    rw [limitStack, hexcess, if_pos (Nat.zero_le _)]
    rfl
  rw [Lirs.request, if_neg (by omega), hmake, Option.bind_eq_bind, Option.bind_some]
  dsimp only
  rw [hstay]
  rfl

/-! ### The limits stay exact -/

omit [DecidableEq K] in
theorem HitsHir.exact (hs : HitsHir a k b) (he : a.Exact) : b.Exact := by
  have hlimits : b.hirsLimit + b.lirsLimit = a.cacheSize ∧ 1 ≤ b.hirsLimit ∧ 1 ≤ b.lirsLimit := by
    cases hcached : (a.info k).inCache with
    | true =>
      rw [(hs.limits hcached).1, (hs.limits hcached).2]
      exact ⟨he.sum, he.hirs_pos, he.lirs_pos⟩
    | false =>
      rw [(hs.grown hcached).1, (hs.grown hcached).2]
      exact grow_limits he.size_lt he.sum he.hirs_pos he.lirs_pos
  exact ⟨hs.cacheSize ▸ he.size_lt, by rw [hlimits.1, hs.cacheSize], hlimits.2.1, hlimits.2.2,
    hs.residents_le⟩

theorem Exact.hitLir (h : a.WF) (he : a.Exact) (hk : k ∈ a.stack) : (a.hitLir k).Exact := by
  obtain ⟨-, -, hcount, hqueue, -, hs⟩ := hitLir_spec h hk
  refine ⟨hs.cacheSize ▸ he.size_lt, ?_, hs.hirsLimit ▸ he.hirs_pos, hs.lirsLimit ▸ he.lirs_pos, ?_⟩
  · rw [hs.hirsLimit, hs.lirsLimit, hs.cacheSize]
    exact he.sum
  · rw [residents, hcount, hqueue, hs.cacheSize]
    exact he.residents_le

theorem Exact.get (h : a.Stable) (he : a.Exact) (hl : a.Lookup k)
    (hb : a.get k = some (evicted, b)) : b.Exact := by
  unfold Lirs.get at hb
  split at hb
  · rename_i hk
    split at hb
    · cases hb
      exact he.hitLir h.wf hk
    · rename_i hlir
      rw [Bool.not_eq_true] at hlir
      exact (hitHir_spec h.wf (hl.rooted hk hlir) (h.room hl hk hlir) hk hlir hb).exact he
  · cases hb
    exact he

theorem Exact.request (h : a.Stable) (he : a.Exact) (hk : ¬a.Tracked k) (value : Option V)
    (hb : a.request k value = some (evicted, b)) : b.Exact := by
  obtain ⟨-, hsize, hlirs, hhirs, hres, -⟩ := h.request hk value hb
  have hlt : b.residents ≤ b.cacheSize := hres he.residents_le fun _ hlt => by
    have := he.sum
    have := he.hirs_pos
    omega
  exact ⟨hsize ▸ he.size_lt, by rw [hlirs, hhirs, hsize]; exact he.sum, hhirs ▸ he.hirs_pos,
    hlirs ▸ he.lirs_pos, hlt⟩

end Lirs

end SearchCache
