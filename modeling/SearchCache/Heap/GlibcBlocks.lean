import SearchCache.Heap.GlibcHeap

/-! What the functions that store headers do to the list of chunks: marking a chunk, joining it with
the next one, cutting it and growing the heap by a new one. -/

namespace Gca

open Memory Htfh Chunks Linked

variable {l l' before mid after N : List Chunk} {top s t : Nat} {fl E : List Nat}
  {a a' : GlibcAllocator} {b c d : Chunk} {u : Bool}

/-- The words of the headers. -/
def Boundary (l : List Chunk) (top A : Nat) : Prop :=
  A = top + 8 ∨ ∃ c ∈ l, A = c.addr + 8 ∨ A = c.stop 16

/-- New chunks in the place of `mid`. -/
theorem Tagged.relayout (mid : List Chunk) (a' : GlibcAllocator)
    (h : Tagged (before ++ (mid ++ after)) top a) (hold : ∀ r, Tiles 16 r (mid ++ after) top → r = s ∧ Tiles 16 t after top)
    (hnew : Tiles 16 s N t) (hsized : Sized 16 N) (hstores : Stores E a.mem a'.mem)
    (hE : ∀ A ∈ E, s + 8 ≤ A ∧ A ≤ t)
    (hregion : a'.heap = a.heap ∧ a'.heapSize = a.heapSize ∧ a'.currentBrk = a.currentBrk)
    (hstored : ∀ c ∈ N, tagAt a'.mem (c.addr + 8) = tagOf c ∧ tagAt a'.mem (c.stop 16) = tagOf c) :
    Tagged (before ++ (N ++ after)) top a' := by
  obtain ⟨r, hbefore, hrest⟩ := tiles_append.mp h.tiles
  obtain ⟨rfl, hafter⟩ := hold r hrest
  have hsame : ∀ A, A + 8 ≤ r + 8 ∨ t + 8 ≤ A → tagAt a'.mem A = tagAt a.mem A := fun A hA =>
    congrArg toTag (read64_congr fun x hx hlt => hstores x fun B hB => by
      have := hE B hB
      omega)
  have hsplit := sized_append.mp h.sized
  have hlow : a.heap ≤ r := hbefore.le
  have hhigh : t ≤ top := hafter.le
  refine
    { pos := hregion.1 ▸ h.pos
      dvd := hregion.1 ▸ h.dvd
      room := by rw [hregion.1, hregion.2.1]; exact h.room
      brk := hregion.2.2.trans h.brk
      within := by rw [hregion.2.2, hregion.1, hregion.2.1]; exact h.within
      tiles := ?_
      sized := ?_
      bottom := ?_
      sentinel := ?_
      head := ?_
      foot := ?_ }
  · rw [hregion.1]
    exact tiles_append.mpr ⟨r, hbefore, tiles_append.mpr ⟨t, hnew, hafter⟩⟩
  · exact sized_append.mpr ⟨hsplit.1, sized_append.mpr ⟨hsized, (sized_append.mp hsplit.2).2⟩⟩
  · rw [hregion.1, hsame _ (.inl (by omega))]
    exact h.bottom
  · rw [hsame _ (.inr (by omega))]
    exact h.sentinel
  · intro c hc
    rcases List.mem_append.mp hc with hc | hc
    · have hbound := (hbefore.bounds hc).2
      rw [hsame _ (.inl (by simp only [Chunk.stop] at hbound; omega))]
      exact h.head c (by simp [hc])
    rcases List.mem_append.mp hc with hc | hc
    · exact (hstored c hc).1
    · have hbound := (hafter.bounds hc).1
      rw [hsame _ (.inr (by omega))]
      exact h.head c (by simp [hc])
  · intro c hc
    rcases List.mem_append.mp hc with hc | hc
    · have hbound := (hbefore.bounds hc).2
      rw [hsame _ (.inl (by omega))]
      exact h.foot c (by simp [hc])
    rcases List.mem_append.mp hc with hc | hc
    · exact (hstored c hc).2
    · have hbound := (hafter.bounds hc).1
      have hsize := (h.sized c (by simp [hc])).1
      rw [hsame _ (.inr (by simp only [Chunk.stop]; omega))]
      exact h.foot c (by simp [hc])

/-- Stores to headers keep the free list and the payloads. -/
theorem Tagged.rep (h : Tagged l' top a') (hlisted : Listed fl l a) (hstores : Stores E a.mem a'.mem)
    (hE : ∀ A ∈ E, Boundary l' top A)
    (hregion : a'.heap = a.heap ∧ a'.heapSize = a.heapSize ∧ a'.mutex = a.mutex ∧
      a'.freeList = a.freeList)
    (hfree : ∀ n ∈ fl, ∃ c ∈ l', c.addr = n ∧ c.used = false) :
    Rep l' top fl a' ∧ Kept l' a a' := by
  have hbyte : ∀ x, Payload l' x → a'.mem.byte x = a.mem.byte x := by
    refine fun x hx => hstores x fun A hA => ?_
    by_contra hin
    refine h.not_payload (A := A) (.inr ((hE A hA).imp_right ?_)) x (by omega) (by omega) hx
    rintro ⟨c, hc, hA⟩
    exact hA.imp (fun hA => ⟨c, hc, hA⟩) fun hA => ⟨c, hc, hA⟩
  refine ⟨⟨h, ?_, hfree⟩, ⟨hregion.1, hregion.2.1, hregion.2.2.1, fun c hc _ x hle hlt =>
    hbyte x ⟨c, hc, hle, hlt⟩⟩⟩
  have hword : ∀ n ∈ fl, ∀ A, n + 16 ≤ A → A + 8 ≤ n + 32 → read64 a'.mem A = read64 a.mem A := by
    intro n hn A hle hle'
    obtain ⟨c, hc, rfl, -⟩ := hfree n hn
    have hbounds := h.lt hc
    exact read64_congr fun x hx hlt => hbyte x ⟨c, hc, by omega, by omega⟩
  rw [hregion.2.2.2]
  exact hlisted.links.congr
    (fun n hn => congrArg toPtr (hword n hn (n + 24) (by omega) (by omega)))
    fun n hn => congrArg toPtr (hword n hn (n + 16) (by omega) (by omega))

theorem Kept.mono (h : Kept l' a a') (hgrows : Grows l l') : Kept l a a' where
  heap := h.heap
  heapSize := h.heapSize
  mutex := h.mutex
  byte c hc hused x hle hlt := by
    obtain ⟨d, hd, hdused, haddr, hsize⟩ := hgrows c hc hused
    refine h.byte d hd hdused x (by omega) ?_
    simp only [Chunk.stop] at hlt ⊢
    omega

/-! ### Marking a chunk -/

theorem mark_spec (h : Rep (before ++ c :: after) top fl a) (hnot : u = true → c.addr ∉ fl) :
    Rep (before ++ { c with used := u } :: after) top fl (gcaMark c.addr u.toNat a) ∧
      Kept (before ++ { c with used := u } :: after) a (gcaMark c.addr u.toNat a) := by
  have hc : c ∈ before ++ c :: after := by simp
  have hlt := h.tagged.lt hc
  have hdvd := h.tagged.dvd_addr hc
  have hdvdStop := h.tagged.dvd_stop hc
  have hhead := h.tagged.head c hc
  have hfoot := h.tagged.foot c hc
  have hstop : c.stop 16 = c.addr + 16 + c.size := rfl
  set m := gcaSetUsed .curr c.addr u.toNat a.mem with hm
  have hsize : gcaSize .curr m c.addr = c.size := by
    simp (disch := omega) only [gcaSize_curr, hm, tagAt_gcaSetUsed, offset_curr, ↓reduceIte, hhead,
      tagOf]
  have hmark : gcaMark c.addr u.toNat a =
      { a with mem := gcaSetUsed .prev (c.stop 16) u.toNat m } := by
    rw [gcaMark, setMem, setMem]
    dsimp only
    rw [← hm, gcaNext_eq hsize (by omega), hstop]
  have hstores : Stores [c.addr + 8, c.stop 16] a.mem (gcaSetUsed .prev (c.stop 16) u.toNat m) :=
    Stores.trans (E := [c.addr + 8]) (stores_gcaSetUsed .curr _ _ _) (stores_gcaSetUsed .prev _ _ _)
  have hhead' : tagAt (gcaSetUsed .prev (c.stop 16) u.toNat m) (c.addr + 8) = ⟨c.size, u⟩ := by
    simp (disch := omega) only [hm, tagAt_gcaSetUsed, offset_curr, offset_prev, ↓reduceIte, if_neg, hhead,
      tagOf]
  have hfoot' : tagAt (gcaSetUsed .prev (c.stop 16) u.toNat m) (c.stop 16) = ⟨c.size, u⟩ := by
    simp (disch := omega) only [hm, tagAt_gcaSetUsed, offset_curr, offset_prev, Nat.add_zero, ↓reduceIte,
      if_neg, hfoot, tagOf]
  rw [hmark]
  have htagged := h.tagged.relayout [c] { a with mem := gcaSetUsed .prev (c.stop 16) u.toNat m }
    (N := [{ c with used := u }]) (s := c.addr) (t := c.stop 16)
    (fun r hr => ⟨hr.1.symm, hr.2⟩) ⟨rfl, rfl⟩
    (by simpa [Sized] using h.tagged.sized c hc) hstores (by simp; omega) ⟨rfl, rfl, rfl⟩
    (by simpa [tagOf] using ⟨hhead', hfoot'⟩)
  refine Tagged.rep htagged h.listed hstores ?_ ⟨rfl, rfl, rfl, rfl⟩ fun n hn => ?_
  · simp only [List.mem_cons, List.not_mem_nil, or_false]
    rintro A (rfl | rfl)
    · exact .inr ⟨_, List.mem_append_right _ List.mem_cons_self, .inl rfl⟩
    · exact .inr ⟨_, List.mem_append_right _ List.mem_cons_self, .inr rfl⟩
  · obtain ⟨d, hd, rfl, hfree⟩ := h.listed.free n hn
    simp only [List.mem_append, List.mem_cons] at hd
    rcases hd with hd | rfl | hd
    · exact ⟨d, by simp [hd], rfl, hfree⟩
    · refine ⟨{ d with used := u }, by simp, rfl, ?_⟩
      cases u with
      | true => exact absurd hn (hnot rfl)
      | false => rfl
    · exact ⟨d, by simp [hd], rfl, hfree⟩

/-! ### Joining a chunk with the next one -/

theorem absorb_spec (h : Rep (before ++ c :: d :: after) top fl a) (hnot : d.addr ∉ fl)
    (hfree : d.used = false) :
    Rep (before ++ absorb 16 c d :: after) top fl (gcaAbsorb c.addr d.addr a) ∧
      Kept (before ++ c :: d :: after) a (gcaAbsorb c.addr d.addr a) := by
  have hc : c ∈ before ++ c :: d :: after := by simp
  have hd : d ∈ before ++ c :: d :: after := by simp
  obtain ⟨r, -, hr⟩ := tiles_append.mp h.tagged.tiles
  have hcd : d.addr = c.stop 16 := hr.2.1
  have hstop : (absorb 16 c d).stop 16 = d.stop 16 := absorb_stop hcd
  have hltc := h.tagged.lt hc
  have hltd := h.tagged.lt hd
  have hdvd := h.tagged.dvd_addr hc
  have hdvdStop := h.tagged.dvd_stop hd
  have hsizec := h.tagged.sized c hc
  have hsized := h.tagged.sized d hd
  have hhead := h.tagged.head c hc
  have hfoot := h.tagged.foot d hd
  have hstopc : c.stop 16 = c.addr + 16 + c.size := rfl
  have hstopd : d.stop 16 = d.addr + 16 + d.size := rfl
  set n := c.size + 16 + d.size with hn
  set m := gcaSetSize .curr c.addr n (gcaSetSize .prev (d.stop 16) n
    (gcaSetUsed .prev (d.stop 16) c.used.toNat a.mem)) with hm
  have hsum : add64 (add64 c.size gcaInfoSize) d.size = n := by
    simp only [add64, gcaInfoSize]
    omega
  have habsorb : gcaAbsorb c.addr d.addr a = { a with mem := m } := by
    rw [gcaAbsorb, h.tagged.size_curr hc, h.tagged.size_curr hd, h.tagged.used_curr hc,
      h.tagged.next hd, hsum]
    rfl
  have hstores : Stores [d.stop 16, d.stop 16, c.addr + 8] a.mem m :=
    Stores.trans (E := [d.stop 16, d.stop 16])
      (Stores.trans (E := [d.stop 16]) (stores_gcaSetUsed .prev _ _ _) (stores_gcaSetSize .prev _ _ _))
      (stores_gcaSetSize .curr _ _ _)
  have hhead' : tagAt m (c.addr + 8) = ⟨n, c.used⟩ := by
    simp (disch := omega) only [hm, tagAt_gcaSetUsed, tagAt_gcaSetSize, offset_curr, offset_prev,
      ↓reduceIte, if_neg, hhead, tagOf]
  have hfoot' : tagAt m (d.stop 16) = ⟨n, c.used⟩ := by
    simp (disch := omega) only [hm, tagAt_gcaSetUsed, tagAt_gcaSetSize, offset_curr, offset_prev,
      Nat.add_zero, ↓reduceIte, if_neg, hfoot, tagOf]
  rw [habsorb]
  have htagged := h.tagged.relayout [c, d] { a with mem := m } (N := [absorb 16 c d]) (s := c.addr)
    (t := d.stop 16)
    (fun r hr => ⟨hr.1.symm, hr.2.2⟩) ⟨rfl, hstop⟩
    (by simp only [Sized, List.mem_singleton, forall_eq, absorb]; omega) hstores
    (by simp; omega) ⟨rfl, rfl, rfl⟩
    (by simpa [tagOf, hstop] using ⟨hhead', hfoot'⟩)
  have hgrows : Grows (before ++ c :: d :: after) (before ++ absorb 16 c d :: after) := by
    intro x hx hused
    simp only [List.mem_append, List.mem_cons] at hx
    rcases hx with hx | rfl | rfl | hx
    · exact ⟨x, by simp [hx], hused, rfl, le_rfl⟩
    · exact ⟨absorb 16 x d, by simp, hused, rfl, by simp only [absorb]; omega⟩
    · simp [hfree] at hused
    · exact ⟨x, by simp [hx], hused, rfl, le_rfl⟩
  have hrep : Rep (before ++ absorb 16 c d :: after) top fl { a with mem := m } ∧
      Kept (before ++ absorb 16 c d :: after) a { a with mem := m } := by
    refine Tagged.rep htagged h.listed hstores ?_ ⟨rfl, rfl, rfl, rfl⟩ fun x hx => ?_
    · simp only [List.mem_cons, List.not_mem_nil, or_false]
      rintro A (rfl | rfl | rfl)
      · exact .inr ⟨_, List.mem_append_right _ List.mem_cons_self, .inr hstop.symm⟩
      · exact .inr ⟨_, List.mem_append_right _ List.mem_cons_self, .inr hstop.symm⟩
      · exact .inr ⟨_, List.mem_append_right _ List.mem_cons_self, .inl rfl⟩
    · obtain ⟨e, he, rfl, hefree⟩ := h.listed.free x hx
      simp only [List.mem_append, List.mem_cons] at he
      rcases he with he | rfl | rfl | he
      · exact ⟨e, by simp [he], rfl, hefree⟩
      · exact ⟨absorb 16 e d, by simp, rfl, hefree⟩
      · exact absurd hx hnot
      · exact ⟨e, by simp [he], rfl, hefree⟩
  exact ⟨hrep.1, hrep.2.mono hgrows⟩

/-- The free list holds every free chunk. -/
def Complete (l : List Chunk) (fl : List Nat) : Prop := ∀ c ∈ l, c.used = false → c.addr ∈ fl

/-- The heap is in order: the free list holds the free chunks and nothing else. -/
structure Whole (l : List Chunk) (top : Nat) (fl : List Nat) (a : GlibcAllocator) : Prop
    extends Rep l top fl a where
  complete : Complete l fl

/-- The next chunk is free. -/
def joins : List Chunk → Bool
  | [] => false
  | d :: _ => !d.used

theorem Tagged.used_next (h : Tagged (before ++ c :: after) top a) :
    gcaUsed .curr a.mem (c.stop 16) = (!joins after).toNat := by
  obtain ⟨r, -, hr⟩ := tiles_append.mp h.tiles
  cases after with
  | nil =>
    rw [show c.stop 16 = top from hr.2, h.used_top]
    rfl
  | cons d after =>
    rw [← show d.addr = c.stop 16 from hr.2.1, h.used_curr (by simp), joins, Bool.not_not]

theorem Whole.coalesceNext (h : Whole (before ++ c :: after) top fl a) :
    ∃ a' fl', gcaCoalesceNext c.addr a = (joins after, a') ∧
      Whole (before ++ joinNext 16 c after) top fl' a' ∧ Kept (before ++ c :: after) a a' := by
  have hnext := h.tagged.next (c := c) (by simp)
  have hused := h.tagged.used_next
  rw [gcaCoalesceNext, hnext, hused]
  cases hjoins : joins after with
  | false =>
    refine ⟨a, fl, rfl, ?_, Kept.refl _ _⟩
    cases after with
    | nil => exact h
    | cons d after => simpa [joinNext, show d.used = true by simpa [joins] using hjoins] using h
  | true =>
    cases after with
    | nil => simp [joins] at hjoins
    | cons d after =>
      have hfree : d.used = false := by simpa [joins] using hjoins
      obtain ⟨r, -, hr⟩ := tiles_append.mp h.tagged.tiles
      have hd : d ∈ before ++ c :: d :: after := by simp
      have hnodup := h.listed.links.nodup
      obtain ⟨h1, hkept1⟩ := h.toRep.removeFreeList (h.complete d hd hfree)
      obtain ⟨h2, hkept2⟩ := absorb_spec h1 (fun hmem => (hnodup.mem_erase_iff.mp hmem).1 rfl) hfree
      rw [← show d.addr = c.stop 16 from hr.2.1]
      have hrest : Complete (before ++ absorb 16 c d :: after) (fl.erase d.addr) := by
        intro x hx hxfree
        have hin : absorb 16 c d ∈ before ++ absorb 16 c d :: after := by simp
        have hcd : d.addr = c.addr + 16 + c.size := hr.2.1
        have hstop : (absorb 16 c d).stop 16 = d.addr + 16 + d.size := absorb_stop hr.2.1
        have hltd := h.tagged.lt hd
        refine hnodup.mem_erase_iff.mpr ⟨fun heq => ?_, ?_⟩
        · have hltx := h2.tagged.lt hx
          rcases h2.tagged.tiles.apart hx hin with rfl | hle | hle
          · rw [absorb_addr] at heq
            omega
          · rw [absorb_addr] at hle
            omega
          · omega
        · simp only [List.mem_append, List.mem_cons] at hx
          rcases hx with hx | rfl | hx
          · exact h.complete x (by simp [hx]) hxfree
          · exact h.complete c (by simp) hxfree
          · exact h.complete x (by simp [hx]) hxfree
      have hlist : joinNext 16 c (d :: after) = absorb 16 c d :: after := by simp [joinNext, hfree]
      rw [hlist]
      exact ⟨_, fl.erase d.addr, rfl, ⟨h2, hrest⟩, hkept1.trans (Grows.refl _) hkept2⟩

/-- The chunk before a free one is joined with it where it is free. -/
theorem Whole.coalescePrev (h : Whole (before ++ c :: after) top fl a) (hfree : c.used = false) :
    ∃ front b a' fl', gcaCoalescePrev c.addr a = (b.addr, a') ∧
      Whole (front ++ b :: after) top fl' a' ∧ Kept (before ++ c :: after) a a' ∧
      b.used = false ∧ c.size ≤ b.size ∧ Used front = Used before ∧
      (Coalesced before → Coalesced front ∧ ∀ e, front.getLast? = some e → e.used) ∧
      ((∀ e, before.getLast? = some e → e.used) → front = before ∧ b = c) := by
  rcases List.eq_nil_or_concat before with rfl | ⟨front, b, rfl⟩
  · have haddr : c.addr = a.heap := h.tagged.tiles.1
    have hused := h.tagged.used_bottom
    refine ⟨[], c, a, fl, ?_, h, Kept.refl _ _, hfree, le_rfl, rfl, ?_, fun _ => ⟨rfl, rfl⟩⟩
    · rw [gcaCoalescePrev, haddr, hused, if_neg (by decide)]
    · exact fun hcoalesced => ⟨hcoalesced, by simp⟩
  · rw [List.concat_eq_append] at h ⊢
    have hb : b ∈ front ++ [b] ++ c :: after := by simp
    obtain ⟨r, hbefore, hr⟩ := tiles_append.mp h.tagged.tiles
    obtain ⟨q, -, hq⟩ := tiles_append.mp hbefore
    have hcb : c.addr = b.stop 16 := hr.1.trans hq.2.symm
    have hused := h.tagged.used_prev hb
    rw [← hcb] at hused
    cases hbused : b.used with
    | true =>
      refine ⟨front ++ [b], c, a, fl, ?_, h, Kept.refl _ _, hfree, le_rfl, rfl, ?_,
        fun _ => ⟨rfl, rfl⟩⟩
      · rw [gcaCoalescePrev, hused, hbused, if_neg (by decide)]
      · exact fun hcoalesced => ⟨hcoalesced, by simp [hbused]⟩
    | false =>
      have hltb := h.tagged.lt hb
      have hprev : gcaPrev a.mem c.addr = b.addr := by
        rw [gcaPrev, hcb, h.tagged.size_prev hb]
        simp only [gcaDataToHeader, sub64, gcaInfoSize, Chunk.stop] at hltb ⊢
        omega
      have h' : Whole (front ++ b :: c :: after) top fl a := by simpa using h
      obtain ⟨a', fl', heq, hwhole, hkept⟩ := h'.coalesceNext
      have hjoin : joinNext 16 b (c :: after) = absorb 16 b c :: after := by simp [joinNext, hfree]
      rw [hjoin] at hwhole
      refine ⟨front, absorb 16 b c, a', fl', ?_, hwhole, by simpa using hkept, by simpa using hbused,
        ?_, ?_, fun hcoalesced => ?_, fun hlast => ?_⟩
      · rw [gcaCoalescePrev, hused, hbused, if_pos (by decide), hprev]
        exact congrArg (Prod.mk b.addr) (congrArg Prod.snd heq)
      · simp only [absorb]
        omega
      · rw [used_append, used_cons_of_free hbused, used_nil, Set.union_empty]
      · obtain ⟨hfront, -, hlink⟩ := coalesced_append.mp hcoalesced
        exact ⟨hfront, fun e he => by simpa [hbused] using hlink e he b rfl⟩
      · simpa [hbused] using hlast b (by simp)

/-! ### Cutting a chunk -/

theorem cut_spec (h : Rep (before ++ c :: after) top fl a) (hle : 16 ≤ s) (hdvd : 16 ∣ s)
    (hlarge : s + 32 ≤ c.size) :
    Rep (before ++ { c with size := s } :: remainder 16 s c :: after) top fl
        (gcaCut c.addr s (remainder 16 s c).size a) ∧
      Kept (before ++ { c with size := s } :: remainder 16 s c :: after) a
        (gcaCut c.addr s (remainder 16 s c).size a) := by
  have hc : c ∈ before ++ c :: after := by simp
  have hlt := h.tagged.lt hc
  have hdvdc := h.tagged.dvd_addr hc
  have hdvdStop := h.tagged.dvd_stop hc
  have hsize := h.tagged.sized c hc
  have hhead := h.tagged.head c hc
  have hstop : c.stop 16 = c.addr + 16 + c.size := rfl
  set d := remainder 16 s c with hd
  have hdaddr : d.addr = c.addr + 16 + s := rfl
  have hdsize : d.size = c.size - s - 16 := rfl
  have hdstop : d.stop 16 = c.stop 16 := by
    simp only [Chunk.stop, hdaddr, hdsize]
    omega
  set m := gcaSetSize .curr c.addr s
    (gcaSetUsed .prev (c.stop 16) false.toNat (gcaSetSize .prev (c.stop 16) d.size a.mem)) with hm
  have hheadm : tagAt m (c.addr + 8) = ⟨s, c.used⟩ := by
    simp (disch := omega) only [hm, tagAt_gcaSetUsed, tagAt_gcaSetSize, offset_curr, offset_prev,
      Nat.add_zero, ↓reduceIte, if_neg, hhead, tagOf]
  have hnextm : gcaNext m c.addr = d.addr := by
    rw [hdaddr]
    refine gcaNext_eq ?_ (by omega)
    rw [gcaSize_curr, hheadm]
  set m' := gcaSetUsed .curr d.addr false.toNat (gcaSetSize .curr d.addr d.size
    (gcaSetUsed .prev d.addr c.used.toNat (gcaSetSize .prev d.addr s m))) with hm'
  have hused : gcaUsed .curr (gcaSetSize .prev d.addr s m) c.addr = c.used.toNat := by
    simp (disch := omega) only [gcaUsed_curr, tagAt_gcaSetSize, offset_prev, Nat.add_zero, if_neg,
      hheadm]
  have hcut : gcaCut c.addr s d.size a = { a with mem := m' } := by
    rw [gcaCut, h.tagged.next hc]
    simp only [setMem]
    rw [show (0 : Nat) = false.toNat from rfl, ← hm, hnextm, hused]
  have hstores : Stores [c.stop 16, c.stop 16, c.addr + 8, d.addr, d.addr, d.addr + 8, d.addr + 8]
      a.mem m' :=
    ((((((Stores.trans (E := [c.stop 16]) (stores_gcaSetSize .prev _ _ _)
      (stores_gcaSetUsed .prev _ _ _)).trans (stores_gcaSetSize .curr _ _ _)).trans
      (stores_gcaSetSize .prev _ _ _)).trans (stores_gcaSetUsed .prev _ _ _)).trans
      (stores_gcaSetSize .curr _ _ _)).trans (stores_gcaSetUsed .curr _ _ _))
  have hhead1 : tagAt m' (c.addr + 8) = ⟨s, c.used⟩ := by
    simp (disch := omega) only [hm', tagAt_gcaSetUsed, tagAt_gcaSetSize, offset_curr, offset_prev,
      Nat.add_zero, if_neg, hheadm]
  have hfoot1 : tagAt m' d.addr = ⟨s, c.used⟩ := by
    simp (disch := omega) only [hm', tagAt_gcaSetUsed, tagAt_gcaSetSize, offset_curr, offset_prev,
      Nat.add_zero, ↓reduceIte, if_neg]
  have hhead2 : tagAt m' (d.addr + 8) = ⟨d.size, false⟩ := by
    simp (disch := omega) only [hm', tagAt_gcaSetUsed, tagAt_gcaSetSize, offset_curr, offset_prev,
      Nat.add_zero, ↓reduceIte, if_neg]
  have hfoot2 : tagAt m' (c.stop 16) = ⟨d.size, false⟩ := by
    simp (disch := omega) only [hm', hm, tagAt_gcaSetUsed, tagAt_gcaSetSize, offset_curr, offset_prev,
      Nat.add_zero, ↓reduceIte, if_neg]
  rw [hcut]
  have htagged := h.tagged.relayout [c] { a with mem := m' } (N := [{ c with size := s }, d]) (s := c.addr)
    (t := c.stop 16)
    (fun r hr => ⟨hr.1.symm, hr.2⟩) ⟨rfl, rfl, hdstop⟩
    (by simp only [Sized, List.forall_mem_cons, hdsize]; exact ⟨by omega, by omega, by simp⟩) hstores
    (by simp only [List.forall_mem_cons]; exact ⟨by omega, by omega, by omega, by omega, by omega,
      by omega, by omega, by simp⟩) ⟨rfl, rfl, rfl⟩
    (by
      simp only [List.forall_mem_cons, hdstop]
      exact ⟨⟨hhead1, hfoot1⟩, ⟨hhead2, hfoot2⟩, by simp⟩)
  have hfirst : { c with size := s } ∈ before ++ ([{ c with size := s }, d] ++ after) := by simp
  have hsecond : d ∈ before ++ ([{ c with size := s }, d] ++ after) := by simp
  refine Tagged.rep htagged h.listed hstores ?_ ⟨rfl, rfl, rfl, rfl⟩ fun x hx => ?_
  · simp only [List.forall_mem_cons]
    exact ⟨.inr ⟨d, hsecond, .inr hdstop.symm⟩, .inr ⟨d, hsecond, .inr hdstop.symm⟩,
      .inr ⟨_, hfirst, .inl rfl⟩, .inr ⟨_, hfirst, .inr rfl⟩, .inr ⟨_, hfirst, .inr rfl⟩,
      .inr ⟨d, hsecond, .inl rfl⟩, .inr ⟨d, hsecond, .inl rfl⟩, by simp⟩
  · obtain ⟨e, he, rfl, hefree⟩ := h.listed.free x hx
    simp only [List.mem_append, List.mem_cons] at he
    rcases he with he | rfl | he
    · exact ⟨e, by simp [he], rfl, hefree⟩
    · exact ⟨{ e with size := s }, by simp, rfl, hefree⟩
    · exact ⟨e, by simp [he], rfl, hefree⟩

theorem Whole.splitBlock (h : Whole (before ++ c :: after) top fl a) (hle : 16 ≤ s) (hdvd : 16 ∣ s)
    (hfits : s ≤ c.size) :
    ∃ p a' fl', gcaSplitBlock c.addr s a = (p, a') ∧
      Whole (before ++ cut 16 s c after) top fl' a' ∧
      Kept (before ++ { c with size := cutSize 16 s c } :: after) a a' := by
  have hc : c ∈ before ++ c :: after := by simp
  have hlt := h.tagged.lt hc
  have hstop : c.stop 16 = c.addr + 16 + c.size := rfl
  have hneed : add64 (add64 s gcaInfoSize) gcaDataAlign = s + 16 + 16 := by
    simp only [add64, gcaInfoSize, gcaDataAlign]
    omega
  rw [gcaSplitBlock, h.tagged.size_curr hc, hneed]
  by_cases hsmall : c.size < s + 16 + 16
  · refine ⟨none, a, fl, by rw [if_pos hsmall], ?_, ?_⟩
    · rw [cut, if_pos hsmall]
      exact h
    · rw [cutSize, if_pos hsmall]
      exact Kept.refl _ _
  · have hsplit : sub64 (sub64 c.size s) gcaInfoSize = (remainder 16 s c).size := by
      simp only [sub64, gcaInfoSize, remainder]
      omega
    rw [hsplit, if_neg hsmall]
    obtain ⟨h1, hkept1⟩ := cut_spec h.toRep hle hdvd (by omega)
    set a1 := gcaCut c.addr s (remainder 16 s c).size a
    have hnext : gcaNext a1.mem c.addr = (remainder 16 s c).addr :=
      h1.tagged.next (c := { c with size := s }) (by simp)
    have hnot : (remainder 16 s c).addr ∉ fl := by
      intro hmem
      obtain ⟨e, he, heq, -⟩ := h.listed.free _ hmem
      have hrem : (remainder 16 s c).addr = c.addr + 16 + s := rfl
      have hlte := h.tagged.lt he
      rcases h.tagged.tiles.apart hc he with rfl | hce | hce <;> omega
    have hin : remainder 16 s c ∈ before ++ { c with size := s } :: remainder 16 s c :: after := by
      simp
    obtain ⟨h2, hkept2⟩ := h1.addFreeList hin rfl hnot
    set a2 := gcaAddFreeList (remainder 16 s c).addr a1
    have hwhole : Whole (before ++ { c with size := s } :: remainder 16 s c :: after) top
        ((remainder 16 s c).addr :: fl) a2 := by
      refine ⟨h2, fun x hx hfree => ?_⟩
      simp only [List.mem_append, List.mem_cons] at hx
      rcases hx with hx | rfl | rfl | hx
      · exact List.mem_cons_of_mem _ (h.complete x (by simp [hx]) hfree)
      · exact List.mem_cons_of_mem _ (h.complete c hc hfree)
      · exact List.mem_cons_self
      · exact List.mem_cons_of_mem _ (h.complete x (by simp [hx]) hfree)
    have hwhole' : Whole ((before ++ [{ c with size := s }]) ++ remainder 16 s c :: after) top
        ((remainder 16 s c).addr :: fl) a2 := by simpa using hwhole
    obtain ⟨a3, fl3, heq, h3, hkept3⟩ := hwhole'.coalesceNext
    refine ⟨some (remainder 16 s c).addr, a3, fl3, ?_, ?_, ?_⟩
    · dsimp only
      rw [hnext]
      exact congrArg (Prod.mk _) (congrArg Prod.snd heq)
    · rw [cut, if_neg hsmall]
      simpa using h3
    · rw [cutSize, if_neg hsmall]
      have hkept : Kept (before ++ { c with size := s } :: remainder 16 s c :: after) a a3 :=
        (hkept1.trans (Grows.refl _) hkept2).trans (Grows.refl _) (by simpa using hkept3)
      refine hkept.mono (Grows.of_used ?_)
      simp only [used_append]
      refine Set.union_subset_union_right _ fun e he => ?_
      obtain ⟨he, hused⟩ := he
      refine ⟨?_, hused⟩
      rcases List.mem_cons.mp he with rfl | he <;> simp [*]

end Gca
