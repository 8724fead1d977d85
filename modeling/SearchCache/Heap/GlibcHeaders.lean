import SearchCache.Heap.Glibc
import SearchCache.Lib.Chunks

/-! The words of a header read as a size and a use bit, and what a store to an aligned word does to
the other words. -/

namespace Gca

open Memory Htfh Chunks

variable {m m' : Mem} {A B h v : Nat} {u : Bool} {w : Which}

theorem read64_write64 (hA : 8 ∣ A) (hB : 8 ∣ B) :
    read64 (write64 m A v) B = if B = A then v % 2 ^ 64 else read64 m B := by
  split
  · rename_i heq
    rw [heq, read64_write64_same]
  · exact read64_write64_of_disjoint (by omega)

/-- What a word says about a block. -/
structure Tag where
  size : Nat
  used : Bool
  deriving DecidableEq

def toTag (x : Nat) : Tag := ⟨x / 8 * 8, x % 2 = 1⟩

def tagAt (m : Mem) (A : Nat) : Tag := toTag (read64 m A)

def tagOf (c : Chunk) : Tag := ⟨c.size, c.used⟩

theorem toTag_set_size (x : Nat) (hv : 8 ∣ v) : toTag (v + x % 8) = ⟨v, (toTag x).used⟩ := by
  have hsize : (v + x % 8) / 8 * 8 = v := by omega
  have hused : (v + x % 8) % 2 = x % 2 := by omega
  rw [toTag, hsize, hused, toTag]

theorem toTag_set_used (x : Nat) (u : Bool) :
    toTag (x / 2 * 2 + u.toNat) = ⟨(toTag x).size, u⟩ := by
  have hu : u.toNat < 2 := by cases u <;> decide
  have hsize : (x / 2 * 2 + u.toNat) / 8 * 8 = x / 8 * 8 := by omega
  have hused : (x / 2 * 2 + u.toNat) % 2 = u.toNat := by omega
  rw [toTag, hsize, hused, toTag]
  cases u <;> simp

@[simp] theorem offset_prev : Which.prev.offset = 0 := rfl

@[simp] theorem offset_curr : Which.curr.offset = 8 := rfl

theorem dvd_offset (hh : 8 ∣ h) (w : Which) : 8 ∣ h + w.offset := by
  cases w <;> simp only [Which.offset] <;> omega

theorem gcaSize_eq : gcaSize w m h = (tagAt m (h + w.offset)).size :=
  and_lnot_two_pow (read64_lt m _) (k := 3) (by omega)

theorem gcaUsed_eq : gcaUsed w m h = (tagAt m (h + w.offset)).used.toNat := by
  rw [gcaUsed, gcaInfo, gcaFlagUsed, Nat.and_one_is_mod, tagAt]
  generalize read64 m (h + w.offset) = x
  rcases Nat.mod_two_eq_zero_or_one x with hmod | hmod <;> simp [toTag, hmod]

theorem gcaSize_prev : gcaSize .prev m h = (tagAt m h).size := by rw [gcaSize_eq, Which.offset,
  Nat.add_zero]

theorem gcaSize_curr : gcaSize .curr m h = (tagAt m (h + 8)).size := by rw [gcaSize_eq, Which.offset]

theorem gcaUsed_prev : gcaUsed .prev m h = (tagAt m h).used.toNat := by rw [gcaUsed_eq, Which.offset,
  Nat.add_zero]

theorem gcaUsed_curr : gcaUsed .curr m h = (tagAt m (h + 8)).used.toNat := by
  rw [gcaUsed_eq, Which.offset]

theorem tagAt_write64 (hA : 8 ∣ A) (hB : 8 ∣ B) (hv : v < 2 ^ 64) :
    tagAt (write64 m A v) B = if B = A then toTag v else tagAt m B := by
  rw [tagAt, read64_write64 hA hB, Nat.mod_eq_of_lt hv]
  split <;> rfl

theorem tagAt_gcaSetSize (hh : 8 ∣ h) (hA : 8 ∣ A) (hv : 8 ∣ v) (hlt : v < 2 ^ 64) :
    tagAt (gcaSetSize w h v m) A =
      if A = h + w.offset then ⟨v, (tagAt m A).used⟩ else tagAt m A := by
  have hword : (gcaInfo w m h &&& lnot gcaMaskSize) ||| v = v + gcaInfo w m h % 8 := by
    rw [show lnot gcaMaskSize = 2 ^ 3 - 1 by decide, Nat.and_two_pow_sub_one_eq_mod,
      Nat.or_comm]
    obtain ⟨q, rfl⟩ := hv
    exact (Nat.two_pow_add_eq_or_of_lt (i := 3) (Nat.mod_lt _ (by decide)) q).symm
  rw [gcaSetSize, hword, tagAt_write64 (dvd_offset hh w) hA (by omega)]
  split
  · rename_i heq
    rw [toTag_set_size _ hv, heq, gcaInfo, tagAt]
  · rfl

theorem tagAt_gcaSetUsed (hh : 8 ∣ h) (hA : 8 ∣ A) :
    tagAt (gcaSetUsed w h u.toNat m) A =
      if A = h + w.offset then ⟨(tagAt m A).size, u⟩ else tagAt m A := by
  have hword : (gcaInfo w m h &&& lnot gcaFlagUsed) ||| u.toNat =
      gcaInfo w m h / 2 * 2 + u.toNat := by
    have hmask : gcaInfo w m h &&& lnot gcaFlagUsed = gcaInfo w m h / 2 * 2 :=
      and_lnot_two_pow (read64_lt m _) (k := 1) (by omega)
    rw [hmask, Nat.mul_comm]
    exact (Nat.two_pow_add_eq_or_of_lt (i := 1) (by cases u <;> decide) _).symm
  have hlt : gcaInfo w m h < 2 ^ 64 := read64_lt m _
  have hu : u.toNat < 2 := by cases u <;> decide
  rw [gcaSetUsed, hword, tagAt_write64 (dvd_offset hh w) hA (by omega)]
  split
  · rename_i heq
    rw [toTag_set_used, heq, gcaInfo, tagAt]
  · rfl

/-! ### The words that a function stores to -/

/-- Only bytes of the words at `E` may differ. -/
def Stores (E : List Nat) (m m' : Mem) : Prop :=
  ∀ x, (∀ A ∈ E, x < A ∨ A + 8 ≤ x) → m'.byte x = m.byte x

theorem Stores.refl (m : Mem) : Stores [] m m := fun _ _ => rfl

theorem stores_write64 (m : Mem) (A v : Nat) : Stores [A] m (write64 m A v) :=
  fun _ hx => byte_write64_of_disjoint (hx A (by simp))

theorem Stores.trans {E F : List Nat} {m₁ m₂ m₃ : Mem} (h : Stores E m₁ m₂) (h' : Stores F m₂ m₃) :
    Stores (E ++ F) m₁ m₃ := fun x hx =>
  (h' x fun A hA => hx A (List.mem_append_right _ hA)).trans
    (h x fun A hA => hx A (List.mem_append_left _ hA))

theorem Stores.mono {E F : List Nat} (h : Stores E m m') (hsub : E ⊆ F) : Stores F m m' :=
  fun x hx => h x fun A hA => hx A (hsub hA)

theorem Stores.read64 {E : List Nat} (h : Stores E m m') (hE : ∀ A ∈ E, 8 ∣ A) (hB : 8 ∣ B)
    (hnot : B ∉ E) : Memory.read64 m' B = Memory.read64 m B := by
  refine read64_congr fun x hx hlt => h x fun A hA => ?_
  have hdvd := hE A hA
  have hne : A ≠ B := fun heq => hnot (heq ▸ hA)
  omega

theorem stores_gcaSetSize (w : Which) (h v : Nat) (m : Mem) :
    Stores [h + w.offset] m (gcaSetSize w h v m) := stores_write64 m _ _

theorem stores_gcaSetUsed (w : Which) (h v : Nat) (m : Mem) :
    Stores [h + w.offset] m (gcaSetUsed w h v m) := stores_write64 m _ _

end Gca
