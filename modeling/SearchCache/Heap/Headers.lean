import SearchCache.Heap.Block
import SearchCache.Heap.LayoutOperations

/-! How a layout is stored in memory: the size words with their two flag bits, and the back link of a
free block in the header after it.  Each function of `block.c` is given the memory it leaves. -/

namespace Htfh

open Memory

/-- The size word of a header. -/
def header (s : Nat) (free prevFree : Bool) : Nat := s + free.toNat + 2 * prevFree.toNat

theorem header_lt {s : Nat} {f p : Bool} (h : s < 2 ^ 30) : header s f p < 2 ^ 64 := by
  unfold header
  cases f <;> cases p <;> simp <;> omega

/-- Every word is a header. -/
theorem exists_header (w : Nat) : ∃ f p, w = header (w / 4 * 4) f p := by
  have hw : w % 4 < 4 := Nat.mod_lt _ (by omega)
  rcases (by omega : w % 4 = 0 ∨ w % 4 = 1 ∨ w % 4 = 2 ∨ w % 4 = 3) with h | h | h | h
  · exact ⟨false, false, by simp [header]; omega⟩
  · exact ⟨true, false, by simp [header]; omega⟩
  · exact ⟨false, true, by simp [header]; omega⟩
  · exact ⟨true, true, by simp [header]; omega⟩

section Bits

variable {s : Nat} {f p : Bool}

theorem header_split (hmod : s % 4 = 0) :
    header s f p = 4 * (s / 4) + (f.toNat + 2 * p.toNat) := by
  unfold header
  omega

theorem flags_lt : f.toNat + 2 * p.toNat < 4 := by
  cases f <;> cases p <;> simp

theorem header_and_lnot (hmod : s % 4 = 0) (hs : s < 2 ^ 64) {k : Nat} (hk : k < 4) :
    header s f p &&& lnot k = s + ((f.toNat + 2 * p.toNat) &&& (3 - k)) := by
  rw [header_split hmod, show lnot k = 4 * (2 ^ 62 - 1) + (3 - k) by unfold lnot; omega,
    and_four _ _ _ _ flags_lt (by omega), Nat.and_two_pow_sub_one_eq_mod]
  omega

theorem header_and (hmod : s % 4 = 0) {k : Nat} (hk : k < 4) :
    header s f p &&& k = (f.toNat + 2 * p.toNat) &&& k := by
  rw [header_split hmod, show k = 4 * 0 + k by omega, and_four _ _ _ _ flags_lt hk]
  simp

theorem header_or (hmod : s % 4 = 0) {k : Nat} (hk : k < 4) :
    header s f p ||| k = s + ((f.toNat + 2 * p.toNat) ||| k) := by
  rw [header_split hmod, show k = 4 * 0 + k by omega, or_four _ _ _ _ flags_lt hk]
  simp only [Nat.or_zero, Nat.mul_zero, Nat.zero_add]
  omega

end Bits

/-! ### Reading and writing one header -/

section Flags

variable {m : Mem} {b s t : Nat} {f p : Bool}

theorem blockSize_eq (h : size m b = header s f p) (hmod : s % 4 = 0) (hs : s < 2 ^ 64) :
    blockSize m b = s := by
  rw [blockSize, h, show blockHeaderFreeBit ||| blockHeaderPrevFreeBit = 3 from rfl,
    header_and_lnot hmod hs (by decide)]
  simp

theorem blockIsFree_eq (h : size m b = header s f p) (hmod : s % 4 = 0) : blockIsFree m b = f := by
  rw [blockIsFree, h, header_and hmod (by decide)]
  cases f <;> cases p <;> decide

theorem blockIsPrevFree_eq (h : size m b = header s f p) (hmod : s % 4 = 0) :
    blockIsPrevFree m b = p := by
  rw [blockIsPrevFree, h, header_and hmod (by decide)]
  cases f <;> cases p <;> decide

theorem blockSetSize_eq (h : size m b = header s f p) (hmod : s % 4 = 0) (hmod' : t % 4 = 0) :
    blockSetSize b t m = setSize b (header t f p) m := by
  have hbits : header s f p &&& 3 = f.toNat + 2 * p.toNat := by
    rw [header_and hmod (by decide)]
    cases f <;> cases p <;> decide
  have hor : t ||| (f.toNat + 2 * p.toNat) = header t f p := by
    have hzero := header_or (f := false) (p := false) hmod' (@flags_lt f p)
    simp only [header, Bool.toNat_false, Nat.mul_zero, Nat.add_zero, Nat.zero_or] at hzero
    rw [hzero, header]
    omega
  simp only [blockSetSize, h]
  rw [show blockHeaderFreeBit ||| blockHeaderPrevFreeBit = 3 from rfl, hbits, hor]

theorem blockSetFree_eq (h : size m b = header s f p) (hmod : s % 4 = 0) :
    blockSetFree b m = setSize b (header s true p) m := by
  rw [blockSetFree, h, header_or hmod (by decide), header]
  cases f <;> cases p <;> rfl

theorem blockSetPrevFree_eq (h : size m b = header s f p) (hmod : s % 4 = 0) :
    blockSetPrevFree b m = setSize b (header s f true) m := by
  rw [blockSetPrevFree, h, header_or hmod (by decide), header]
  cases f <;> cases p <;> rfl

theorem blockSetUsed_eq (h : size m b = header s f p) (hmod : s % 4 = 0) (hs : s < 2 ^ 64) :
    blockSetUsed b m = setSize b (header s false p) m := by
  rw [blockSetUsed, h, header_and_lnot hmod hs (by decide), header]
  cases f <;> cases p <;> rfl

theorem blockSetPrevUsed_eq (h : size m b = header s f p) (hmod : s % 4 = 0) (hs : s < 2 ^ 64) :
    blockSetPrevUsed b m = setSize b (header s f false) m := by
  rw [blockSetPrevUsed, h, header_and_lnot hmod hs (by decide), header]
  cases f <;> cases p <;> rfl

end Flags

end Htfh
