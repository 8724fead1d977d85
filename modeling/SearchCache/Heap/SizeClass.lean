import SearchCache.Heap.Block
import Mathlib.Data.Prod.Lex
import Mathlib.Tactic.ByContra

/-! The classes of block sizes: `mapping_insert` stays within the two index ranges for every size
below the largest one and is monotone, and `mapping_search` asks for the first class that has no
smaller size.  Classes are ordered by their first level, and then by the second. -/

namespace Htfh

theorem htfhFlsSizet_eq {s : Nat} (hpos : s ≠ 0) (hs : s < 2 ^ 32) :
    htfhFlsSizet s = Nat.log2 s := by
  have hhigh : s >>> 32 = 0 := by
    rw [Nat.shiftRight_eq_div_pow]
    exact Nat.div_eq_of_lt hs
  simp only [htfhFlsSizet, hhigh, ne_eq, not_true_eq_false, if_false]
  rw [Nat.mod_eq_of_lt hs, htfhFls, if_neg hpos]

theorem xor_slIndexCount {n : Nat} (hlow : 32 ≤ n) (hhigh : n < 64) : n ^^^ 32 = n - 32 := by
  have hall : ∀ r : Fin 32, (32 + r.val) ^^^ 32 = r.val := by decide
  have := hall ⟨n - 32, by omega⟩
  rwa [show 32 + (n - 32) = n by omega] at this

theorem mappingInsert_small {s : Nat} (hs : s < 128) : mappingInsert s = (0, s / 4) :=
  if_pos hs

theorem le_log2 {s : Nat} (hs : 128 ≤ s) : 7 ≤ s.log2 := (Nat.le_log2 (by omega)).mpr hs

theorem two_pow_log2 {s : Nat} (hs : 128 ≤ s) : 2 ^ s.log2 = 32 * 2 ^ (s.log2 - 5) := by
  have := le_log2 hs
  rw [show (32 : Nat) = 2 ^ 5 from rfl, ← Nat.pow_add, show 5 + (s.log2 - 5) = s.log2 by omega]

/-- The five bits below the leading one. -/
theorem secondLevel_bounds {s : Nat} (hs : 128 ≤ s) :
    32 ≤ s / 2 ^ (s.log2 - 5) ∧ s / 2 ^ (s.log2 - 5) < 64 := by
  have hpow : 0 < 2 ^ (s.log2 - 5) := Nat.two_pow_pos _
  have hle : 2 ^ s.log2 ≤ s := Nat.log2_self_le (by omega)
  have hlt : s < 2 ^ (s.log2 + 1) := Nat.lt_log2_self
  rw [Nat.pow_succ] at hlt
  rw [two_pow_log2 hs] at hle hlt
  constructor
  · rw [Nat.le_div_iff_mul_le hpow]
    omega
  · rw [Nat.div_lt_iff_lt_mul hpow]
    omega

theorem flsSizet_toNat {s : Nat} (hs : 128 ≤ s) (hlt : s < 2 ^ 32) :
    (htfhFlsSizet s).toNat = s.log2 := by
  rw [htfhFlsSizet_eq (by omega) hlt]
  rfl

theorem mappingInsert_large {s : Nat} (hs : 128 ≤ s) (hlt : s < 2 ^ 32) :
    mappingInsert s = (s.log2 - 6, s / 2 ^ (s.log2 - 5) - 32) := by
  obtain ⟨hlow, hhigh⟩ := secondLevel_bounds hs
  rw [mappingInsert, if_neg (by dsimp only [smallBlockSize]; omega)]
  dsimp only
  rw [flsSizet_toNat hs hlt, Nat.shiftRight_eq_div_pow]
  exact congrArg (Prod.mk _) (xor_slIndexCount hlow hhigh)

/-- A size below the largest one has a list. -/
theorem mappingInsert_lt {s : Nat} (hs : s < 2 ^ 30) :
    (mappingInsert s).1 < flIndexCount ∧ (mappingInsert s).2 < slIndexCount := by
  dsimp only [flIndexCount, slIndexCount]
  by_cases hsmall : s < 128
  · rw [mappingInsert_small hsmall]
    dsimp only
    omega
  · have hlog : s.log2 < 30 := (Nat.log2_lt (by omega)).mpr hs
    obtain ⟨-, hhigh⟩ := secondLevel_bounds (s := s) (by omega)
    rw [mappingInsert_large (by omega) (by omega)]
    dsimp only
    omega

theorem mappingInsert_snd_lt {s : Nat} (hs : s < 2 ^ 32) : (mappingInsert s).2 < slIndexCount := by
  dsimp only [slIndexCount]
  by_cases hsmall : s < 128
  · rw [mappingInsert_small hsmall]
    dsimp only
    omega
  · obtain ⟨-, hhigh⟩ := secondLevel_bounds (s := s) (by omega)
    rw [mappingInsert_large (by omega) hs]
    dsimp only
    omega

/-! ### The order of the classes -/

theorem log2_le_log2 {s t : Nat} (hs : s ≠ 0) (h : s ≤ t) : s.log2 ≤ t.log2 :=
  (Nat.le_log2 (by omega)).mpr ((Nat.log2_self_le hs).trans h)

theorem mappingInsert_mono {s t : Nat} (ht : t < 2 ^ 32) (h : s ≤ t) :
    toLex (mappingInsert s) ≤ toLex (mappingInsert t) := by
  rw [Prod.Lex.toLex_le_toLex]
  by_cases hsmall : s < 128
  · rw [mappingInsert_small hsmall]
    by_cases hsmall' : t < 128
    · rw [mappingInsert_small hsmall']
      exact .inr ⟨rfl, Nat.div_le_div_right h⟩
    · have := le_log2 (s := t) (by omega)
      rw [mappingInsert_large (by omega) ht]
      exact .inl (show 0 < t.log2 - 6 by omega)
  · have hle := log2_le_log2 (by omega) h
    have hlog := le_log2 (s := s) (by omega)
    rw [mappingInsert_large (by omega) (by omega), mappingInsert_large (by omega) ht]
    rcases hle.eq_or_lt with heq | hlt
    · rw [heq]
      exact .inr ⟨rfl, Nat.sub_le_sub_right (Nat.div_le_div_right h) 32⟩
    · exact .inl (show s.log2 - 6 < t.log2 - 6 by omega)

/-- The size whose class is searched. -/
def roundedSize (s : Nat) : Nat := if s < 128 then s else s + (2 ^ (s.log2 - 5) - 1)

theorem mappingSearch_eq {s : Nat} (hs : s < 2 ^ 32) :
    mappingSearch s = mappingInsert (roundedSize s) := by
  rw [mappingSearch, roundedSize]
  by_cases hsmall : s < 128
  · rw [if_pos hsmall, if_neg (by dsimp only [smallBlockSize]; omega)]
  · have hpow : 2 ^ (s.log2 - 5) ≤ 2 ^ s.log2 := Nat.pow_le_pow_right (by omega) (by omega)
    have hself : 2 ^ s.log2 ≤ s := Nat.log2_self_le (by omega)
    have hpos : 0 < 2 ^ (s.log2 - 5) := Nat.two_pow_pos _
    rw [if_neg hsmall, if_pos (by dsimp only [smallBlockSize]; omega),
      flsSizet_toNat (by omega) hs, Nat.one_shiftLeft]
    dsimp only [slIndexCountLog2]
    rw [add64, Nat.mod_eq_of_lt (by omega)]

/-- Rounding asks for less than one part in 32 too much. -/
theorem roundedSize_lt {s : Nat} (hs : 128 ≤ s) : 32 * (roundedSize s - s) < s := by
  have hself : 2 ^ s.log2 ≤ s := Nat.log2_self_le (by omega)
  have hpos : 0 < 2 ^ (s.log2 - 5) := Nat.two_pow_pos _
  rw [two_pow_log2 hs] at hself
  rw [roundedSize, if_neg (by omega)]
  omega

theorem le_roundedSize (s : Nat) : s ≤ roundedSize s := by
  rw [roundedSize]
  split <;> omega

theorem roundedSize_lt_two_mul {s : Nat} (hs : s ≠ 0) : roundedSize s < 2 * s := by
  by_cases hsmall : s < 128
  · rw [roundedSize, if_pos hsmall]
    omega
  · have := roundedSize_lt (s := s) (by omega)
    omega

theorem mappingSearch_snd_lt {s : Nat} (hpos : s ≠ 0) (hs : s < 2 ^ 30) :
    (mappingSearch s).2 < slIndexCount := by
  have := roundedSize_lt_two_mul hpos
  rw [mappingSearch_eq (by omega)]
  exact mappingInsert_snd_lt (by omega)

/-- A smaller size is in a class below the one that is searched. -/
theorem mappingInsert_lt_search {s t : Nat} (hs : s < 2 ^ 30) (hdvd : alignSize ∣ s) (h : t < s) :
    toLex (mappingInsert t) < toLex (mappingSearch s) := by
  rw [mappingSearch_eq (by omega), Prod.Lex.toLex_lt_toLex]
  have hround := le_roundedSize s
  by_cases hsmall : s < 128
  · rw [roundedSize, if_pos hsmall, mappingInsert_small hsmall, mappingInsert_small (by omega)]
    refine .inr ⟨rfl, ?_⟩
    dsimp only [alignSize] at hdvd
    dsimp only
    omega
  · have hlt := roundedSize_lt (s := s) (by omega)
    have hlog := le_log2 (s := s) (by omega)
    have hmono := log2_le_log2 (by omega) hround
    rw [mappingInsert_large (s := roundedSize s) (by omega) (by omega)]
    by_cases hsmall' : t < 128
    · rw [mappingInsert_small hsmall']
      exact .inl (show 0 < (roundedSize s).log2 - 6 by omega)
    · have hlog' := le_log2 (s := t) (by omega)
      have hle := log2_le_log2 (s := t) (by omega) h.le
      rw [mappingInsert_large (by omega) (by omega)]
      rcases (hle.trans hmono).eq_or_lt with heq | hlt'
      · -- All three have the same leading bit.
        have hpos : 0 < 2 ^ (s.log2 - 5) := Nat.two_pow_pos _
        refine .inr ⟨by rw [heq], ?_⟩
        obtain ⟨hlow, -⟩ := secondLevel_bounds (s := t) (by omega)
        have hstep : t / 2 ^ (s.log2 - 5) + 1 ≤ roundedSize s / 2 ^ (s.log2 - 5) := by
          rw [← Nat.add_div_right t hpos]
          refine Nat.div_le_div_right ?_
          rw [roundedSize, if_neg hsmall]
          omega
        rw [show s.log2 = t.log2 by omega] at hstep
        rw [← heq]
        dsimp only
        omega
      · exact .inl (show t.log2 - 6 < (roundedSize s).log2 - 6 by omega)

/-- The classes of sizes. -/
theorem sizeClasses {s t : Nat} (hs : s < 2 ^ 30) (ht : t < 2 ^ 30) :
    (s ≤ t → toLex (mappingInsert s) ≤ toLex (mappingInsert t)) ∧
      (mappingInsert s).1 < flIndexCount ∧ (mappingInsert s).2 < slIndexCount ∧
      (alignSize ∣ s → toLex (mappingSearch s) ≤ toLex (mappingInsert t) → s ≤ t) ∧
      (s < smallBlockSize → s ≤ t → toLex (mappingSearch s) ≤ toLex (mappingInsert t)) ∧
      (smallBlockSize ≤ s → s + 2 ^ ((htfhFlsSizet s).toNat - slIndexCountLog2) - 1 ≤ t →
        toLex (mappingSearch s) ≤ toLex (mappingInsert t)) ∧
      (smallBlockSize ≤ s → 32 * (2 ^ ((htfhFlsSizet s).toNat - slIndexCountLog2) - 1) < s) := by
  obtain ⟨hfl, hsl⟩ := mappingInsert_lt hs
  have hrounded : smallBlockSize ≤ s →
      roundedSize s = s + (2 ^ ((htfhFlsSizet s).toNat - slIndexCountLog2) - 1) := by
    intro hlarge
    rw [flsSizet_toNat hlarge (by omega), roundedSize, if_neg (Nat.not_lt.mpr hlarge)]
  refine ⟨mappingInsert_mono (by omega), hfl, hsl, fun hdvd hle => ?_, fun hsmall hle => ?_,
    fun hlarge hle => ?_, fun hlarge => ?_⟩
  · by_contra hlt
    exact absurd hle (mappingInsert_lt_search hs hdvd (by omega)).not_ge
  · rw [mappingSearch_eq (by omega), roundedSize, if_pos hsmall]
    exact mappingInsert_mono (by omega) hle
  · rw [mappingSearch_eq (by omega)]
    have hpos : 0 < 2 ^ ((htfhFlsSizet s).toNat - slIndexCountLog2) := Nat.two_pow_pos _
    exact mappingInsert_mono (by omega) (by rw [hrounded hlarge]; omega)
  · have := roundedSize_lt hlarge
    rw [hrounded hlarge] at this
    omega

/-- The first size above 128 that is not the least one of its class. -/
theorem sizeClasses_at :
    toLex (mappingInsert 132) ≤ toLex (mappingInsert 136) ∧ 132 ≤ 136 ∧
      toLex (mappingSearch 132) ≤ toLex (mappingInsert 136) := by
  obtain ⟨hmono, -, -, hsound, -, hcomplete, -⟩ := sizeClasses (s := 132) (t := 136) (by decide)
    (by decide)
  have hsearch := hcomplete (by decide) (by decide +kernel)
  exact ⟨hmono (by decide), hsound (by decide) hsearch, hsearch⟩

end Htfh
