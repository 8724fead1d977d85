import Mathlib.Data.Nat.Bitwise

/-! A flat memory of bytes with little-endian words of 64 bits, and the bit operations that such
words are taken apart with, read as arithmetic. -/

namespace Memory

/-- The byte at every address. -/
structure Mem where
  byte : Nat → UInt8

/-- The number that `n` bytes from `a` hold, the lowest byte first. -/
def load (m : Mem) (a : Nat) : Nat → Nat
  | 0 => 0
  | n + 1 => (m.byte a).toNat + 256 * load m (a + 1) n

def read64 (m : Mem) (a : Nat) : Nat := load m a 8

def write64 (m : Mem) (a v : Nat) : Mem :=
  ⟨fun x => if a ≤ x ∧ x < a + 8 then UInt8.ofNat (v / 256 ^ (x - a)) else m.byte x⟩

def write8 (m : Mem) (a : Nat) (v : UInt8) : Mem :=
  ⟨fun x => if x = a then v else m.byte x⟩

/-- memset: `n` bytes from `a` on become `v`. -/
def fill (m : Mem) (a : Nat) (v : UInt8) (n : Nat) : Mem :=
  ⟨fun x => if a ≤ x ∧ x < a + n then v else m.byte x⟩

/-- memcpy: `n` bytes from `src` on. -/
def copy (m : Mem) (dst src n : Nat) : Mem :=
  ⟨fun x => if dst ≤ x ∧ x < dst + n then m.byte (src + (x - dst)) else m.byte x⟩

theorem load_congr {m m' : Mem} {a n : Nat} (h : ∀ x, a ≤ x → x < a + n → m.byte x = m'.byte x) :
    load m a n = load m' a n := by
  induction n generalizing a with
  | zero => rfl
  | succ n ih =>
    rw [load, load, h a (by omega) (by omega), ih fun x hx hn => h x (by omega) (by omega)]

theorem read64_congr {m m' : Mem} {a : Nat} (h : ∀ x, a ≤ x → x < a + 8 → m.byte x = m'.byte x) :
    read64 m a = read64 m' a := load_congr h

/-- Reading back the bytes of `v`. -/
theorem load_write {m : Mem} {a v n : Nat}
    (h : ∀ i, i < n → m.byte (a + i) = UInt8.ofNat (v / 256 ^ i)) : load m a n = v % 256 ^ n := by
  induction n generalizing a v with
  | zero => simp [load, Nat.mod_one]
  | succ n ih =>
    have h0 : m.byte a = UInt8.ofNat v := by simpa using h 0 (by omega)
    have htail : load m (a + 1) n = v / 256 % 256 ^ n := by
      refine ih fun i hi => ?_
      rw [show a + 1 + i = a + (i + 1) by omega, h (i + 1) (by omega), Nat.div_div_eq_div_mul,
        Nat.pow_succ, Nat.mul_comm 256]
    rw [load, h0, htail, Nat.pow_succ, Nat.mul_comm (256 ^ n), Nat.mod_mul]
    simp [UInt8.toNat_ofNat']

@[simp] theorem read64_write64_same (m : Mem) (a v : Nat) :
    read64 (write64 m a v) a = v % 2 ^ 64 := by
  have hload : load (write64 m a v) a 8 = v % 256 ^ 8 := by
    refine load_write fun i hi => ?_
    simp only [write64]
    rw [if_pos (by omega), Nat.add_sub_cancel_left]
  simpa [read64] using hload

theorem read64_write64_of_disjoint {m : Mem} {a b v : Nat} (h : a + 8 ≤ b ∨ b + 8 ≤ a) :
    read64 (write64 m a v) b = read64 m b := by
  refine read64_congr fun x hx hb => ?_
  simp only [write64]
  rw [if_neg (by omega)]

theorem byte_write64_of_disjoint {m : Mem} {a w v : Nat} (h : w < a ∨ a + 8 ≤ w) :
    (write64 m a v).byte w = m.byte w := by
  simp only [write64]
  rw [if_neg (by omega)]

theorem read64_write8_of_disjoint {m : Mem} {a b : Nat} {v : UInt8} (h : a < b ∨ b + 8 ≤ a) :
    read64 (write8 m a v) b = read64 m b := by
  refine read64_congr fun x hx hb => ?_
  simp only [write8]
  rw [if_neg (by omega)]

theorem read64_fill_of_disjoint {m : Mem} {a b n : Nat} {v : UInt8}
    (h : a + n ≤ b ∨ b + 8 ≤ a) : read64 (fill m a v n) b = read64 m b := by
  refine read64_congr fun x hx hb => ?_
  simp only [fill]
  rw [if_neg (by omega)]

theorem load_lt (m : Mem) (a n : Nat) : load m a n < 256 ^ n := by
  induction n generalizing a with
  | zero => simp [load]
  | succ n ih =>
    have hbyte := (m.byte a).toNat_lt
    have htail := ih (a + 1)
    rw [load, Nat.pow_succ]
    omega

theorem read64_lt (m : Mem) (a : Nat) : read64 m a < 2 ^ 64 := by
  simpa [read64] using load_lt m a 8

/-! ### Bit operations on words -/

/-- The complement of a word of 64 bits. -/
def lnot (n : Nat) : Nat := 2 ^ 64 - 1 - n

theorem and_four (q r p k : Nat) (hr : r < 4) (hk : k < 4) :
    (4 * q + r) &&& (4 * p + k) = 4 * (q &&& p) + (r &&& k) := by
  have hrk : r &&& k < 2 ^ 2 := Nat.and_lt_two_pow r hk
  refine Nat.eq_of_testBit_eq fun i => ?_
  rw [Nat.testBit_and, show (4 : Nat) = 2 ^ 2 from rfl, Nat.testBit_two_pow_mul_add _ hr,
    Nat.testBit_two_pow_mul_add _ hk, Nat.testBit_two_pow_mul_add _ hrk]
  split <;> simp [Nat.testBit_and]

theorem or_four (q r p k : Nat) (hr : r < 4) (hk : k < 4) :
    (4 * q + r) ||| (4 * p + k) = 4 * (q ||| p) + (r ||| k) := by
  have hrk : r ||| k < 2 ^ 2 := Nat.or_lt_two_pow hr hk
  refine Nat.eq_of_testBit_eq fun i => ?_
  rw [Nat.testBit_or, show (4 : Nat) = 2 ^ 2 from rfl, Nat.testBit_two_pow_mul_add _ hr,
    Nat.testBit_two_pow_mul_add _ hk, Nat.testBit_two_pow_mul_add _ hrk]
  split <;> simp [Nat.testBit_or]

/-- Masking with the complement of `2 ^ k - 1` rounds down to a multiple of `2 ^ k`. -/
theorem and_lnot_two_pow {y k : Nat} (hy : y < 2 ^ 64) (hk : k ≤ 64) :
    y &&& lnot (2 ^ k - 1) = y / 2 ^ k * 2 ^ k := by
  have hpow : 2 ^ k - 1 < 2 ^ 64 :=
    lt_of_lt_of_le (Nat.sub_lt (Nat.two_pow_pos k) Nat.one_pos) (Nat.pow_le_pow_right (by omega) hk)
  refine Nat.eq_of_testBit_eq fun i => ?_
  rw [Nat.testBit_and, show lnot (2 ^ k - 1) = 2 ^ 64 - ((2 ^ k - 1) + 1) by unfold lnot; omega,
    Nat.testBit_two_pow_sub_succ hpow, Nat.testBit_two_pow_sub_one, ← Nat.shiftRight_eq_div_pow,
    ← Nat.shiftLeft_eq, Nat.testBit_shiftLeft, Nat.testBit_shiftRight]
  by_cases hki : k ≤ i
  · by_cases hi : i < 64
    · simp [hki, hi, Nat.add_sub_cancel' hki]
    · have hbit : y.testBit i = false :=
        Nat.testBit_lt_two_pow (lt_of_lt_of_le hy (Nat.pow_le_pow_right (by omega) (by omega)))
      simp [hbit, hki, Nat.add_sub_cancel' hki]
  · simp [hki, Nat.lt_of_not_le hki]

/-- A word with no bit in common with its predecessor is zero or a power of two. -/
theorem eq_two_pow_of_and_sub_one {n : Nat} (h : n &&& (n - 1) = 0) :
    n = 0 ∨ ∃ k, n = 2 ^ k := by
  rcases Nat.eq_zero_or_pos n with h0 | hpos
  · exact .inl h0
  refine .inr ⟨Nat.log2 n, ?_⟩
  have hne : n ≠ 0 := by omega
  have hle : 2 ^ n.log2 ≤ n := Nat.log2_self_le hne
  have hlt : n < 2 ^ (n.log2 + 1) := Nat.lt_log2_self
  -- otherwise the predecessor keeps the highest bit
  by_contra hpow
  have hbit : n.testBit n.log2 = true := Nat.testBit_log2 hne
  have hbit' : (n - 1).testBit n.log2 = true := by
    have hlog : (n - 1).log2 = n.log2 := by
      rw [Nat.log2_eq_iff (by omega)]
      exact ⟨by omega, by omega⟩
    rw [← hlog]
    exact Nat.testBit_log2 (by omega)
  have hand : (n &&& (n - 1)).testBit n.log2 = true := by rw [Nat.testBit_and, hbit, hbit']; rfl
  rw [h] at hand
  simp at hand

end Memory
