import Mathlib.Data.List.Basic
import Mathlib.Data.UInt
import Mathlib.Tactic.IntervalCases

/-! The keys of the cache: the byte buffer that `key_create` lays out, the accessors that read it
back, `key_cmp`, and the FNV-1a hash.  A buffer holds the operator, the two lengths as words of
eight bytes, and the NUL-terminated terms.  `Key` collects the buffers of terms shorter than 127
bytes: their lengths fit in the one signed byte that the accessors read. -/

namespace SearchCache

/-- The operator of a key with one term, `'0'`. -/
def SINGLE_OP : UInt8 := 48

/-- The eight bytes of a `size_t`, least significant first. -/
def sizeBytes (n : Nat) : List UInt8 :=
  (List.range 8).map fun i => UInt8.ofNat (n / 256 ^ i)

/-- `(size_t) *p` for a `char` that is signed: the value of the byte, sign-extended to 64 bits. -/
def charToSize (c : UInt8) : Nat :=
  if c.toNat < 128 then c.toNat else 2 ^ 64 - 256 + c.toNat

/-- `key_create`.  The terms are given without their NUL. -/
def keyCreate (op : UInt8) (term1 : List UInt8) (term2 : Option (List UInt8)) : List UInt8 :=
  let t1Size := term1.length + 1
  let t2Size := match term2 with
    | none => 0
    | some t => t.length + 1
  op :: (sizeBytes t1Size ++ sizeBytes t2Size ++ (term1 ++ [0]) ++
    match term2 with
    | none => []
    | some t => t ++ [0])

/-- The C string at `offset` of a buffer. -/
def cString (key : List UInt8) (offset : Nat) : List UInt8 :=
  (key.drop offset).takeWhile (· ≠ 0)

def keyGetOp (key : List UInt8) : UInt8 := key.getD 0 0

def keyGetTerm1 (key : List UInt8) : List UInt8 := cString key 17

/-- `key_get_term2`, which finds the second term from one byte of the first length. -/
def keyGetTerm2 (key : List UInt8) : Option (List UInt8) :=
  if keyGetOp key = SINGLE_OP then none
  else some (cString key ((17 + charToSize (key.getD 1 0)) % 2 ^ 64))

/-- `key_size`, which reads one byte of each length. -/
def keySize (key : List UInt8) : Nat :=
  let length := 17 + charToSize (key.getD 1 0)
  (if keyGetOp key = SINGLE_OP then length else length + charToSize (key.getD 9 0)) % 2 ^ 64

/-- `key_cmp`, less its output. -/
def keyCmp (key1 key2 : List UInt8) : Nat :=
  let op1 := keyGetOp key1
  if op1 = keyGetOp key2 ∧ keyGetTerm1 key1 = keyGetTerm1 key2 ∧
      (op1 = SINGLE_OP ∨ keyGetTerm2 key1 = keyGetTerm2 key2) then 0 else 1

/-- `fnv1a_hash`. -/
def fnv1aHash (key : List UInt8) : UInt64 :=
  (key.take (keySize key)).foldl (fun hash p => (hash ^^^ p.toUInt64) * 1099511628211)
    14695981039346656037

/-- The operator and terms of a key that `key_create` makes, with terms shorter than 127 bytes. -/
structure Key where
  op : UInt8
  term1 : List UInt8
  term2 : Option (List UInt8)
  single_iff : term2 = none ↔ op = SINGLE_OP
  nonzero1 : 0 ∉ term1
  nonzero2 : ∀ t ∈ term2, 0 ∉ t
  short1 : term1.length < 127
  short2 : ∀ t ∈ term2, t.length < 127
deriving DecidableEq

/-- A key with one term. -/
def Key.single (term : List UInt8) (nonzero : 0 ∉ term) (short : term.length < 127) : Key where
  op := SINGLE_OP
  term1 := term
  term2 := none
  single_iff := by simp
  nonzero1 := nonzero
  nonzero2 := by simp
  short1 := short
  short2 := by simp

/-- The buffer of a key. -/
def Key.bytes (k : Key) : List UInt8 := keyCreate k.op k.term1 k.term2

/-! ### Reading a key back -/

theorem charToSize_of_lt {n : Nat} (h : n < 128) : charToSize (UInt8.ofNat n) = n := by
  have : (UInt8.ofNat n).toNat = n := by simp; omega
  simp [charToSize, this, h]

theorem sizeBytes_length (n : Nat) : (sizeBytes n).length = 8 := by simp [sizeBytes]

theorem sizeBytes_getD_zero (n : Nat) (l : List UInt8) :
    (sizeBytes n ++ l).getD 0 0 = UInt8.ofNat n := by
  simp [sizeBytes, List.range_succ]

/-- The string that starts where `t` and its NUL stand is `t`. -/
theorem cString_append {before t after : List UInt8} (h : 0 ∉ t) :
    cString (before ++ (t ++ [0] ++ after)) before.length = t := by
  rw [cString, List.drop_left, List.append_assoc, List.takeWhile_append_of_pos]
  · simp
  · intro b hb
    have : b ≠ 0 := fun h0 => h (h0 ▸ hb)
    simpa using this

@[simp] theorem keyGetOp_bytes (k : Key) : keyGetOp k.bytes = k.op := rfl

theorem keyGetTerm1_bytes (k : Key) : keyGetTerm1 k.bytes = k.term1 := by
  have hsplit : ∀ s1 s2 tail : List UInt8, s1.length = 8 → s2.length = 8 →
      keyGetTerm1 (k.op :: (s1 ++ s2 ++ (k.term1 ++ [0]) ++ tail)) = k.term1 := by
    intro s1 s2 tail h1 h2
    have := @cString_append (k.op :: (s1 ++ s2)) _ tail k.nonzero1
    simpa [keyGetTerm1, h1, h2, List.append_assoc] using this
  exact hsplit _ _ _ (sizeBytes_length _) (sizeBytes_length _)

theorem bytes_getD_one (k : Key) : k.bytes.getD 1 0 = UInt8.ofNat (k.term1.length + 1) := by
  simp only [Key.bytes, keyCreate, List.getD_cons_succ, List.append_assoc]
  exact sizeBytes_getD_zero _ _

theorem bytes_of_term2 {k : Key} {t : List UInt8} (h : k.term2 = some t) :
    k.bytes = (k.op :: (sizeBytes (k.term1.length + 1) ++ sizeBytes (t.length + 1) ++
      (k.term1 ++ [0]))) ++ (t ++ [0] ++ []) := by
  obtain ⟨op, term1, term2, _⟩ := k
  subst h
  simp [Key.bytes, keyCreate]

theorem keyGetTerm2_bytes (k : Key) : keyGetTerm2 k.bytes = k.term2 := by
  rw [keyGetTerm2, keyGetOp_bytes, bytes_getD_one,
    charToSize_of_lt (by have := k.short1; omega)]
  split
  · rename_i h
    exact (k.single_iff.mpr h).symm
  · rename_i h
    have hsome : k.term2 ≠ none := fun h' => h (k.single_iff.mp h')
    obtain ⟨t, ht⟩ := Option.ne_none_iff_exists'.mp hsome
    have hlen := k.short1
    have hoffset : (17 + (k.term1.length + 1)) % 2 ^ 64 =
        (k.op :: (sizeBytes (k.term1.length + 1) ++ sizeBytes (t.length + 1) ++
          (k.term1 ++ [0]))).length := by
      simp only [List.length_cons, List.length_append, sizeBytes_length, List.length_nil]
      omega
    rw [ht, hoffset, bytes_of_term2 ht, cString_append (k.nonzero2 t ht)]

theorem keyCmp_bytes (k1 k2 : Key) : keyCmp k1.bytes k2.bytes = 0 ↔ k1 = k2 := by
  simp only [keyCmp, keyGetOp_bytes, keyGetTerm1_bytes, keyGetTerm2_bytes]
  constructor
  · intro h
    split at h
    · rename_i hc
      obtain ⟨hop, ht1, ht2⟩ := hc
      have hterm2 : k1.term2 = k2.term2 := by
        rcases ht2 with hs | hs
        · rw [k1.single_iff.mpr hs, k2.single_iff.mpr (hop ▸ hs)]
        · exact hs
      cases k1; cases k2
      simp_all
    · simp at h
  · rintro rfl
    simp

/-! ### What a table asks of its keys -/

/-- The hash function that the build selects with `HASH_FUNC`, and `key_cmp`. -/
class TableKey (K : Type) where
  hash : K → Nat
  cmp : K → K → Nat

/-- The comparison is an equivalence. -/
class EquivTableKey (K : Type) [TableKey K] : Prop where
  equivalence : Equivalence fun a b : K => TableKey.cmp a b = 0

/-- The comparison is equality. -/
class LawfulTableKey (K : Type) [TableKey K] : Prop where
  cmp_eq_zero : ∀ a b : K, TableKey.cmp a b = 0 ↔ a = b

instance {K : Type} [TableKey K] [LawfulTableKey K] : EquivTableKey K where
  equivalence := by
    simp only [LawfulTableKey.cmp_eq_zero]
    exact eq_equivalence

instance : TableKey Key where
  hash k := (fnv1aHash k.bytes).toNat
  cmp k1 k2 := keyCmp k1.bytes k2.bytes

instance : LawfulTableKey Key := ⟨keyCmp_bytes⟩

/-! ### Buffers of any length -/

instance : TableKey (List UInt8) where
  hash k := (fnv1aHash k).toNat
  cmp := keyCmp

/-- `key_cmp` compares what the accessors read. -/
theorem keyCmp_eq_zero (key1 key2 : List UInt8) : keyCmp key1 key2 = 0 ↔
    keyGetOp key1 = keyGetOp key2 ∧ keyGetTerm1 key1 = keyGetTerm1 key2 ∧
      keyGetTerm2 key1 = keyGetTerm2 key2 := by
  simp only [keyCmp, ite_eq_left_iff, one_ne_zero, imp_false, not_not]
  constructor
  · rintro ⟨hop, hterm1, hsingle | hterm2⟩
    · exact ⟨hop, hterm1, by simp only [keyGetTerm2, ← hop, hsingle, if_true]⟩
    · exact ⟨hop, hterm1, hterm2⟩
  · rintro ⟨hop, hterm1, hterm2⟩
    exact ⟨hop, hterm1, .inr hterm2⟩

instance : EquivTableKey (List UInt8) where
  equivalence := {
    refl := fun a => (keyCmp_eq_zero a a).mpr ⟨rfl, rfl, rfl⟩
    symm := by
      intro a b h
      obtain ⟨h1, h2, h3⟩ := (keyCmp_eq_zero a b).mp h
      exact (keyCmp_eq_zero b a).mpr ⟨h1.symm, h2.symm, h3.symm⟩
    trans := by
      intro a b c h h'
      obtain ⟨h1, h2, h3⟩ := (keyCmp_eq_zero a b).mp h
      obtain ⟨h1', h2', h3'⟩ := (keyCmp_eq_zero b c).mp h'
      exact (keyCmp_eq_zero a c).mpr ⟨h1.trans h1', h2.trans h2', h3.trans h3'⟩ }

/-! ### Some keys -/

def keyB : Key := Key.single [98] (by decide) (by decide)

def keyC : Key := Key.single [99] (by decide) (by decide)

/-- Keys whose hashes are the same modulo 4. -/
def keyA : Key := Key.single [97] (by decide) (by decide)

@[inherit_doc keyA]
def keyE : Key := Key.single [101] (by decide) (by decide)

end SearchCache
