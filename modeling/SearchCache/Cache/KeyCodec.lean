import SearchCache.Cache.Key

/-! Making a key and reading it back, for terms of any length.  `key_create` stores the two lengths as
whole words, and every accessor reads one signed byte of a word: they agree up to 127 bytes with the
NUL. -/

namespace SearchCache

/-- `key_get_length`. -/
def keyGetLength (key : List UInt8) : Nat :=
  let length := 17 + charToSize (key.getD 1 0)
  (if keyGetOp key = SINGLE_OP then length else length + charToSize (key.getD 9 0)) % 2 ^ 64

/-- `key_copy`. -/
def keyCopy (key : List UInt8) : List UInt8 :=
  keyCreate (keyGetOp key) (keyGetTerm1 key) (keyGetTerm2 key)

/-- `key_clone`, which lays a key out as `key_create` does. -/
def keyClone (key : List UInt8) : List UInt8 :=
  keyCreate (keyGetOp key) (keyGetTerm1 key) (keyGetTerm2 key)

/-- What the accessors and the copies say about the key made of an operator and terms. -/
structure RoundTrips (op : UInt8) (term1 : List UInt8) (term2 : Option (List UInt8)) : Prop where
  getOp : keyGetOp (keyCreate op term1 term2) = op
  getTerm1 : keyGetTerm1 (keyCreate op term1 term2) = term1
  getTerm2 : keyGetTerm2 (keyCreate op term1 term2) = term2
  size : keySize (keyCreate op term1 term2) = (keyCreate op term1 term2).length
  length : keyGetLength (keyCreate op term1 term2) = (keyCreate op term1 term2).length
  clone : keyClone (keyCreate op term1 term2) = keyCreate op term1 term2
  copy : keyCopy (keyCreate op term1 term2) = keyCreate op term1 term2

/-- The size of a term with its NUL. -/
def termSize (term2 : Option (List UInt8)) : Nat :=
  match term2 with
  | none => 0
  | some t => t.length + 1

variable {op : UInt8} {term1 : List UInt8} {term2 : Option (List UInt8)}

theorem keyCreate_length (op : UInt8) (term1 : List UInt8) (term2 : Option (List UInt8)) :
    (keyCreate op term1 term2).length = 17 + (term1.length + 1) + termSize term2 := by
  cases term2 <;> simp [keyCreate, termSize, sizeBytes_length] <;> omega

theorem keyCreate_getD_one (op : UInt8) (term1 : List UInt8) (term2 : Option (List UInt8)) :
    (keyCreate op term1 term2).getD 1 0 = UInt8.ofNat (term1.length + 1) := by
  simp only [keyCreate, List.getD_cons_succ, List.append_assoc]
  exact sizeBytes_getD_zero _ _

theorem keyCreate_getD_nine (op : UInt8) (term1 : List UInt8) (term2 : Option (List UInt8)) :
    (keyCreate op term1 term2).getD 9 0 = UInt8.ofNat (termSize term2) := by
  have hskip : ∀ (n : Nat) (l : List UInt8), (sizeBytes n ++ l).getD 8 0 = l.getD 0 0 := by
    intro n l
    rw [List.getD_eq_getElem?_getD, List.getElem?_append_right (by rw [sizeBytes_length]),
      sizeBytes_length, ← List.getD_eq_getElem?_getD]
  simp only [keyCreate, List.getD_cons_succ, List.append_assoc]
  rw [hskip]
  cases term2 <;> exact sizeBytes_getD_zero _ _

/-- One signed byte of a word is off by a multiple of 256. -/
theorem charToSize_ofNat (n : Nat) : ∃ k, k = (n + 128) / 256 ∧
    (charToSize (UInt8.ofNat n) + 256 * k) % 2 ^ 64 = n % 2 ^ 64 := by
  refine ⟨_, rfl, ?_⟩
  have hbyte : (UInt8.ofNat n).toNat = n % 256 := by simp
  rw [charToSize, hbyte]
  split <;> omega

/-- The size that the accessors compute is right only where both bytes are. -/
theorem short_of_size (hsingle : term2 = none ↔ op = SINGLE_OP)
    (hlength : (keyCreate op term1 term2).length < 2 ^ 63)
    (hsize : keySize (keyCreate op term1 term2) = (keyCreate op term1 term2).length) :
    term1.length + 1 < 128 ∧ termSize term2 < 128 := by
  obtain ⟨k1, hk1, h1⟩ := charToSize_ofNat (term1.length + 1)
  obtain ⟨k2, hk2, h2⟩ := charToSize_ofNat (termSize term2)
  rw [keyCreate_length] at hlength hsize
  rw [keySize, keyCreate_getD_one, keyCreate_getD_nine,
    show keyGetOp (keyCreate op term1 term2) = op from rfl] at hsize
  generalize charToSize (UInt8.ofNat (term1.length + 1)) = c1 at *
  generalize charToSize (UInt8.ofNat (termSize term2)) = c2 at *
  split at hsize
  · have hnone : termSize term2 = 0 := by
      rw [hsingle.mpr (by assumption)]
      rfl
    omega
  · omega

/-- What `key_size` and `key_get_length` compute for the buffer of a key. -/
theorem keySize_bytes (k : Key) : keySize k.bytes = k.bytes.length := by
  have hshort1 := k.short1
  have hshort2 : termSize k.term2 < 128 := by
    cases hterm2 : k.term2 with
    | none => simp [termSize]
    | some t =>
      have := k.short2 t hterm2
      simp only [termSize]
      omega
  rw [Key.bytes, keySize, keyCreate_getD_one, keyCreate_getD_nine, charToSize_of_lt (by omega),
    charToSize_of_lt hshort2, keyCreate_length,
    show keyGetOp (keyCreate k.op k.term1 k.term2) = k.op from rfl]
  split
  · rw [show termSize k.term2 = 0 by rw [k.single_iff.mpr (by assumption)]; rfl]
    omega
  · omega

theorem keyClone_bytes (k : Key) : keyClone k.bytes = k.bytes := by
  rw [keyClone, keyGetOp_bytes, keyGetTerm1_bytes, keyGetTerm2_bytes]
  rfl

/-- A key is read back as it was made exactly where its terms are shorter than 127 bytes. -/
theorem roundTrips_iff (hsingle : term2 = none ↔ op = SINGLE_OP) (nonzero1 : 0 ∉ term1)
    (nonzero2 : ∀ t ∈ term2, 0 ∉ t) (hlength : (keyCreate op term1 term2).length < 2 ^ 63) :
    RoundTrips op term1 term2 ↔ term1.length < 127 ∧ ∀ t ∈ term2, t.length < 127 := by
  constructor
  · intro h
    obtain ⟨h1, h2⟩ := short_of_size hsingle hlength h.size
    refine ⟨by omega, ?_⟩
    rintro t ht
    rw [Option.mem_def.mp ht, termSize] at h2
    omega
  · rintro ⟨short1, short2⟩
    let k : Key := ⟨op, term1, term2, hsingle, nonzero1, nonzero2, short1, short2⟩
    exact ⟨rfl, keyGetTerm1_bytes k, keyGetTerm2_bytes k, keySize_bytes k, keySize_bytes k,
      keyClone_bytes k, keyClone_bytes k⟩

theorem roundTrips_iff_one : RoundTrips SINGLE_OP [97] none ↔
    ([97] : List UInt8).length < 127 ∧ ∀ t ∈ (none : Option (List UInt8)), t.length < 127 :=
  roundTrips_iff (by simp) (by decide) (by simp) (by decide)

/-- A term of 127 bytes. -/
theorem not_roundTrips : ¬RoundTrips SINGLE_OP (List.replicate 127 97) none := fun h =>
  absurd h.size (by decide +kernel)

end SearchCache
