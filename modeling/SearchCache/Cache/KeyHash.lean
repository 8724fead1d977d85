import SearchCache.Cache.KeyCodec

/-! The two hash functions of `hashing.h` and `key_cmp`.  Both hashes read the bytes of a key from its
start to its size: Meiyan's in words of eight bytes, and then what is left in words of two bytes and
one of one byte.  Each keeps the offsets that it has read. -/

namespace SearchCache

/-- A hash in the making, and the offsets of the bytes that it has read. -/
structure HashScan where
  hash : UInt64
  read : List Nat

/-- The byte at an offset of a buffer. -/
def byteAt (key : List UInt8) (offset : Nat) : UInt8 := key.getD offset 0

/-! ### FNV-1a -/

/-- `fnv1a_hash`, with the offsets it reads. -/
def fnv1aScan (key : List UInt8) : HashScan :=
  (List.range (keySize key)).foldl (fun scan p => {
    hash := (scan.hash ^^^ (byteAt key p).toUInt64) * 1099511628211
    read := scan.read ++ [p] }) { hash := 14695981039346656037, read := [] }

/-! ### Meiyan -/

/-- `MEIYAN_H`. -/
def meiyanH : UInt64 := 0x811c9dc5

/-- `MEIYAN_MULTIPLIER`. -/
def meiyanMultiplier : UInt64 := 0xad3e7

/-- `*(uint16_t*) key`, on a machine that stores the least significant byte first. -/
def uint16At (key : List UInt8) (offset : Nat) : UInt16 :=
  (byteAt key offset).toUInt16 ||| (byteAt key (offset + 1)).toUInt16 <<< 8

/-- `*(uint32_t*) key`. -/
def uint32At (key : List UInt8) (offset : Nat) : UInt32 :=
  (uint16At key offset).toUInt32 ||| (uint16At key (offset + 2)).toUInt32 <<< 16

/-- `*key` in an expression of type `size_t`. -/
def sizeAt (key : List UInt8) (offset : Nat) : UInt64 :=
  UInt64.ofNat (charToSize (byteAt key offset))

/-- One step of the hash with a word that was read from `width` bytes at `offset`. -/
def meiyanMix (scan : HashScan) (offset width : Nat) (word : UInt64) : HashScan where
  hash := (scan.hash ^^^ word) * meiyanMultiplier
  read := scan.read ++ List.range' offset width

/-- The loop of `meiyan_hash`: the hash, and the `count` and the offset that it leaves. -/
def meiyanLoop (key : List UInt8) (count offset : Nat) (scan : HashScan) : HashScan × Nat × Nat :=
  if 8 ≤ count then
    let word := uint32At key offset
    meiyanLoop key (count - 8) (offset + 8)
      (meiyanMix scan offset 8 ((word <<< 5 ||| word >>> 27) ^^^ uint32At key (offset + 4)).toUInt64)
  else (scan, count, offset)
termination_by count

/-- One `tmp` of `meiyan_hash`. -/
def meiyanTmp (key : List UInt8) (offset : Nat) (scan : HashScan) : HashScan :=
  meiyanMix scan offset 2 (uint16At key offset).toUInt64

/-- `meiyan_hash` before its last line, with the offsets it reads.  `count` is an `int`, and a
negative one skips the loop. -/
def meiyanScan (key : List UInt8) : HashScan :=
  let start : HashScan := { hash := meiyanH, read := [] }
  let size := keySize key % 2 ^ 32
  let (scan, count, offset) := if size < 2 ^ 31 then meiyanLoop key size 0 start else (start, size, 0)
  let (scan, offset) :=
    if count.testBit 2 then (meiyanTmp key (offset + 2) (meiyanTmp key offset scan), offset + 4)
    else (scan, offset)
  let (scan, offset) :=
    if count.testBit 1 then (meiyanTmp key offset scan, offset + 2) else (scan, offset)
  if count.testBit 0 then meiyanMix scan offset 1 (sizeAt key offset) else scan

/-- `meiyan_hash`. -/
def meiyanHash (key : List UInt8) : UInt64 :=
  let h := (meiyanScan key).hash
  h ^^^ (h >>> 16)

/-! ### The bytes that are read -/

theorem fnv1aScan_read (key : List UInt8) : (fnv1aScan key).read = List.range (keySize key) := by
  have hloop : ∀ (offsets : List Nat) (scan : HashScan),
      (offsets.foldl (fun scan p => {
        hash := (scan.hash ^^^ (byteAt key p).toUInt64) * 1099511628211
        read := scan.read ++ [p] : HashScan }) scan).read = scan.read ++ offsets := by
    intro offsets
    induction offsets with
    | nil => simp
    | cons p offsets ih =>
      intro scan
      rw [List.foldl_cons, ih, List.append_assoc]
      rfl
  rw [fnv1aScan, hloop]
  rfl

/-- Where a buffer has as many bytes as `key_size` says, the offsets are those of its bytes. -/
theorem fnv1aScan_hash {key : List UInt8} (h : keySize key ≤ key.length) :
    (fnv1aScan key).hash = fnv1aHash key := by
  have hloop : ∀ (offsets : List Nat) (scan : HashScan),
      (offsets.foldl (fun scan p => {
        hash := (scan.hash ^^^ (byteAt key p).toUInt64) * 1099511628211
        read := scan.read ++ [p] : HashScan }) scan).hash =
      (offsets.map (byteAt key)).foldl (fun hash p => (hash ^^^ p.toUInt64) * 1099511628211)
        scan.hash := by
    intro offsets
    induction offsets with
    | nil => simp
    | cons p offsets ih =>
      intro scan
      rw [List.foldl_cons, ih]
      rfl
  have hbytes : (List.range (keySize key)).map (byteAt key) = key.take (keySize key) := by
    refine List.ext_getElem (by simpa using h) fun i h1 h2 => ?_
    simp only [List.length_map, List.length_range] at h1
    simp [byteAt, List.getD_eq_getElem?_getD, show i < key.length by omega]
  rw [fnv1aScan, hloop, hbytes, fnv1aHash]

/-- A word is read after the bytes before it. -/
theorem meiyanMix_read {scan : HashScan} {offset : Nat} (h : scan.read = List.range offset)
    (width : Nat) (word : UInt64) :
    (meiyanMix scan offset width word).read = List.range (offset + width) := by
  rw [List.range_add, ← List.range'_eq_map_range, ← h]
  rfl

/-- The loop leaves less than eight bytes. -/
theorem meiyanLoop_spec (key : List UInt8) (count : Nat) {offset : Nat} {scan : HashScan}
    (h : scan.read = List.range offset) :
    ∃ scan', meiyanLoop key count offset scan = (scan', count % 8, offset + (count - count % 8)) ∧
      scan'.read = List.range (offset + (count - count % 8)) := by
  induction count using Nat.strong_induction_on generalizing offset scan with
  | _ count ih =>
    rw [meiyanLoop]
    split
    · rename_i hle
      obtain ⟨scan', hloop, hread⟩ := ih (count - 8) (by omega) (meiyanMix_read h 8 _)
      have hcount : (count - 8) % 8 = count % 8 := by omega
      have hoffset : offset + 8 + (count - 8 - (count - 8) % 8) = offset + (count - count % 8) := by
        omega
      rw [hoffset] at hread
      exact ⟨scan', by rw [hloop, hcount, ← hoffset, hcount], hread⟩
    · rename_i hlt
      have hmod : count % 8 = count := Nat.mod_eq_of_lt (by omega)
      rw [hmod, Nat.sub_self, Nat.add_zero]
      exact ⟨scan, rfl, h⟩

theorem meiyanScan_read {key : List UInt8} (h : keySize key < 2 ^ 31) :
    (meiyanScan key).read = List.range (keySize key) := by
  have hmod : keySize key % 2 ^ 32 = keySize key := Nat.mod_eq_of_lt (by omega)
  obtain ⟨scan, hloop, hread⟩ := meiyanLoop_spec key (keySize key)
    (show HashScan.read { hash := meiyanH, read := [] } = List.range 0 from rfl)
  have htail : ∀ r < 8, r = (if r.testBit 2 then 4 else 0) + (if r.testBit 1 then 2 else 0) +
      if r.testBit 0 then 1 else 0 := by decide
  have hsplit := htail (keySize key % 8) (Nat.mod_lt _ (by decide))
  rw [meiyanScan, hmod, if_pos h, hloop]
  generalize hr : keySize key % 8 = r at *
  generalize hoffset : 0 + (keySize key - r) = offset at *
  obtain ⟨scan4, h4, hread4⟩ : ∃ scan4, (if r.testBit 2 = true then
      (meiyanTmp key (offset + 2) (meiyanTmp key offset scan), offset + 4) else (scan, offset)) =
        (scan4, offset + if r.testBit 2 = true then 4 else 0) ∧
      scan4.read = List.range (offset + if r.testBit 2 = true then 4 else 0) := by
    split
    · exact ⟨_, rfl, meiyanMix_read (meiyanMix_read hread 2 _) 2 _⟩
    · exact ⟨scan, rfl, hread⟩
  generalize hoffset4 : offset + (if r.testBit 2 = true then 4 else 0) = offset4 at *
  obtain ⟨scan2, h2, hread2⟩ : ∃ scan2, (if r.testBit 1 = true then
      (meiyanTmp key offset4 scan4, offset4 + 2) else (scan4, offset4)) =
        (scan2, offset4 + if r.testBit 1 = true then 2 else 0) ∧
      scan2.read = List.range (offset4 + if r.testBit 1 = true then 2 else 0) := by
    split
    · exact ⟨_, rfl, meiyanMix_read hread4 2 _⟩
    · exact ⟨scan4, rfl, hread4⟩
  generalize hoffset2 : offset4 + (if r.testBit 1 = true then 2 else 0) = offset2 at *
  dsimp only
  rw [h4]
  dsimp only
  rw [h2]
  dsimp only
  split
  · rename_i hodd
    rw [if_pos hodd] at hsplit
    rw [meiyanMix_read hread2 1]
    congr 1
    omega
  · rename_i heven
    rw [if_neg heven] at hsplit
    rw [hread2]
    congr 1
    omega

/-! ### Comparison -/

theorem bytes_inj {k1 k2 : Key} : k1.bytes = k2.bytes ↔ k1 = k2 := by
  constructor
  · intro h
    rw [← keyCmp_bytes, h, keyCmp_bytes]
  · rintro rfl
    rfl

end SearchCache
