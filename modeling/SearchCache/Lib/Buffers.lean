import SearchCache.Lib.Memory
import Mathlib.Logic.Function.Basic

/-! What an allocator of memory is for: live buffers that do not overlap, and in them the bytes that
were last stored.  A store cannot be built with two buffers that overlap or with a known byte outside
of a buffer. -/

namespace Buffers

open Memory

/-- `n` bytes from `p` on and `k` bytes from `q` on. -/
def Apart (p n q k : Nat) : Prop := p + n ≤ q ∨ q + k ≤ p

/-- The live buffers with their sizes, and the bytes whose values are known. -/
structure Store where
  size : Nat → Option Nat
  byte : Nat → Option UInt8
  pos : ∀ p n, size p = some n → 0 < n
  apart : ∀ p n q k, size p = some n → size q = some k → p ≠ q → Apart p n q k
  inside : ∀ x v, byte x = some v → ∃ p n, size p = some n ∧ p ≤ x ∧ x < p + n

namespace Store

/-- The byte at `x` is one of the buffer at `p`. -/
def Covers (B : Store) (p x : Nat) : Prop := ∃ n, B.size p = some n ∧ p ≤ x ∧ x < p + n

instance (B : Store) (p x : Nat) : Decidable (B.Covers p x) :=
  match h : B.size p with
  | none => .isFalse fun ⟨n, hn, _⟩ => by simp [h] at hn
  | some n => decidable_of_iff (p ≤ x ∧ x < p + n) (by simp [Covers, h])

def empty : Store where
  size _ := none
  byte _ := none
  pos := by simp
  apart := by simp
  inside := by simp

/-- A new buffer, of which nothing is known. -/
def place (B : Store) (p n : Nat) (hpos : 0 < n)
    (hapart : ∀ q k, B.size q = some k → Apart p n q k) : Store where
  size := Function.update B.size p (some n)
  byte := B.byte
  pos q k hq := by
    rw [Function.update_apply] at hq
    split at hq
    · obtain rfl := Option.some.inj hq
      exact hpos
    · exact B.pos q k hq
  apart q k r j hq hr hne := by
    rw [Function.update_apply] at hq hr
    split at hq
    · rename_i hqp
      obtain rfl := Option.some.inj hq
      rw [if_neg (by omega)] at hr
      rw [hqp]
      exact hapart r j hr
    · split at hr
      · rename_i hrp
        obtain rfl := Option.some.inj hr
        rw [hrp]
        exact (hapart q k hq).symm
      · exact B.apart q k r j hq hr hne
  inside x v hx := by
    obtain ⟨q, k, hq, hin⟩ := B.inside x v hx
    refine ⟨q, k, ?_, hin⟩
    have := B.pos q k hq
    rw [Function.update_of_ne, hq]
    rintro rfl
    have := hapart q k hq
    unfold Apart at this
    omega

/-- The buffer at `p` is gone, and what was known of it. -/
def release (B : Store) (p : Nat) : Store where
  size := Function.update B.size p none
  byte x := if B.Covers p x then none else B.byte x
  pos q k hq := by
    rw [Function.update_apply] at hq
    split at hq
    · simp at hq
    · exact B.pos q k hq
  apart q k r j hq hr hne := by
    rw [Function.update_apply] at hq hr
    split at hq
    · simp at hq
    · split at hr
      · simp at hr
      · exact B.apart q k r j hq hr hne
  inside x v hx := by
    split at hx
    · simp at hx
    · rename_i hp
      obtain ⟨q, k, hq, hin⟩ := B.inside x v hx
      refine ⟨q, k, ?_, hin⟩
      rw [Function.update_of_ne, hq]
      rintro rfl
      exact hp ⟨k, hq, hin⟩

/-- Other bytes are known. -/
def learn (B : Store) (f : Nat → Option UInt8)
    (hf : ∀ x v, f x = some v → ∃ p, B.Covers p x) : Store where
  size := B.size
  byte := f
  pos := B.pos
  apart := B.apart
  inside := hf

end Store

/-- What happens to the buffers. -/
inductive Event
  | alloc (p n : Nat)
  | free (p : Nat)
  | store (x : Nat) (v : UInt8)
  /-- `k` bytes from `p` on become `v`. -/
  | fill (p k : Nat) (v : UInt8)
  /-- The buffer at `p` becomes one of `n` bytes at `q` with the same first `k` bytes. -/
  | move (p q n k : Nat)

namespace Store

/-- The bytes after a fill. -/
def filled (B : Store) (p k : Nat) (v : UInt8) (x : Nat) : Option UInt8 :=
  if p ≤ x ∧ x < p + k then some v else B.byte x

/-- The bytes after a move. -/
def moved (B : Store) (p q k : Nat) (x : Nat) : Option UInt8 :=
  if q ≤ x ∧ x < q + k then B.byte (p + (x - q)) else (B.release p).byte x

/-- The buffers do what an event says. -/
inductive Step (B : Store) : Event → Store → Prop
  | alloc {p n : Nat} (hpos : 0 < n) (hapart : ∀ q k, B.size q = some k → Apart p n q k) :
      Step B (.alloc p n) (B.place p n hpos hapart)
  | free {p n : Nat} : B.size p = some n → Step B (.free p) (B.release p)
  | store {x : Nat} {v : UInt8} (hf) : (∃ p, B.Covers p x) →
      Step B (.store x v) (B.learn (Function.update B.byte x (some v)) hf)
  | fill {p n k : Nat} {v : UInt8} (hf) : B.size p = some n → k ≤ n →
      Step B (.fill p k v) (B.learn (B.filled p k v) hf)
  | move {p q n k s : Nat} (hpos : 0 < n)
      (hapart : ∀ r j, (B.release p).size r = some j → Apart q n r j) (hf) :
      B.size p = some s → k ≤ s → k ≤ n →
      Step B (.move p q n k) (((B.release p).place q n hpos hapart).learn (B.moved p q k) hf)

inductive Run : Store → List Event → Store → Prop
  | nil (B : Store) : Run B [] B
  | cons {B B' B'' : Store} {e : Event} {events : List Event} : B.Step e B' → Run B' events B'' →
      Run B (e :: events) B''

/-- The memory holds the bytes that are known. -/
def Agrees (B : Store) (m : Mem) : Prop := ∀ x v, B.byte x = some v → m.byte x = v

variable {B B' B'' : Store} {m m' : Mem} {p q n k x : Nat} {v : UInt8} {events rest : List Event}

theorem Run.single {e : Event} (h : B.Step e B') : Run B [e] B' := .cons h (.nil _)

theorem Run.append (h : Run B events B') (h' : Run B' rest B'') : Run B (events ++ rest) B'' := by
  induction h with
  | nil => exact h'
  | cons hstep _ ih => exact .cons hstep (ih h')

theorem covers_place {hpos hapart} (h : B.Covers p x) : (B.place q n hpos hapart).Covers p x := by
  obtain ⟨k, hk, hin⟩ := h
  refine ⟨k, ?_, hin⟩
  refine (Function.update_of_ne ?_ _ _).trans hk
  rintro rfl
  have := B.pos p k hk
  have := hapart p k hk
  unfold Apart at this
  omega

theorem covers_place_self {hpos hapart} (hle : p ≤ x) (hlt : x < p + n) :
    (B.place p n hpos hapart).Covers p x := ⟨n, Function.update_self .., hle, hlt⟩

/-! ### Building the steps -/

theorem step_store (v : UInt8) (h : B.Covers p x) :
    ∃ B', B.Step (.store x v) B' ∧ B'.size = B.size ∧
      B'.byte = Function.update B.byte x (some v) := by
  have hf : ∀ y u, Function.update B.byte x (some v) y = some u → ∃ p, B.Covers p y := by
    intro y u hy
    rw [Function.update_apply] at hy
    split at hy
    · rename_i heq
      exact ⟨p, heq ▸ h⟩
    · exact B.inside y u hy
  exact ⟨_, .store hf ⟨p, h⟩, rfl, rfl⟩

theorem step_fill (v : UInt8) (h : B.size p = some n) (hle : k ≤ n) :
    ∃ B', B.Step (.fill p k v) B' ∧ B'.size = B.size ∧ B'.byte = B.filled p k v := by
  have hf : ∀ y u, B.filled p k v y = some u → ∃ p, B.Covers p y := by
    intro y u hy
    rw [filled] at hy
    split at hy
    · exact ⟨p, n, h, by omega, by omega⟩
    · exact B.inside y u hy
  exact ⟨_, .fill hf h hle, rfl, rfl⟩

theorem step_move {s : Nat} (hp : B.size p = some s) (hpos : 0 < n) (hs : k ≤ s) (hn : k ≤ n)
    (hapart : ∀ r j, (B.release p).size r = some j → Apart q n r j) :
    ∃ B', B.Step (.move p q n k) B' ∧
      B'.size = Function.update (Function.update B.size p none) q (some n) ∧
      B'.byte = B.moved p q k := by
  have hf : ∀ y u, B.moved p q k y = some u →
      ∃ r, ((B.release p).place q n hpos hapart).Covers r y := by
    intro y u hy
    rw [moved] at hy
    split at hy
    · exact ⟨q, covers_place_self (by omega) (by omega)⟩
    · obtain ⟨r, j, hr, hin⟩ := (B.release p).inside y u hy
      exact ⟨r, covers_place ⟨j, hr, hin⟩⟩
  exact ⟨_, .move hpos hapart hf hp hs hn, rfl, rfl⟩

/-! ### Memories -/

/-- Bytes outside of the buffers do not matter. -/
theorem Agrees.keep (h : B.Agrees m)
    (keeps : ∀ p x, B.Covers p x → m'.byte x = m.byte x) : B.Agrees m' := by
  intro x v hx
  obtain ⟨p, hp⟩ := B.inside x v hx
  exact (keeps p x hp).trans (h x v hx)

theorem Agrees.release (h : B.Agrees m) (p : Nat) : (B.release p).Agrees m := by
  intro x v hx
  simp only [Store.release] at hx
  split at hx
  · simp at hx
  · exact h x v hx

theorem Agrees.store (h : B.Agrees m) (hbyte : B'.byte = Function.update B.byte x (some v)) :
    B'.Agrees (write8 m x v) := by
  intro y u hy
  rw [hbyte, Function.update_apply] at hy
  simp only [write8]
  split at hy
  · rename_i heq
    rw [if_pos heq]
    exact Option.some.inj hy
  · rename_i hne
    rw [if_neg hne]
    exact h y u hy

theorem Agrees.fill (h : B.Agrees m) (hbyte : B'.byte = B.filled p k v)
    (hfill : ∀ y, p ≤ y → y < p + k → m.byte y = v) : B'.Agrees m := by
  intro y u hy
  rw [hbyte, filled] at hy
  split at hy
  · rename_i hin
    rw [hfill y hin.1 hin.2]
    exact Option.some.inj hy
  · exact h y u hy

/-- The bytes of a moved buffer, where those of the others stay. -/
theorem Agrees.move (h : B.Agrees m) (hbyte : B'.byte = B.moved p q k)
    (keeps : ∀ r x, (B.release p).Covers r x → m'.byte x = m.byte x)
    (hmove : ∀ i < k, m'.byte (q + i) = m.byte (p + i)) : B'.Agrees m' := by
  intro y u hy
  rw [hbyte, moved] at hy
  split at hy
  · rename_i hin
    have hbyte := hmove (y - q) (by omega)
    rw [show q + (y - q) = y by omega] at hbyte
    exact hbyte.trans (h _ u hy)
  · exact ((h.release p).keep keeps) y u hy

end Store
end Buffers
