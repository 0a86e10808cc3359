/-!
# Bytes

Byte strings, the little-endian form of a number, and the one way bytes are
changed in place: a run of them is laid over a stretch of a byte string.

The little-endian form is stated on natural numbers; `encode` and `decode` are
its instance for bit vectors of whole bytes.
-/

namespace ColumnStore

/-- A byte string. -/
abbrev Bytes := Array UInt8

/-- Positions from `start` up to `stop`. -/
structure Span where
  start : Nat
  stop : Nat
  deriving DecidableEq, Repr

/-- Whether a span has no positions. -/
def Span.isEmpty (span : Span) : Bool := span.stop ≤ span.start

namespace LittleEndian

/-- The `n` low bytes of a number, the lowest first. -/
def ofNat : Nat → Nat → List UInt8
  | 0, _ => []
  | n + 1, v => UInt8.ofNat v :: ofNat n (v / 256)

/-- The number whose bytes are given, the lowest first. -/
def toNat : List UInt8 → Nat
  | [] => 0
  | b :: bs => b.toNat + 256 * toNat bs

/-- The bytes of a bit vector of `n` bytes. -/
def encode {n : Nat} (v : BitVec (8 * n)) : List UInt8 :=
  ofNat n v.toNat

/-- The bit vector held by the first `n` bytes. -/
def decode (n : Nat) (bytes : List UInt8) : BitVec (8 * n) :=
  BitVec.ofNat (8 * n) (toNat (bytes.take n))

end LittleEndian

namespace Bytes

/-- Lays a run of bytes over a byte string from position `start` on. What falls
past the end is dropped. -/
def overlay (bytes : Bytes) (start : Nat) : List UInt8 → Bytes
  | [] => bytes
  | b :: bs => overlay (bytes.setIfInBounds start b) (start + 1) bs

/-- The bytes from `start` up to `stop`, both ends cut to the string. -/
def slice (bytes : Bytes) (start stop : Nat) : List UInt8 :=
  (bytes.extract start stop).toList

/-- The bytes from `start` up to `stop`, if the string reaches that far. -/
def stretch? (bytes : Bytes) (start stop : Nat) : Option Bytes :=
  if start ≤ stop ∧ stop ≤ bytes.size then some (bytes.extract start stop) else none

@[simp] theorem size_overlay (bytes : Bytes) (start : Nat) (run : List UInt8) :
    (bytes.overlay start run).size = bytes.size := by
  induction run generalizing bytes start with
  | nil => rfl
  | cons b bs ih => simp [overlay, ih]

/-- An overlay changes the positions it covers and no other. -/
theorem getElem?_overlay (bytes : Bytes) (start : Nat) (run : List UInt8) (i : Nat) :
    (bytes.overlay start run)[i]? =
      if start ≤ i ∧ i < start + run.length ∧ i < bytes.size then run[i - start]?
      else bytes[i]? := by
  induction run generalizing bytes start with
  | nil => simp [overlay]; omega
  | cons b bs ih =>
    rw [overlay, ih]
    simp only [Array.size_setIfInBounds, Array.getElem?_setIfInBounds, List.length_cons]
    by_cases hi : i = start
    · subst hi
      have hi : ¬ i + 1 ≤ i := by omega
      by_cases hs : i < bytes.size <;> simp [hi, hs]
    · by_cases hlow : start ≤ i
      · obtain ⟨k, rfl⟩ : ∃ k, i = start + 1 + k := ⟨i - (start + 1), by omega⟩
        have h1 : start + 1 + k - start = k + 1 := by omega
        have h2 : start + 1 + k - (start + 1) = k := by omega
        simp only [h1, h2, List.getElem?_cons_succ]
        grind
      · grind

end Bytes

end ColumnStore
