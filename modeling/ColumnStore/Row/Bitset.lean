import ColumnStore.Buffer

/-!
# Bits of a byte string

Bit `i` of a byte string is bit `i % 8` of its byte `i / 8`, the least
significant being bit 0. A bit outside the string is a fault.
-/

namespace ColumnStore.Bitset

/-- The bytes that hold so many bits. -/
def width (bits : Nat) : Nat := (bits + 7) / 8

/-- The bytes that hold so many bits, counted in a machine word: seven are added
first, and a sum past the largest word is a fault. This is the count for any
number of bits a caller can name. A draft has as many bits as two lists in
memory have entries, far from the limit, and counts its bytes by `width`. -/
def checkedWidth (bits : Nat) : Except Fault Nat :=
  if bits + 7 ≤ largestSize then .ok (width bits) else .error .overflow

/-- The byte with only bit `i % 8` set. -/
def mask (i : Nat) : UInt8 := 1 <<< UInt8.ofNat (i % 8)

/-- The bytes with bit `i` set. -/
def set (bytes : Bytes) (i : Nat) : Except Fault Bytes :=
  if i / 8 < bytes.size then
    .ok (bytes.modify (i / 8) (· ||| mask i))
  else
    .error .outOfBounds

/-- Whether bit `i` is set. -/
def test (bytes : Bytes) (i : Nat) : Except Fault Bool :=
  match bytes[i / 8]? with
  | none => .error .outOfBounds
  | some byte => .ok (byte &&& mask i != 0)

end ColumnStore.Bitset
