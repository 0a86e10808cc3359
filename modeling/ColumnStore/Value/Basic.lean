import ColumnStore.Failure
import ColumnStore.Fingerprint
import ColumnStore.Value.BinaryFloat

/-!
# Values

Values of a column type: how they are stored, when two are equal, their
fingerprint, and which types' values widen to which others without loss.
Integers are equal when their bits are; floating-point values are equal as
numbers.

Rows keep values in little-endian order on any machine. Elements of buffers and
fingerprints take the machine's own order, and the machine is taken to be
little-endian, so that all three see the same bytes.
-/

namespace ColumnStore.ColumnType

variable {t : ColumnType}

/-- The value a new element has. -/
def zero (t : ColumnType) : t.Value := 0

/-- Writes a value into the front of a byte string, which must have room for
it. A cell of a row has room for any value and takes the bytes of its value as
they are. -/
def store (v : t.Value) (room : Bytes) : Except Fault Bytes :=
  if t.width ≤ room.size then
    .ok (room.overlay 0 (LittleEndian.encode v))
  else
    .error .outOfBounds

/-- Reads a value from the front of a byte string, which must hold one. -/
def load (t : ColumnType) (bytes : Bytes) : Except Fault t.Value :=
  if t.width ≤ bytes.size then
    .ok (LittleEndian.decode t.width (bytes.slice 0 t.width))
  else
    .error .outOfBounds

/-- The format of the floating-point types. -/
def floatFormat? : ColumnType → Option BinaryFloat
  | .float => some .single
  | .double => some .double
  | _ => none

/-- Whether two values of one type are equal. -/
def same (a b : t.Value) : Bool :=
  match t.floatFormat? with
  | none => a == b
  | some f => f.same a.toNat b.toNat

/-- The fingerprint of a value: that of its bytes in memory, from the seed of
keys. These are the bytes in the machine's own order, here little-endian; a
big-endian machine would give other fingerprints. -/
def fingerprint (v : t.Value) : UInt64 :=
  Fingerprint.update Fingerprint.keySeed (LittleEndian.encode v).toArray

/-- How values of one type become values of another without loss, where the
store widens at all: to itself, from an integer type to a wider one, from an
integer type to a floating-point type that holds each of its values, and from
the narrow floating-point type to the wide one. -/
def widening? (source target : ColumnType) : Option (source.Value → target.Value) :=
  if h : source = target then
    some fun v => h ▸ v
  else
    match source, target with
    | .tinyInt, .smallInt => some (·.signExtend _)
    | .tinyInt, .int => some (·.signExtend _)
    | .tinyInt, .bigInt => some (·.signExtend _)
    | .tinyInt, .largeInt => some (·.signExtend _)
    | .smallInt, .int => some (·.signExtend _)
    | .smallInt, .bigInt => some (·.signExtend _)
    | .smallInt, .largeInt => some (·.signExtend _)
    | .int, .bigInt => some (·.signExtend _)
    | .int, .largeInt => some (·.signExtend _)
    | .bigInt, .largeInt => some (·.signExtend _)
    | .tinyInt, .float => some fun v => BitVec.ofNat _ (BinaryFloat.single.ofInt v.toInt)
    | .smallInt, .float => some fun v => BitVec.ofNat _ (BinaryFloat.single.ofInt v.toInt)
    | .tinyInt, .double => some fun v => BitVec.ofNat _ (BinaryFloat.double.ofInt v.toInt)
    | .smallInt, .double => some fun v => BitVec.ofNat _ (BinaryFloat.double.ofInt v.toInt)
    | .int, .double => some fun v => BitVec.ofNat _ (BinaryFloat.double.ofInt v.toInt)
    | .float, .double => some fun v =>
      BitVec.ofNat _ (BinaryFloat.single.widen BinaryFloat.double v.toNat)
    | _, _ => none

/-- A type widens to itself by changing nothing, so keys of a column's own type
are compared with its values as they are. -/
@[simp] theorem widening?_self (t : ColumnType) : widening? t t = some id := by
  simp only [widening?, dif_pos]
  rfl

end ColumnStore.ColumnType
