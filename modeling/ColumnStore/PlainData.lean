import ColumnStore.Buffer

/-!
# Plain data

Some types are nothing but their bits: each value is a pattern of the type's
bytes, and each pattern is a value. Integers are such types, and so are
floating-point numbers, taken by their bits. A buffer is filled, read and
written with values of any of these types. What it holds are the bits, so what
was written as one type can be read as another of the same width.
-/

namespace ColumnStore

/-- A type whose values are the patterns of some bytes, each pattern a value of
its own. -/
class PlainData (α : Type) where
  /-- The bytes of one value. -/
  width : Nat
  /-- The bits of a value. -/
  toBits : α → BitVec (8 * width)
  /-- The value with the given bits. -/
  ofBits : BitVec (8 * width) → α
  width_pos : 0 < width
  ofBits_toBits : ∀ a, ofBits (toBits a) = a
  toBits_ofBits : ∀ v, toBits (ofBits v) = v

namespace PlainData

instance : PlainData UInt8 :=
  ⟨1, UInt8.toBitVec, UInt8.ofBitVec, by decide, fun _ => rfl, fun _ => rfl⟩

instance : PlainData UInt16 :=
  ⟨2, UInt16.toBitVec, UInt16.ofBitVec, by decide, fun _ => rfl, fun _ => rfl⟩

instance : PlainData UInt32 :=
  ⟨4, UInt32.toBitVec, UInt32.ofBitVec, by decide, fun _ => rfl, fun _ => rfl⟩

instance : PlainData UInt64 :=
  ⟨8, UInt64.toBitVec, UInt64.ofBitVec, by decide, fun _ => rfl, fun _ => rfl⟩

instance : PlainData Int8 :=
  ⟨1, Int8.toBitVec, Int8.ofBitVec, by decide, fun _ => rfl, fun _ => rfl⟩

instance : PlainData Int16 :=
  ⟨2, Int16.toBitVec, Int16.ofBitVec, by decide, fun _ => rfl, fun _ => rfl⟩

instance : PlainData Int32 :=
  ⟨4, Int32.toBitVec, Int32.ofBitVec, by decide, fun _ => rfl, fun _ => rfl⟩

instance : PlainData Int64 :=
  ⟨8, Int64.toBitVec, Int64.ofBitVec, by decide, fun _ => rfl, fun _ => rfl⟩

/-- Integers of 16 bytes, with or without a sign. -/
instance : PlainData (BitVec 128) := ⟨16, id, id, by decide, fun _ => rfl, fun _ => rfl⟩

/-- Values of a column are kept as bits to begin with. -/
instance (t : ColumnType) : PlainData t.Value :=
  ⟨t.width, id, id, t.width_pos, fun _ => rfl, fun _ => rfl⟩

end PlainData

namespace Buffer

open PlainData (toBits ofBits)

/-- A buffer of the given values. -/
def ofArray {α : Type} [PlainData α] (values : Array α) : Except Error Buffer :=
  ofValues (values.map toBits)

/-- All elements, as values of a type. -/
def viewAs (b : Buffer) (α : Type) [PlainData α] : Except Fault (Array α) :=
  Array.map ofBits <$> b.view (PlainData.width α)

/-- Element `i`, as a value of a type. -/
def readAs (b : Buffer) (α : Type) [PlainData α] (i : Nat) : Except Fault α :=
  ofBits <$> b.read (PlainData.width α) i

/-- The buffer with element `i` replaced by a value. -/
def writeAs {α : Type} [PlainData α] (b : Buffer) (i : Nat) (a : α) : Except Fault Buffer :=
  b.write i (toBits a)

end Buffer

end ColumnStore
