import ColumnStore.Bytes

/-!
# Column types

The seven fixed-width types a column can have. A value is the bit pattern of
its type's width, so reading, writing and comparing storage never rounds.
-/

namespace ColumnStore

/-- The type of the values of a column. -/
inductive ColumnType where
  /-- 8-bit signed integer. -/
  | tinyInt
  /-- 16-bit signed integer. -/
  | smallInt
  /-- 32-bit signed integer. -/
  | int
  /-- 64-bit signed integer. -/
  | bigInt
  /-- 128-bit signed integer. -/
  | largeInt
  /-- 32-bit binary floating point. -/
  | float
  /-- 64-bit binary floating point. -/
  | double
  deriving DecidableEq, Repr, Inhabited

namespace ColumnType

/-- The bytes one value takes. -/
def width : ColumnType → Nat
  | tinyInt => 1
  | smallInt => 2
  | int => 4
  | bigInt => 8
  | largeInt => 16
  | float => 4
  | double => 8

/-- The name a schema text gives the type. -/
def name : ColumnType → String
  | tinyInt => "tinyint"
  | smallInt => "smallint"
  | int => "int"
  | bigInt => "bigint"
  | largeInt => "largeint"
  | float => "float"
  | double => "double"

/-- Every column type, in order of width, integers first. -/
def all : List ColumnType :=
  [tinyInt, smallInt, int, bigInt, largeInt, float, double]

/-- The bit pattern of one value of the type. -/
abbrev Value (t : ColumnType) : Type := BitVec (8 * t.width)

theorem width_pos (t : ColumnType) : 0 < t.width := by
  cases t <;> decide

theorem mem_all (t : ColumnType) : t ∈ all := by
  cases t <;> decide

end ColumnType

end ColumnStore
