import ColumnStore.Failure
import ColumnStore.Text.Cut

/-!
# Reading type names

A type name is read without regard to case. The names of types without a fixed
width are known, and refused as not supported.
-/

namespace ColumnStore.ColumnType

/-- The names of the types without a fixed width. -/
def variableLengthNames : List String := ["char", "varchar", "string"]

/-- The type with the given name. -/
def parse (name : String) : Except Error ColumnType :=
  match all.find? fun t => Text.sameIgnoringCase t.name name with
  | some t => .ok t
  | none =>
    if variableLengthNames.any (Text.sameIgnoringCase · name) then
      .error (.unsupported (.variableLength name))
    else
      .error (.schema (.unknownType name))

end ColumnStore.ColumnType
