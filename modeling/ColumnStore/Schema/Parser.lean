import ColumnStore.ColumnType.Parser
import ColumnStore.Schema.Basic

/-!
# Reading schemas

A schema text lists its columns between commas. A column is a name, a type and
perhaps the word `null`, between blanks; type and `null` are read without regard
to case. The first column is the key.
-/

namespace ColumnStore

namespace ColumnDef

/-- Whether a character can start a column's name. -/
def isNameStart (c : Char) : Bool := c.isAlpha || c == '_'

/-- Whether a character can stand in a column's name after its start. -/
def isNameRest (c : Char) : Bool := c.isAlphanum || c == '_'

/-- Refuses a text that is no column name. -/
def checkName (name : List Char) : Except Error Unit :=
  match name with
  | [] => .error (.schema .emptyName)
  | first :: rest =>
    if !isNameStart first then
      .error (.schema (.badFirstCharacter (String.ofList name)))
    else if !rest.all isNameRest then
      .error (.schema (.badCharacter (String.ofList name)))
    else
      .ok ()

/-- The words of a column's description: its name, its type, and whether it is
followed by `null`. -/
def split? (item : List Char) : Option (List Char × List Char × Bool) :=
  match Text.words item with
  | [name, type] => some (name, type, false)
  | [name, type, null] =>
    if Text.sameIgnoringCase (String.ofList null) "null" then some (name, type, true) else none
  | _ => none

/-- The column described at a position of a schema text, counted from 0. -/
def parse (position : Nat) (item : List Char) : Except Error ColumnDef := do
  match split? item with
  | none => throw (.schema (.badDescription (String.ofList (Text.trim item))))
  | some (name, type, nullable) =>
    checkName name
    let type ← ColumnType.parse (String.ofList type)
    return { cid := position + 1, name := String.ofList name, type, nullable,
             isKey := position == 0 }

end ColumnDef

/-- The schema a text describes. -/
def Schema.parse (text : String) : Except Error Schema := do
  let columns ← (Text.cut (· = ',') text.toList).zipIdx.mapM fun (item, position) =>
    ColumnDef.parse position item
  Schema.ofColumns columns

end ColumnStore
