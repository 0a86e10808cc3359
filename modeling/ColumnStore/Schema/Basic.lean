import Std.Data.TreeMap
import ColumnStore.Failure

/-!
# Schemas

A schema is a list of columns whose ids are their positions counted from 1; id
0 is kept for the delete marker of a row. Key columns come first and allow no
nulls. A column is found by its id, which is its position, and by its name,
through a map from names to ids.

A schema is built by appending columns one at a time (`append`), so that what
is checked of a column depends only on the columns before it.
-/

namespace ColumnStore

/-- A column of a schema. -/
structure ColumnDef where
  /-- The column's id, from 1. -/
  cid : Nat
  name : String
  type : ColumnType
  /-- Whether the column allows nulls. -/
  nullable : Bool := false
  /-- Whether the column is part of the key. -/
  isKey : Bool := false
  deriving DecidableEq, Repr, Inhabited

namespace ColumnDef

/-- The bytes one value of the column takes. -/
def width (column : ColumnDef) : Nat := column.type.width

/-- The text ` as storage` is added where values are stored as another type than
the column's. -/
def describe (column : ColumnDef) (storage : ColumnType) : String :=
  let stored := if storage = column.type then "" else s!" as {storage.name}"
  let null := if column.nullable then " null" else ""
  s!"Column(cid={column.cid} {column.name} {column.type.name}{stored}{null})"

end ColumnDef

/-- An ordered set of columns, addressed by id or by name. -/
structure Schema where
  columns : Array ColumnDef
  /-- The id of each column, under its name. -/
  cidOf : Std.TreeMap String Nat
  /-- How many columns, from the first on, are key columns. -/
  keyCount : Nat

namespace Schema

/-- The id of a row's delete marker. -/
def deleteCid : Nat := 0

/-- The schema without columns, which `append` starts from. -/
def empty : Schema := ⟨#[], ∅, 0⟩

/-- The schema with one more column. The first flaw found is reported: the id,
the place of a key column, its nullability, the name. -/
def append (schema : Schema) (column : ColumnDef) : Except Error Schema :=
  let position := schema.columns.size
  if column.cid ≠ position + 1 then
    .error (.schema (.wrongCid column.name column.cid (position + 1)))
  else if column.isKey ∧ schema.keyCount ≠ position then
    .error (.schema (.lateKey column.name))
  else if column.isKey ∧ column.nullable then
    .error (.schema (.nullableKey column.name))
  else if column.name ∈ schema.cidOf then
    .error (.schema (.duplicateName column.name))
  else
    .ok { columns := schema.columns.push column
          cidOf := schema.cidOf.insert column.name column.cid
          keyCount := if column.isKey then schema.keyCount + 1 else schema.keyCount }

/-- The schema of a list of columns. -/
def ofColumns (columns : List ColumnDef) : Except Error Schema := do
  if columns.isEmpty then
    throw (.schema .noColumns)
  let schema ← columns.foldlM append empty
  if schema.keyCount = 0 then
    throw (.schema .noKey)
  return schema

/-- The number of columns. -/
def size (schema : Schema) : Nat := schema.columns.size

/-- The number of ids in use, that of the delete marker included. -/
def cidSize (schema : Schema) : Nat := schema.size + 1

/-- The column with the given id. -/
def column? (schema : Schema) (cid : Nat) : Option ColumnDef :=
  if cid = deleteCid then none else schema.columns[cid - 1]?

/-- The column with the given name. -/
def columnNamed? (schema : Schema) (name : String) : Option ColumnDef :=
  (schema.cidOf[name]?).bind schema.column?

/-- The bytes one value of a column takes, 0 where there is no such column. Where
the column itself is at hand, its `width` is used instead. -/
def widthOf (schema : Schema) (cid : Nat) : Nat :=
  match schema.column? cid with
  | some column => column.width
  | none => 0

end Schema

end ColumnStore
