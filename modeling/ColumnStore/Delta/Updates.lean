import Std.Data.TreeMap
import ColumnStore.Delta.Basic
import ColumnStore.Schema.Basic

/-!
# Pending updates

Updates to one column are collected row by row before they are committed as a
delta. A later update of a row replaces an earlier one; a null is refused where
the column allows none. Committing lays the updates out in the order of their
row ids.
-/

namespace ColumnStore

/-- The updates collected for a column whose values are stored as `st`. -/
structure Updates (st : ColumnType) where
  /-- The column's name. -/
  column : String
  /-- Whether the column allows nulls. -/
  nullable : Bool
  /-- The last update of each row, `none` for null. -/
  rows : Std.TreeMap RowId (Option st.Value)

namespace Updates

variable {st : ColumnType}

/-- No updates yet. -/
def new (st : ColumnType) (column : ColumnDef) : Updates st :=
  { column := column.name, nullable := column.nullable, rows := ∅ }

/-- Sets a row to a value. -/
def put (u : Updates st) (rid : RowId) (v : st.Value) : Updates st :=
  { u with rows := u.rows.insert rid (some v) }

/-- Sets a row to null, if the column allows it. -/
def putNull (u : Updates st) (rid : RowId) : Except Error (Updates st) :=
  if u.nullable then
    .ok { u with rows := u.rows.insert rid none }
  else
    .error (.nullRefused u.column)

/-- Sets a row to a value or, for `none`, to null. -/
def putOption (u : Updates st) (rid : RowId) : Option st.Value → Except Error (Updates st)
  | some v => .ok (u.put rid v)
  | none => u.putNull rid

/-- The number of rows updated. -/
def size (u : Updates st) : Nat := u.rows.size

/-- Whether no row is updated. -/
def isEmpty (u : Updates st) : Bool := u.rows.isEmpty

/-- The delta of the updates collected so far. A row set to null keeps a zero
among the values; flags are kept only where the column allows nulls. -/
def commit (u : Updates st) (version : Nat) : Except Error Delta := do
  let entries := u.rows.toList
  let index ← RowIndex.ofRowIds (entries.map (·.1)).toArray
  let data ← Buffer.ofValues (entries.map fun (_, v) => v.getD 0).toArray
  let nulls ←
    if u.nullable then
      let flag (v : Option st.Value) : BitVec (8 * 1) := if v.isNone then 1 else 0
      some <$> Buffer.ofValues (entries.map fun (_, v) => flag v).toArray
    else
      pure none
  return { version, storage := st, index, data, nulls }

end Updates

end ColumnStore
