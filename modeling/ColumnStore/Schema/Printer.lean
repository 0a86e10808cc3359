import ColumnStore.Schema.Basic

/-!
# Writing schemas

The text of a list of columns, as a schema is read from: name, type and, where
nulls are allowed, the word `null`, the columns joined by commas.
-/

namespace ColumnStore

/-- The text of one column. -/
def ColumnDef.render (column : ColumnDef) : String :=
  if column.nullable then
    s!"{column.name} {column.type.name} null"
  else
    s!"{column.name} {column.type.name}"

/-- The text of a list of columns. -/
def Schema.renderColumns (columns : List ColumnDef) : String :=
  ",".intercalate (columns.map ColumnDef.render)

/-- The text of a schema. -/
def Schema.render (schema : Schema) : String :=
  renderColumns schema.columns.toList

end ColumnStore
