import ColumnStore.Row.Batch
import ColumnStore.Row.Bitset
import ColumnStore.Value.Basic

/-!
# Rows in the making

A draft is a row being put together, one cell for each column of its schema.
An encoded row is

* the number of bytes of its bit vector, in two little-endian bytes;
* the bit vector: a bit for each column id, set if the cell is, and then a bit
  for each set cell whose column allows nulls, set if the cell is null;
* the values of the set cells that are not null, in order of column id.

Bit 0, the delete marker's, is never set by a draft.
-/

namespace ColumnStore

/-- A cell of a row in the making. -/
inductive DraftCell where
  /-- Not part of the row. -/
  | unset
  /-- Set to null. -/
  | null
  /-- Set to a value, given by its little-endian bytes. -/
  | value (bytes : List UInt8)
  deriving DecidableEq, Repr, Inhabited

/-- Whether a cell is part of the row. -/
def DraftCell.isSet : DraftCell → Bool
  | unset => false
  | _ => true

/-- The bytes of a cell's value; none of an unset or null cell. -/
def DraftCell.bytes : DraftCell → List UInt8
  | value bytes => bytes
  | _ => []

/-- A row in the making: its schema and its cells, and no room for its bytes.
Each row is built afresh from the cells (`encode`). Room that is kept from one
row to the next is cleared before it is filled again, so it would carry nothing
over. -/
structure RowDraft where
  schema : Schema
  /-- The cell of each column, in order of column id. -/
  cells : Array DraftCell

namespace RowDraft

/-- The bytes of the bit vector's length. -/
def bitsetLengthSize : Nat := 2

/-- The longest bit vector its length can count. -/
def bitsetLimit : Nat := 65535

/-- A draft without set cells. -/
def new (schema : Schema) : RowDraft :=
  { schema, cells := Array.replicate schema.size .unset }

/-- The draft with all cells unset. -/
def clear (draft : RowDraft) : RowDraft := new draft.schema

/-! ## Setting cells -/

/-- The cell a value of type `t`, or a null, makes for a column. -/
def cellFor (column : ColumnDef) (t : ColumnType) (v : Option t.Value) : Except Error DraftCell :=
  if t ≠ column.type then
    .error (.wrongType column.type t)
  else
    match v with
    | some v => .ok (.value (LittleEndian.encode v))
    | none =>
      if column.nullable then
        .ok .null
      else
        .error (.argument (.nullCell column.name))

/-- Sets the cell of the column with the given id, and gives what became of it
and the draft after it. A refused value leaves the draft as it was. -/
def setColumn (draft : RowDraft) (cid : Nat) (t : ColumnType) (v : Option t.Value) :
    Except Error Unit × RowDraft :=
  match draft.schema.column? cid with
  | none => (.error (.notFound (.columnId cid)), draft)
  | some column =>
    match cellFor column t v with
    | .error e => (.error e, draft)
    | .ok cell => (.ok (), { draft with cells := draft.cells.setIfInBounds (cid - 1) cell })

/-- Sets the cell of the column with the given name. -/
def setNamed (draft : RowDraft) (name : String) (t : ColumnType) (v : Option t.Value) :
    Except Error Unit × RowDraft :=
  match draft.schema.columnNamed? name with
  | none => (.error (.notFound (.column name)), draft)
  | some column => draft.setColumn column.cid t v

/-- Rows that delete are not supported. -/
def markDelete (_ : RowDraft) : Except Error Unit :=
  .error (.unsupported .delete)

/-! ## Encoding -/

/-- Each column with its cell, in order of column id. -/
def columnCells (draft : RowDraft) : List (ColumnDef × DraftCell) :=
  draft.schema.columns.toList.zip draft.cells.toList

/-- The set cells whose columns allow nulls, in order of column id. -/
def nullableCells (draft : RowDraft) : List DraftCell :=
  (draft.columnCells.filter fun (column, cell) => column.nullable && cell.isSet).map (·.2)

/-- The number of bits of the bit vector. -/
def bitCount (draft : RowDraft) : Nat :=
  draft.schema.cidSize + draft.nullableCells.length

/-- The bytes of the encoded row. -/
def encodedSize (draft : RowDraft) : Nat :=
  let valueSizes := draft.columnCells.map fun (column, cell) =>
    match cell with
    | .value _ => column.width
    | _ => 0
  bitsetLengthSize + Bitset.width draft.bitCount + valueSizes.foldl (· + ·) 0

/-- The ids of the columns whose cells are set. -/
def setCids (draft : RowDraft) : List Nat :=
  (draft.cells.toList.zipIdx 1).filterMap fun (cell, cid) => if cell.isSet then some cid else none

/-- The null bits to be set: cell by cell of those whose columns allow nulls,
from the first bit after those of the column ids. -/
def nullBits (draft : RowDraft) : List Nat :=
  (draft.nullableCells.zipIdx draft.schema.cidSize).filterMap fun (cell, bit) =>
    if cell = .null then some bit else none

/-- The id of the first key column whose cell is not set. -/
def missingKey? (draft : RowDraft) : Option Nat :=
  ((draft.cells.toList.take draft.schema.keyCount).zipIdx 1).findSome? fun (cell, cid) =>
    if cell.isSet then none else some cid

/-- The encoded row. -/
def encode (draft : RowDraft) : Outcome Bytes := do
  let bitsetSize := Bitset.width draft.bitCount
  if bitsetLimit < bitsetSize then
    throw (.error (.unsupported (.bitsetTooLong bitsetSize)))
  if let some cid := draft.missingKey? then
    throw (.error (.argument (.keyNotSet cid)))
  let bitset : Except Fault Bytes :=
    (draft.setCids ++ draft.nullBits).foldlM Bitset.set (Array.replicate bitsetSize 0)
  let values := draft.cells.toList.flatMap DraftCell.bytes
  return (LittleEndian.ofNat bitsetLengthSize bitsetSize).toArray ++ (← bitset) ++ values

/-- Appends the encoded row to a batch. The draft stays, so the row can be
written again. -/
def appendTo (draft : RowDraft) (batch : RowBatch) : Outcome RowBatch := do
  let row ← draft.encode
  batch.append row

end RowDraft

end ColumnStore
