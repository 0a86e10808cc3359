import ColumnStore.Row.Draft

/-!
# Reading rows

A cursor reads the rows of a batch one at a time and checks each against the
batch's schema, whatever bytes it is made of. It walks the columns in order of
id with two positions: the next null bit, and the next byte of the values. The
cells found before a flaw stay with the cursor, but not the row's bytes.
-/

namespace ColumnStore

/-- A cell of a row that was read. -/
structure RowCell where
  column : ColumnDef
  /-- Where in the row the value stands, `none` for null. -/
  value : Option Span
  deriving DecidableEq, Repr

/-- The rows of a batch, read one at a time. -/
structure RowCursor where
  batch : RowBatch
  /-- The bytes of the row last read, none after a failure. -/
  row : Bytes
  /-- The cells of that row, in order of column id. -/
  cells : Array RowCell
  /-- Whether that row deletes. -/
  isDelete : Bool

/-- How far the walk over a row's columns has come. -/
structure RowWalk where
  cells : Array RowCell
  /-- The next null bit. -/
  nullBit : Nat
  /-- The next byte of the values. -/
  position : Nat

namespace RowWalk

/-- The cell of a set column that the walk has come to. `none` is a row that ends
too early. -/
def cell? (walk : RowWalk) (row bitset : Bytes) (column : ColumnDef) :
    Except Fault (Option RowCell) := do
  if column.nullable then
    if bitset.size * 8 ≤ walk.nullBit then
      return none
    if ← Bitset.test bitset walk.nullBit then
      return some ⟨column, none⟩
  let stop := walk.position + column.width
  return if row.size < stop then none else some ⟨column, some ⟨walk.position, stop⟩⟩

/-- The walk past a cell: its null bit if its column allows nulls, its bytes if it
is not null. -/
def push (walk : RowWalk) (cell : RowCell) : RowWalk :=
  { cells := walk.cells.push cell
    nullBit := if cell.column.nullable then walk.nullBit + 1 else walk.nullBit
    position := (cell.value.map Span.stop).getD walk.position }

/-- The walk past the columns from id `cid` on, and whether the row held them
all. -/
def run (row bitset : Bytes) : List ColumnDef → Nat → RowWalk → Except Fault Bool × RowWalk
  | [], _, walk => (.ok true, walk)
  | column :: rest, cid, walk =>
    match Bitset.test bitset cid with
    | .error fault => (.error fault, walk)
    | .ok false => run row bitset rest (cid + 1) walk
    | .ok true =>
      match walk.cell? row bitset column with
      | .error fault => (.error fault, walk)
      | .ok none => (.ok false, walk)
      | .ok (some cell) => run row bitset rest (cid + 1) (walk.push cell)

end RowWalk

namespace RowCursor

/-- A cursor that has read no row yet. -/
def new (batch : RowBatch) : RowCursor :=
  { batch, row := #[], cells := #[], isDelete := false }

/-- The number of rows of the batch. -/
def size (cursor : RowCursor) : Nat := cursor.batch.size

/-- The number of cells of the row. -/
def cellCount (cursor : RowCursor) : Nat := cursor.cells.size

/-- The bit vector of a row, if the row holds all of it. -/
def bitset? (row : Bytes) : Option Bytes := do
  let length ← row.stretch? 0 RowDraft.bitsetLengthSize
  let size := LittleEndian.toNat length.toList
  row.stretch? RowDraft.bitsetLengthSize (RowDraft.bitsetLengthSize + size)

/-- Reads a row, and gives what became of it and the cursor after it. -/
def read (cursor : RowCursor) (i : Nat) : Outcome Unit × RowCursor :=
  let cursor := new cursor.batch
  let corrupt : Failure := .error (.argument (.corruptRow i))
  match cursor.batch.row? i with
  | none => (.error (.error (.argument (.noRow i cursor.size))), cursor)
  | some row =>
    match bitset? row with
    | none => (.error corrupt, cursor)
    | some bitset =>
      let schema := cursor.batch.schema
      if bitset.size * 8 < schema.cidSize then
        (.error corrupt, cursor)
      else
        match Bitset.test bitset Schema.deleteCid with
        | .error fault => (.error (.fault fault), cursor)
        | .ok isDelete =>
          let start : RowWalk :=
            { cells := #[], nullBit := schema.cidSize,
              position := RowDraft.bitsetLengthSize + bitset.size }
          let (outcome, walk) := RowWalk.run row bitset schema.columns.toList 1 start
          let cursor := { cursor with cells := walk.cells, isDelete }
          match outcome with
          | .error fault => (.error (.fault fault), cursor)
          | .ok false => (.error corrupt, cursor)
          | .ok true => (.ok (), { cursor with row })

/-- The column of a cell and its value's bytes, `none` for null. -/
def cell (cursor : RowCursor) (i : Nat) : Outcome (ColumnDef × Option Bytes) :=
  match cursor.cells[i]? with
  | none => .error (.error (.argument (.noCell i cursor.cellCount)))
  | some cell =>
    match cell.value with
    | none => .ok (cell.column, none)
    | some span =>
      match cursor.row.stretch? span.start span.stop with
      | none => .error (.fault .outOfBounds)
      | some bytes => .ok (cell.column, some bytes)

/-- The value of a cell, which must be of type `t`; `none` for null. -/
def value (cursor : RowCursor) (i : Nat) (t : ColumnType) : Outcome (Option t.Value) := do
  let (column, bytes) ← cursor.cell i
  if t ≠ column.type then
    throw (.error (.wrongType column.type t))
  match bytes with
  | none => return none
  | some bytes =>
    let v : Except Fault t.Value := t.load bytes
    return some (← v)

end RowCursor

end ColumnStore
