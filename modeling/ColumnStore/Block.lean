import ColumnStore.Buffer
import ColumnStore.RowId

/-!
# Blocks

A block holds up to 65536 rows of one column: their values, and perhaps a null
flag for each. A flag is one byte, set if it is not zero; without flags no row
is null. The value under a set flag stays in the block's bytes.
-/

namespace ColumnStore

/-- A run of rows of one column. -/
structure Block where
  /-- The number of rows. -/
  size : Nat
  /-- The values. -/
  data : Buffer
  /-- The null flags, one byte for each row. -/
  nulls : Option Buffer
  deriving Repr

namespace Block

/-- A zeroed block, with null flags if asked. -/
def zeroed (size width : Nat) (tracksNulls : Bool) : Except Error Block := do
  if RowId.blockCapacity < size then
    throw (.argument (.blockTooLarge size RowId.blockCapacity))
  let data ← Buffer.zeroed size width
  let nulls ← if tracksNulls then some <$> Buffer.zeroed size 1 else pure none
  return { size, data, nulls }

/-- A block of the given values that tracks nulls and has none. -/
def ofValues {width : Nat} (values : Array (BitVec (8 * width))) : Except Error Block := do
  let block ← zeroed values.size width true
  let data ← Buffer.ofValues values
  return { block with data }

/-- Whether the block has null flags. -/
def tracksNulls (b : Block) : Bool := b.nulls.isSome

/-- The bytes of storage the block holds. -/
def heldBytes (b : Block) : Nat :=
  b.data.heldBytes + (b.nulls.map Buffer.heldBytes).getD 0

/-- The block without its null flags: every row counts as not null. -/
def withoutFlags (b : Block) : Block := { b with nulls := none }

/-! ## Rows -/

/-- Whether a row is null. -/
def isNull (b : Block) (row : Nat) : Except Fault Bool := do
  if row < b.size then
    match b.nulls with
    | none => return false
    | some flags => return (← flags.read 1 row) != 0
  else
    throw (.rowOutOfBlock row)

/-- The block with the null flag of a row set or cleared. -/
def markNull (b : Block) (row : Nat) (null : Bool) : Outcome Block := do
  match b.nulls with
  | none => throw (.error (.argument .noNullFlags))
  | some flags =>
    if row < b.size then
      let flags ← flags.write row (if null then 1 else 0 : BitVec (8 * 1))
      return { b with nulls := some flags }
    else
      throw (.fault (.rowOutOfBlock row))

/-- The value of a row, `none` if the row is null. -/
def value? (b : Block) (width row : Nat) : Except Fault (Option (BitVec (8 * width))) := do
  if ← b.isNull row then
    return none
  else
    return some (← b.data.read width row)

/-- The block with the stored value of a row replaced, whatever its flag. -/
def writeData (b : Block) {width : Nat} (row : Nat) (v : BitVec (8 * width)) :
    Except Fault Block := do
  let data ← b.data.write row v
  return { b with data }

/-! ## Copying -/

/-- Copies the first `rows` rows into a target of the same element width, and
gives what became of the copy and the target after it. Flags are copied where
both blocks have them, and cleared where only the target has. A target without
flags for a source with flags is refused once the values are copied. -/
def copyRows (source target : Block) (rows width : Nat) : Outcome Unit × Block :=
  if source.size < rows ∨ target.size < rows then
    (.error (.error (.argument (.copyTooLong rows source.size target.size))), target)
  else if source.data.width ≠ width ∨ target.data.width ≠ width then
    (.error (.error (.argument
      (.copyWidth width source.data.width target.data.width))), target)
  else
    match source.data.copyFront target.data (rows * width) with
    | .error fault => (.error (.fault fault), target)
    | .ok data =>
      match source.nulls, target.nulls with
      | none, none => (.ok (), { target with data })
      | some _, none =>
        (.error (.error (.argument .targetWithoutFlags)), { target with data })
      | none, some flags => finish data (flags.clearFront rows)
      | some sourceFlags, some flags => finish data (sourceFlags.copyFront flags rows)
where
  /-- The target with its new values, and with its new flags if they came out. -/
  finish (data : Buffer) : Except Fault Buffer → Outcome Unit × Block
    | .error fault => (.error (.fault fault), { target with data })
    | .ok flags => (.ok (), { target with data, nulls := some flags })

end Block

end ColumnStore
