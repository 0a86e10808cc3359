import ColumnStore.Buffer
import ColumnStore.Schema.Basic

/-!
# Batches of rows

A batch is a bounded byte string of encoded rows, each behind its length in
four little-endian bytes, with the position of each row kept beside it. A row is
taken in only if both the number of rows and the number of bytes stay within
their capacities.

`frames` cuts the byte string by its length fields alone.
-/

namespace ColumnStore

/-- A bounded sequence of encoded rows of one schema. -/
structure RowBatch where
  schema : Schema
  /-- The rows, each behind its length. -/
  data : Bytes
  /-- The position of each row's length. -/
  starts : Array Nat
  maxBytes : Nat
  maxRows : Nat

namespace RowBatch

/-- The bytes of a row's length. -/
def lengthSize : Nat := 4

/-- The bytes a batch holds unless said otherwise. -/
def usualMaxBytes : Nat := 1048576

/-- The rows a batch holds unless said otherwise. -/
def usualMaxRows : Nat := 65536

/-- An empty batch. Its bytes are reserved from the start. -/
def bounded (schema : Schema) (maxBytes maxRows : Nat) : Except Error RowBatch := do
  reserve maxBytes
  return { schema, data := #[], starts := #[], maxBytes, maxRows }

/-- An empty batch of the usual capacities. -/
def new (schema : Schema) : Except Error RowBatch :=
  bounded schema usualMaxBytes usualMaxRows

/-- The number of rows. -/
def size (batch : RowBatch) : Nat := batch.starts.size

/-- The number of bytes in use, lengths included. -/
def usedBytes (batch : RowBatch) : Nat := batch.data.size

/-- The bytes of a row, without its length. -/
def row? (batch : RowBatch) (i : Nat) : Option Bytes := do
  let start ← batch.starts[i]?
  let length ← batch.data.stretch? start (start + lengthSize)
  let first := start + lengthSize
  batch.data.stretch? first (first + LittleEndian.toNat length.toList)

/-- The batch with one more row, if it stays within its capacities. -/
def append (batch : RowBatch) (row : Bytes) : Except Error RowBatch :=
  if batch.maxRows ≤ batch.size then
    .error (.full (.rows batch.maxRows))
  else if batch.maxBytes < batch.usedBytes + lengthSize + row.size then
    .error (.full (.bytes batch.usedBytes (lengthSize + row.size) batch.maxBytes))
  else
    .ok { batch with
          starts := batch.starts.push batch.data.size
          data := batch.data ++ LittleEndian.ofNat lengthSize row.size ++ row }

/-- The rows of a byte string cut by its length fields, each with the position
of its length. Cutting stops where a length or a row is incomplete. -/
def framesFrom (bytes : Bytes) (start : Nat) : List (Nat × Bytes) :=
  match bytes.stretch? start (start + lengthSize) with
  | none => []
  | some length =>
    let first := start + lengthSize
    let stop := first + LittleEndian.toNat length.toList
    if _inside : stop ≤ bytes.size then
      (start, bytes.extract first stop) :: framesFrom bytes stop
    else
      []
termination_by bytes.size - start
decreasing_by
  have length_pos : lengthSize = 4 := rfl
  omega

/-- The rows of a batch, cut out of its bytes by their lengths alone. -/
def frames (batch : RowBatch) : List (Nat × Bytes) := framesFrom batch.data 0

end RowBatch

end ColumnStore
