import ColumnStore.RowId
import ColumnStore.Search

/-!
# Row indexes

A row index finds the position of a row id in a strictly ascending list. The
entries of one block are neighbours in the list, so the index keeps, for each
block, where its entries end, and for each entry its 16-bit offset alone.

`rowIds` gives the list back.
-/

namespace ColumnStore

/-- The row ids of a strictly ascending list, grouped by block. -/
structure RowIndex where
  /-- For each block, the position after its last entry. -/
  ends : Array UInt32
  /-- The offset of each entry in its block. -/
  offsets : Array UInt16
  deriving DecidableEq, Repr

namespace RowIndex

/-- The first two neighbours that do not ascend. -/
def firstDescent? : List RowId → Option (RowId × RowId)
  | first :: second :: rest =>
    if first < second then firstDescent? (second :: rest) else some (first, second)
  | _ => none

/-- One more than the block of the last row id, 0 if there is none. -/
def blocksSpanned (rids : Array RowId) : Nat :=
  match rids.back? with
  | none => 0
  | some last => last.block + 1

/-- The index of a list of row ids, which must ascend strictly. -/
def ofRowIds (rids : Array RowId) : Except Error RowIndex :=
  match firstDescent? rids.toList with
  | some (first, second) =>
    .error (.argument (.rowIdOrder first.toNat second.toNat))
  | none =>
    let endOf (block : Nat) : Nat :=
      partitionPoint (fun i => (rids[i]?).any (·.block ≤ block)) 0 rids.size
    .ok { ends := Array.ofFn (n := blocksSpanned rids) fun block => UInt32.ofNat (endOf block)
          offsets := rids.map fun rid => rid.offset.toUInt16 }

/-- The number of entries. -/
def size (index : RowIndex) : Nat := index.offsets.size

/-- Whether there are no entries. -/
def isEmpty (index : RowIndex) : Bool := index.offsets.isEmpty

/-- One more than the last block with entries, 0 if there is none. -/
def blockBound (index : RowIndex) : Nat := index.ends.size

/-- The positions of the entries of a block. -/
def run (index : RowIndex) (block : Nat) : Span :=
  match index.ends[block]? with
  | none => ⟨0, 0⟩
  | some stop =>
    let start := if block = 0 then 0 else (index.ends[block - 1]?).getD 0
    ⟨start.toNat, stop.toNat⟩

/-- Whether a block has entries. -/
def touches (index : RowIndex) (block : Nat) : Bool := !(index.run block).isEmpty

/-- Refuses a span that is no stretch of the entries. -/
def requireSpan (index : RowIndex) (span : Span) : Except Fault Unit :=
  if span.start ≤ span.stop ∧ span.stop ≤ index.size then .ok () else .error .outOfBounds

/-- The first position of a span whose offset is not below a limit. -/
def firstNotBelow (index : RowIndex) (span : Span) (limit : Nat) : Nat :=
  partitionPoint (fun i => (index.offsets[i]?).any (·.toNat < limit)) span.start span.stop

/-- The position of a row id, if it is an entry. -/
def find? (index : RowIndex) (rid : RowId) : Except Fault (Option Nat) := do
  let span := index.run rid.block
  index.requireSpan span
  let position := index.firstNotBelow span rid.offset
  if position < span.stop ∧ index.offsets[position]? = some rid.offset.toUInt16 then
    return some position
  else
    return none

/-- The offset of the last entry of a block. -/
def lastOffset? (index : RowIndex) (block : Nat) : Except Fault (Option Nat) := do
  let span := index.run block
  index.requireSpan span
  return if span.isEmpty then none else index.offsets[span.stop - 1]?.map UInt16.toNat

/-- The bytes the index holds. -/
def heldBytes (index : RowIndex) : Nat := 4 * index.ends.size + 2 * index.offsets.size

/-- The row ids of the entries of one block. -/
def rowIdsOf (index : RowIndex) (block : Nat) : List RowId :=
  let span := index.run block
  (index.offsets.extract span.start span.stop).toList.map fun offset =>
    (UInt32.ofNat block <<< 16) ||| offset.toUInt32

/-- The row ids of all entries, in order. -/
def rowIds (index : RowIndex) : List RowId :=
  (List.range index.blockBound).flatMap index.rowIdsOf

end RowIndex

end ColumnStore
