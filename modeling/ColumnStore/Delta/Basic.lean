import ColumnStore.Buffer
import ColumnStore.RowIndex

/-!
# Deltas

A delta is one committed batch of updates to a column: the rows it updates, and
beside them their new values and null flags. It is stamped with a version and
never changes.
-/

namespace ColumnStore

/-- One batch of updates to a column. -/
structure Delta where
  version : Nat
  /-- The type its values are stored as. -/
  storage : ColumnType
  /-- The rows it updates. -/
  index : RowIndex
  /-- The new values, in the order of the index. -/
  data : Buffer
  /-- The null flags, in the order of the index. -/
  nulls : Option Buffer
  deriving Repr

namespace Delta

/-- The number of rows the delta updates. -/
def size (d : Delta) : Nat := d.index.size

/-- Whether the delta updates a row of the block. -/
def touches (d : Delta) (block : Nat) : Bool := d.index.touches block

/-- Where the delta holds a row, if it updates it. -/
def find? (d : Delta) (rid : RowId) : Except Fault (Option Nat) := d.index.find? rid

/-- Whether the update at a position is to null. Without flags none is. -/
def isNull (d : Delta) (position : Nat) : Except Fault Bool := do
  match d.nulls with
  | none => return false
  | some flags => return (← flags.read 1 position) != 0

/-- The bytes of storage the delta holds. -/
def heldBytes (d : Delta) : Nat :=
  d.index.heldBytes + d.data.heldBytes + (d.nulls.map Buffer.heldBytes).getD 0

end Delta

end ColumnStore
