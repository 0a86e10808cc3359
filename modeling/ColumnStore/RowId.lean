import ColumnStore.Failure

/-!
# Row ids

A row id is a 32-bit word: the block number in the high half, the offset in
the block in the low half. A block holds at most 65536 rows, so every offset
has its own row id; a block number past 65535 does not fit and loses its high
bits.
-/

namespace ColumnStore

/-- The name of a row within one column. -/
abbrev RowId := UInt32

namespace RowId

/-- The most rows one block holds. -/
def blockCapacity : Nat := 65536

/-- The number of the block the row lies in. -/
def block (rid : RowId) : Nat := (rid >>> 16).toNat

/-- The offset of the row within its block. -/
def offset (rid : RowId) : Nat := (rid &&& 0xFFFF).toNat

/-- The row id of an offset within a block. An offset that does not fit 16 bits
is a fault. -/
def ofBlock (block offset : UInt32) : Except Fault RowId :=
  if offset ≤ 0xFFFF then
    .ok ((block <<< 16) ||| offset)
  else
    .error (.offsetOutOfBlock offset.toNat)

theorem offset_lt (rid : RowId) : rid.offset < blockCapacity := by
  have h : rid.toNat &&& 65535 ≤ 65535 := Nat.and_le_right
  simp only [offset, blockCapacity, UInt32.toNat_and, UInt32.reduceToNat]
  omega

end RowId

end ColumnStore
