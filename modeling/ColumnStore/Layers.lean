import ColumnStore.Column
import ColumnStore.Value.Basic

/-!
# Layers

A base layer of blocks with deltas above it. A row is looked up through the
deltas from the newest to the oldest; the first that updates it decides, and
the base layer where none does. Null flags count only where nulls are allowed.
-/

namespace ColumnStore

/-- The value an update of a delta sets, `none` for null. -/
def Delta.value? (d : Delta) (st : ColumnType) (nullable : Bool) (position : Nat) :
    Except Fault (Option st.Value) := do
  let null ← if nullable then d.isNull position else pure false
  if null then
    return none
  else
    return some (← d.data.read st.width position)

/-- Blocks with deltas above them. -/
structure Layers where
  blocks : Array BaseBlock
  /-- The deltas, oldest first. -/
  deltas : Array Delta

namespace Layers

/-- The first delta of a list that updates a row, and where it holds it. -/
def firstUpdate? (rid : RowId) : List Delta → Except Fault (Option (Delta × Nat))
  | [] => pure none
  | d :: rest => do
    match ← d.find? rid with
    | some position => return some (d, position)
    | none => firstUpdate? rid rest

/-- The value of a row of the base layer, `none` for null. -/
def baseValue? (l : Layers) (st : ColumnType) (nullable : Bool) (rid : RowId) :
    Except Fault (Option st.Value) := do
  match l.blocks[rid.block]? with
  | none => throw (.blockOutOfRange rid.block)
  | some base =>
    if rid.offset < base.block.size then
      let null ← if nullable then base.block.isNull rid.offset else pure false
      if null then
        return none
      else
        return some (← base.block.data.read st.width rid.offset)
    else
      throw (.rowOutOfBlock rid.offset)

/-- The value of a row, `none` for null. -/
def value? (l : Layers) (st : ColumnType) (nullable : Bool) (rid : RowId) :
    Except Fault (Option st.Value) := do
  match ← firstUpdate? rid l.deltas.toList.reverse with
  | some (d, position) => d.value? st nullable position
  | none => l.baseValue? st nullable rid

end Layers

end ColumnStore
