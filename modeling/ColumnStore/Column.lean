import ColumnStore.Block
import ColumnStore.Delta.Basic
import ColumnStore.Schema.Basic

/-!
# Columns

A column is a base layer of blocks and, above it, the history of its deltas,
oldest first. Both only grow. What is added is checked here once, so that
reading need not check again: a block has the column's element width and null
flags exactly if the column allows nulls; a delta is newer than all before it,
is stored as the column is, and touches only rows of the base layer.

A base block is published together with its origin, the place it was published
at, which tells it apart from every other block of the same content.
-/

namespace ColumnStore

/-- Where a base block was published: under a column's tag, at a position. -/
structure Origin where
  column : Nat
  position : Nat
  deriving DecidableEq, Repr

/-- A block as a column published it. -/
structure BaseBlock where
  origin : Origin
  block : Block
  deriving Repr

/-- One column: its base layer and its deltas. -/
structure Column where
  /-- Tells the column's blocks apart from those of other columns. -/
  tag : Nat
  definition : ColumnDef
  /-- The type values are stored as. -/
  storage : ColumnType
  /-- The version of the base layer. -/
  baseVersion : Nat
  blocks : Array BaseBlock
  /-- The deltas, oldest first. -/
  deltas : Array Delta
  deriving Repr

namespace Column

/-- A column without rows whose values are stored as the given type. -/
def newStoredAs (tag : Nat) (definition : ColumnDef) (storage : ColumnType) (baseVersion : Nat) :
    Column :=
  { tag, definition, storage, baseVersion, blocks := #[], deltas := #[] }

/-- A column without rows whose values are stored as its own type. -/
def new (tag : Nat) (definition : ColumnDef) (baseVersion : Nat) : Column :=
  newStoredAs tag definition definition.type baseVersion

/-- The newest version: that of the last delta, or of the base layer. -/
def version (c : Column) : Nat :=
  match c.deltas.back? with
  | none => c.baseVersion
  | some d => d.version

/-- The bytes of storage the column's blocks and deltas hold. -/
def heldBytes (c : Column) : Nat :=
  c.blocks.foldl (fun bytes base => bytes + base.block.heldBytes) 0 +
    c.deltas.foldl (fun bytes d => bytes + d.heldBytes) 0

/-- The one-line name of the column. -/
def describe (c : Column) : String := c.definition.describe c.storage

/-! ## Publishing -/

/-- Publishes a block as the last of the base layer and gives its 32-bit id.
A column without nulls takes the block without its flags. -/
def publishBlock (c : Column) (block : Block) : Except Error (UInt32 × Column) := do
  if block.data.width ≠ c.storage.width then
    throw (.argument (.blockWidth block.data.width c.storage))
  if c.definition.nullable && !block.tracksNulls then
    throw (.argument (.blockWithoutFlags c.definition.name))
  let block := if c.definition.nullable then block else block.withoutFlags
  let position := c.blocks.size
  return (UInt32.ofNat position,
    { c with blocks := c.blocks.push ⟨⟨c.tag, position⟩, block⟩ })

/-- Refuses an index with rows outside the base layer. Of each block the last
row decides, as offsets ascend. -/
def requireRows (c : Column) (index : RowIndex) : Outcome Unit := do
  if c.blocks.size < index.blockBound then
    throw (.error (.argument (.deltaBlock (index.blockBound - 1) c.blocks.size)))
  (c.blocks.toList.take index.blockBound).zipIdx.forM fun (base, number) => do
    match ← index.lastOffset? number with
    | none => pure ()
    | some offset =>
      if base.block.size ≤ offset then
        throw (.error (.argument (.deltaRow offset number base.block.size)))

/-- Publishes a delta as the newest. -/
def publishDelta (c : Column) (d : Delta) : Outcome Column := do
  if d.version ≤ c.version then
    throw (.error (.staleVersion d.version c.version))
  if d.storage ≠ c.storage then
    throw (.error (.wrongType c.storage d.storage))
  if !c.definition.nullable && d.nulls.isSome then
    throw (.error (.argument (.deltaWithFlags c.definition.name)))
  c.requireRows d.index
  return { c with deltas := c.deltas.push d }

end Column

end ColumnStore
