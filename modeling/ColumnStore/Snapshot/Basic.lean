import ColumnStore.Layers

/-!
# Snapshots

A snapshot is a column as it stood at a version: its blocks, and the deltas
whose versions do not pass that version. What the column publishes later does
not show in it.
-/

namespace ColumnStore

/-- A column at a version. Its values are compared as `logical`, and stored as
`storage`; null flags count only if it is `nullable`. -/
structure Snapshot (logical storage : ColumnType) (nullable : Bool) extends Layers where
  definition : ColumnDef
  /-- The version asked for. -/
  version : Nat
  /-- The version of the newest delta in sight, or of the base layer. -/
  effectiveVersion : Nat

/-- How many deltas, from the oldest on, do not pass a version. -/
def Column.visibleAt (c : Column) (version : Nat) : Nat :=
  partitionPoint (fun i => (c.deltas[i]?).any (·.version ≤ version)) 0 c.deltas.size

/-- The column at a version, read with the given types and nullability, which
must be the column's own. The base layer's version is the first that can be
read. -/
def Column.snapshot (c : Column) (logical storage : ColumnType) (nullable : Bool)
    (version : Nat) : Except Error (Snapshot logical storage nullable) := do
  if logical ≠ c.definition.type then
    throw (.wrongType c.definition.type logical)
  if storage ≠ c.storage then
    throw (.wrongType c.storage storage)
  if nullable ≠ c.definition.nullable then
    throw (.argument (.nullability nullable c.definition.name))
  if version < c.baseVersion then
    throw (.staleVersion version c.baseVersion)
  let deltas := c.deltas.extract 0 (c.visibleAt version)
  let effectiveVersion := (deltas.back?.map Delta.version).getD c.baseVersion
  return { definition := c.definition, blocks := c.blocks, version, effectiveVersion, deltas }

namespace Snapshot

variable {logical storage : ColumnType} {nullable : Bool}

/-- The value of a row, `none` for null. -/
def get (s : Snapshot logical storage nullable) (rid : RowId) :
    Except Fault (Option storage.Value) :=
  s.value? storage nullable rid

/-- The number of rows of a block. -/
def rowCount (s : Snapshot logical storage nullable) (block : Nat) : Except Fault Nat :=
  match s.blocks[block]? with
  | none => .error .outOfBounds
  | some base => .ok base.block.size

/-- The one-line name of the snapshot. -/
def describe (s : Snapshot logical storage nullable) : String :=
  let column := s.definition.describe storage
  s!"{column} version={s.version}(real={s.effectiveVersion}) ndelta={s.deltas.size}"

end Snapshot

end ColumnStore
