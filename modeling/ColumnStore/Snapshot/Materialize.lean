import ColumnStore.Holder
import ColumnStore.Snapshot.Basic

/-!
# Reading whole blocks

The first rows of a block are read into a holder at once. If no delta in sight
touches the block, the holder shares it. Otherwise the base block is copied,
into the holder's own block if that fits and into a fresh one if not, and the
deltas are laid over the copy from the oldest to the newest, each cut to the
rows asked for.
-/

namespace ColumnStore

/-- A block with one update of a delta laid over it. Null flags change only if
`nullable` and only where the block has them; a null leaves the stored value as
it was. -/
def Block.applyUpdate (st : ColumnType) (nullable : Bool) (d : Delta) (b : Block)
    (position : Nat) : Except Fault Block :=
  match b with
  | ⟨size, data, nulls⟩ => do
    let some offset := d.index.offsets[position]? | throw .outOfBounds
    let row := offset.toNat
    match nulls with
    | some flags =>
      if nullable then
        if ← d.isNull position then
          let flags ← flags.write row (1 : BitVec (8 * 1))
          return ⟨size, data, some flags⟩
        else
          let flags ← flags.write row (0 : BitVec (8 * 1))
          let v ← d.data.read st.width position
          let data ← data.write row v
          return ⟨size, data, some flags⟩
      else
        let v ← d.data.read st.width position
        let data ← data.write row v
        return ⟨size, data, some flags⟩
    | none =>
      let v ← d.data.read st.width position
      let data ← data.write row v
      return ⟨size, data, none⟩

/-- A block with all updates of a delta laid over it that fall in its first
`rows` rows, where it holds block number `number`. -/
def Block.applyDelta (st : ColumnType) (nullable : Bool) (number rows : Nat) (b : Block)
    (d : Delta) : Except Fault Block := do
  let span := d.index.run number
  d.index.requireSpan span
  let stop := d.index.firstNotBelow span rows
  (List.range' span.start (stop - span.start)).foldlM (Block.applyUpdate st nullable d) b

/-- Whether a block can take a copy of `rows` rows of a base block whose values
are stored as `st`. -/
def Block.fits (own : Block) (st : ColumnType) (rows : Nat) (base : Block) : Bool :=
  rows ≤ own.size && own.data.width == st.width && (own.tracksNulls || !base.tracksNulls)

namespace Snapshot

variable {logical storage : ColumnType} {nullable : Bool}

/-- The block a copy of `rows` rows of a base block goes to: one that fits, or a
fresh one that tracks nulls as the column does. -/
def copyTarget (_ : Snapshot logical storage nullable) (rows : Nat) (base : Block)
    (own : Option Block) : Except Error Block :=
  match own.filter (·.fits storage rows base) with
  | some block => .ok block
  | none => Block.zeroed rows storage.width nullable

/-- A copy of the first `rows` rows of a block with the deltas in sight laid
over it. -/
def patched (s : Snapshot logical storage nullable) (rows number : Nat) (base : Block)
    (own : Option Block) : Outcome Block := do
  let block ← s.copyTarget rows base own
  let (copied, block) := base.copyRows block rows storage.width
  copied
  let result : Except Fault Block :=
    s.deltas.toList.foldlM (Block.applyDelta storage nullable number rows) block
  result

/-- Reads the first `rows` rows of a block into a holder, and gives what became
of it and the holder after it. Without a block of that number the holder stays
as it was; a copy that fails leaves it empty. -/
def readBlock (s : Snapshot logical storage nullable) (rows number : Nat) (holder : Holder) :
    Outcome Unit × Holder :=
  match s.blocks[number]? with
  | none => (.error (.fault .outOfBounds), holder)
  | some base =>
    if s.deltas.any (·.touches number) then
      match s.patched rows number base.block holder.owned? with
      | .error failure => (.error failure, .empty)
      | .ok block => (.ok (), .owned block)
    else
      (.ok (), .shared base)

end Snapshot

end ColumnStore
