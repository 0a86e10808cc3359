import ColumnStore.Column

/-!
# Holders

A holder receives a block that is read as a whole: nothing, a base block it
shares with a column, or a block of its own, which a later read can use again.
-/

namespace ColumnStore

/-- What a block is read into. -/
inductive Holder where
  | empty
  /-- A base block, shared with its column. -/
  | shared (base : BaseBlock)
  /-- A block of the holder's own. -/
  | owned (block : Block)
  deriving Repr

namespace Holder

/-- The block held. -/
def block? : Holder → Option Block
  | empty => none
  | shared base => some base.block
  | owned block => some block

/-- The holder's own block. What a shared holder holds is not its own. -/
def owned? : Holder → Option Block
  | owned block => some block
  | _ => none

/-- Whether the holder shares that very base block, and not one like it. -/
def shares (h : Holder) (base : BaseBlock) : Bool :=
  match h with
  | shared held => held.origin == base.origin
  | _ => false

/-- Takes the holder's own block out, and leaves the holder empty in any case. -/
def take (h : Holder) : Option Block × Holder :=
  (h.owned?, empty)

end Holder

end ColumnStore
