import ColumnStore.Snapshot.Basic

/-!
# Matching keys

The rows of a key column are matched against keys from outside by fingerprint
and by equality. Fingerprints are had only where values are stored as the
column's own type.
-/

namespace ColumnStore.Snapshot

variable {logical storage : ColumnType} {nullable : Bool}

/-- The fingerprint of one of a list of keys. Where values are stored as another
type it is 0 for every key. -/
def keyFingerprint (_ : Snapshot logical storage nullable) (keys : Array logical.Value) (i : Nat) :
    Except Fault UInt64 :=
  if logical = storage then
    match keys[i]? with
    | none => .error .outOfBounds
    | some key => .ok (ColumnType.fingerprint key)
  else
    .ok 0

/-- Whether a row's value, widened, equals one of a list of keys. How stored values
widen to the column's own type is for `ColumnType.widening?` to say. A column
that allows nulls is no key column. -/
def keyMatches (s : Snapshot logical storage nullable) (widen : storage.Value → logical.Value)
    (rid : RowId) (keys : Array logical.Value) (i : Nat) : Except Fault Bool := do
  if nullable then
    throw .notKeyColumn
  match keys[i]? with
  | none => throw .outOfBounds
  | some key =>
    match ← s.value? storage false rid with
    | none => return false
    | some stored => return ColumnType.same (widen stored) key

end ColumnStore.Snapshot
