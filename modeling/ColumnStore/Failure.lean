import ColumnStore.ColumnType

/-!
# Errors and faults

An operation can end in two ways besides success. An `Error` is an answer: the
caller asked for something the store refuses, and the error says why. A
`Fault` is a breach of what the operation takes for granted, such as a row past
the end of its block; it carries no answer, and the operation stops there.

Errors are kept as causes. Their wording is in one place, `Error.message`, and
that of faults in `Fault.message?`.
-/

namespace ColumnStore

/-! ## Causes

Callers can make errors too, to answer their own callers with, and then the
text is theirs: each cause that is a text has a constructor `other` for it. The
store gives no error made with `other`, and only the wordings below look at it.
-/

/-- What was looked up in vain. -/
inductive Missing where
  /-- No column has the name. -/
  | column (name : String)
  /-- No column has the id. -/
  | columnId (cid : Nat)
  /-- What a caller says was not found, in its own words. -/
  | other (what : String)
  deriving DecidableEq, Repr

/-- Why an argument is refused. -/
inductive ArgumentFlaw where
  /-- A buffer's elements need a width. -/
  | zeroWidth
  /-- A block was to hold more rows than a block can. -/
  | blockTooLarge (size capacity : Nat)
  /-- A null flag was to be set in a block without flags. -/
  | noNullFlags
  /-- A copy would read or write past a block's end. -/
  | copyTooLong (rows source target : Nat)
  /-- A copy's element width is not that of both blocks. -/
  | copyWidth (width source target : Nat)
  /-- A copy would lose the source's null flags. -/
  | targetWithoutFlags
  /-- Two neighbours of a list of row ids do not ascend. -/
  | rowIdOrder (first second : Nat)
  /-- A block's element width is not that of the column's storage. -/
  | blockWidth (width : Nat) (storage : ColumnType)
  /-- A nullable column takes only blocks with null flags. -/
  | blockWithoutFlags (column : String)
  /-- A column without nulls takes only deltas without null flags. -/
  | deltaWithFlags (column : String)
  /-- A delta reaches past the column's last block. -/
  | deltaBlock (block blocks : Nat)
  /-- A delta reaches past the end of a block. -/
  | deltaRow (offset block size : Nat)
  /-- A snapshot was asked for with the wrong nullability. -/
  | nullability (nullable : Bool) (column : String)
  /-- A batch has no such row. -/
  | noRow (row rows : Nat)
  /-- A row's bytes do not form a row of the batch's schema. -/
  | corruptRow (row : Nat)
  /-- A row has no such cell. -/
  | noCell (cell cells : Nat)
  /-- A row lacks a key column. -/
  | keyNotSet (cid : Nat)
  /-- A column without nulls was set to null. -/
  | nullCell (column : String)
  /-- The reason a caller gives, in its own words. -/
  | other (text : String)
  deriving DecidableEq, Repr

/-- What is not supported. -/
inductive Unsupported where
  /-- Types without a fixed width. -/
  | variableLength (name : String)
  /-- A row whose bit vector would outgrow its length field. -/
  | bitsetTooLong (bytes : Nat)
  /-- Rows that delete. -/
  | delete
  /-- What a caller does not support, in its own words. -/
  | other (text : String)
  deriving DecidableEq, Repr

/-- What is wrong with a schema. -/
inductive SchemaFlaw where
  /-- The schema has no columns. -/
  | noColumns
  /-- A column's id is not its position, counted from 1. -/
  | wrongCid (column : String) (cid expected : Nat)
  /-- A key column follows a value column. -/
  | lateKey (column : String)
  /-- A key column allows nulls. -/
  | nullableKey (column : String)
  /-- Two columns share a name. -/
  | duplicateName (name : String)
  /-- No column is a key column. -/
  | noKey
  /-- A column is not described by a name, a type and perhaps `null`. -/
  | badDescription (item : String)
  /-- A column's name is empty. -/
  | emptyName
  /-- A column's name starts with neither letter nor underscore. -/
  | badFirstCharacter (name : String)
  /-- A column's name holds something else than letters, digits, underscores. -/
  | badCharacter (name : String)
  /-- No type has the name. -/
  | unknownType (name : String)
  /-- The flaw a caller finds, in its own words. -/
  | other (text : String)
  deriving DecidableEq, Repr

/-- Which capacity is used up. -/
inductive CapacityLimit where
  /-- A batch's rows. -/
  | rows (capacity : Nat)
  /-- A batch's bytes: those in use, those wanted, and the capacity. -/
  | bytes (used wanted capacity : Nat)
  /-- The limit a caller has, in its own words. -/
  | other (text : String)
  deriving DecidableEq, Repr

/-! ## Errors -/

/-- Why the store refuses a request. -/
inductive Error where
  /-- So many bytes could not be had. -/
  | outOfMemory (bytes : Nat)
  /-- A value of one type was wanted and one of another type offered. -/
  | wrongType (expected got : ColumnType)
  /-- A null was offered to a column without nulls. -/
  | nullRefused (column : String)
  /-- A thing asked for by name or number is not there. -/
  | notFound (what : Missing)
  /-- An argument is refused. -/
  | argument (flaw : ArgumentFlaw)
  /-- The request is outside what the store does. -/
  | unsupported (what : Unsupported)
  /-- A schema is refused. -/
  | schema (flaw : SchemaFlaw)
  /-- A version lies before the column's base, or not after its last delta. -/
  | staleVersion (requested base : Nat)
  /-- A container of fixed capacity is full. -/
  | full (limit : CapacityLimit)
  deriving DecidableEq, Repr

/-- The wording of what was not found. -/
def Missing.text : Missing → String
  | .column name => s!"column {name}"
  | .columnId cid => s!"cid {cid}"
  | .other what => what

/-- The wording of a refused argument. -/
def ArgumentFlaw.text : ArgumentFlaw → String
  | .zeroWidth => "element size must be positive"
  | .blockTooLarge size capacity => s!"block size {size} exceeds capacity {capacity}"
  | .noNullFlags => "column block has no null buffer"
  | .copyTooLong rows source target =>
    s!"copy of {rows} rows exceeds block sizes {source} -> {target}"
  | .copyWidth width source target =>
    s!"copy with element size {width} between blocks of {source} and {target}"
  | .targetWithoutFlags => "destination block cannot track nulls"
  | .rowIdOrder first second =>
    s!"delta row ids must be strictly ascending: {first} then {second}"
  | .blockWidth width storage =>
    s!"block element size {width} does not match {storage.name} storage"
  | .blockWithoutFlags column => s!"block for nullable column {column} has no null buffer"
  | .deltaWithFlags column => s!"delta for non-nullable column {column} carries null flags"
  | .deltaBlock block blocks => s!"delta touches block {block} but column has {blocks} blocks"
  | .deltaRow offset block size => s!"delta row {offset} beyond block {block} size {size}"
  | .nullability nullable column =>
    s!"reader nullability {nullable} does not match column {column}"
  | .noRow row rows => s!"row {row} out of range, batch has {rows}"
  | .corruptRow row => s!"row {row} is corrupted"
  | .noCell cell cells => s!"get_cell: idx {cell} exceeds cell size {cells}"
  | .keyNotSet cid => s!"key column {cid} is not set"
  | .nullCell column => s!"not nullable column {column} set to null"
  | .other text => text

/-- The wording of what is not supported. -/
def Unsupported.text : Unsupported → String
  | .variableLength name => s!"var length type not supported: {name}"
  | .bitsetTooLong bytes => s!"too many columns: bitvec of {bytes} bytes"
  | .delete => "delete not supported"
  | .other text => text

/-- The wording of a schema's flaw. -/
def SchemaFlaw.text : SchemaFlaw → String
  | .noColumns => "schema has no columns"
  | .wrongCid column cid expected => s!"column {column} has cid {cid}, expected {expected}"
  | .lateKey column => s!"key column {column} must precede value columns"
  | .nullableKey column => s!"key column {column} cannot be nullable"
  | .duplicateName name => s!"duplicate column name: {name}"
  | .noKey => "schema has no key column"
  | .badDescription item => s!"bad column description: '{item}'"
  | .emptyName => "Name cannot be empty"
  | .badFirstCharacter name => s!"Name must start with letter or underscore: {name}"
  | .badCharacter name => s!"Name contains invalid characters: {name}"
  | .unknownType name => s!"unknown column type: {name}"
  | .other text => text

/-- The wording of a capacity that is used up. -/
def CapacityLimit.text : CapacityLimit → String
  | .rows capacity => s!"partial row batch is full: {capacity} rows"
  | .bytes used wanted capacity =>
    s!"partial row batch is full: {used} + {wanted} bytes exceeds {capacity}"
  | .other text => text

/-- The one-line text of an error. -/
def Error.message : Error → String
  | .outOfMemory bytes => s!"Allocation failed: {bytes} bytes"
  | .wrongType expected got => s!"Type mismatch: expected {expected.name}, got {got.name}"
  | .nullRefused column => s!"Null constraint violation on column: {column}"
  | .notFound what => s!"Not found: {what.text}"
  | .argument flaw => s!"Invalid argument: {flaw.text}"
  | .unsupported what => s!"Not supported: {what.text}"
  | .schema flaw => s!"Invalid schema: {flaw.text}"
  | .staleVersion requested base => s!"Invalid version {requested} (base version {base})"
  | .full limit => s!"Over capacity: {limit.text}"

/-! ## Faults -/

/-- What an operation took for granted and did not find. -/
inductive Fault where
  /-- A row past the end of its block. -/
  | rowOutOfBlock (row : Nat)
  /-- A block past the last one. -/
  | blockOutOfRange (block : Nat)
  /-- An offset that does not fit a row id. -/
  | offsetOutOfBlock (offset : Nat)
  /-- A buffer viewed with elements of another width than its own. -/
  | viewWidth (stored viewed : Nat)
  /-- A key comparison on a column that allows nulls. -/
  | notKeyColumn
  /-- A position outside an array. -/
  | outOfBounds
  /-- A count past the largest machine word. It is met where the bytes for any
  number of bits are counted (`Bitset.checkedWidth`). -/
  | overflow
  deriving DecidableEq, Repr

/-- The text of a fault that has one of its own. -/
def Fault.message? : Fault → Option String
  | .rowOutOfBlock row => some s!"row {row} out of block range"
  | .blockOutOfRange block => some s!"block {block} out of range"
  | .offsetOutOfBlock offset => some s!"offset {offset} out of block range"
  | .viewWidth stored viewed =>
    some s!"buffer of {stored}-byte elements viewed with a {viewed}-byte type"
  | .notKeyColumn => some "equals is only used for key columns"
  | .outOfBounds => none
  | .overflow => none

/-! ## Outcomes -/

/-- How an operation ends short of success. -/
inductive Failure where
  /-- The request is refused. -/
  | error (error : Error)
  /-- The operation broke off. -/
  | fault (fault : Fault)
  deriving DecidableEq, Repr

/-- The outcome of an operation that can be refused or break off. -/
abbrev Outcome (α : Type) := Except Failure α

instance : MonadLift (Except Error) (Except Failure) where
  monadLift
    | .ok a => .ok a
    | .error e => .error (.error e)

instance : MonadLift (Except Fault) (Except Failure) where
  monadLift
    | .ok a => .ok a
    | .error f => .error (.fault f)

end ColumnStore
