import ColumnStore.Failure

/-!
# Buffers

A buffer is a stretch of zeroed storage for elements of one width. Storage is
had in words of 16 bytes, so it can be longer than the bytes in use; the bytes
past those in use are never seen. Elements are read and written as bit
patterns of exactly the buffer's width, their bytes in the order of a
little-endian machine; a view of another width is a fault.
-/

namespace ColumnStore

/-! ## Allocation

Whether memory can be had is for the machine to say. Here the allocator is an
ideal one, which serves exactly the sizes below `allocationLimit`: from there on
no machine serves any, but a real one also refuses many that are below. So what
is proved of when a buffer can be had is proved of the ideal allocator. What is
proved of buffers that were had does not depend on it.
-/

/-- Sizes from here on are never served. -/
def allocationLimit : Nat := 0x4000000000000000

/-- The largest size that can be asked for. -/
def largestSize : Nat := 0xFFFFFFFFFFFFFFFF

/-- Asks the ideal allocator for so many bytes. -/
def reserve (bytes : Nat) : Except Error Unit :=
  if bytes < allocationLimit then .ok () else .error (.outOfMemory bytes)

/-- Storage for elements of one width. -/
structure Buffer where
  /-- The bytes held, in whole words. -/
  storage : Bytes
  /-- How many bytes are in use. -/
  used : Nat
  /-- The bytes of one element. -/
  width : Nat
  deriving Repr

namespace Buffer

/-- The bytes of one word of storage. -/
def wordBytes : Nat := 16

/-- The words that hold so many bytes. -/
def wordsFor (bytes : Nat) : Nat := (bytes + (wordBytes - 1)) / wordBytes

/-- A zeroed buffer of `length` elements of `width` bytes. -/
def zeroed (length width : Nat) : Except Error Buffer := do
  if width = 0 then
    throw (.argument .zeroWidth)
  let bytes := length * width
  if largestSize < bytes then
    throw (.outOfMemory largestSize)
  reserve bytes
  return { storage := Array.replicate (wordsFor bytes * wordBytes) 0, used := bytes, width }

/-- The number of elements. -/
def size (b : Buffer) : Nat := b.used / b.width

/-- Whether the buffer holds no elements. -/
def isEmpty (b : Buffer) : Bool := b.used == 0

/-- The bytes of storage the buffer holds. -/
def heldBytes (b : Buffer) : Nat := b.storage.size

/-- The bytes in use. -/
def bytes (b : Buffer) : Bytes := b.storage.extract 0 b.used

/-- A one-line summary. -/
def describe (b : Buffer) : String :=
  s!"TypedBuffer \x7b bsize: {b.used}, esize: {b.width} \x7d"

/-! ## Elements -/

/-- Refuses views of another width than the buffer's own. -/
def requireWidth (b : Buffer) (width : Nat) : Except Fault Unit :=
  if width = b.width then .ok () else .error (.viewWidth b.width width)

/-- The element of `width` bytes that starts at position `i * width` of the
storage. -/
def element (b : Buffer) (width i : Nat) : BitVec (8 * width) :=
  LittleEndian.decode width (b.storage.slice (i * width) (i * width + width))

/-- Element `i`. -/
def read (b : Buffer) (width i : Nat) : Except Fault (BitVec (8 * width)) := do
  b.requireWidth width
  if i < b.size then
    return b.element width i
  else
    throw .outOfBounds

/-- The buffer with element `i` replaced. -/
def write (b : Buffer) {width : Nat} (i : Nat) (v : BitVec (8 * width)) : Except Fault Buffer := do
  b.requireWidth width
  if i < b.size then
    return { b with storage := b.storage.overlay (i * width) (LittleEndian.encode v) }
  else
    throw .outOfBounds

/-- All elements. -/
def view (b : Buffer) (width : Nat) : Except Fault (Array (BitVec (8 * width))) := do
  b.requireWidth width
  return Array.ofFn (n := b.size) fun i => b.element width i

/-- A buffer of the given elements. -/
def ofValues {width : Nat} (values : Array (BitVec (8 * width))) : Except Error Buffer := do
  let b ← zeroed values.size width
  return { b with storage := b.storage.overlay 0 (values.toList.flatMap LittleEndian.encode) }

/-! ## Bytes -/

/-- The buffer with one byte replaced. -/
def writeByte (b : Buffer) (i : Nat) (byte : UInt8) : Except Fault Buffer :=
  if i < b.used then
    .ok { b with storage := b.storage.setIfInBounds i byte }
  else
    .error .outOfBounds

/-- The target with its first `n` bytes taken from the source. -/
def copyFront (source target : Buffer) (n : Nat) : Except Fault Buffer :=
  if n ≤ source.used ∧ n ≤ target.used then
    .ok { target with
          storage := source.storage.extract 0 n ++ target.storage.extract n target.storage.size }
  else
    .error .outOfBounds

/-- The buffer with its first `n` bytes cleared. -/
def clearFront (b : Buffer) (n : Nat) : Except Fault Buffer :=
  if n ≤ b.used then
    .ok { b with storage := Array.replicate n 0 ++ b.storage.extract n b.storage.size }
  else
    .error .outOfBounds

end Buffer

end ColumnStore
