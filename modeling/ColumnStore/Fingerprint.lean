import ColumnStore.Bytes

/-!
# Fingerprints

A fingerprint is the 64-bit FNV-1a state after a byte string: each byte is
xored into the state, which is then multiplied by the prime, modulo 2^64. The
state before the first byte is the seed, so a fingerprint can be continued
chunk by chunk (`update_append`).

The bytes of a value are those it has in memory, so its fingerprint depends on
the order the machine keeps them in. The machine is taken to be little-endian
here and throughout: see `ColumnType.fingerprint`.
-/

namespace ColumnStore.Fingerprint

/-- The multiplier of the 64-bit variant. -/
def prime : UInt64 := 0x100000001b3

/-- The state after one more byte. -/
def step (state : UInt64) (byte : UInt8) : UInt64 :=
  (state ^^^ byte.toUInt64) * prime

/-- The state after a run of bytes. -/
def update (state : UInt64) (bytes : Bytes) : UInt64 :=
  bytes.foldl step state

/-- The seed of the fingerprints of key values. -/
def keySeed : UInt64 := 0

/-- The states of a fingerprint fed chunk by chunk, from the seed on. -/
def states (seed : UInt64) : List Bytes → List UInt64
  | [] => [seed]
  | chunk :: rest => seed :: states (update seed chunk) rest

/-- Feeding two chunks in turn is feeding them joined. -/
theorem update_append (state : UInt64) (first second : Bytes) :
    update state (first ++ second) = update (update state first) second := by
  simp [update]

end ColumnStore.Fingerprint
