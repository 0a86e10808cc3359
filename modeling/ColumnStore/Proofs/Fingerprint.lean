import ColumnStore.Value.Basic
import Mathlib.Logic.Function.Basic

/-!
# Fingerprints can be taken back

The prime is odd, so it has an inverse modulo 2^64, and a byte that is xored in twice is
gone.  So each step can be taken back (`unstep_step`, `step_unstep`), and so can a whole
run of bytes, from its last to its first (`rewind_update`, `update_rewind`).  For fixed
bytes, then, the seed and the fingerprint determine each other.

Two states that have parted stay apart, whatever bytes follow.  As one step parts the
states of two different bytes (`step_byte_injective`), two byte strings that differ in one
byte have different fingerprints from the same seed.  Nothing is said of strings that
differ in more than one.
-/

namespace ColumnStore.Fingerprint

variable {state seed : UInt64} {byte : UInt8} {bytes a b : Bytes}

/-! ## Chunks -/

/-- Feeding chunks in turn is feeding them joined. -/
theorem foldl_update (seed : UInt64) (chunks : List Bytes) :
    chunks.foldl update seed = update seed chunks.toArray.flatten := by
  induction chunks generalizing seed with
  | nil => rfl
  | cons chunk rest ih =>
    have hjoined : (chunk :: rest).toArray.flatten = chunk ++ rest.toArray.flatten := by
      rw [List.toArray_cons, Array.flatten_append, Array.flatten_singleton]
    rw [List.foldl_cons, ih, hjoined, update_append]

/-- The last of the states is the one that all chunks lead to. -/
theorem getLast?_states (seed : UInt64) (chunks : List Bytes) :
    (states seed chunks).getLast? = some (chunks.foldl update seed) := by
  induction chunks generalizing seed with
  | nil => rfl
  | cons chunk rest ih =>
    have hlast := ih (update seed chunk)
    rw [states, List.getLast?_cons, hlast, Option.getD_some, List.foldl_cons]

/-! ## Steps taken back -/

/-- The inverse of the prime modulo 2^64. -/
def primeInverse : UInt64 := 0xce965057aff6957b

theorem prime_mul_primeInverse : prime * primeInverse = 1 := by decide

/-- The state before the last byte. -/
def unstep (state : UInt64) (byte : UInt8) : UInt64 :=
  (state * primeInverse) ^^^ byte.toUInt64

theorem step_mul_primeInverse (state : UInt64) (byte : UInt8) :
    step state byte * primeInverse = state ^^^ byte.toUInt64 := by
  rw [step, UInt64.mul_assoc, prime_mul_primeInverse, UInt64.mul_one]

theorem unstep_step (state : UInt64) (byte : UInt8) : unstep (step state byte) byte = state := by
  rw [unstep, step_mul_primeInverse, UInt64.xor_assoc, UInt64.xor_self, UInt64.xor_zero]

theorem step_unstep (state : UInt64) (byte : UInt8) : step (unstep state byte) byte = state := by
  rw [step, unstep, UInt64.xor_assoc, UInt64.xor_self, UInt64.xor_zero, UInt64.mul_assoc,
    UInt64.mul_comm primeInverse, prime_mul_primeInverse, UInt64.mul_one]

/-- One step parts the states of different bytes. -/
theorem step_byte_injective (state : UInt64) : Function.Injective (step state) := by
  intro x y h
  have hxor : state ^^^ x.toUInt64 = state ^^^ y.toUInt64 := by
    calc state ^^^ x.toUInt64
        = step state x * primeInverse := (step_mul_primeInverse state x).symm
      _ = step state y * primeInverse := by rw [h]
      _ = state ^^^ y.toUInt64 := step_mul_primeInverse state y
  have hword : x.toUInt64 = y.toUInt64 := (UInt64.xor_right_inj state).1 hxor
  apply UInt8.toNat_inj.1
  rw [← UInt8.toNat_toUInt64, hword, UInt8.toNat_toUInt64]

/-! ## Runs taken back -/

/-- The seed from which a run of bytes leads to a state. -/
def rewind (state : UInt64) (bytes : Bytes) : UInt64 :=
  bytes.foldr (fun byte state => unstep state byte) state

theorem update_eq_foldl (state : UInt64) (bytes : Bytes) :
    update state bytes = bytes.toList.foldl step state := by
  rw [update, Array.foldl_toList]

theorem rewind_eq_foldr (state : UInt64) (bytes : Bytes) :
    rewind state bytes = bytes.toList.foldr (fun byte state => unstep state byte) state := by
  rw [rewind, Array.foldr_toList]

theorem rewind_update (state : UInt64) (bytes : Bytes) :
    rewind (update state bytes) bytes = state := by
  rw [update_eq_foldl, rewind_eq_foldr]
  induction bytes.toList generalizing state with
  | nil => rfl
  | cons byte rest ih => rw [List.foldl_cons, List.foldr_cons, ih, unstep_step]

theorem update_rewind (state : UInt64) (bytes : Bytes) :
    update (rewind state bytes) bytes = state := by
  rw [update_eq_foldl, rewind_eq_foldr]
  induction bytes.toList with
  | nil => rfl
  | cons byte rest ih => rw [List.foldr_cons, List.foldl_cons, step_unstep, ih]

/-- Of the seeds, each has its own fingerprint of the bytes, and each state is one. -/
theorem update_seed_bijective (bytes : Bytes) :
    Function.Bijective fun seed => update seed bytes :=
  Function.bijective_iff_has_inverse.2
    ⟨fun state => rewind state bytes, fun seed => rewind_update seed bytes,
      fun state => update_rewind state bytes⟩

/-! ## One byte changed -/

/-- The byte strings have one size and differ at exactly one place. -/
structure DifferInOne (a b : Bytes) : Prop where
  size_eq : a.size = b.size
  place : ∃! i : Nat, a[i]? ≠ b[i]?

theorem extract_around (bytes : Bytes) {i : Nat} (hi : i < bytes.size) :
    bytes.extract 0 i ++ #[bytes[i]] ++ bytes.extract (i + 1) bytes.size = bytes := by
  rw [← Array.push_eq_append, ← Array.extract_succ_right (Nat.succ_pos i) hi,
    Array.extract_append_extract, Nat.zero_min, Nat.max_eq_right hi, Array.extract_size]

theorem extract_congr {start stop : Nat}
    (h : ∀ j, start ≤ j → j < stop → a[j]? = b[j]?) (hsize : a.size = b.size) :
    a.extract start stop = b.extract start stop := by
  apply Array.ext_getElem?
  intro k
  rw [Array.getElem?_extract, Array.getElem?_extract, hsize]
  split
  · exact h _ (Nat.le_add_right start k) (by omega)
  · rfl

/-- What comes before and after the place is common to both. -/
theorem DifferInOne.exists_split (h : DifferInOne a b) :
    ∃ (front back : Bytes) (x y : UInt8),
      a = front ++ #[x] ++ back ∧ b = front ++ #[y] ++ back ∧ x ≠ y := by
  obtain ⟨i, hdiffer, honly⟩ := h.place
  have hsame : ∀ j, j ≠ i → a[j]? = b[j]? := by
    intro j hj
    by_contra hne
    exact hj (honly j hne)
  have ha : i < a.size := by
    by_contra hge
    rw [Array.getElem?_eq_none (by omega), Array.getElem?_eq_none (by have := h.size_eq; omega)]
      at hdiffer
    exact hdiffer rfl
  have hb : i < b.size := h.size_eq ▸ ha
  have hfront : a.extract 0 i = b.extract 0 i :=
    extract_congr (fun j _ hj => hsame j (Nat.ne_of_lt hj)) h.size_eq
  have hback : a.extract (i + 1) a.size = b.extract (i + 1) b.size := by
    rw [← h.size_eq]
    exact extract_congr (fun j hj _ => hsame j (Nat.ne_of_gt hj)) h.size_eq
  refine ⟨a.extract 0 i, a.extract (i + 1) a.size, a[i], b[i], (extract_around a ha).symm, ?_, ?_⟩
  · rw [hfront, hback]
    exact (extract_around b hb).symm
  · rw [Array.getElem?_eq_getElem ha, Array.getElem?_eq_getElem hb] at hdiffer
    exact fun heq => hdiffer (congrArg some heq)

/-- From one seed, such strings have different fingerprints. -/
theorem DifferInOne.update_ne (h : DifferInOne a b) (seed : UInt64) :
    update seed a ≠ update seed b := by
  obtain ⟨front, back, x, y, rfl, rfl, hne⟩ := h.exists_split
  intro heq
  rw [update_append, update_append, update_append, update_append] at heq
  have hstep : step (update seed front) x = step (update seed front) y :=
    (update_seed_bijective back).injective heq
  exact hne (step_byte_injective _ hstep)

/-- Chunks that are fed one after the other, in whatever way a byte string is cut into them,
lead from a seed to the fingerprint of that string.  For a fixed string this takes the seeds
one to one onto all states.  From one seed, byte strings of one size that differ in exactly
one byte have different fingerprints, and so have keys of one type whose stored forms do. -/
theorem update_laws :
    (∀ (seed : UInt64) (bytes : Bytes) (chunks : List Bytes), chunks.toArray.flatten = bytes →
      chunks.foldl update seed = update seed bytes ∧
      (states seed chunks).getLast? = some (update seed bytes)) ∧
    (∀ bytes, Function.Bijective fun seed => update seed bytes) ∧
    (∀ (seed : UInt64) (a b : Bytes), DifferInOne a b → update seed a ≠ update seed b) ∧
    ∀ (t : ColumnType) (v w : t.Value),
      DifferInOne (LittleEndian.encode v).toArray (LittleEndian.encode w).toArray →
      ColumnType.fingerprint v ≠ ColumnType.fingerprint w := by
  refine ⟨?_, update_seed_bijective, fun seed a b h => h.update_ne seed,
    fun t v w h => h.update_ne keySeed⟩
  intro seed bytes chunks hcut
  have hfold := foldl_update seed chunks
  rw [hcut] at hfold
  exact ⟨hfold, (getLast?_states seed chunks).trans (congrArg some hfold)⟩

/-- The keys 7 and 8 differ in their lowest byte alone. -/
theorem differInOne_seven_eight :
    DifferInOne (LittleEndian.encode (7 : ColumnType.bigInt.Value)).toArray
      (LittleEndian.encode (8 : ColumnType.bigInt.Value)).toArray := by
  have hseven : LittleEndian.encode (7 : ColumnType.bigInt.Value) = [7, 0, 0, 0, 0, 0, 0, 0] := by
    decide
  have height : LittleEndian.encode (8 : ColumnType.bigInt.Value) = [8, 0, 0, 0, 0, 0, 0, 0] := by
    decide
  rw [hseven, height]
  refine ⟨rfl, 0, by decide, ?_⟩
  intro j hj
  cases j with
  | zero => rfl
  | succ j => exact absurd rfl hj

/-- The letters `foo` from the usual seed, in three chunks of which one is empty, and the
keys 7 and 8. -/
theorem update_laws_foo :
    ([#[0x66, 0x6F], #[], #[0x6F]] : List Bytes).toArray.flatten = #[0x66, 0x6F, 0x6F] ∧
      [#[0x66, 0x6F], #[], #[0x6F]].foldl update 0xCBF29CE484222325 = 0xDCB27518FED9D577 ∧
      (∃ seed, update seed #[0x66, 0x6F, 0x6F] = 0) ∧
      DifferInOne (LittleEndian.encode (7 : ColumnType.bigInt.Value)).toArray
        (LittleEndian.encode (8 : ColumnType.bigInt.Value)).toArray ∧
      ColumnType.fingerprint (7 : ColumnType.bigInt.Value) ≠
        ColumnType.fingerprint (8 : ColumnType.bigInt.Value) := by
  obtain ⟨hchunks, hseeds, _, hkeys⟩ := update_laws
  have hcut : ([#[0x66, 0x6F], #[], #[0x6F]] : List Bytes).toArray.flatten =
      #[0x66, 0x6F, 0x6F] := by
    decide
  have hwhole : update 0xCBF29CE484222325 #[0x66, 0x6F, 0x6F] = 0xDCB27518FED9D577 := by decide
  exact ⟨hcut, (hchunks _ _ _ hcut).1.trans hwhole, (hseeds _).surjective 0,
    differInOne_seven_eight, hkeys .bigInt 7 8 differInOne_seven_eight⟩

end ColumnStore.Fingerprint
