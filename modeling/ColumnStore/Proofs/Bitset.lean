import ColumnStore.Row.Bitset
import ColumnStore.Proofs.Outcome
import Mathlib.Data.Nat.Bitwise

/-!
# Bits of a byte string as a set

`bit` says whether a bit of a byte string is set, and is false past its end.
Within the string, setting a bit adds it to those that are set and changes no
other (`set_of_lt`, `bit_modify`), so a row of bits set one after another sets
exactly those (`setAll_of_lt`).
-/

namespace ColumnStore.Bitset

variable {bytes : Bytes} {i : Nat}

/-- Whether a bit is set. -/
def bit (bytes : Bytes) (i : Nat) : Bool :=
  (bytes[i / 8]?).any fun byte => byte.toNat.testBit (i % 8)

theorem toNat_mask (i : Nat) : (mask i).toNat = 2 ^ (i % 8) := by
  have hi : i % 8 < 8 := Nat.mod_lt i (by decide)
  have hpow : 2 ^ (i % 8) < 2 ^ 8 := Nat.pow_lt_pow_right (by decide) hi
  have hbit : (UInt8.ofNat (i % 8)).toNat = i % 8 := by
    rw [UInt8.toNat_ofNat']
    omega
  rw [mask, UInt8.toNat_shiftLeft, hbit, Nat.mod_eq_of_lt hi, show (1 : UInt8).toNat = 1 from rfl,
    Nat.one_shiftLeft, Nat.mod_eq_of_lt hpow]

/-- The mask of a bit picks that bit of a byte. -/
theorem and_mask_ne_zero (byte : UInt8) (i : Nat) :
    (byte &&& mask i != 0) = byte.toNat.testBit (i % 8) := by
  rw [Bool.eq_iff_iff, bne_iff_ne, ne_eq, ← UInt8.toNat_inj, UInt8.toNat_and, toNat_mask,
    Nat.and_two_pow]
  cases byte.toNat.testBit (i % 8) with
  | false => simp
  | true => simp

/-- The mask of a bit adds that bit to a byte. -/
theorem testBit_or_mask (byte : UInt8) (i j : Nat) :
    (byte ||| mask i).toNat.testBit (j % 8) =
      (decide (i % 8 = j % 8) || byte.toNat.testBit (j % 8)) := by
  rw [UInt8.toNat_or, toNat_mask, Nat.testBit_or, Nat.testBit_two_pow, Bool.or_comm]

theorem test_of_lt (h : i < 8 * bytes.size) : test bytes i = .ok (bit bytes i) := by
  have hin : i / 8 < bytes.size := by omega
  simp only [test, bit, Array.getElem?_eq_getElem hin, and_mask_ne_zero, Option.any_some]

theorem set_of_lt (h : i < 8 * bytes.size) :
    set bytes i = .ok (bytes.modify (i / 8) (· ||| mask i)) :=
  if_pos (by omega)

/-- The bit that is set is added to the others. -/
theorem bit_modify (h : i < 8 * bytes.size) (j : Nat) :
    bit (bytes.modify (i / 8) (· ||| mask i)) j = (decide (j = i) || bit bytes j) := by
  have hin : i / 8 < bytes.size := by omega
  unfold bit
  rw [Array.getElem?_modify]
  by_cases hbyte : i / 8 = j / 8
  · rw [if_pos hbyte, ← hbyte, Array.getElem?_eq_getElem hin]
    simp only [Option.map_some, Option.any_some, testBit_or_mask]
    have hsame : i % 8 = j % 8 ↔ j = i := by omega
    simp only [hsame]
  · have hne : ¬ j = i := by
      intro hji
      rw [hji] at hbyte
      exact hbyte rfl
    rw [if_neg hbyte]
    simp only [hne, decide_false, Bool.false_or]

/-- No bit of a zeroed byte string is set. -/
theorem bit_replicate_zero (n i : Nat) : bit (Array.replicate n 0) i = false := by
  unfold bit
  rw [Array.getElem?_replicate]
  split
  · simp
  · rfl

/-- Bits within the string can be set one after another, and are then the only ones
that are added. -/
theorem setAll_of_lt {bits : List Nat} (h : ∀ i ∈ bits, i < 8 * bytes.size) :
    ∃ after : Bytes, bits.foldlM set bytes = .ok after ∧ after.size = bytes.size ∧
      ∀ j, bit after j = (decide (j ∈ bits) || bit bytes j) := by
  induction bits generalizing bytes with
  | nil =>
    refine ⟨bytes, rfl, rfl, ?_⟩
    intro j
    simp
  | cons i bits ih =>
    have hi := h i List.mem_cons_self
    have hsize : (bytes.modify (i / 8) (· ||| mask i)).size = bytes.size := Array.size_modify
    have hfits : ∀ j ∈ bits, j < 8 * (bytes.modify (i / 8) (· ||| mask i)).size := by
      intro j hj
      rw [hsize]
      exact h j (List.mem_cons_of_mem i hj)
    obtain ⟨after, hrest, hafter, hbits⟩ := ih hfits
    refine ⟨after, ?_, hafter.trans hsize, ?_⟩
    · rw [List.foldlM_cons, set_of_lt hi, ok_bind, hrest]
    · intro j
      rw [hbits j, bit_modify hi j]
      by_cases hji : j = i
      · simp [hji]
      · simp [hji]

/-! ## Widths -/

/-- The bytes that hold bits have room for all of them. -/
theorem le_width (bits : Nat) : bits ≤ 8 * width bits := by
  unfold width
  omega

end ColumnStore.Bitset
