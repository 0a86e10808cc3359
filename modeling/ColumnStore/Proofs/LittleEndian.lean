import ColumnStore.Bytes
import Mathlib.Algebra.Group.Nat.Defs

/-!
# The little-endian form

The two laws of the form on natural numbers (`toNat_ofNat`, `ofNat_toNat`) are
arithmetic.  Bit vectors of whole bytes are read back as they were written, and
written as they were read (`decode_encode`, `encode_decode`).
-/

namespace ColumnStore.LittleEndian

@[simp] theorem length_ofNat (n v : Nat) : (ofNat n v).length = n := by
  induction n generalizing v with
  | zero => rfl
  | succ n ih => simp [ofNat, ih]

@[simp] theorem length_encode {n : Nat} (v : BitVec (8 * n)) : (encode v).length = n :=
  length_ofNat n v.toNat

theorem toNat_lt (bytes : List UInt8) : toNat bytes < 256 ^ bytes.length := by
  induction bytes with
  | nil => simp [toNat]
  | cons b bs ih =>
    have hb := b.toNat_lt
    simp only [toNat, List.length_cons, Nat.pow_succ]
    omega

theorem toNat_ofNat (n v : Nat) : toNat (ofNat n v) = v % 256 ^ n := by
  induction n generalizing v with
  | zero => simp [ofNat, toNat, Nat.mod_one]
  | succ n ih =>
    simp only [ofNat, toNat, ih, UInt8.toNat_ofNat']
    change v % 256 + 256 * (v / 256 % 256 ^ n) = v % 256 ^ (n + 1)
    rw [Nat.pow_succ, Nat.mul_comm (256 ^ n) 256, Nat.mod_mul]

/-- A number that fits the bytes is read back from them. -/
theorem toNat_ofNat_of_lt {n v : Nat} (h : v < 256 ^ n) : toNat (ofNat n v) = v := by
  rw [toNat_ofNat, Nat.mod_eq_of_lt h]

theorem ofNat_toNat (bytes : List UInt8) : ofNat bytes.length (toNat bytes) = bytes := by
  induction bytes with
  | nil => rfl
  | cons b bs ih =>
    have hb := b.toNat_lt
    simp only [toNat, List.length_cons, ofNat, List.cons.injEq]
    refine ⟨?_, ?_⟩
    · apply UInt8.toNat.inj
      simp only [UInt8.toNat_ofNat']
      omega
    · rw [Nat.add_mul_div_left _ _ (by decide : 0 < 256), Nat.div_eq_of_lt hb, Nat.zero_add, ih]

theorem two_pow_eq (n : Nat) : 2 ^ (8 * n) = 256 ^ n := by
  rw [Nat.pow_mul]

/-- Bytes written and read back give the same bits. -/
theorem decode_encode {n : Nat} (v : BitVec (8 * n)) : decode n (encode v) = v := by
  apply BitVec.eq_of_toNat_eq
  have hv := v.isLt
  rw [two_pow_eq] at hv
  have htake : (encode v).take n = encode v := List.take_of_length_le (by simp)
  rw [decode, htake, encode, toNat_ofNat, BitVec.toNat_ofNat, two_pow_eq, Nat.mod_mod,
    Nat.mod_eq_of_lt hv]

/-- The bits read from `n` bytes, written, give those bytes. -/
theorem encode_decode {n : Nat} {bytes : List UInt8} (h : bytes.length = n) :
    encode (decode n bytes) = bytes := by
  have htake : bytes.take n = bytes := List.take_of_length_le (by omega)
  have hlt := toNat_lt bytes
  rw [h] at hlt
  simp only [encode, decode, htake, BitVec.toNat_ofNat, two_pow_eq, Nat.mod_eq_of_lt hlt]
  rw [← h, ofNat_toNat]

end ColumnStore.LittleEndian
