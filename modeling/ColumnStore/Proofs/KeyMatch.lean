import ColumnStore.Snapshot.KeyMatch
import ColumnStore.Proofs.Snapshot

/-!
# Equal keys and their fingerprints

Keys are compared as values and fingerprinted as bytes.  For the integer types the
two agree.  Among the floating-point types they part twice: what is not a number
does not equal itself, and the two zeros are equal but differ in their sign bit.
`ColumnType.same_iff` says that these are the only cases.

The fingerprints of the two zeros do differ (`ColumnType.fingerprint_ne_of_isZero`).
So of the keys that match a row, only the row's own value is sure to be found by its
fingerprint (`Snapshot.keyMatches_iff`).
-/

namespace ColumnStore

namespace BinaryFloat

variable (f : BinaryFloat)

/-- A zero has no bit set below its sign. -/
theorem isZero_iff (bits : Nat) :
    f.isZero bits = true ↔ bits % 2 ^ (f.fractionBits + f.exponentBits) = 0 := by
  rw [isZero, exponent, fraction, Bool.and_eq_true, beq_iff_eq, beq_iff_eq, Nat.pow_add,
    Nat.mod_mul]
  show bits / 2 ^ f.fractionBits % 2 ^ f.exponentBits = 0 ∧ bits % 2 ^ f.fractionBits = 0 ↔ _
  rw [Nat.add_eq_zero_iff, Nat.mul_eq_zero]
  have hpos := Nat.two_pow_pos f.fractionBits
  omega

/-- There are two zeros. -/
theorem eq_zero_or_of_isZero {bits : Nat} (h : f.isZero bits = true)
    (hlt : bits < 2 ^ (f.fractionBits + f.exponentBits + 1)) :
    bits = 0 ∨ bits = 2 ^ (f.fractionBits + f.exponentBits) := by
  rw [isZero_iff] at h
  rw [Nat.pow_succ] at hlt
  generalize 2 ^ (f.fractionBits + f.exponentBits) = sign at *
  rcases Nat.lt_or_ge bits sign with hbelow | habove
  · rw [Nat.mod_eq_of_lt hbelow] at h
    exact .inl h
  · rw [Nat.mod_eq_sub_mod habove, Nat.mod_eq_of_lt (by omega)] at h
    exact .inr (by omega)

end BinaryFloat

namespace ColumnType

variable {t : ColumnType} {a b : t.Value}

/-- Whether a value of a floating-point type is not a number. -/
def isNaN (v : t.Value) : Bool := t.floatFormat?.any (·.isNaN v.toNat)

/-- Whether a value of a floating-point type is one of its two zeros. -/
def isZero (v : t.Value) : Bool := t.floatFormat?.any (·.isZero v.toNat)

/-- Two values are equal if both are numbers, and they are the same or two zeros. -/
theorem same_iff :
    same a b = true ↔
      isNaN a = false ∧ isNaN b = false ∧ (a = b ∨ isZero a = true ∧ isZero b = true) := by
  unfold same isNaN isZero
  cases t.floatFormat? with
  | none => simp
  | some f => simp [BinaryFloat.same, BitVec.toNat_inj, and_assoc]

theorem same_self (v : t.Value) : same v v = !isNaN v := by
  rw [Bool.eq_iff_iff, same_iff]
  simp

theorem width_of_floatFormat? {f : BinaryFloat} (h : t.floatFormat? = some f) :
    8 * t.width = f.fractionBits + f.exponentBits + 1 := by
  cases t <;> simp [floatFormat?] at h <;> subst h <;> rfl

/-- The sign bit of a zero is the only one that may be set. -/
theorem eq_zero_or_of_isZero (h : isZero a = true) : a = 0 ∨ a = BitVec.intMin (8 * t.width) := by
  unfold isZero at h
  cases hformat : t.floatFormat? with
  | none => simp [hformat] at h
  | some f =>
    rw [hformat, Option.any_some] at h
    have hwidth := width_of_floatFormat? hformat
    have hsign : (BitVec.intMin (8 * t.width)).toNat =
        2 ^ (f.fractionBits + f.exponentBits) := by
      rw [BitVec.toNat_intMin_of_pos (by omega), hwidth, Nat.add_sub_cancel]
    have hlt : a.toNat < 2 ^ (f.fractionBits + f.exponentBits + 1) := by
      rw [← hwidth]
      exact a.isLt
    rcases f.eq_zero_or_of_isZero h hlt with hzero | hsigned
    · exact .inl (BitVec.eq_of_toNat_eq hzero)
    · exact .inr (BitVec.eq_of_toNat_eq (hsigned.trans hsign.symm))

/-- The two zeros of a type have different fingerprints. -/
theorem fingerprint_intMin_ne (t : ColumnType) :
    fingerprint (BitVec.intMin (8 * t.width) : t.Value) ≠ fingerprint (0 : t.Value) := by
  cases t <;> decide +kernel

theorem fingerprint_ne_of_isZero (ha : isZero a = true) (hb : isZero b = true) (hne : a ≠ b) :
    fingerprint a ≠ fingerprint b := by
  have hzeros := fingerprint_intMin_ne t
  rcases eq_zero_or_of_isZero ha with rfl | rfl
  · rcases eq_zero_or_of_isZero hb with rfl | rfl
    · exact absurd rfl hne
    · exact hzeros.symm
  · rcases eq_zero_or_of_isZero hb with rfl | rfl
    · exact hzeros
    · exact absurd rfl hne

end ColumnType

namespace Snapshot

variable {logical storage t : ColumnType} {nullable : Bool} {version : Nat} {rid : RowId} {i : Nat}

/-! ## Matching against a row -/

/-- Where no nulls are allowed, each row of the base layer has a value. -/
theorem Layered.exists_get_eq {s : Snapshot logical storage nullable}
    {layers : List (Layer storage)} (h : s.Layered layers) (hn : nullable = false)
    (hrid : s.Contains rid) : ∃ v, s.get rid = .ok (some v) := by
  obtain ⟨base, hbase, hoffset⟩ := hrid
  have hget := h.get_eq hbase hoffset
  cases hnewest : Layer.newest? layers rid with
  | none =>
    have hflag := h.flag_eq_zero hn (Array.mem_of_getElem? hbase) rid.offset
    rw [hnewest, Option.getD_none, StoredRow.seen] at hget
    exact ⟨_, hget.trans (congrArg _ (if_pos hflag))⟩
  | some shown =>
    obtain ⟨layer, hlayer, hrow⟩ := Layer.exists_of_newest? hnewest
    rw [hnewest, Option.getD_some] at hget
    cases shown with
    | none => exact absurd hrow (h.noNulls hn layer hlayer rid)
    | some v => exact ⟨v, hget⟩

/-- The row's value, widened, is compared with the key. -/
theorem keyMatches_eq {s : Snapshot logical storage false} {v : storage.Value}
    (hget : s.get rid = .ok (some v)) (widen : storage.Value → logical.Value)
    {keys : Array logical.Value} {key : logical.Value} (hkey : keys[i]? = some key) :
    s.keyMatches widen rid keys i = .ok (ColumnType.same (widen v) key) := by
  have hvalue : s.value? storage false rid = .ok (some v) := hget
  simp only [keyMatches, Bool.false_eq_true, if_false, hkey, hvalue, ok_bind, pure_eq_ok]

theorem keyFingerprint_eq {s : Snapshot t t nullable} {keys : Array t.Value} {key : t.Value}
    (hkey : keys[i]? = some key) : s.keyFingerprint keys i = .ok (ColumnType.fingerprint key) := by
  simp only [keyFingerprint, if_true, hkey]

/-- In a column without nulls that is stored as its own type, each row has a value.  As
a key it matches its row if it is a number.  Of the keys that match, only it has its
fingerprint; any other is the zero of the other sign. -/
theorem keyMatches_iff {c : Column} (hc : c.Reachable) {s : Snapshot t t false}
    (hs : c.snapshot t t false version = .ok s) (hrid : s.Contains rid) :
    ∃ v, s.get rid = .ok (some v) ∧
      s.keyMatches id rid #[v] 0 = .ok (!ColumnType.isNaN v) ∧
      ∀ x : t.Value,
        (s.keyMatches id rid #[x] 0 = .ok true ↔
          ColumnType.isNaN v = false ∧ ColumnType.isNaN x = false ∧
            (v = x ∨ ColumnType.isZero v = true ∧ ColumnType.isZero x = true)) ∧
        (s.keyMatches id rid #[x] 0 = .ok true →
          (s.keyFingerprint #[v] 0 = s.keyFingerprint #[x] 0 ↔ v = x)) := by
  obtain ⟨st, layers, hlayered⟩ := hc.layered
  obtain rfl : st = t := by
    rw [← hlayered.storage_eq]
    exact (Column.snapshot_eq_ok.1 hs).1.2.1.symm
  obtain ⟨v, hget⟩ := (hlayered.snapshot hs).exists_get_eq rfl hrid
  have hmatch : ∀ x : st.Value, s.keyMatches id rid #[x] 0 = .ok (ColumnType.same v x) :=
    fun x => keyMatches_eq hget id rfl
  have hfingerprint : ∀ x : st.Value, s.keyFingerprint #[x] 0 = .ok (ColumnType.fingerprint x) :=
    fun x => keyFingerprint_eq rfl
  refine ⟨v, hget, ?_, ?_⟩
  · rw [hmatch, ColumnType.same_self]
  · intro x
    rw [hmatch, hfingerprint, hfingerprint, Except.ok.injEq, Except.ok.injEq, ColumnType.same_iff]
    refine ⟨Iff.rfl, ?_⟩
    rintro ⟨-, -, hsame⟩
    refine ⟨?_, congrArg _⟩
    intro hequal
    rcases hsame with rfl | ⟨hv, hx⟩
    · rfl
    · by_contra hne
      exact ColumnType.fingerprint_ne_of_isZero hv hx hne hequal

/-! ## A column of doubles -/

def ratio : ColumnDef := { cid := 1, name := "ratio", type := .double, isKey := true }

/-- Something that is not a number, and a negative zero. -/
def ratioBlock : Block where
  size := 2
  data := ⟨#[0, 0, 0, 0, 0, 0, 0xF8, 0x7F, 0, 0, 0, 0, 0, 0, 0, 0x80], 16, 8⟩
  nulls := some ⟨Array.replicate 16 0, 2, 1⟩

theorem made_ratioBlock : ratioBlock.Made := by
  have hvalues : Block.ofValues
      (#[0x7FF8000000000000, 0x8000000000000000] : Array (BitVec (8 * 8))) = .ok ratioBlock := rfl
  exact .ofValues hvalues

def ratioColumn : Column :=
  (Column.new 0 ratio 0).publish (.block ratioBlock)

theorem reachable_ratioColumn : ratioColumn.Reachable :=
  .publish (.new 0 ratio .double 0) made_ratioBlock

def ratioSnapshot : Snapshot .double .double false :=
  ratioColumn.at .double .double false 0

theorem snapshot_ratioColumn :
    ratioColumn.snapshot .double .double false 0 = .ok ratioSnapshot := by
  refine Column.snapshot_eq_ok.2 ⟨⟨?_, ?_, ?_, ?_⟩, rfl⟩ <;> decide +kernel

/-- The first row does not match its own value, and the second row matches a key that
has another fingerprint than its own value. -/
theorem ratio_keys_part :
    ratioColumn.Reachable ∧
      ratioColumn.snapshot .double .double false 0 = .ok ratioSnapshot ∧
      ratioSnapshot.Contains 0 ∧ ratioSnapshot.Contains 1 ∧
      ratioSnapshot.get 0 = .ok (some 0x7FF8000000000000) ∧
      ratioSnapshot.keyMatches id 0 #[0x7FF8000000000000] 0 = .ok false ∧
      ratioSnapshot.get 1 = .ok (some 0x8000000000000000) ∧
      ratioSnapshot.keyMatches id 1 #[0] 0 = .ok true ∧
      ratioSnapshot.keyFingerprint #[0x8000000000000000] 0 = .ok 140737488411008 ∧
      ratioSnapshot.keyFingerprint #[0] 0 = .ok 0 := by
  refine ⟨reachable_ratioColumn, snapshot_ratioColumn, ?_⟩
  refine ⟨?_, ?_, ?_, ?_, ?_, ?_, ?_, ?_⟩ <;> decide +kernel

theorem keyMatches_iff_ratio :
    ratioColumn.Reachable ∧
      ratioColumn.snapshot .double .double false 0 = .ok ratioSnapshot ∧
      ratioSnapshot.Contains 1 ∧
      ratioSnapshot.get 1 = .ok (some 0x8000000000000000) ∧
      ratioSnapshot.keyMatches id 1 #[0x8000000000000000] 0 = .ok true ∧
      ratioSnapshot.keyMatches id 1 #[0] 0 = .ok true ∧
      ratioSnapshot.keyFingerprint #[0x8000000000000000] 0 ≠
        ratioSnapshot.keyFingerprint #[0] 0 := by
  have hrow : ratioSnapshot.Contains 1 := by decide +kernel
  have hget : ratioSnapshot.get 1 = .ok (some 0x8000000000000000) := by decide +kernel
  obtain ⟨v, hv, hself, hkeys⟩ := keyMatches_iff reachable_ratioColumn snapshot_ratioColumn hrow
  obtain rfl := Option.some.inj (Except.ok.inj (hv.symm.trans hget))
  have hzero := (hkeys 0).1.2 ⟨by decide, by decide, .inr ⟨by decide, by decide⟩⟩
  refine ⟨reachable_ratioColumn, snapshot_ratioColumn, hrow, hget, hself, hzero, ?_⟩
  rw [ne_eq, (hkeys 0).2 hzero]
  decide

end Snapshot

end ColumnStore
