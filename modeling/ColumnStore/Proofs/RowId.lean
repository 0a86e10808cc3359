import ColumnStore.RowId
import ColumnStore.Proofs.Outcome

/-!
# Row ids as pairs

A row id is a pair of a block number and an offset, both below 65536.  `at?` is
the row id of a pair, where there is one.
-/

namespace ColumnStore.RowId

theorem block_eq (rid : RowId) : rid.block = rid.toNat / blockCapacity := by
  rw [block, UInt32.toNat_shiftRight, show (16 : UInt32).toNat % 32 = 16 from rfl,
    Nat.shiftRight_eq_div_pow]
  rfl

theorem offset_eq (rid : RowId) : rid.offset = rid.toNat % blockCapacity := by
  rw [offset, UInt32.toNat_and, show (0xFFFF : UInt32).toNat = 2 ^ 16 - 1 from rfl,
    Nat.and_two_pow_sub_one_eq_mod]
  rfl

theorem block_lt (rid : RowId) : rid.block < blockCapacity := by
  have hlt := rid.toNat_lt
  rw [block_eq]
  simp only [blockCapacity]
  omega

/-- A row id is read off its block number and its offset. -/
theorem toNat_eq (rid : RowId) : rid.toNat = rid.block * blockCapacity + rid.offset := by
  rw [block_eq, offset_eq]
  exact (Nat.div_add_mod' _ _).symm

theorem eq_of_block_offset {a b : RowId} (hblock : a.block = b.block)
    (hoffset : a.offset = b.offset) : a = b := by
  apply UInt32.toNat.inj
  rw [toNat_eq a, toNat_eq b, hblock, hoffset]

/-- An offset fits 16 bits. -/
theorem toNat_offset_toUInt16 (rid : RowId) : rid.offset.toUInt16.toNat = rid.offset := by
  have hlt := rid.offset_lt
  rw [Nat.toUInt16_eq, UInt16.toNat_ofNat']
  exact Nat.mod_eq_of_lt hlt

/-! ## The row id of a pair -/

/-- The row id of an offset within a block, if both fit. -/
def at? (block offset : Nat) : Option RowId :=
  if block < blockCapacity ∧ offset < blockCapacity then
    some (UInt32.ofNat (block * blockCapacity + offset))
  else
    none

/-- The pair of a row id is that row id's own. -/
theorem at?_eq_some {block offset : Nat} {rid : RowId} :
    at? block offset = some rid ↔ rid.block = block ∧ rid.offset = offset := by
  constructor
  · intro h
    unfold at? at h
    split at h
    · rename_i hfits
      obtain rfl := Option.some.inj h
      rw [block_eq, offset_eq, UInt32.toNat_ofNat']
      simp only [blockCapacity] at *
      omega
    · simp at h
  · intro h
    obtain ⟨rfl, rfl⟩ := h
    rw [at?, if_pos ⟨rid.block_lt, rid.offset_lt⟩, ← toNat_eq, UInt32.ofNat_toNat]

/-- The row id that is composed of a block number and an offset has that offset, and
of the block number what fits. -/
theorem ofBlock_eq_ok {block offset : UInt32} {rid : RowId} :
    ofBlock block offset = .ok rid ↔
      offset.toNat < blockCapacity ∧ rid.block = block.toNat % blockCapacity ∧
        rid.offset = offset.toNat := by
  have hfits : offset ≤ 0xFFFF ↔ offset.toNat < blockCapacity := by
    rw [UInt32.le_iff_toNat_le]
    exact Nat.lt_succ_iff.symm
  by_cases hoffset : offset.toNat < blockCapacity
  · have hlow : block.toNat <<< 16 % 2 ^ 32 = (block.toNat % blockCapacity) <<< 16 := by
      simp only [Nat.shiftLeft_eq, blockCapacity]
      omega
    have hword : ((block <<< 16) ||| offset).toNat =
        block.toNat % blockCapacity * blockCapacity + offset.toNat := by
      rw [UInt32.toNat_or, UInt32.toNat_shiftLeft, show (16 : UInt32).toNat % 32 = 16 from rfl,
        hlow, ← Nat.shiftLeft_add_eq_or_of_lt (i := 16) hoffset, Nat.shiftLeft_eq]
      rfl
    have hpair : RowId.block ((block <<< 16) ||| offset) = block.toNat % blockCapacity ∧
        RowId.offset ((block <<< 16) ||| offset) = offset.toNat := by
      rw [block_eq, offset_eq, hword]
      simp only [blockCapacity] at *
      omega
    rw [ofBlock, if_pos (hfits.2 hoffset), Except.ok.injEq]
    constructor
    · intro h
      subst h
      exact ⟨hoffset, hpair⟩
    · intro h
      exact eq_of_block_offset (hpair.1.trans h.2.1.symm) (hpair.2.trans h.2.2.symm)
  · rw [ofBlock, if_neg (fun h => hoffset (hfits.1 h))]
    simp [hoffset]

/-- A row id is composed again of its own block number and offset. -/
theorem shiftLeft_or_offset (rid : RowId) :
    (UInt32.ofNat rid.block <<< 16) ||| rid.offset.toUInt16.toUInt32 = rid := by
  have hblock : (UInt32.ofNat rid.block).toNat = rid.block := by
    have hlt := rid.block_lt
    rw [UInt32.toNat_ofNat']
    simp only [blockCapacity] at hlt
    omega
  have hoffset : rid.offset.toUInt16.toUInt32.toNat = rid.offset := by
    rw [UInt16.toNat_toUInt32, toNat_offset_toUInt16]
  have hrid : ofBlock (UInt32.ofNat rid.block) rid.offset.toUInt16.toUInt32 = .ok rid := by
    refine ofBlock_eq_ok.2 ⟨?_, ?_, hoffset.symm⟩
    · rw [hoffset]
      exact rid.offset_lt
    · rw [hblock, Nat.mod_eq_of_lt rid.block_lt]
  unfold ofBlock at hrid
  split at hrid
  · exact Except.ok.inj hrid
  · simp at hrid

/-- No two pairs of a number that fits and an offset compose one row id. -/
theorem ofBlock_inj {block other offset offset' : UInt32} {rid : RowId}
    (hblock : block.toNat < blockCapacity) (hother : other.toNat < blockCapacity)
    (h : ofBlock block offset = .ok rid) (h' : ofBlock other offset' = .ok rid) :
    block = other ∧ offset = offset' := by
  obtain ⟨_, hnumber, hrow⟩ := ofBlock_eq_ok.1 h
  obtain ⟨_, hnumber', hrow'⟩ := ofBlock_eq_ok.1 h'
  rw [Nat.mod_eq_of_lt hblock] at hnumber
  rw [Nat.mod_eq_of_lt hother] at hnumber'
  exact ⟨UInt32.toNat.inj (hnumber.symm.trans hnumber'), UInt32.toNat.inj (hrow.symm.trans hrow')⟩

/-- Where the pair fits, its row id is the one that is composed of it. -/
theorem ofBlock_of_lt {block offset : Nat} (hblock : block < blockCapacity)
    (hoffset : offset < blockCapacity) :
    ∃ rid, ofBlock (UInt32.ofNat block) (UInt32.ofNat offset) = .ok rid ∧
      rid.block = block ∧ rid.offset = offset := by
  have hrid := at?_eq_some.1 (show at? block offset = some _ from if_pos ⟨hblock, hoffset⟩)
  refine ⟨_, ofBlock_eq_ok.2 ?_, hrid⟩
  rw [hrid.1, hrid.2, UInt32.toNat_ofNat', UInt32.toNat_ofNat']
  simp only [blockCapacity] at *
  omega

end ColumnStore.RowId
