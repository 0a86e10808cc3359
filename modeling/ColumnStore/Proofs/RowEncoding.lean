import ColumnStore.Proofs.Buffer
import ColumnStore.Proofs.RowBatch
import ColumnStore.Proofs.RowDraft

/-!
# Encoded rows

Encoding a draft that reflects settings is refused or gives a row, and never
breaks off (`encode_cases`).  A row is the length of its bit vector, the bit
vector, and the values, and a bit is set exactly if it is that of a set column or
that of a null.
-/

namespace ColumnStore

/-! ## Columns with their cells -/

/-- The cells of set columns that allow nulls, in the order of the columns. -/
def nullableCells (pairs : List (ColumnDef × DraftCell)) : List DraftCell :=
  (pairs.filter fun (column, cell) => column.nullable && cell.isSet).map (·.2)

/-- A cell that can stand for the column: a null only where nulls are allowed, and
a value of the column's width. -/
def DraftCell.Fits (column : ColumnDef) : DraftCell → Prop
  | .unset => True
  | .null => column.nullable = true
  | .value bytes => bytes.length = column.width

theorem DraftCell.Fits.length_le {column : ColumnDef} {cell : DraftCell}
    (h : cell.Fits column) : cell.bytes.length ≤ Buffer.wordBytes := by
  cases cell with
  | unset => exact Nat.zero_le _
  | null => exact Nat.zero_le _
  | value bytes =>
    have hlength : bytes.length = column.type.width := h
    show bytes.length ≤ Buffer.wordBytes
    rw [hlength]
    exact column.type.width_le

theorem length_bytes_le {pairs : List (ColumnDef × DraftCell)}
    (h : ∀ p ∈ pairs, p.2.Fits p.1) :
    ((pairs.map (·.2)).flatMap DraftCell.bytes).length ≤ Buffer.wordBytes * pairs.length := by
  induction pairs with
  | nil => exact Nat.zero_le _
  | cons p pairs ih =>
    have hfirst := (h p List.mem_cons_self).length_le
    have hrest := ih fun q hq => h q (List.mem_cons_of_mem p hq)
    rw [List.map_cons, List.flatMap_cons, List.length_append, List.length_cons, Nat.mul_succ]
    omega

/-- The columns of a schema with the cells that settings make. -/
def Settings.pairs (settings : Settings) (schema : Schema) : List (ColumnDef × DraftCell) :=
  schema.columns.toList.map fun column => (column, settings.cell column)

theorem Settings.isSet_cell (settings : Settings) (column : ColumnDef) :
    (settings.cell column).isSet = (settings column.cid).isSome := by
  unfold Settings.cell
  cases settings column.cid with
  | none => rfl
  | some s =>
    obtain ⟨t, v⟩ := s
    cases v <;> rfl

/-- The positions of the elements with a property, counted from `n`. -/
theorem mem_positions_iff {α : Type} {p : α → Prop} [DecidablePred p] {l : List α} {n j : Nat} :
    (j ∈ (l.zipIdx n).filterMap fun (a, i) => if p a then some i else none) ↔
      ∃ k a, l[k]? = some a ∧ p a ∧ j = n + k := by
  rw [List.mem_filterMap]
  constructor
  · intro h
    obtain ⟨⟨a, i⟩, hmem, hif⟩ := h
    obtain ⟨hle, hget⟩ := List.mk_mem_zipIdx_iff_le_and_getElem?_sub.1 hmem
    by_cases hp : p a
    · simp only [hp, if_true, Option.some.injEq] at hif
      exact ⟨i - n, a, hget, hp, by omega⟩
    · simp [hp] at hif
  · intro h
    obtain ⟨k, a, hget, hp, rfl⟩ := h
    refine ⟨(a, n + k), ?_, if_pos hp⟩
    rw [List.mk_mem_zipIdx_iff_le_and_getElem?_sub, Nat.add_sub_cancel_left]
    exact ⟨Nat.le_add_right n k, hget⟩

namespace RowDraft

variable {draft : RowDraft} {schema : Schema} {settings : Settings} {row : Bytes}

theorem Reflects.columnCells_eq (h : draft.Reflects schema settings) :
    draft.columnCells = settings.pairs schema := by
  rw [columnCells, h.schema_eq, h.cells_eq, Array.toList_map, Settings.pairs,
    List.map_prod_left_eq_zip]

theorem Reflects.toList_cells (h : draft.Reflects schema settings) :
    draft.cells.toList = (settings.pairs schema).map (·.2) := by
  rw [h.cells_eq, Array.toList_map, Settings.pairs, List.map_map]
  rfl

theorem Reflects.fits (h : draft.Reflects schema settings) :
    ∀ p ∈ settings.pairs schema, p.2.Fits p.1 := by
  intro p hp
  obtain ⟨column, hcolumn, rfl⟩ := List.mem_map.1 hp
  show (settings.cell column).Fits column
  unfold Settings.cell
  cases hs : settings column.cid with
  | none => exact trivial
  | some s =>
    obtain ⟨htype, hnull⟩ := h.suits column (Array.mem_toList_iff.1 hcolumn) s hs
    obtain ⟨t, v⟩ := s
    cases v with
    | none => exact hnull rfl
    | some v =>
      have hwidth : t.width = column.width := congrArg ColumnType.width htype
      exact (LittleEndian.length_encode v).trans hwidth

/-! ## The bits -/

/-- The bits that are set. -/
theorem mem_bits_iff (j : Nat) :
    j ∈ draft.setCids ++ draft.nullBits ↔
      (∃ k cell, draft.cells.toList[k]? = some cell ∧ cell.isSet = true ∧ j = 1 + k) ∨
      ∃ k cell, draft.nullableCells[k]? = some cell ∧ cell = .null ∧
        j = draft.schema.cidSize + k := by
  have hset : j ∈ draft.setCids ↔ _ :=
    mem_positions_iff (p := fun cell : DraftCell => cell.isSet = true)
  have hnull : j ∈ draft.nullBits ↔ _ :=
    mem_positions_iff (p := fun cell : DraftCell => cell = .null)
  exact List.mem_append.trans (or_congr hset hnull)

/-- The bit of a column is set exactly if its cell is. -/
theorem mem_bits_cid (hsize : draft.cells.size = draft.schema.size) {k : Nat} {cell : DraftCell}
    (hk : draft.cells.toList[k]? = some cell) :
    1 + k ∈ draft.setCids ++ draft.nullBits ↔ cell.isSet = true := by
  have hin : k < draft.cells.size := by simpa using (List.getElem?_eq_some_iff.1 hk).1
  rw [mem_bits_iff]
  constructor
  · intro h
    rcases h with ⟨k', cell', hk', hset, hkk⟩ | ⟨k', _, _, _, hkk⟩
    · obtain rfl : k = k' := by omega
      obtain rfl := Option.some.inj (hk.symm.trans hk')
      exact hset
    · simp only [Schema.cidSize] at hkk
      omega
  · intro hset
    exact .inl ⟨k, cell, hk, hset, rfl⟩

/-- The bit of a set cell that may be null is set exactly if it is null. -/
theorem mem_bits_null (hsize : draft.cells.size = draft.schema.size) {k : Nat} {cell : DraftCell}
    (hk : draft.nullableCells[k]? = some cell) :
    draft.schema.cidSize + k ∈ draft.setCids ++ draft.nullBits ↔ cell = .null := by
  rw [mem_bits_iff]
  constructor
  · intro h
    rcases h with ⟨k', cell', hk', _, hkk⟩ | ⟨k', cell', hk', hnull, hkk⟩
    · have hin : k' < draft.cells.size := by simpa using (List.getElem?_eq_some_iff.1 hk').1
      simp only [Schema.cidSize] at hkk
      omega
    · obtain rfl : k = k' := by omega
      obtain rfl := Option.some.inj (hk.symm.trans hk')
      exact hnull
  · intro hnull
    exact .inr ⟨k, cell, hk, hnull, rfl⟩

theorem lt_of_mem_bits (hsize : draft.cells.size = draft.schema.size) {j : Nat}
    (hj : j ∈ draft.setCids ++ draft.nullBits) : 0 < j ∧ j < draft.bitCount := by
  rw [bitCount, Schema.cidSize]
  rcases (mem_bits_iff j).1 hj with ⟨k, _, hk, _, rfl⟩ | ⟨k, _, hk, _, rfl⟩
  · have hin : k < draft.cells.size := by simpa using (List.getElem?_eq_some_iff.1 hk).1
    omega
  · have hin := (List.getElem?_eq_some_iff.1 hk).1
    rw [Schema.cidSize]
    omega

/-! ## The row -/

/-- The parts of an encoded row. -/
structure Layout (draft : RowDraft) (row bitset : Bytes) : Prop where
  size_eq : bitset.size = Bitset.width draft.bitCount
  size_le : bitset.size ≤ bitsetLimit
  bit_eq : ∀ j, Bitset.bit bitset j = decide (j ∈ draft.setCids ++ draft.nullBits)
  row_eq : row = (LittleEndian.ofNat bitsetLengthSize bitset.size).toArray ++ bitset ++
    (draft.cells.toList.flatMap DraftCell.bytes).toArray

/-- An encoded row is short enough for the length a batch keeps of it. -/
theorem Layout.size_lt {bitset : Bytes} (hlayout : draft.Layout row bitset)
    (h : draft.Reflects schema settings) : row.size < 2 ^ 32 := by
  have hvalues := length_bytes_le h.fits
  have hcount : (settings.pairs schema).length = schema.columns.size := by
    simp [Settings.pairs]
  rw [← h.toList_cells, hcount] at hvalues
  -- The bit vector has a bit for each column, so its length bounds the number of columns.
  have hbits := Bitset.le_width draft.bitCount
  rw [← hlayout.size_eq, bitCount, Schema.cidSize, h.schema_eq, Schema.size] at hbits
  have hle := hlayout.size_le
  have hrow : row.size = bitsetLengthSize + bitset.size +
      (draft.cells.toList.flatMap DraftCell.bytes).length := by
    rw [hlayout.row_eq]
    simp only [Array.size_append, List.size_toArray, LittleEndian.length_ofNat]
  simp only [bitsetLengthSize, bitsetLimit, Buffer.wordBytes] at *
  omega

/-- The size of a row is known before it is encoded. -/
theorem Layout.size_eq_encodedSize {bitset : Bytes} (hlayout : draft.Layout row bitset)
    (h : draft.Reflects schema settings) : row.size = draft.encodedSize := by
  have hvalues : draft.encodedSize = bitsetLengthSize + Bitset.width draft.bitCount +
      (draft.cells.toList.flatMap DraftCell.bytes).length := by
    unfold encodedSize
    dsimp only
    rw [← List.sum_eq_foldl, h.columnCells_eq, h.toList_cells, List.length_flatMap, List.map_map]
    refine congrArg (bitsetLengthSize + Bitset.width draft.bitCount + List.sum ·)
      (List.map_congr_left ?_)
    intro p hp
    have hfits := h.fits p hp
    obtain ⟨column, cell⟩ := p
    cases cell with
    | unset => rfl
    | null => rfl
    | value bytes =>
      have hlength : bytes.length = column.width := hfits
      exact hlength.symm
  rw [hvalues, hlayout.row_eq, ← hlayout.size_eq]
  simp only [Array.size_append, List.size_toArray, LittleEndian.length_ofNat]

/-- A row that can be encoded is of the one layout. -/
theorem encode_of_fits (hsize : draft.cells.size = draft.schema.size)
    (hshort : Bitset.width draft.bitCount ≤ bitsetLimit) (hkeys : draft.missingKey? = none) :
    ∃ row bitset, draft.encode = .ok row ∧ draft.Layout row bitset := by
  have hfits : ∀ i ∈ draft.setCids ++ draft.nullBits,
      i < 8 * (Array.replicate (Bitset.width draft.bitCount) (0 : UInt8)).size := by
    intro i hi
    rw [Array.size_replicate]
    exact Nat.lt_of_lt_of_le (lt_of_mem_bits hsize hi).2 (Bitset.le_width _)
  obtain ⟨bitset, hbitset, hwidth, hbits⟩ := Bitset.setAll_of_lt hfits
  rw [Array.size_replicate] at hwidth
  refine ⟨_, bitset, ?_, hwidth, ?_, ?_, rfl⟩
  · unfold encode
    simp only [Nat.not_lt.2 hshort, if_false, hkeys, hbitset, liftM_fault_ok, ok_bind, pure_eq_ok]
    rw [hwidth, Bytes.append_list]
  · rw [hwidth]
    exact hshort
  · intro j
    rw [hbits j, Bitset.bit_replicate_zero, Bool.or_false]

/-- A row whose bit vector is too long or that lacks a key column is refused. -/
theorem encode_of_not_fits
    (h : ¬ (Bitset.width draft.bitCount ≤ bitsetLimit ∧ draft.missingKey? = none)) :
    ∃ e, draft.encode = .error (.error e) := by
  unfold encode
  by_cases hlong : bitsetLimit < Bitset.width draft.bitCount
  · exact ⟨_, by simp only [hlong, if_true]; rfl⟩
  · cases hkey : draft.missingKey? with
    | some cid => exact ⟨_, by simp only [hlong, if_false]; rfl⟩
    | none => exact absurd ⟨Nat.le_of_not_lt hlong, hkey⟩ h

/-- Encoding is refused, or gives a row of the one layout. -/
theorem encode_cases (hsize : draft.cells.size = draft.schema.size) :
    (∃ e, draft.encode = .error (.error e)) ∨
      ∃ row bitset, draft.encode = .ok row ∧ draft.Layout row bitset := by
  by_cases h : Bitset.width draft.bitCount ≤ bitsetLimit ∧ draft.missingKey? = none
  · exact .inr (encode_of_fits hsize h.1 h.2)
  · exact .inl (encode_of_not_fits h)

/-- No key column is missing if each is set. -/
theorem missingKey?_eq_none_iff (hs : draft.schema.Numbered) :
    draft.missingKey? = none ↔
      ∀ p ∈ draft.columnCells, p.1.isKey = true → p.2.isSet = true := by
  have hcells : draft.missingKey? = none ↔ ∀ i cell, i < draft.schema.keyCount →
      draft.cells.toList[i]? = some cell → cell.isSet = true := by
    rw [missingKey?, List.findSome?_eq_none_iff]
    constructor
    · intro h i cell hi hcell
      have hmem : (cell, i + 1) ∈ (draft.cells.toList.take draft.schema.keyCount).zipIdx 1 := by
        rw [List.mk_mem_zipIdx_iff_le_and_getElem?_sub, Nat.add_sub_cancel, List.getElem?_take,
          if_pos hi]
        exact ⟨Nat.le_add_left 1 i, hcell⟩
      have hset := h _ hmem
      cases hisSet : cell.isSet with
      | true => rfl
      | false => simp [hisSet] at hset
    · intro h entry hentry
      obtain ⟨cell, cid⟩ := entry
      rw [List.mk_mem_zipIdx_iff_le_and_getElem?_sub, List.getElem?_take] at hentry
      split at hentry
      · rename_i hlt
        exact if_pos (h _ cell hlt hentry.2)
      · simp at hentry
  rw [hcells]
  constructor
  · intro h p hp hkey
    obtain ⟨i, hi⟩ := List.mem_iff_getElem?.1 hp
    obtain ⟨hcolumn, hcell⟩ := List.getElem?_zip_eq_some.1 hi
    rw [Array.getElem?_toList] at hcolumn
    exact h i p.2 ((hs.isKey_iff hcolumn).1 hkey) hcell
  · intro h i cell hi hcell
    have hin : i < draft.schema.columns.size := Nat.lt_of_lt_of_le hi hs.keyCount_le
    have hcolumn := Array.getElem?_eq_getElem hin
    refine h (draft.schema.columns[i], cell) ?_ ((hs.isKey_iff hcolumn).2 hi)
    refine List.mem_iff_getElem?.2 ⟨i, List.getElem?_zip_eq_some.2 ⟨?_, hcell⟩⟩
    rw [Array.getElem?_toList]
    exact hcolumn

/-- Writing a row is encoding it and appending what comes of that. -/
theorem appendTo_eq_ok {batch after : RowBatch} :
    draft.appendTo batch = .ok after ↔
      ∃ row, draft.encode = .ok row ∧ batch.append row = .ok after := by
  rw [appendTo, bind_eq_ok]
  refine exists_congr fun row => and_congr_right fun _ => ?_
  cases batch.append row with
  | ok _ => simp
  | error e => simp

end RowDraft

end ColumnStore
