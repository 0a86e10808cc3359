import ColumnStore.Proofs.RowWalk
import Mathlib.Data.List.Forall2

/-!
# Reading an encoded row back

A cursor that reads a row of the layout of a draft succeeds, whatever it read
before, and shows the settings the draft reflects (`read_of_layout`): a cell for
each set column, in the order of the columns, with the value it was set to.
-/

namespace ColumnStore

variable {schema : Schema} {settings : Settings} {draft : RowDraft} {row bitset : Bytes}

/-- A value of a type is read back from its bytes. -/
theorem ColumnType.load_encode {t : ColumnType} (v : t.Value) :
    t.load (LittleEndian.encode v).toArray = .ok v := by
  have hlength := LittleEndian.length_encode v
  have hslice : Bytes.slice (LittleEndian.encode v).toArray 0 t.width = LittleEndian.encode v := by
    rw [Bytes.slice, List.extract_toArray, List.extract_eq_take_drop, List.drop_zero, Nat.sub_zero,
      List.take_of_length_le (Nat.le_of_eq hlength)]
  have hfits : t.width ≤ (LittleEndian.encode v).toArray.size := by
    rw [List.size_toArray, hlength]
  rw [ColumnType.load, if_pos hfits, hslice, LittleEndian.decode_encode]

namespace RowCursor

variable {cursor : RowCursor}

@[simp] theorem batch_new (batch : RowBatch) : (new batch).batch = batch := rfl

theorem bitset?_of_layout (hlayout : draft.Layout row bitset) : bitset? row = some bitset := by
  have hcount : (LittleEndian.ofNat RowDraft.bitsetLengthSize bitset.size).toArray.size =
      RowDraft.bitsetLengthSize := by simp
  have hlength : LittleEndian.toNat (LittleEndian.ofNat RowDraft.bitsetLengthSize bitset.size) =
      bitset.size := LittleEndian.toNat_ofNat_of_lt (Nat.lt_succ_of_le hlayout.size_le)
  have hfirst := Bytes.stretch?_middle #[]
    (LittleEndian.ofNat RowDraft.bitsetLengthSize bitset.size).toArray
    (bitset ++ (draft.cells.toList.flatMap DraftCell.bytes).toArray)
  have hsecond := Bytes.stretch?_middle
    (LittleEndian.ofNat RowDraft.bitsetLengthSize bitset.size).toArray bitset
    (draft.cells.toList.flatMap DraftCell.bytes).toArray
  rw [Array.empty_append, ← Array.append_assoc, ← hlayout.row_eq, hcount, Array.size_empty,
    Nat.zero_add] at hfirst
  rw [← hlayout.row_eq, hcount] at hsecond
  unfold bitset?
  simp only [Option.bind_eq_bind, hfirst, Option.bind_some, hlength, hsecond]

/-- At the start of an encoded row all of its columns lie ahead. -/
theorem ahead_of_layout (hlayout : draft.Layout row bitset) (h : draft.Reflects schema settings) :
    RowWalk.Ahead { cells := #[], nullBit := schema.cidSize,
                    position := RowDraft.bitsetLengthSize + bitset.size }
      row bitset 1 (settings.pairs schema) := by
  have hsize := h.cells_size
  have hroom : draft.bitCount ≤ 8 * bitset.size := by
    rw [hlayout.size_eq]
    exact Bitset.le_width _
  refine ⟨h.fits, ?_, ?_, ?_⟩
  · intro k p hk
    have hcell : draft.cells.toList[k]? = some p.2 := by
      rw [h.toList_cells, List.getElem?_map, hk]
      rfl
    have hin : k < draft.cells.size := by simpa using (List.getElem?_eq_some_iff.1 hcell).1
    refine ⟨?_, ?_⟩
    · rw [RowDraft.bitCount, Schema.cidSize] at hroom
      omega
    · rw [hlayout.bit_eq, Bool.eq_iff_iff, decide_eq_true_iff]
      exact RowDraft.mem_bits_cid hsize hcell
  · intro k cell hk
    have hcell : draft.nullableCells[k]? = some cell := by
      rw [← h.columnCells_eq] at hk
      exact hk
    have hin := (List.getElem?_eq_some_iff.1 hcell).1
    rw [← h.schema_eq]
    refine ⟨?_, ?_⟩
    · rw [RowDraft.bitCount] at hroom
      show draft.schema.cidSize + k < _
      omega
    · rw [hlayout.bit_eq, decide_eq_decide.2 (RowDraft.mem_bits_null hsize hcell)]
  · refine ⟨(LittleEndian.ofNat RowDraft.bitsetLengthSize bitset.size).toArray ++ bitset, ?_, ?_⟩
    · rw [Array.size_append, List.size_toArray, LittleEndian.length_ofNat]
    · rw [hlayout.row_eq, h.toList_cells, List.flatMap_map]

/-! ## What is shown -/

/-- The cursor shows the settings: a cell for each column that is set, with the
value it was set to. -/
structure Shows (cursor : RowCursor) (schema : Schema) (settings : Settings) : Prop where
  isDelete_eq : cursor.isDelete = false
  cellCount_eq : cursor.cellCount =
    schema.columns.toList.countP fun column => (settings column.cid).isSome
  ascending : cursor.cells.toList.Pairwise (·.column.cid < ·.column.cid)
  column_iff : ∀ column, (∃ cell ∈ cursor.cells, cell.column = column) ↔
    column ∈ schema.columns ∧ (settings column.cid).isSome = true
  value_eq : ∀ {i : Nat} {cell : RowCell}, cursor.cells[i]? = some cell →
    ∃ s, settings cell.column.cid = some s ∧ cursor.value i s.type = .ok s.value

/-- The cells found are of the set columns, in order. -/
theorem columns_of_shows {found : List RowCell}
    (h : List.Forall₂ (RowCell.Shows row) found ((settings.pairs schema).filter (·.2.isSet))) :
    found.map (·.column) =
      schema.columns.toList.filter fun column => (settings column.cid).isSome := by
  have hcolumns : ∀ {found : List RowCell} {pairs : List (ColumnDef × DraftCell)},
      List.Forall₂ (RowCell.Shows row) found pairs → found.map (·.column) = pairs.map (·.1) := by
    intro found pairs h
    induction h with
    | nil => rfl
    | cons hcell _ ih => rw [List.map_cons, List.map_cons, hcell.1, ih]
  have hset : (fun p : ColumnDef × DraftCell => p.2.isSet) ∘
      (fun column => (column, settings.cell column)) =
        fun column => (settings column.cid).isSome := by
    funext column
    exact settings.isSet_cell column
  rw [hcolumns h, Settings.pairs, List.filter_map, List.map_map, hset]
  exact List.map_id _

/-- The value of a cell that was found is the one its column was set to. -/
theorem value_of_shows {i : Nat} {cell : RowCell} {column : ColumnDef}
    (hcursor : cursor.row = row) (hcells : cursor.cells[i]? = some cell)
    (hshows : cell.Shows row (column, settings.cell column))
    (hset : (settings column.cid).isSome = true)
    (hsuits : ∀ s, settings column.cid = some s → s.type = column.type) :
    ∃ s, settings cell.column.cid = some s ∧ cursor.value i s.type = .ok s.value := by
  obtain ⟨hcolumn, hvalue⟩ := hshows
  obtain ⟨s, hs⟩ := Option.isSome_iff_exists.1 hset
  obtain rfl : cell.column = column := hcolumn
  refine ⟨s, hs, ?_⟩
  obtain ⟨t, v⟩ := s
  have htype : ¬ t ≠ cell.column.type := not_not_intro (hsuits _ hs)
  simp only [Settings.cell, hs] at hvalue
  cases v with
  | none =>
    have hnone : cell.value = none := hvalue
    simp only [value, RowCursor.cell, hcells, hnone, htype, ok_bind, if_false, pure_eq_ok]
  | some v =>
    obtain ⟨span, hspan, hstretch⟩ := hvalue
    have hload := ColumnType.load_encode v
    simp only [value, RowCursor.cell, hcells, hspan, hcursor, hstretch, htype, hload, ok_bind,
      if_false, liftM_fault_ok, pure_eq_ok]

/-- Whatever a cursor read before, it reads an encoded row and shows what the draft
reflected. -/
theorem read_of_layout (hs : schema.Numbered) (h : draft.Reflects schema settings)
    (hlayout : draft.Layout row bitset) {cursor : RowCursor} {i : Nat}
    (hschema : cursor.batch.schema = schema) (hrow : cursor.batch.row? i = some row) :
    ∃ after, cursor.read i = (.ok (), after) ∧ after.Shows schema settings := by
  have hroom : ¬ bitset.size * 8 < schema.cidSize := by
    have hbits := Bitset.le_width draft.bitCount
    rw [← hlayout.size_eq, RowDraft.bitCount, h.schema_eq] at hbits
    omega
  have hdelete : Bitset.test bitset Schema.deleteCid = .ok false := by
    have hin : Schema.deleteCid < 8 * bitset.size := by
      simp only [Schema.cidSize, Schema.deleteCid] at *
      omega
    have hnot : Schema.deleteCid ∉ draft.setCids ++ draft.nullBits := by
      intro hmem
      exact absurd (RowDraft.lt_of_mem_bits h.cells_size hmem).1 (Nat.lt_irrefl _)
    rw [Bitset.test_of_lt hin, hlayout.bit_eq, decide_eq_false hnot]
  obtain ⟨walk, found, hrun, hcells, hshows⟩ := RowWalk.run_of_ahead (ahead_of_layout hlayout h)
  have hcolumns : (settings.pairs schema).map (·.1) = schema.columns.toList := by
    rw [Settings.pairs, List.map_map]
    exact List.map_id _
  rw [hcolumns] at hrun
  rw [Array.empty_append] at hcells
  refine ⟨{ new cursor.batch with cells := walk.cells, isDelete := false, row }, ?_, ?_⟩
  · simp only [read, new, hrow, bitset?_of_layout hlayout, hschema, hroom, if_false, hdelete, hrun]
  · have hfound := columns_of_shows hshows
    refine ⟨rfl, ?_, ?_, ?_, ?_⟩
    · rw [List.countP_eq_length_filter, ← hfound, List.length_map, cellCount]
      simp only [hcells, List.size_toArray]
    · have hascending := (hs.ascending.filter fun column => (settings column.cid).isSome)
      rw [← hfound, List.pairwise_map] at hascending
      simpa only [hcells] using hascending
    · intro column
      have hmem : (∃ cell ∈ found, cell.column = column) ↔ column ∈ found.map (·.column) :=
        List.mem_map.symm
      rw [hfound, List.mem_filter, Array.mem_toList_iff] at hmem
      simpa only [hcells, List.mem_toArray] using hmem
    · intro k cell hk
      have hcell : walk.cells[k]? = some cell := hk
      rw [hcells, List.getElem?_toArray] at hcell
      obtain ⟨hin, hget⟩ := List.getElem?_eq_some_iff.1 hcell
      have hlength := hshows.length_eq
      have hshown := hshows.get hin (by omega)
      rw [List.get_eq_getElem, List.get_eq_getElem, hget] at hshown
      have hmem := List.getElem_mem (l := (settings.pairs schema).filter (·.2.isSet)) (n := k)
        (by omega)
      generalize ((settings.pairs schema).filter (·.2.isSet))[k] = p at hshown hmem
      obtain ⟨hpair, hset⟩ := List.mem_filter.1 hmem
      obtain ⟨column, hcolumn, rfl⟩ := List.mem_map.1 hpair
      rw [settings.isSet_cell] at hset
      exact value_of_shows rfl hk hshown hset fun s hsetting =>
        (h.suits column (Array.mem_toList_iff.1 hcolumn) s hsetting).1

end RowCursor

end ColumnStore
