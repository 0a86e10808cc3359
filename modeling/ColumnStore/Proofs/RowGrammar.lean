import ColumnStore.Proofs.RowAccess
import ColumnStore.Proofs.RowFraming
import ColumnStore.Proofs.RowSession

/-!
# Which bytes are rows

The format of rows can be told without a walk.  The bits of a byte string say which
columns are set, the rank of a set column among those that may be null says where its null
bit is, and the columns that are not null say how many bytes of values there are.
`WellFormed` asks that the byte string has all these bits and bytes.

A walk checks one column at a time.  `Passed` is what it has found of the columns behind
it: as long as there were bits and bytes enough it goes on, and if there were not, there
are not enough for all columns either (`run_of_passed`).  So a row is read exactly if it
is well formed, and then its cells are those the format gives (`read_wellFormed_iff`).
-/

namespace ColumnStore

/-- Spans that follow each other from one position to another. -/
def Consecutive : Nat → List Span → Nat → Prop
  | start, [], stop => start = stop
  | start, span :: spans, stop => span.start = start ∧ Consecutive span.stop spans stop

theorem Consecutive.append_singleton {start : Nat} {spans : List Span} {span : Span}
    (h : Consecutive start spans span.start) :
    Consecutive start (spans ++ [span]) span.stop := by
  induction spans generalizing start with
  | nil =>
    have hstart : start = span.start := h
    exact ⟨hstart.symm, rfl⟩
  | cons first spans ih => exact ⟨h.1, ih h.2⟩

/-- Consecutive spans lie behind each other. -/
theorem Consecutive.disjoint {start stop : Nat} {spans : List Span}
    (h : Consecutive start spans stop) (hspans : ∀ span ∈ spans, span.start ≤ span.stop) :
    spans.Pairwise (fun a b => a.stop ≤ b.start) ∧ ∀ span ∈ spans, start ≤ span.start := by
  induction spans generalizing start with
  | nil => simp
  | cons first spans ih =>
    obtain ⟨hpairwise, hbehind⟩ := ih h.2 fun span hspan =>
      hspans span (List.mem_cons_of_mem first hspan)
    have hfirst := hspans first List.mem_cons_self
    refine ⟨List.pairwise_cons.2 ⟨hbehind, hpairwise⟩, ?_⟩
    intro span hspan
    rw [← h.1]
    rcases List.mem_cons.1 hspan with rfl | hrest
    · exact Nat.le_refl _
    · exact Nat.le_trans hfirst (hbehind span hrest)

namespace RowGrammar

/-! ## The format -/

/-- The size of the bit vector, from the first two bytes. -/
def bitsetSize (row : Bytes) : Nat := LittleEndian.toNat (row.slice 0 2)

/-- The bit vector, as far as the row has it. -/
def bitset (row : Bytes) : Bytes := row.extract 2 (2 + bitsetSize row)

/-- The column's bit is on. -/
def isSet (row : Bytes) (column : ColumnDef) : Bool := Bitset.bit (bitset row) column.cid

def setColumns (schema : Schema) (row : Bytes) : List ColumnDef :=
  schema.columns.toList.filter (isSet row)

/-- The null bit of a column: behind the bits of the ids, as many as there are set columns
before it that may be null. -/
def nullBit (schema : Schema) (row : Bytes) (column : ColumnDef) : Nat :=
  schema.cidSize +
    (setColumns schema row).countP fun other => other.nullable && decide (other.cid < column.cid)

/-- The set column is null. -/
def isNull (schema : Schema) (row : Bytes) (column : ColumnDef) : Bool :=
  column.nullable && Bitset.bit (bitset row) (nullBit schema row column)

/-- The bytes that the value of a set column takes, none for a null. -/
def valueWidth (schema : Schema) (row : Bytes) (column : ColumnDef) : Nat :=
  if isNull schema row column then 0 else column.width

def valueBytes (schema : Schema) (row : Bytes) (columns : List ColumnDef) : Nat :=
  (columns.map (valueWidth schema row)).sum

/-- The byte string is a row of the schema, perhaps with more bytes behind. -/
structure WellFormed (schema : Schema) (row : Bytes) : Prop where
  sized : 2 ≤ row.size
  bitset_le : 2 + bitsetSize row ≤ row.size
  cids_le : schema.cidSize ≤ 8 * bitsetSize row
  nulls_le : schema.cidSize + (setColumns schema row).countP (·.nullable) ≤ 8 * bitsetSize row
  values_le : 2 + bitsetSize row + valueBytes schema row (setColumns schema row) ≤ row.size

/-- The cursor shows the row as the format has it. -/
structure Decoded (schema : Schema) (row : Bytes) (cursor : RowCursor) : Prop where
  row_eq : cursor.row = row
  isDelete_eq : cursor.isDelete = Bitset.bit (bitset row) 0
  columns_eq : cursor.cells.toList.map (·.column) = setColumns schema row
  ascending : cursor.cells.toList.Pairwise (·.column.cid < ·.column.cid)
  null_iff : ∀ cell ∈ cursor.cells, cell.value = none ↔ isNull schema row cell.column = true
  within : ∀ cell ∈ cursor.cells, cell.Within row
  consecutive : Consecutive (2 + bitsetSize row) (cursor.cells.toList.filterMap (·.value))
    (2 + bitsetSize row + valueBytes schema row (setColumns schema row))
  disjoint : (cursor.cells.toList.filterMap (·.value)).Pairwise (fun a b => a.stop ≤ b.start)

variable {schema : Schema} {row : Bytes} {column : ColumnDef} {before rest : List ColumnDef}
  {walk : RowWalk}

theorem size_bitset (h : 2 + bitsetSize row ≤ row.size) : (bitset row).size = bitsetSize row := by
  rw [bitset, Array.size_extract]
  omega

theorem valueBytes_append (schema : Schema) (row : Bytes) (before rest : List ColumnDef) :
    valueBytes schema row (before ++ rest) =
      valueBytes schema row before + valueBytes schema row rest := by
  rw [valueBytes, List.map_append, List.sum_append]
  rfl

theorem valueBytes_cons (schema : Schema) (row : Bytes) (column : ColumnDef)
    (rest : List ColumnDef) :
    valueBytes schema row (column :: rest) =
      valueWidth schema row column + valueBytes schema row rest := by
  rw [valueBytes, List.map_cons, List.sum_cons]
  rfl

/-- The bit vector of a row is read if the row has it. -/
theorem bitset?_eq (row : Bytes) :
    RowCursor.bitset? row =
      if 2 ≤ row.size ∧ 2 + bitsetSize row ≤ row.size then some (bitset row) else none := by
  unfold RowCursor.bitset?
  by_cases hsized : 2 ≤ row.size
  · have hlength : row.stretch? 0 2 = some (row.extract 0 2) := if_pos ⟨Nat.zero_le 2, hsized⟩
    simp only [RowDraft.bitsetLengthSize, Option.bind_eq_bind, hlength, Option.bind_some]
    show row.stretch? 2 (2 + bitsetSize row) = _
    simp only [Bytes.stretch?, hsized, Nat.le_add_right, true_and, bitset]
  · have hlength : row.stretch? 0 2 = none := if_neg fun h => hsized h.2
    simp only [RowDraft.bitsetLengthSize, Option.bind_eq_bind, hlength, Option.bind_none, hsized,
      false_and, if_false]

/-! ## One column of the format -/

section Column

variable (hs : schema.Numbered) (hcolumns : schema.columns.toList = before ++ column :: rest)

include hcolumns

theorem setColumns_eq (hset : isSet row column = true) :
    setColumns schema row =
      before.filter (isSet row) ++ column :: rest.filter (isSet row) := by
  rw [setColumns, hcolumns, List.filter_append, List.filter_cons, if_pos hset]

include hs

/-- Where columns stand in order, the rank of one counts those before it. -/
theorem nullBit_eq (hset : isSet row column = true) :
    nullBit schema row column =
      schema.cidSize + (before.filter (isSet row)).countP (·.nullable) := by
  have hascending := hs.ascending
  rw [hcolumns, List.pairwise_append] at hascending
  obtain ⟨_, htail, hbefore⟩ := hascending
  have hfirst : (before.filter (isSet row)).countP
      (fun other => other.nullable && decide (other.cid < column.cid)) =
        (before.filter (isSet row)).countP (·.nullable) := by
    apply List.countP_congr
    intro other hother
    have hlt := hbefore other (List.mem_of_mem_filter hother) column List.mem_cons_self
    simp [hlt]
  have hrest : (rest.filter (isSet row)).countP
      (fun other => other.nullable && decide (other.cid < column.cid)) = 0 := by
    rw [List.countP_eq_zero]
    intro other hother
    have hlt := (List.pairwise_cons.1 htail).1 other (List.mem_of_mem_filter hother)
    simp [Nat.le_of_lt hlt]
  rw [nullBit, setColumns_eq hcolumns hset, List.countP_append, List.countP_cons, hfirst, hrest]
  simp

end Column

/-! ## The cell of one column -/

/-- The cell of a set column whose value, if it has one, starts at a position. -/
def cellAt (schema : Schema) (row : Bytes) (position : Nat) (column : ColumnDef) : RowCell :=
  ⟨column, if isNull schema row column then none else some ⟨position, position + column.width⟩⟩

theorem value_cellAt_eq_none_iff (position : Nat) :
    (cellAt schema row position column).value = none ↔ isNull schema row column = true := by
  unfold cellAt
  cases isNull schema row column with
  | true => simp
  | false => simp

theorem within_cellAt {position : Nat}
    (hfits : position + valueWidth schema row column ≤ row.size) :
    (cellAt schema row position column).Within row := by
  intro span hspan
  unfold cellAt at hspan
  unfold valueWidth at hfits
  cases hnull : isNull schema row column with
  | true => simp [hnull] at hspan
  | false =>
    simp only [hnull, Bool.false_eq_true, if_false, Option.some.injEq] at hspan hfits
    subst hspan
    exact ⟨rfl, hfits⟩

theorem position_push_cellAt (walk : RowWalk) :
    (walk.push (cellAt schema row walk.position column)).position =
      walk.position + valueWidth schema row column := by
  unfold RowWalk.push cellAt valueWidth
  cases isNull schema row column with
  | true => rfl
  | false => rfl

theorem consecutive_append_cellAt {start : Nat} {spans : List Span}
    (h : Consecutive start spans walk.position) :
    Consecutive start (spans ++ [cellAt schema row walk.position column].filterMap (·.value))
      (walk.push (cellAt schema row walk.position column)).position := by
  rw [position_push_cellAt]
  unfold cellAt valueWidth
  cases isNull schema row column with
  | true =>
    show Consecutive start (spans ++ []) walk.position
    rw [List.append_nil]
    exact h
  | false => exact h.append_singleton

/-! ## The walk -/

/-- What a walk has found of the columns behind it. -/
structure Passed (schema : Schema) (row : Bytes) (before : List ColumnDef) (walk : RowWalk) :
    Prop where
  columns_eq : walk.cells.toList.map (·.column) = before.filter (isSet row)
  null_iff : ∀ cell ∈ walk.cells, cell.value = none ↔ isNull schema row cell.column = true
  within : ∀ cell ∈ walk.cells, cell.Within row
  consecutive : Consecutive (2 + bitsetSize row) (walk.cells.toList.filterMap (·.value))
    walk.position
  nullBit_eq : walk.nullBit = schema.cidSize + (before.filter (isSet row)).countP (·.nullable)
  nullBit_le : walk.nullBit ≤ 8 * bitsetSize row
  position_eq : walk.position =
    2 + bitsetSize row + valueBytes schema row (before.filter (isSet row))
  position_le : walk.position ≤ row.size

/-- At its start a walk has nothing behind it. -/
theorem passed_start (hheld : 2 + bitsetSize row ≤ row.size)
    (hcids : schema.cidSize ≤ 8 * bitsetSize row) :
    Passed schema row [] ⟨#[], schema.cidSize, 2 + bitsetSize row⟩ where
  columns_eq := rfl
  null_iff := by simp
  within := by simp
  consecutive := rfl
  nullBit_eq := rfl
  nullBit_le := hcids
  position_eq := rfl
  position_le := hheld

/-- A column that is not set is passed by. -/
theorem Passed.skip (h : Passed schema row before walk) (hset : isSet row column = false) :
    Passed schema row (before ++ [column]) walk := by
  have hfilter : (before ++ [column]).filter (isSet row) = before.filter (isSet row) := by
    rw [List.filter_append, List.filter_singleton, hset]
    exact List.append_nil _
  exact { h with
    columns_eq := by rw [hfilter]; exact h.columns_eq
    nullBit_eq := by rw [hfilter]; exact h.nullBit_eq
    position_eq := by rw [hfilter]; exact h.position_eq }

/-- The cell of a set column is the next. -/
theorem Passed.push (h : Passed schema row before walk) (hset : isSet row column = true)
    (hroom : column.nullable = true → walk.nullBit < 8 * bitsetSize row)
    (hfits : walk.position + valueWidth schema row column ≤ row.size) :
    Passed schema row (before ++ [column])
      (walk.push (cellAt schema row walk.position column)) := by
  have hfilter : (before ++ [column]).filter (isSet row) =
      before.filter (isSet row) ++ [column] := by
    rw [List.filter_append, List.filter_singleton, hset]
    rfl
  have hcells : (walk.push (cellAt schema row walk.position column)).cells.toList =
      walk.cells.toList ++ [cellAt schema row walk.position column] := Array.toList_push
  refine ⟨?_, ?_, ?_, ?_, ?_, ?_, ?_, ?_⟩
  · rw [hcells, List.map_append, h.columns_eq, hfilter]
    rfl
  · intro cell hcell
    rcases Array.mem_push.1 hcell with hold | rfl
    · exact h.null_iff cell hold
    · exact value_cellAt_eq_none_iff walk.position
  · intro cell hcell
    rcases Array.mem_push.1 hcell with hold | rfl
    · exact h.within cell hold
    · exact within_cellAt hfits
  · rw [hcells, List.filterMap_append]
    exact consecutive_append_cellAt h.consecutive
  · rw [hfilter, List.countP_append, List.countP_singleton, RowWalk.nullBit_push, h.nullBit_eq,
      Nat.add_assoc]
    rfl
  · rw [RowWalk.nullBit_push]
    split
    · rename_i hnullable
      exact hroom hnullable
    · exact h.nullBit_le
  · rw [position_push_cellAt, hfilter, valueBytes_append, valueBytes_cons, h.position_eq,
      Nat.add_assoc]
    rfl
  · rw [position_push_cellAt]
    exact hfits

section Flaw

variable (h : Passed schema row before walk)
  (hcolumns : schema.columns.toList = before ++ column :: rest) (hset : isSet row column = true)

include h hcolumns hset

/-- If the null bit of one column is past the end, there are too few bits for all. -/
theorem Passed.not_wellFormed_of_nullBit (hnullable : column.nullable = true)
    (hout : 8 * bitsetSize row ≤ walk.nullBit) : ¬ WellFormed schema row := by
  intro hwell
  have hall := hwell.nulls_le
  have hnow := h.nullBit_eq
  rw [setColumns_eq hcolumns hset, List.countP_append, List.countP_cons, if_pos hnullable] at hall
  omega

/-- If the value of one column ends past the end, there are too few bytes for all. -/
theorem Passed.not_wellFormed_of_value
    (hout : row.size < walk.position + valueWidth schema row column) :
    ¬ WellFormed schema row := by
  intro hwell
  have hall := hwell.values_le
  have hnow := h.position_eq
  rw [setColumns_eq hcolumns hset, valueBytes_append, valueBytes_cons] at hall
  omega

/-- The cell of a set column is found unless its null bit or its value is past the end. -/
theorem Passed.cell?_eq (hs : schema.Numbered) (hheld : 2 + bitsetSize row ≤ row.size) :
    walk.cell? row (bitset row) column = .ok
      (if column.nullable = true ∧ 8 * bitsetSize row ≤ walk.nullBit then none
        else if row.size < walk.position + valueWidth schema row column then none
        else some (cellAt schema row walk.position column)) := by
  have hbit : nullBit schema row column = walk.nullBit :=
    (RowGrammar.nullBit_eq hs hcolumns hset).trans h.nullBit_eq.symm
  have hnull : (column.nullable = true ∧ Bitset.bit (bitset row) walk.nullBit = true) ↔
      isNull schema row column = true := by
    rw [isNull, hbit, Bool.and_eq_true]
  rw [RowWalk.cell?_eq, size_bitset hheld]
  simp only [hnull, valueWidth, cellAt]
  by_cases hisNull : isNull schema row column = true
  · simp only [hisNull, if_true, Nat.add_zero, Nat.not_lt.2 h.position_le, if_false]
  · simp only [hisNull, Bool.false_eq_true, if_false]

/-- A set column is passed, or the row is not well formed. -/
theorem Passed.cell?_cases (hs : schema.Numbered) (hheld : 2 + bitsetSize row ≤ row.size) :
    (∃ cell, walk.cell? row (bitset row) column = .ok (some cell) ∧
        Passed schema row (before ++ [column]) (walk.push cell)) ∨
      walk.cell? row (bitset row) column = .ok none ∧ ¬ WellFormed schema row := by
  rw [h.cell?_eq hcolumns hset hs hheld]
  by_cases hnull : column.nullable = true ∧ 8 * bitsetSize row ≤ walk.nullBit
  · rw [if_pos hnull]
    exact .inr ⟨rfl, h.not_wellFormed_of_nullBit hcolumns hset hnull.1 hnull.2⟩
  · rw [if_neg hnull]
    by_cases hvalue : row.size < walk.position + valueWidth schema row column
    · rw [if_pos hvalue]
      exact .inr ⟨rfl, h.not_wellFormed_of_value hcolumns hset hvalue⟩
    · rw [if_neg hvalue]
      have hroom : column.nullable = true → walk.nullBit < 8 * bitsetSize row :=
        fun hnullable => Nat.lt_of_not_le fun hle => hnull ⟨hnullable, hle⟩
      exact .inl ⟨_, rfl, h.push hset hroom (Nat.le_of_not_lt hvalue)⟩

end Flaw

/-- A walk comes to the end with all columns behind it, or the row is not well formed.  The
ids ahead count from the number of columns behind. -/
theorem run_of_passed (hs : schema.Numbered) (hheld : 2 + bitsetSize row ≤ row.size)
    (hcids : schema.cidSize ≤ 8 * bitsetSize row)
    (hcolumns : schema.columns.toList = before ++ rest) (h : Passed schema row before walk) :
    (∃ after, RowWalk.run row (bitset row) rest (before.length + 1) walk = (.ok true, after) ∧
        Passed schema row schema.columns.toList after) ∨
      ∃ after, RowWalk.run row (bitset row) rest (before.length + 1) walk = (.ok false, after) ∧
        ¬ WellFormed schema row := by
  induction rest generalizing before walk with
  | nil =>
    rw [List.append_nil] at hcolumns
    rw [hcolumns]
    exact .inl ⟨walk, rfl, h⟩
  | cons column rest ih =>
    have hplace : schema.columns[before.length]? = some column := by
      rw [← Array.getElem?_toList, hcolumns]
      simp
    have hcid : column.cid = before.length + 1 := hs.cid_eq hplace
    have hin : before.length + 1 < 8 * (bitset row).size := by
      have hlt := (Array.getElem?_eq_some_iff.1 hplace).1
      rw [size_bitset hheld]
      simp only [Schema.cidSize, Schema.size] at hcids
      omega
    have htest : Bitset.test (bitset row) (before.length + 1) = .ok (isSet row column) := by
      rw [Bitset.test_of_lt hin, isSet, hcid]
    have hnext : schema.columns.toList = before ++ [column] ++ rest := by
      rw [hcolumns, List.append_assoc]
      rfl
    rw [RowWalk.run, htest]
    cases hset : isSet row column with
    | false =>
      have hrest := ih hnext (h.skip hset)
      rw [List.length_append] at hrest
      exact hrest
    | true =>
      rcases h.cell?_cases hcolumns hset hs hheld with ⟨cell, hcell, hpassed⟩ | ⟨hcell, hnot⟩
      · have hrest := ih hnext hpassed
        rw [List.length_append] at hrest
        simp only [hcell]
        exact hrest
      · simp only [hcell]
        exact .inr ⟨walk, rfl, hnot⟩

/-- The walk over a whole row. -/
theorem run_cases (hs : schema.Numbered) (hheld : 2 + bitsetSize row ≤ row.size)
    (hcids : schema.cidSize ≤ 8 * bitsetSize row) :
    (∃ after, RowWalk.run row (bitset row) schema.columns.toList 1
          ⟨#[], schema.cidSize, RowDraft.bitsetLengthSize + bitsetSize row⟩ = (.ok true, after) ∧
        Passed schema row schema.columns.toList after) ∨
      ∃ after, RowWalk.run row (bitset row) schema.columns.toList 1
          ⟨#[], schema.cidSize, RowDraft.bitsetLengthSize + bitsetSize row⟩ = (.ok false, after) ∧
        ¬ WellFormed schema row :=
  run_of_passed hs hheld hcids (List.nil_append _).symm (passed_start hheld hcids)

/-- There were bits and bytes enough for all columns that are passed. -/
theorem Passed.wellFormed (h : Passed schema row schema.columns.toList walk)
    (hsized : 2 ≤ row.size) (hheld : 2 + bitsetSize row ≤ row.size)
    (hcids : schema.cidSize ≤ 8 * bitsetSize row) : WellFormed schema row where
  sized := hsized
  bitset_le := hheld
  cids_le := hcids
  nulls_le := by
    rw [setColumns, ← h.nullBit_eq]
    exact h.nullBit_le
  values_le := by
    rw [setColumns, ← h.position_eq]
    exact h.position_le

/-- A cursor that has passed all columns shows the row. -/
theorem Passed.decoded (hs : schema.Numbered) (h : Passed schema row schema.columns.toList walk)
    (batch : RowBatch) :
    Decoded schema row
      { batch, row, cells := walk.cells, isDelete := Bitset.bit (bitset row) 0 } where
  row_eq := rfl
  isDelete_eq := rfl
  columns_eq := h.columns_eq
  ascending := by
    have hascending := hs.ascending.filter (isSet row)
    rw [← h.columns_eq, List.pairwise_map] at hascending
    exact hascending
  null_iff := h.null_iff
  within := h.within
  consecutive := by
    rw [setColumns, ← h.position_eq]
    exact h.consecutive
  disjoint := by
    refine (h.consecutive.disjoint ?_).1
    intro span hspan
    obtain ⟨cell, hcell, hvalue⟩ := List.mem_filterMap.1 hspan
    rw [((h.within cell (Array.mem_toList_iff.1 hcell)) span hvalue).1]
    exact Nat.le_add_right _ _

/-! ## Reading a row -/

/-- A row that is there is read if it is well formed, and else refused as corrupted. -/
theorem read_cases (hs : schema.Numbered) {cursor : RowCursor} {i : Nat}
    (hschema : cursor.batch.schema = schema) (hrow : cursor.batch.row? i = some row) :
    (∃ after, cursor.read i = (.ok (), after) ∧ WellFormed schema row ∧
        Decoded schema row after) ∨
      ∃ after, cursor.read i = (.error (.error (.argument (.corruptRow i))), after) ∧
        ¬ WellFormed schema row := by
  have hbatch : (RowCursor.new cursor.batch).batch = cursor.batch := rfl
  unfold RowCursor.read
  simp only [hbatch, hrow, hschema, bitset?_eq]
  by_cases hsized : 2 ≤ row.size ∧ 2 + bitsetSize row ≤ row.size
  · simp only [hsized, and_self, if_true, size_bitset hsized.2, Nat.mul_comm _ 8]
    by_cases hcids : 8 * bitsetSize row < schema.cidSize
    · simp only [hcids, if_true]
      exact .inr ⟨_, rfl, fun hwell => absurd hwell.cids_le (Nat.not_le.2 hcids)⟩
    · rw [Nat.not_lt] at hcids
      have hdelete : Schema.deleteCid < 8 * (bitset row).size := by
        rw [size_bitset hsized.2]
        exact Nat.lt_of_lt_of_le (Nat.succ_pos _) hcids
      simp only [Nat.not_lt.2 hcids, if_false, Bitset.test_of_lt hdelete]
      rcases run_cases hs hsized.2 hcids with ⟨walk, hrun, hpassed⟩ | ⟨walk, hrun, hnot⟩
      · simp only [hrun]
        exact .inl ⟨_, rfl, hpassed.wellFormed hsized.1 hsized.2 hcids,
          hpassed.decoded hs cursor.batch⟩
      · simp only [hrun]
        exact .inr ⟨_, rfl, hnot⟩
  · simp only [hsized, if_false]
    exact .inr ⟨_, rfl, fun hwell => hsized ⟨hwell.sized, hwell.bitset_le⟩⟩

/-- Whatever bytes are stored as a row, and whatever rows are stored before and after it,
reading it never breaks off.  The row is read exactly if it is well formed under the schema
of the batch, and then the cursor shows it as the format has it.  Else it is refused as
corrupted. -/
theorem read_wellFormed_iff {columns : List ColumnDef}
    (hschema : Schema.ofColumns columns = .ok schema) {batch stored : RowBatch}
    (hbatch : batch.schema = schema) (hsmall : row.size < 2 ^ 32)
    (happend : batch.append row = .ok stored) (more : List Bytes) {cursor : RowCursor}
    (hcursor : cursor.batch = stored.offerAll more) :
    (∀ fault, (cursor.read batch.size).1 ≠ .error (.fault fault)) ∧
      ((cursor.read batch.size).1 = .ok () ↔ WellFormed schema row) ∧
      ((cursor.read batch.size).1 = .ok () → Decoded schema row (cursor.read batch.size).2) ∧
      (¬ WellFormed schema row →
        (cursor.read batch.size).1 = .error (.error (.argument (.corruptRow batch.size)))) := by
  have hs := (Schema.ofColumns_eq_ok hschema).1
  have hheld : cursor.batch.row? batch.size = some row := by
    rw [hcursor]
    exact RowBatch.row?_offerAll_of_some more (RowBatch.row?_append_last happend hsmall)
  have hunder : cursor.batch.schema = schema := by
    rw [hcursor, RowBatch.schema_offerAll, RowBatch.schema_append happend, hbatch]
  rcases read_cases hs hunder hheld with
    ⟨after, hread, hwell, hdecoded⟩ | ⟨after, hread, hnot⟩
  · rw [hread]
    exact ⟨fun fault => nofun, iff_of_true rfl hwell, fun _ => hdecoded,
      fun hnot => absurd hwell hnot⟩
  · rw [hread]
    exact ⟨fun fault => by simp, iff_of_false nofun hnot, nofun, fun _ => rfl⟩

/-! ## A strange row of trades -/

/-- A row no draft makes: the delete marker's bit and bits past the last are on, and there is
a byte behind the values.  The venue is null. -/
def strangeRow : Bytes := #[1, 0, 0xDF, 7, 0, 0, 0, 1, 2, 3, 4, 5, 6, 7, 8, 99]

/-- The same without the last byte of the price. -/
def cutRow : Bytes := strangeRow.extract 0 14

theorem read_wellFormed_iff_trades :
    Schema.ofColumns RowSession.tradeColumns = .ok RowSession.tradeSchema ∧
      RowSession.tradeBatch.schema = RowSession.tradeSchema ∧ strangeRow.size < 2 ^ 32 ∧
      cutRow.size < 2 ^ 32 ∧
      ∃ stored again : RowBatch, RowSession.tradeBatch.append strangeRow = .ok stored ∧
        stored.append cutRow = .ok again ∧
        ((RowCursor.new again).read 0).1 = .ok () ∧
        ((RowCursor.new again).read 0).2.isDelete = true ∧
        ((RowCursor.new again).read 0).2.cells.toList.map (·.column) =
          RowSession.tradeColumns ∧
        Consecutive 3 (((RowCursor.new again).read 0).2.cells.toList.filterMap (·.value)) 15 ∧
        ((RowCursor.new again).read 1).1 = .error (.error (.argument (.corruptRow 1))) := by
  have hschema := RowSession.ofColumns_tradeColumns
  have hstrange : strangeRow.size < 2 ^ 32 := by decide
  have hcut : cutRow.size < 2 ^ 32 := by decide
  have hwell : WellFormed RowSession.tradeSchema strangeRow := by
    refine ⟨?_, ?_, ?_, ?_, ?_⟩ <;> decide +kernel
  have hnot : ¬ WellFormed RowSession.tradeSchema cutRow := by
    intro hcutWell
    exact absurd hcutWell.values_le (by decide +kernel)
  have hcolumns : setColumns RowSession.tradeSchema strangeRow = RowSession.tradeColumns := by
    decide +kernel
  obtain ⟨stored, hstored⟩ : ∃ stored, RowSession.tradeBatch.append strangeRow = .ok stored :=
    (RowBatch.exists_append_iff _ _).2 (by decide)
  have hschemaStored := (RowBatch.schema_append hstored).trans rfl
  have hroom : stored.size < stored.maxRows ∧
      stored.usedBytes + RowBatch.lengthSize + cutRow.size ≤ stored.maxBytes := by
    rw [RowBatch.append_eq_ok hstored]
    decide +kernel
  obtain ⟨again, hagain⟩ := (RowBatch.exists_append_iff stored cutRow).2 hroom
  have hoffered : (RowCursor.new again).batch = stored.offerAll [cutRow] := by
    show again = RowBatch.offer stored cutRow
    rw [RowBatch.offer, hagain]
  have hlast : (RowCursor.new again).batch = again.offerAll [] := rfl
  obtain ⟨_, hread, hdecoded, _⟩ :=
    read_wellFormed_iff hschema rfl hstrange hstored [cutRow] hoffered
  obtain ⟨_, _, _, hrefused⟩ :=
    read_wellFormed_iff hschema hschemaStored hcut hagain [] hlast
  have hshown := hdecoded (hread.2 hwell)
  have hsecond : stored.size = 1 := RowBatch.size_append hstored
  rw [hsecond] at hrefused
  refine ⟨hschema, rfl, hstrange, hcut, stored, again, hstored, hagain, hread.2 hwell, ?_, ?_, ?_,
    hrefused hnot⟩
  · exact hshown.isDelete_eq.trans (by decide +kernel)
  · exact hshown.columns_eq.trans hcolumns
  · have hspans : 2 + bitsetSize strangeRow = 3 ∧
        valueBytes RowSession.tradeSchema strangeRow
          (setColumns RowSession.tradeSchema strangeRow) = 12 := by decide +kernel
    have hconsecutive := hshown.consecutive
    rw [hspans.1, hspans.2] at hconsecutive
    exact hconsecutive

end RowGrammar

end ColumnStore
