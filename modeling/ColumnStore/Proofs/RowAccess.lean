import ColumnStore.Proofs.RowCursor

/-!
# Access to rows of any bytes

A cursor reads rows of any bytes: rows of its schema, rows of another, and rows
that are corrupted.  Reading never breaks off (`read_cases`).  After a row that
was read, its cells lie in the bytes the cursor holds (`Whole`), and no access
breaks off.

A row that is refused leaves more behind than it should.  If the flaw is found
among its cells, the bytes of the row are gone, but the cells before the flaw
stay (`Torn`), and access to the value of such a cell breaks off.  So a call
breaks off exactly if it asks for such a value (`step_eq_fault_iff`).
-/

namespace ColumnStore

/-- The value of the cell, if it has one, takes its column's width and lies in the
row. -/
def RowCell.Within (cell : RowCell) (row : Bytes) : Prop :=
  ∀ span, cell.value = some span →
    span.stop = span.start + cell.column.width ∧ span.stop ≤ row.size

/-! ## The walk over any row -/

namespace RowWalk

variable {walk : RowWalk} {row bitset : Bytes} {cid : Nat} {columns : List ColumnDef}

/-- The cell of a set column is found within the row, unless the row ends too early. -/
theorem exists_cell?_eq (walk : RowWalk) (row bitset : Bytes) (column : ColumnDef) :
    ∃ found : Option RowCell, walk.cell? row bitset column = .ok found ∧
      ∀ cell, found = some cell → cell.Within row := by
  refine ⟨_, cell?_eq walk row bitset column, ?_⟩
  intro cell hcell span hspan
  split at hcell
  · simp at hcell
  · split at hcell
    · obtain rfl := Option.some.inj hcell
      simp at hspan
    · split at hcell
      · simp at hcell
      · rename_i hstop
        obtain rfl := Option.some.inj hcell
        obtain rfl := Option.some.inj hspan
        exact ⟨rfl, Nat.le_of_not_lt hstop⟩

/-- A walk over as many columns as there are bits comes to an end or to a flaw, and
the cells found lie within the row. -/
theorem run_of_le (walk : RowWalk) (row : Bytes) (hbits : cid + columns.length ≤ 8 * bitset.size)
    (hcells : ∀ cell ∈ walk.cells, cell.Within row) :
    ∃ whole after, run row bitset columns cid walk = (.ok whole, after) ∧
      ∀ cell ∈ after.cells, cell.Within row := by
  induction columns generalizing cid walk with
  | nil => exact ⟨true, walk, rfl, hcells⟩
  | cons column columns ih =>
    rw [List.length_cons] at hbits
    have htest := Bitset.test_of_lt (show cid < 8 * bitset.size by omega)
    rw [run, htest]
    cases Bitset.bit bitset cid with
    | false => exact ih walk (by omega) hcells
    | true =>
      obtain ⟨found, hfound, hwithin⟩ := exists_cell?_eq walk row bitset column
      cases found with
      | none =>
        simp only [hfound]
        exact ⟨false, walk, rfl, hcells⟩
      | some cell =>
        simp only [hfound]
        refine ih (walk.push cell) (by omega) ?_
        intro other hother
        rcases Array.mem_push.1 hother with hold | rfl
        · exact hcells other hold
        · exact hwithin other rfl

end RowWalk

namespace RowCursor

variable {batch : RowBatch} {cursor : RowCursor}

/-! ## After a read -/

/-- The cells lie in the row the cursor holds. -/
def Whole (cursor : RowCursor) : Prop :=
  ∀ cell ∈ cursor.cells, cell.Within cursor.row

/-- The cells lay in a row whose bytes are gone. -/
def Torn (cursor : RowCursor) : Prop :=
  cursor.row = #[] ∧ ∃ row, ∀ cell ∈ cursor.cells, cell.Within row

/-- The row has a bit vector with a bit for each column id. -/
def Headed (batch : RowBatch) (i : Nat) : Prop :=
  ∃ row bitset, batch.row? i = some row ∧ bitset? row = some bitset ∧
    batch.schema.cidSize ≤ bitset.size * 8

theorem whole_new (batch : RowBatch) : (new batch).Whole := by
  intro cell hcell
  simp [new] at hcell

theorem torn_new (batch : RowBatch) : (new batch).Torn :=
  ⟨rfl, #[], whole_new batch⟩

/-- Reading a row starts over, whatever was read before. -/
theorem read_eq (cursor : RowCursor) (i : Nat) : cursor.read i = (new cursor.batch).read i := rfl

/-- Without a bit for each column id a row is refused, and nothing of it is kept. -/
theorem read_of_not_headed {i : Nat} (h : ¬ Headed batch i) :
    ∃ e, (new batch).read i = (.error (.error e), new batch) := by
  unfold read
  cases hrow : batch.row? i with
  | none => exact ⟨.argument (.noRow i (new batch).size), by simp only [batch_new, hrow]⟩
  | some row =>
    cases hbitset : bitset? row with
    | none => exact ⟨.argument (.corruptRow i), by simp only [batch_new, hrow, hbitset]⟩
    | some bitset =>
      have hshort : bitset.size * 8 < batch.schema.cidSize := by
        by_contra hfits
        exact h ⟨row, bitset, hrow, hbitset, Nat.le_of_not_lt hfits⟩
      exact ⟨.argument (.corruptRow i), by simp only [batch_new, hrow, hbitset, hshort, if_true]⟩

/-- Reading a row never breaks off.  It succeeds and the cursor holds the row in
whole, or it is refused and the bytes of the row are gone. -/
theorem read_cases (cursor : RowCursor) (i : Nat) :
    (∃ after, cursor.read i = (.ok (), after) ∧ after.Whole) ∨
      ∃ e after, cursor.read i = (.error (.error e), after) ∧ after.Torn := by
  rw [read_eq]
  by_cases hheaded : Headed cursor.batch i
  · obtain ⟨row, bitset, hrow, hbitset, hfits⟩ := hheaded
    have hdelete : Schema.deleteCid < 8 * bitset.size := by
      simp only [Schema.deleteCid, Schema.cidSize] at *
      omega
    have hbits : 1 + cursor.batch.schema.columns.toList.length ≤ 8 * bitset.size := by
      rw [Array.length_toList]
      simp only [Schema.cidSize, Schema.size] at hfits
      omega
    have hstart : ∀ cell ∈ (#[] : Array RowCell), cell.Within row := by
      intro cell hcell
      simp at hcell
    obtain ⟨whole, walk, hrun, hcells⟩ := RowWalk.run_of_le
      ⟨#[], cursor.batch.schema.cidSize, RowDraft.bitsetLengthSize + bitset.size⟩ row hbits hstart
    have hnotShort : ¬ bitset.size * 8 < cursor.batch.schema.cidSize := Nat.not_lt.2 hfits
    unfold read
    simp only [batch_new, hrow, hbitset, hnotShort, if_false, Bitset.test_of_lt hdelete, hrun]
    cases whole with
    | true => exact .inl ⟨_, rfl, hcells⟩
    | false => exact .inr ⟨_, _, rfl, rfl, row, hcells⟩
  · obtain ⟨e, hrefused⟩ := read_of_not_headed hheaded
    exact .inr ⟨e, _, hrefused, torn_new _⟩

/-! ## Access to cells -/

/-- Access to a cell's value goes through access to the cell. -/
theorem value_eq_error_of_cell {j : Nat} {t : ColumnType} {failure : Failure}
    (h : cursor.cell j = .error failure) : cursor.value j t = .error failure := by
  rw [value, h]
  rfl

theorem cell_of_le {j : Nat} (h : cursor.cellCount ≤ j) :
    cursor.cell j = .error (.error (.argument (.noCell j cursor.cellCount))) := by
  rw [cell, Array.getElem?_eq_none h]

/-- A cell within the row that is held is given with as many bytes as its column's
width. -/
theorem Whole.cell_cases (h : cursor.Whole) (j : Nat) :
    (∃ e, cursor.cell j = .error (.error e)) ∨
      (∃ column, cursor.cell j = .ok (column, none)) ∨
        ∃ column bytes, cursor.cell j = .ok (column, some bytes) ∧ bytes.size = column.width := by
  cases hcell : cursor.cells[j]? with
  | none => exact .inl ⟨.argument (.noCell j cursor.cellCount), by simp only [cell, hcell]⟩
  | some found =>
    have hwithin := h found (Array.mem_of_getElem? hcell)
    cases hvalue : found.value with
    | none => exact .inr (.inl ⟨found.column, by simp only [cell, hcell, hvalue]⟩)
    | some span =>
      obtain ⟨hwidth, hstop⟩ := hwithin span hvalue
      have hstretch : cursor.row.stretch? span.start span.stop =
          some (cursor.row.extract span.start span.stop) := if_pos ⟨by omega, hstop⟩
      refine .inr (.inr ⟨found.column, cursor.row.extract span.start span.stop, ?_, ?_⟩)
      · simp only [cell, hcell, hvalue, hstretch]
      · rw [Array.size_extract]
        omega

theorem Whole.cell_ne_fault (h : cursor.Whole) (j : Nat) (fault : Fault) :
    cursor.cell j ≠ .error (.fault fault) := by
  rcases h.cell_cases j with ⟨e, hcell⟩ | ⟨column, hcell⟩ | ⟨column, bytes, hcell, _⟩
  · simp [hcell]
  · simp [hcell]
  · simp [hcell]

theorem Whole.value_ne_fault (h : cursor.Whole) (j : Nat) (t : ColumnType) (fault : Fault) :
    cursor.value j t ≠ .error (.fault fault) := by
  rcases h.cell_cases j with ⟨e, hcell⟩ | ⟨column, hcell⟩ | ⟨column, bytes, hcell, hsize⟩
  · simp [value_eq_error_of_cell hcell]
  · by_cases ht : t = column.type
    · simp [value, hcell, ht]
    · simp [value, hcell, ht]
  · by_cases ht : t = column.type
    · subst ht
      have hload : ColumnType.load column.type bytes =
          .ok (LittleEndian.decode column.type.width (bytes.slice 0 column.type.width)) :=
        if_pos (Nat.le_of_eq hsize.symm)
      simp [value, hcell, hload]
    · simp [value, hcell, ht]

/-- Access to a cell of a row whose bytes are gone breaks off if the cell has a value.
A null is still given. -/
theorem Torn.cell_eq (h : cursor.Torn) {j : Nat} {found : RowCell}
    (hcell : cursor.cells[j]? = some found) :
    cursor.cell j =
      if found.value.isSome then .error (.fault .outOfBounds) else .ok (found.column, none) := by
  obtain ⟨hrow, row, hwithin⟩ := h
  cases hvalue : found.value with
  | none => simp only [cell, hcell, hvalue, Option.isSome_none, Bool.false_eq_true, if_false]
  | some span =>
    obtain ⟨hwidth, _⟩ := hwithin found (Array.mem_of_getElem? hcell) span hvalue
    have hpos : 0 < found.column.width := found.column.type.width_pos
    have hstretch : cursor.row.stretch? span.start span.stop = none := by
      rw [hrow]
      apply if_neg
      rw [Array.size_empty]
      omega
    simp only [cell, hcell, hvalue, hstretch, Option.isSome_some, if_true]

theorem Torn.cell_eq_fault_iff (h : cursor.Torn) (j : Nat) :
    (∃ fault, cursor.cell j = .error (.fault fault)) ↔
      ∃ found, cursor.cells[j]? = some found ∧ found.value.isSome = true := by
  cases hcell : cursor.cells[j]? with
  | none => simp [cell, hcell]
  | some found =>
    rw [h.cell_eq hcell]
    by_cases hvalue : found.value.isSome = true
    · simp [hvalue]
    · simp [hvalue]

theorem Torn.value_eq_fault_iff (h : cursor.Torn) (j : Nat) (t : ColumnType) :
    (∃ fault, cursor.value j t = .error (.fault fault)) ↔
      ∃ found, cursor.cells[j]? = some found ∧ found.value.isSome = true := by
  constructor
  · intro hfault
    obtain ⟨fault, hfault⟩ := hfault
    cases hcell : cursor.cells[j]? with
    | none =>
      have hnone := cell_of_le (Array.getElem?_eq_none_iff.1 hcell)
      rw [value_eq_error_of_cell hnone] at hfault
      simp at hfault
    | some found =>
      refine ⟨found, rfl, ?_⟩
      by_contra hvalue
      have hnull := h.cell_eq hcell
      rw [if_neg hvalue] at hnull
      by_cases ht : t = found.column.type
      · simp [value, hnull, ht] at hfault
      · simp [value, hnull, ht] at hfault
  · intro hvalue
    obtain ⟨fault, hfault⟩ := (h.cell_eq_fault_iff j).2 hvalue
    exact ⟨fault, value_eq_error_of_cell hfault⟩

end RowCursor

/-! ## Calls on a cursor -/

/-- A call on a cursor. -/
inductive CursorCall where
  | read (i : Nat)
  | cell (j : Nat)
  | value (j : Nat) (t : ColumnType)
  | cellCount
  | isDelete

namespace CursorCall

/-- The cell that a call asks for. -/
def cell? : CursorCall → Option Nat
  | cell j => some j
  | value j _ => some j
  | _ => none

/-- The row that a call reads. -/
def row? : CursorCall → Option Nat
  | read i => some i
  | _ => none

/-- The row that calls read last. -/
def lastRow? (calls : List CursorCall) : Option Nat :=
  calls.reverse.findSome? row?

theorem lastRow?_cons (call : CursorCall) (calls : List CursorCall) :
    lastRow? (call :: calls) = (lastRow? calls).or call.row? := by
  rw [lastRow?, List.reverse_cons, List.findSome?_append, List.findSome?_singleton, ← lastRow?]

end CursorCall

namespace RowCursor

variable {batch : RowBatch} {cursor : RowCursor}

/-- What becomes of a call, and the cursor after it.  Only reading changes the
cursor. -/
def step (cursor : RowCursor) : CursorCall → Outcome Unit × RowCursor
  | .read i => cursor.read i
  | .cell j => ((fun _ => ()) <$> cursor.cell j, cursor)
  | .value j t => ((fun _ => ()) <$> cursor.value j t, cursor)
  | .cellCount => (.ok (), cursor)
  | .isDelete => (.ok (), cursor)

def run (cursor : RowCursor) (calls : List CursorCall) : RowCursor :=
  calls.foldl (fun cursor call => (cursor.step call).2) cursor

theorem batch_read (cursor : RowCursor) (i : Nat) : (cursor.read i).2.batch = cursor.batch := by
  simp only [read]
  split
  · rfl
  · split
    · rfl
    · split
      · rfl
      · split
        · rfl
        · split <;> rfl

theorem batch_step (cursor : RowCursor) (call : CursorCall) :
    (cursor.step call).2.batch = cursor.batch := by
  cases call with
  | read i => exact batch_read cursor i
  | cell j => rfl
  | value j t => rfl
  | cellCount => rfl
  | isDelete => rfl

/-- All that calls leave behind is what the last read left behind. -/
theorem run_eq (cursor : RowCursor) (calls : List CursorCall) :
    cursor.run calls =
      match CursorCall.lastRow? calls with
      | none => cursor
      | some i => ((new cursor.batch).read i).2 := by
  induction calls generalizing cursor with
  | nil => rfl
  | cons call calls ih =>
    have hrun : cursor.run (call :: calls) = (cursor.step call).2.run calls := rfl
    rw [hrun, ih, CursorCall.lastRow?_cons, batch_step]
    cases CursorCall.lastRow? calls with
    | some i => rfl
    | none =>
      -- No read follows, so the cursor stays what this call made of it.
      cases call <;> rfl

/-- After calls the cursor holds its row in whole, or the last read was refused and
the bytes of its row are gone. -/
theorem run_cases (batch : RowBatch) (calls : List CursorCall) :
    (((new batch).run calls).Whole ∧
        ∀ i e, CursorCall.lastRow? calls = some i → ((new batch).read i).1 ≠ .error e) ∨
      ∃ i e, CursorCall.lastRow? calls = some i ∧ ((new batch).read i).1 = .error (.error e) ∧
        ((new batch).run calls).Torn := by
  rw [run_eq, batch_new]
  cases CursorCall.lastRow? calls with
  | none =>
    refine .inl ⟨whole_new batch, ?_⟩
    intro i e hi
    simp at hi
  | some i =>
    rcases read_cases (new batch) i with ⟨after, hread, hwhole⟩ | ⟨e, after, hread, htorn⟩
    · simp only [hread]
      refine .inl ⟨hwhole, ?_⟩
      intro k e hk
      obtain rfl := Option.some.inj hk
      simp [hread]
    · simp only [hread]
      exact .inr ⟨i, e, rfl, by rw [hread], htorn⟩

/-- Dropping what was given keeps whether a call broke off. -/
theorem map_unit_eq_fault_iff {α : Type} (outcome : Outcome α) (fault : Fault) :
    (fun _ => ()) <$> outcome = (.error (.fault fault) : Outcome Unit) ↔
      outcome = .error (.fault fault) := by
  cases outcome <;> simp [Functor.map, Except.map]

theorem step_read_ne_fault (cursor : RowCursor) (i : Nat) (fault : Fault) :
    (cursor.step (.read i)).1 ≠ .error (.fault fault) := by
  show (cursor.read i).1 ≠ _
  rcases read_cases cursor i with ⟨after, hread, _⟩ | ⟨e, after, hread, _⟩
  · simp [hread]
  · simp [hread]

theorem Whole.step_ne_fault (h : cursor.Whole) (call : CursorCall) (fault : Fault) :
    (cursor.step call).1 ≠ .error (.fault fault) := by
  cases call with
  | read i => exact step_read_ne_fault cursor i fault
  | cell j => exact mt (map_unit_eq_fault_iff _ _).1 (h.cell_ne_fault j fault)
  | value j t => exact mt (map_unit_eq_fault_iff _ _).1 (h.value_ne_fault j t fault)
  | cellCount => simp [step]
  | isDelete => simp [step]

theorem Torn.step_fault_iff (h : cursor.Torn) (call : CursorCall) :
    (∃ fault, (cursor.step call).1 = .error (.fault fault)) ↔
      ∃ j found, call.cell? = some j ∧ cursor.cells[j]? = some found ∧
        found.value.isSome = true := by
  cases call with
  | read i => simp [step_read_ne_fault, CursorCall.cell?]
  | cell j => simp [step, map_unit_eq_fault_iff, h.cell_eq_fault_iff, CursorCall.cell?]
  | value j t => simp [step, map_unit_eq_fault_iff, h.value_eq_fault_iff, CursorCall.cell?]
  | cellCount => simp [step, CursorCall.cell?]
  | isDelete => simp [step, CursorCall.cell?]

/-- Whatever the bytes of the batch, a call breaks off exactly if the last read was
refused and the call asks for a cell with a value that was found before the flaw.
After a refused read the bytes of the row are gone, and so are its cells unless the
flaw was found among them.  Of those that stay, nulls are given. -/
theorem step_eq_fault_iff (batch : RowBatch) (calls : List CursorCall) (call : CursorCall) :
    ((∃ fault, (((new batch).run calls).step call).1 = .error (.fault fault)) ↔
      (∃ i e, CursorCall.lastRow? calls = some i ∧
        ((new batch).read i).1 = .error (.error e)) ∧
      ∃ j found, call.cell? = some j ∧ ((new batch).run calls).cells[j]? = some found ∧
        found.value.isSome = true) ∧
    ∀ i e, CursorCall.lastRow? calls = some i → ((new batch).read i).1 = .error e →
      ((new batch).run calls).row = #[] ∧
      (¬ Headed batch i → (new batch).run calls = new batch) ∧
      ∀ j, ((new batch).run calls).cell j =
        match ((new batch).run calls).cells[j]? with
        | none => .error (.error (.argument (.noCell j ((new batch).run calls).cellCount)))
        | some found =>
          if found.value.isSome then .error (.fault .outOfBounds)
          else .ok (found.column, none) := by
  rcases run_cases batch calls with ⟨hwhole, hread⟩ | ⟨i, e, hi, hrefused, htorn⟩
  · refine ⟨⟨?_, ?_⟩, ?_⟩
    · rintro ⟨fault, hfault⟩
      exact absurd hfault (hwhole.step_ne_fault call fault)
    · rintro ⟨⟨i, e, hi, hrefused⟩, _⟩
      exact absurd hrefused (hread i _ hi)
    · intro i e hi hrefused
      exact absurd hrefused (hread i _ hi)
  · refine ⟨?_, ?_⟩
    · rw [htorn.step_fault_iff]
      exact ⟨fun hasks => ⟨⟨i, e, hi, hrefused⟩, hasks⟩, And.right⟩
    · intro k failure hk hfailed
      refine ⟨htorn.1, ?_, ?_⟩
      · intro hheaded
        obtain ⟨e, hread⟩ := read_of_not_headed hheaded
        rw [run_eq, hk]
        exact congrArg Prod.snd hread
      · intro j
        cases hcell : ((new batch).run calls).cells[j]? with
        | none => exact cell_of_le (Array.getElem?_eq_none_iff.1 hcell)
        | some found => exact htorn.cell_eq hcell

/-! ## A row of another schema -/

def wideColumns : List ColumnDef :=
  [{ cid := 1, name := "id", type := .int, isKey := true },
   { cid := 2, name := "v", type := .bigInt }]

/-- A batch of rows with eight bytes for their value, and in it a row with only
four. -/
def shortBatch : RowBatch where
  schema := (Schema.ofColumns wideColumns).toOption.getD Schema.empty
  data := #[11, 0, 0, 0, 1, 0, 6, 7, 0, 0, 0, 8, 0, 0, 0]
  starts := #[0]
  maxBytes := 100
  maxRows := 2

/-- The row is refused, but the cell before its value stays, and access to it breaks
off. -/
theorem refused_row_stays :
    ((new shortBatch).read 0).1 = .error (.error (.argument (.corruptRow 0))) ∧
      ((new shortBatch).read 0).2.cellCount = 1 ∧
      ((new shortBatch).read 0).2.cell 0 = .error (.fault .outOfBounds) ∧
      ((new shortBatch).read 0).2.value 0 .int = .error (.fault .outOfBounds) := by
  refine ⟨?_, ?_, ?_, ?_⟩ <;> decide +kernel

/-- After the refused row the value of its first cell breaks off, and its second cell
is refused. -/
theorem step_eq_fault_iff_short :
    ((new shortBatch).read 0).1 = .error (.error (.argument (.corruptRow 0))) ∧
      (∃ fault, (((new shortBatch).run [.read 0]).step (.value 0 .int)).1 =
        .error (.fault fault)) ∧
      ((new shortBatch).run [.read 0]).row = #[] ∧
      ((new shortBatch).run [.read 0]).cell 1 = .error (.error (.argument (.noCell 1 1))) := by
  have hlast : CursorCall.lastRow? [.read 0] = some 0 := rfl
  have hrefused : ((new shortBatch).read 0).1 = .error (.error (.argument (.corruptRow 0))) := by
    decide +kernel
  have hfound : ((new shortBatch).run [.read 0]).cells =
      #[⟨⟨1, "id", .int, false, true⟩, some ⟨3, 7⟩⟩] := by decide +kernel
  have hfirst : ((new shortBatch).run [.read 0]).cells[0]? =
      some ⟨⟨1, "id", .int, false, true⟩, some ⟨3, 7⟩⟩ := by
    rw [hfound]
    rfl
  obtain ⟨hfault, hafter⟩ := step_eq_fault_iff shortBatch [.read 0] (.value 0 .int)
  obtain ⟨hrow, -, hcell⟩ := hafter 0 _ hlast hrefused
  refine ⟨hrefused, hfault.2 ⟨⟨0, _, hlast, hrefused⟩, 0, _, rfl, hfirst, rfl⟩, hrow, ?_⟩
  rw [hcell, cellCount, hfound]
  rfl

end RowCursor

end ColumnStore
