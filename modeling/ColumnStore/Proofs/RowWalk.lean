import ColumnStore.Row.Cursor
import ColumnStore.Proofs.RowEncoding

/-!
# The walk over an encoded row

A walk has columns ahead of it if their bits, the null bits from its own null bit
on, and the bytes from its own position on are those of their cells (`Ahead`).
Each step of the walk keeps this for the columns that remain, so the walk comes
to the end and finds the set cells, in order (`run_of_ahead`).
-/

namespace ColumnStore

/-- What is found of a set cell: its column, and where in the row its value
stands. -/
def RowCell.Shows (row : Bytes) (found : RowCell) (p : ColumnDef × DraftCell) : Prop :=
  found.column = p.1 ∧
    match p.2 with
    | .value bytes => ∃ span, found.value = some span ∧
        row.stretch? span.start span.stop = some bytes.toArray
    | _ => found.value = none

namespace RowWalk

variable {walk : RowWalk} {row bitset : Bytes} {cid : Nat} {column : ColumnDef}
  {cell : DraftCell} {pairs : List (ColumnDef × DraftCell)}

theorem nullBit_push (walk : RowWalk) (cell : RowCell) :
    (walk.push cell).nullBit = walk.nullBit + if cell.column.nullable then 1 else 0 := by
  unfold push
  cases cell.column.nullable with
  | true => rfl
  | false => rfl

/-- What is found of a set column: a null if its null bit is set, else the next bytes.  A
null bit or bytes past the end are a row that ends too early. -/
theorem cell?_eq (walk : RowWalk) (row bitset : Bytes) (column : ColumnDef) :
    walk.cell? row bitset column = .ok
      (if column.nullable = true ∧ 8 * bitset.size ≤ walk.nullBit then none
        else if column.nullable = true ∧ Bitset.bit bitset walk.nullBit = true then
          some ⟨column, none⟩
        else if row.size < walk.position + column.width then none
        else some ⟨column, some ⟨walk.position, walk.position + column.width⟩⟩) := by
  unfold cell?
  by_cases hnullable : column.nullable = true
  · simp only [hnullable, if_true, true_and, Nat.mul_comm bitset.size 8]
    by_cases hout : 8 * bitset.size ≤ walk.nullBit
    · simp only [hout, if_true, pure_eq_ok]
    · have htest := Bitset.test_of_lt (Nat.lt_of_not_le hout)
      simp only [hout, if_false, htest, ok_bind, pure_eq_ok]
      cases Bitset.bit bitset walk.nullBit with
      | true => rfl
      | false => rfl
  · simp only [hnullable, pure_eq_ok]
    rfl

/-- What lies ahead of a walk are the given columns with their cells. -/
structure Ahead (walk : RowWalk) (row bitset : Bytes) (cid : Nat)
    (pairs : List (ColumnDef × DraftCell)) : Prop where
  fits : ∀ p ∈ pairs, p.2.Fits p.1
  set_eq : ∀ {k : Nat} {p : ColumnDef × DraftCell}, pairs[k]? = some p →
    cid + k < 8 * bitset.size ∧ Bitset.bit bitset (cid + k) = p.2.isSet
  null_eq : ∀ {k : Nat} {cell : DraftCell}, (nullableCells pairs)[k]? = some cell →
    walk.nullBit + k < 8 * bitset.size ∧
      Bitset.bit bitset (walk.nullBit + k) = decide (cell = .null)
  values : ∃ before : Bytes, before.size = walk.position ∧
    row = before ++ (pairs.flatMap fun p => p.2.bytes).toArray

theorem Ahead.set_eq_tail {p : ColumnDef × DraftCell} (h : walk.Ahead row bitset cid (p :: pairs))
    {k : Nat} {q : ColumnDef × DraftCell} (hk : pairs[k]? = some q) :
    cid + 1 + k < 8 * bitset.size ∧ Bitset.bit bitset (cid + 1 + k) = q.2.isSet := by
  rw [show cid + 1 + k = cid + (k + 1) by omega]
  exact h.set_eq hk

theorem nullableCells_cons (column : ColumnDef) (cell : DraftCell)
    (pairs : List (ColumnDef × DraftCell)) :
    nullableCells ((column, cell) :: pairs) =
      if column.nullable && cell.isSet then cell :: nullableCells pairs
      else nullableCells pairs := by
  by_cases hcounts : (column.nullable && cell.isSet) = true
  · simp only [nullableCells, List.filter_cons, hcounts, if_true, List.map_cons]
  · simp only [nullableCells, List.filter_cons, hcounts, Bool.false_eq_true, if_false]

/-- The bit of the column that comes next is read. -/
theorem Ahead.test_eq (h : walk.Ahead row bitset cid ((column, cell) :: pairs)) :
    Bitset.test bitset cid = .ok cell.isSet := by
  obtain ⟨hin, hbit⟩ := h.set_eq (show ((column, cell) :: pairs)[0]? = some (column, cell) from rfl)
  exact (Bitset.test_of_lt hin).trans (congrArg _ hbit)

/-- A column that is not set is passed by. -/
theorem Ahead.skip (h : walk.Ahead row bitset cid ((column, .unset) :: pairs)) :
    walk.Ahead row bitset (cid + 1) pairs := by
  have hnulls : nullableCells ((column, .unset) :: pairs) = nullableCells pairs := by
    rw [nullableCells_cons]
    simp [DraftCell.isSet]
  refine ⟨fun p hp => h.fits p (List.mem_cons_of_mem _ hp), h.set_eq_tail, ?_, ?_⟩
  · intro k cell hk
    rw [← hnulls] at hk
    exact h.null_eq hk
  · obtain ⟨before, hposition, hrow⟩ := h.values
    exact ⟨before, hposition, hrow⟩

/-- The null bit of a set cell that may be null is read, and the walk goes on behind
it. -/
theorem Ahead.null_bit (h : walk.Ahead row bitset cid ((column, cell) :: pairs))
    (hset : cell.isSet = true) (hnullable : column.nullable = true) :
    walk.nullBit < 8 * bitset.size ∧
      Bitset.test bitset walk.nullBit = .ok (decide (cell = .null)) ∧
      ∀ {k : Nat} {cell : DraftCell}, (nullableCells pairs)[k]? = some cell →
        walk.nullBit + 1 + k < 8 * bitset.size ∧
          Bitset.bit bitset (walk.nullBit + 1 + k) = decide (cell = .null) := by
  have hcells : nullableCells ((column, cell) :: pairs) = cell :: nullableCells pairs := by
    rw [nullableCells_cons, hnullable, hset]
    rfl
  have hall : ∀ {k : Nat} {next : DraftCell}, (cell :: nullableCells pairs)[k]? = some next →
      walk.nullBit + k < 8 * bitset.size ∧
        Bitset.bit bitset (walk.nullBit + k) = decide (next = .null) := by
    intro k next hk
    rw [← hcells] at hk
    exact h.null_eq hk
  obtain ⟨hin, hbit⟩ := hall (show (cell :: nullableCells pairs)[0]? = some cell from rfl)
  refine ⟨hin, ?_, ?_⟩
  · exact (Bitset.test_of_lt hin).trans (congrArg _ hbit)
  · intro k next hk
    rw [show walk.nullBit + 1 + k = walk.nullBit + (k + 1) by omega]
    exact hall hk

/-- Where the column allows no nulls, no null bit is taken up. -/
theorem Ahead.null_eq_tail (h : walk.Ahead row bitset cid ((column, cell) :: pairs))
    (hnullable : ¬ column.nullable = true) {k : Nat} {next : DraftCell}
    (hk : (nullableCells pairs)[k]? = some next) :
    walk.nullBit + k < 8 * bitset.size ∧
      Bitset.bit bitset (walk.nullBit + k) = decide (next = .null) := by
  have hcells : nullableCells ((column, cell) :: pairs) = nullableCells pairs := by
    rw [nullableCells_cons]
    simp [hnullable]
  rw [← hcells] at hk
  exact h.null_eq hk

/-- A null is found, and its null bit is passed. -/
theorem Ahead.null (h : walk.Ahead row bitset cid ((column, .null) :: pairs)) :
    walk.cell? row bitset column = .ok (some ⟨column, none⟩) ∧
      (walk.push ⟨column, none⟩).Ahead row bitset (cid + 1) pairs := by
  have hnullable : column.nullable = true := h.fits _ List.mem_cons_self
  obtain ⟨hin, htest, hrest⟩ := h.null_bit rfl hnullable
  refine ⟨?_, fun p hp => h.fits p (List.mem_cons_of_mem _ hp), h.set_eq_tail, ?_, ?_⟩
  · have hroom : ¬ bitset.size * 8 ≤ walk.nullBit := by omega
    simp only [cell?, hnullable, if_true, hroom, if_false, htest, ok_bind, decide_true, pure_eq_ok]
  · intro k next hk
    simp only [push, hnullable, if_true]
    exact hrest hk
  · obtain ⟨before, hposition, hrow⟩ := h.values
    exact ⟨before, hposition, hrow⟩

/-- A value is found where it stands, and its bytes are passed. -/
theorem Ahead.value {bytes : List UInt8}
    (h : walk.Ahead row bitset cid ((column, .value bytes) :: pairs)) :
    ∃ found, walk.cell? row bitset column = .ok (some found) ∧
      found.Shows row (column, .value bytes) ∧
      (walk.push found).Ahead row bitset (cid + 1) pairs := by
  have hwidth : bytes.length = column.width := h.fits _ List.mem_cons_self
  obtain ⟨before, hposition, hvalues⟩ := h.values
  have hrow : row = before ++ bytes.toArray ++ (pairs.flatMap fun p => p.2.bytes).toArray := by
    rw [hvalues, List.flatMap_cons, ← List.append_toArray, ← Array.append_assoc]
    rfl
  have hbefore : (before ++ bytes.toArray).size = walk.position + column.width := by
    rw [Array.size_append, hposition, List.size_toArray, hwidth]
  have hstop : ¬ row.size < walk.position + column.width := by
    rw [hrow, Array.size_append, hbefore]
    omega
  refine ⟨⟨column, some ⟨walk.position, walk.position + column.width⟩⟩, ?_, ⟨rfl, _, rfl, ?_⟩, ?_⟩
  · by_cases hnullable : column.nullable = true
    · obtain ⟨hin, htest, _⟩ := h.null_bit rfl hnullable
      have hroom : ¬ bitset.size * 8 ≤ walk.nullBit := by omega
      simp only [cell?, hnullable, if_true, hroom, if_false, htest, ok_bind, hstop, pure_eq_ok]
      rfl
    · simp only [cell?, hnullable, if_false, hstop, pure_eq_ok]
      rfl
  · have hmiddle := Bytes.stretch?_middle before bytes.toArray
      (pairs.flatMap fun p => p.2.bytes).toArray
    rw [← hrow, hposition, List.size_toArray, hwidth] at hmiddle
    exact hmiddle
  · refine ⟨fun p hp => h.fits p (List.mem_cons_of_mem _ hp), h.set_eq_tail, ?_, ?_⟩
    · intro k next hk
      by_cases hnullable : column.nullable = true
      · simp only [push, hnullable, if_true]
        exact (h.null_bit rfl hnullable).2.2 hk
      · simp only [push, hnullable]
        exact h.null_eq_tail hnullable hk
    · exact ⟨before ++ bytes.toArray, hbefore, hrow⟩

/-- A walk comes to the end of the columns ahead of it and finds the cells that are
set, in order. -/
theorem run_of_ahead (h : walk.Ahead row bitset cid pairs) :
    ∃ after found, run row bitset (pairs.map (·.1)) cid walk = (.ok true, after) ∧
      after.cells = walk.cells ++ found.toArray ∧
      List.Forall₂ (RowCell.Shows row) found (pairs.filter (·.2.isSet)) := by
  induction pairs generalizing cid walk with
  | nil =>
    refine ⟨walk, [], rfl, ?_, .nil⟩
    simp
  | cons p pairs ih =>
    obtain ⟨column, cell⟩ := p
    have htest := h.test_eq
    rw [List.map_cons, run, htest, List.filter_cons]
    cases cell with
    | unset => exact ih h.skip
    | null =>
      obtain ⟨hcell, hnext⟩ := h.null
      obtain ⟨after, found, hrun, hcells, hshows⟩ := ih hnext
      refine ⟨after, ⟨column, none⟩ :: found, ?_, ?_, .cons ⟨rfl, rfl⟩ hshows⟩
      · simp only [DraftCell.isSet, hcell, hrun]
      · rw [hcells]
        simp [push]
    | value bytes =>
      obtain ⟨first, hcell, hfirst, hnext⟩ := h.value
      obtain ⟨after, found, hrun, hcells, hshows⟩ := ih hnext
      refine ⟨after, first :: found, ?_, ?_, .cons hfirst hshows⟩
      · simp only [DraftCell.isSet, hcell, hrun]
      · rw [hcells]
        simp [push]

end RowWalk

end ColumnStore
