import ColumnStore.Proofs.RowBatch
import ColumnStore.Proofs.RowWriter

/-!
# Rows in their frames

A batch tells its rows apart in two ways: by the positions it keeps, and by the lengths
among its bytes.  Of the rows that are offered to a batch it takes those that fit behind
the rows before (`taken`), and then its bytes are these rows, each behind its length, and
its positions are where the lengths stand (`Framed`).

So both ways give the rows that were taken (`Framed.row?_eq`, `Framed.frames_eq`), and
the room that is left is what they leave (`offerAll_framed`).
-/

namespace ColumnStore

namespace RowBatch

variable {batch batch' : RowBatch} {schema : Schema} {row : Bytes} {rows : List Bytes}
  {maxBytes maxRows : Nat}

/-! ## Rows behind their lengths -/

/-- A row behind its length. -/
def frame (row : Bytes) : Bytes := (LittleEndian.ofNat lengthSize row.size).toArray ++ row

/-- Rows one after another, each behind its length. -/
def framed : List Bytes → Bytes
  | [] => #[]
  | row :: rows => frame row ++ framed rows

/-- Where the lengths of rows stand that follow each other from a position on. -/
def startsFrom (start : Nat) : List Bytes → List Nat
  | [] => []
  | row :: rows => start :: startsFrom (start + lengthSize + row.size) rows

/-- The bytes that rows take up with their lengths. -/
def framedSize (rows : List Bytes) : Nat := (rows.map fun row => lengthSize + row.size).sum

theorem size_frame (row : Bytes) : (frame row).size = lengthSize + row.size := by
  rw [frame, Array.size_append, List.size_toArray, LittleEndian.length_ofNat]

theorem size_framed (rows : List Bytes) : (framed rows).size = framedSize rows := by
  induction rows with
  | nil => rfl
  | cons row rows ih =>
    rw [framed, Array.size_append, size_frame, ih]
    rfl

theorem framed_append (rows more : List Bytes) :
    framed (rows ++ more) = framed rows ++ framed more := by
  induction rows with
  | nil => rw [List.nil_append, framed, Array.empty_append]
  | cons row rows ih => rw [List.cons_append, framed, framed, ih, Array.append_assoc]

theorem length_startsFrom (start : Nat) (rows : List Bytes) :
    (startsFrom start rows).length = rows.length := by
  induction rows generalizing start with
  | nil => rfl
  | cons row rows ih => rw [startsFrom, List.length_cons, List.length_cons, ih]

theorem startsFrom_append (start : Nat) (rows more : List Bytes) :
    startsFrom start (rows ++ more) =
      startsFrom start rows ++ startsFrom (start + framedSize rows) more := by
  induction rows generalizing start with
  | nil => rfl
  | cons row rows ih =>
    have hnext : start + lengthSize + row.size + framedSize rows =
        start + framedSize (row :: rows) := by
      simp only [framedSize, List.map_cons, List.sum_cons]
      omega
    rw [List.cons_append, startsFrom, startsFrom, ih, hnext, List.cons_append]

/-- Rows behind their lengths are cut apart again, whatever stands before them. -/
theorem framesFrom_framed (before : Bytes) (h : ∀ row ∈ rows, row.size < 2 ^ 32) :
    framesFrom (before ++ framed rows) before.size = (startsFrom before.size rows).zip rows := by
  induction rows generalizing before with
  | nil =>
    have hend : Bytes.stretch? before before.size (before.size + lengthSize) = none := by
      apply if_neg
      simp [lengthSize]
    rw [framed, Array.append_empty, framesFrom, hend]
    rfl
  | cons row rows ih =>
    have hcount : (LittleEndian.ofNat lengthSize row.size).toArray.size = lengthSize := by simp
    have hlength : LittleEndian.toNat (LittleEndian.ofNat lengthSize row.size) = row.size :=
      LittleEndian.toNat_ofNat_of_lt (h row List.mem_cons_self)
    have hbytes : before ++ framed (row :: rows) =
        before ++ (LittleEndian.ofNat lengthSize row.size).toArray ++ row ++ framed rows := by
      rw [framed, frame, ← Array.append_assoc, ← Array.append_assoc]
    -- The length stands first and then the row; the other rows are behind both.
    have hfirst := Bytes.stretch?_middle before
      (LittleEndian.ofNat lengthSize row.size).toArray row
    have hsecond := Bytes.stretch?_middle
      (before ++ (LittleEndian.ofNat lengthSize row.size).toArray) row (framed rows)
    have hrest := ih (before ++ (LittleEndian.ofNat lengthSize row.size).toArray ++ row)
      fun r hr => h r (List.mem_cons_of_mem row hr)
    rw [hcount] at hfirst
    rw [Array.size_append, hcount] at hsecond
    rw [Array.size_append, Array.size_append, hcount] at hrest
    obtain ⟨⟨_, hstop⟩, hrow⟩ := Bytes.stretch?_eq_some_iff.1 hsecond
    rw [hbytes, framesFrom, Bytes.stretch?_append hfirst]
    simp only [hlength, hstop, dif_pos, hrow, hrest]
    rfl

/-! ## The rows a batch takes -/

/-- Whether a row fits behind others into so many bytes and rows. -/
def FitsBehind (maxBytes maxRows : Nat) (rows : List Bytes) (row : Bytes) : Prop :=
  rows.length < maxRows ∧ framedSize rows + lengthSize + row.size ≤ maxBytes

instance (maxBytes maxRows : Nat) (rows : List Bytes) (row : Bytes) :
    Decidable (FitsBehind maxBytes maxRows rows row) :=
  inferInstanceAs (Decidable (_ ∧ _))

/-- The rows taken after another was offered. -/
def takeIn (maxBytes maxRows : Nat) (held : List Bytes) (row : Bytes) : List Bytes :=
  if FitsBehind maxBytes maxRows held row then held ++ [row] else held

/-- Of rows that are offered one after another, those that fit behind the ones taken
before. -/
def taken (maxBytes maxRows : Nat) (rows : List Bytes) : List Bytes :=
  rows.foldl (takeIn maxBytes maxRows) []

/-- The batch after a row was offered to it.  A row that is refused leaves it. -/
def offer (batch : RowBatch) (row : Bytes) : RowBatch :=
  match batch.append row with
  | .ok after => after
  | .error _ => batch

def offerAll (batch : RowBatch) (rows : List Bytes) : RowBatch := rows.foldl offer batch

/-- Rows that are offered leave the rows before them. -/
theorem row?_offerAll_of_some (rows : List Bytes) {i : Nat} {held : Bytes}
    (h : batch.row? i = some held) : (batch.offerAll rows).row? i = some held := by
  induction rows generalizing batch with
  | nil => exact h
  | cons row rows ih =>
    have hoffer : (batch.offer row).row? i = some held := by
      unfold offer
      split
      · rename_i after happend
        exact row?_append_of_some happend h
      · exact h
    exact ih hoffer

theorem schema_offerAll (batch : RowBatch) (rows : List Bytes) :
    (batch.offerAll rows).schema = batch.schema := by
  induction rows generalizing batch with
  | nil => rfl
  | cons row rows ih =>
    refine (ih (batch.offer row)).trans ?_
    unfold offer
    split
    · rename_i after happend
      exact schema_append happend
    · rfl

/-- The batch holds the rows in their frames, and they are within its capacities. -/
structure Framed (batch : RowBatch) (rows : List Bytes) : Prop where
  data_eq : batch.data = framed rows
  starts_eq : batch.starts.toList = startsFrom 0 rows
  small : ∀ row ∈ rows, row.size < 2 ^ 32
  row?_eq : ∀ i, batch.row? i = rows[i]?
  bytes_le : framedSize rows ≤ batch.maxBytes
  rows_le : rows.length ≤ batch.maxRows

theorem framed_bounded (h : bounded schema maxBytes maxRows = .ok batch) :
    batch.Framed [] ∧ batch.schema = schema ∧ batch.maxBytes = maxBytes ∧
      batch.maxRows = maxRows := by
  obtain ⟨_, _, h⟩ := bind_eq_ok.1 h
  obtain rfl := Except.ok.inj h
  refine ⟨⟨rfl, rfl, by simp, ?_, Nat.zero_le _, Nat.zero_le _⟩, rfl, rfl, rfl⟩
  intro i
  simp [row?]

theorem Framed.size_eq (h : batch.Framed rows) : batch.size = rows.length := by
  rw [size, ← Array.length_toList, h.starts_eq, length_startsFrom]

theorem Framed.usedBytes_eq (h : batch.Framed rows) : batch.usedBytes = framedSize rows := by
  rw [usedBytes, h.data_eq, size_framed]

/-- The lengths among the bytes give the rows and their positions. -/
theorem Framed.frames_eq (h : batch.Framed rows) :
    batch.frames = batch.starts.toList.zip rows := by
  have hframes := framesFrom_framed #[] h.small
  rw [Array.empty_append, Array.size_empty, ← h.data_eq, ← h.starts_eq] at hframes
  exact hframes

/-- Rows are found by their positions after another was appended. -/
theorem Framed.row?_append (h : batch.Framed rows) (hsmall : row.size < 2 ^ 32)
    (happend : batch.append row = .ok batch') (i : Nat) : batch'.row? i = (rows ++ [row])[i]? := by
  rcases Nat.lt_trichotomy i rows.length with hi | hi | hi
  · have hheld := List.getElem?_eq_getElem hi
    rw [List.getElem?_append_left hi, hheld]
    exact row?_append_of_some happend ((h.row?_eq i).trans hheld)
  · rw [hi, List.getElem?_concat_length, ← h.size_eq]
    exact row?_append_last happend hsmall
  · have hout : batch'.starts.size ≤ i := by
      show batch'.size ≤ i
      rw [size_append happend, h.size_eq]
      exact hi
    have hlong : (rows ++ [row]).length ≤ i := by
      rw [List.length_append]
      exact hi
    rw [List.getElem?_eq_none hlong, row?, Array.getElem?_eq_none hout]
    rfl

theorem Framed.append (h : batch.Framed rows) (hsmall : row.size < 2 ^ 32)
    (happend : batch.append row = .ok batch') : batch'.Framed (rows ++ [row]) := by
  obtain ⟨hroom, hbytes⟩ := (exists_append_iff batch row).1 ⟨batch', happend⟩
  rw [h.usedBytes_eq] at hbytes
  rw [h.size_eq] at hroom
  have hsum : framedSize (rows ++ [row]) = framedSize rows + lengthSize + row.size := by
    simp only [framedSize, List.map_append, List.map_cons, List.map_nil, List.sum_append,
      List.sum_cons, List.sum_nil]
    omega
  refine ⟨?_, ?_, ?_, h.row?_append hsmall happend, ?_, ?_⟩
  · rw [append_eq_ok happend, framed_append, ← h.data_eq, framed, framed, frame,
      Array.append_empty, Array.append_assoc]
  · rw [append_eq_ok happend, startsFrom_append, ← h.starts_eq, Array.toList_push, h.data_eq,
      size_framed, Nat.zero_add]
    rfl
  · intro r hr
    rcases List.mem_append.1 hr with hold | hnew
    · exact h.small r hold
    · rw [List.mem_singleton.1 hnew]
      exact hsmall
  · rw [hsum, append_eq_ok happend]
    exact hbytes
  · rw [List.length_append, append_eq_ok happend]
    exact hroom

/-- A batch that is offered a row takes it exactly if it fits. -/
theorem Framed.offer (h : batch.Framed rows) (hsmall : row.size < 2 ^ 32) :
    (batch.offer row).Framed (takeIn batch.maxBytes batch.maxRows rows row) ∧
      (batch.offer row).maxBytes = batch.maxBytes ∧ (batch.offer row).maxRows = batch.maxRows := by
  have hfits : FitsBehind batch.maxBytes batch.maxRows rows row ↔
      ∃ after, batch.append row = .ok after := by
    rw [exists_append_iff, h.size_eq, h.usedBytes_eq]
    rfl
  unfold RowBatch.offer takeIn
  cases happend : batch.append row with
  | ok after =>
    rw [if_pos (hfits.2 ⟨after, happend⟩)]
    refine ⟨h.append hsmall happend, ?_, ?_⟩
    · rw [append_eq_ok happend]
    · rw [append_eq_ok happend]
  | error e =>
    have hnot : ¬ FitsBehind batch.maxBytes batch.maxRows rows row := by
      rw [hfits, happend]
      simp
    rw [if_neg hnot]
    exact ⟨h, rfl, rfl⟩

theorem Framed.offerAll {held : List Bytes} (h : batch.Framed held)
    (hsmall : ∀ row ∈ rows, row.size < 2 ^ 32) :
    (batch.offerAll rows).Framed (rows.foldl (takeIn batch.maxBytes batch.maxRows) held) ∧
      (batch.offerAll rows).maxBytes = batch.maxBytes ∧
      (batch.offerAll rows).maxRows = batch.maxRows := by
  induction rows generalizing batch held with
  | nil => exact ⟨h, rfl, rfl⟩
  | cons row rows ih =>
    obtain ⟨hoffer, hbytes, hrows⟩ := h.offer (hsmall row List.mem_cons_self)
    have hrest := ih hoffer fun r hr => hsmall r (List.mem_cons_of_mem row hr)
    rw [hbytes, hrows] at hrest
    exact hrest

/-! ## Whole runs -/

/-- After any rows were offered to a new batch, it takes another exactly if both
capacities allow it, and a row it refuses leaves it.  It holds the rows that were taken
and no others, within its capacities, and cutting its bytes by the lengths gives the same
rows and the positions that are kept.  Every row of a writer is short enough for that. -/
theorem offerAll_framed {empty : RowBatch} (hempty : bounded schema maxBytes maxRows = .ok empty)
    (hsmall : ∀ row ∈ rows, row.size < 2 ^ 32) :
    let batch := empty.offerAll rows
    let held := taken maxBytes maxRows rows
    (∀ row, (∃ after, batch.append row = .ok after) ↔
        batch.size < maxRows ∧ batch.usedBytes + 4 + row.size ≤ maxBytes) ∧
      (∀ row e, batch.append row = .error e → empty.offerAll (rows ++ [row]) = batch) ∧
      batch.size = held.length ∧ batch.size ≤ maxRows ∧ (∀ i, batch.row? i = held[i]?) ∧
      batch.usedBytes = (held.map fun row => 4 + row.size).sum ∧ batch.usedBytes ≤ maxBytes ∧
      batch.frames.map (·.1) = batch.starts.toList ∧ batch.frames.map (·.2) = held ∧
      ∀ (w : RowWriter) (row : Bytes), w.draft.encode = .ok row → row.size < 2 ^ 32 := by
  intro batch held
  obtain ⟨hstart, _, hstartBytes, hstartRows⟩ := framed_bounded hempty
  obtain ⟨h, hbytes, hrows⟩ := hstart.offerAll hsmall
  rw [hstartBytes] at hbytes
  rw [hstartRows] at hrows
  have hframed : batch.Framed held := by
    rw [hstartBytes, hstartRows] at h
    exact h
  have hlengths : batch.starts.toList.length = held.length := by
    rw [hframed.starts_eq, length_startsFrom]
  refine ⟨?_, ?_, hframed.size_eq, ?_, hframed.row?_eq, hframed.usedBytes_eq, ?_, ?_, ?_, ?_⟩
  · intro row
    rw [exists_append_iff, hbytes, hrows]
    rfl
  · intro row e hrefused
    show (rows ++ [row]).foldl RowBatch.offer empty = batch
    rw [List.foldl_append]
    show RowBatch.offer batch row = batch
    rw [RowBatch.offer, hrefused]
  · rw [hframed.size_eq, ← hrows]
    exact hframed.rows_le
  · rw [hframed.usedBytes_eq, ← hbytes]
    exact hframed.bytes_le
  · rw [hframed.frames_eq, List.map_fst_zip (Nat.le_of_eq hlengths)]
  · rw [hframed.frames_eq, List.map_snd_zip (Nat.le_of_eq hlengths.symm)]
  · intro w row hrow
    exact w.size_lt_of_encode hrow

/-- The second row does not fit the bytes, the third does, and then the rows are full. -/
def offeredRows : List Bytes := [#[1, 2, 3], Array.replicate 10 0, #[4, 5], #[]]

theorem offerAll_framed_four :
    (∀ row ∈ offeredRows, row.size < 2 ^ 32) ∧
      ∃ empty, bounded Schema.empty 20 2 = .ok empty ∧
        taken 20 2 offeredRows = [#[1, 2, 3], #[4, 5]] ∧
        (empty.offerAll offeredRows).size = 2 ∧
        (empty.offerAll offeredRows).row? 1 = some #[4, 5] ∧
        (empty.offerAll offeredRows).row? 2 = none ∧
        (empty.offerAll offeredRows).usedBytes = 13 ∧
        (empty.offerAll offeredRows).frames.map (·.2) = [#[1, 2, 3], #[4, 5]] := by
  have hsmall : ∀ row ∈ offeredRows, row.size < 2 ^ 32 := by decide
  have htaken : taken 20 2 offeredRows = [#[1, 2, 3], #[4, 5]] := by decide
  have hempty : bounded Schema.empty 20 2 =
      .ok { schema := Schema.empty, data := #[], starts := #[], maxBytes := 20, maxRows := 2 } :=
    rfl
  obtain ⟨_, _, hsize, _, hrow, hused, _, _, hframes, _⟩ := offerAll_framed hempty hsmall
  rw [htaken] at hsize hused hframes
  simp only [htaken] at hrow
  exact ⟨hsmall, _, hempty, htaken, hsize, hrow 1, hrow 2, hused, hframes⟩

end RowBatch

end ColumnStore
