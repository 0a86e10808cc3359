import ColumnStore.Proofs.RowAccess
import ColumnStore.Proofs.RowFraming

/-!
# Rows of other schemas

A writer appends its rows to any batch, and no one compares its schema with the
batch's.  Schemas that give their columns the same types and nulls in the same order lay
rows out alike (`Schema.SameLayout`), so a row of the one is a row of the other, whatever
the columns are called (`RowDraft.Layout.under`).  The rows of such writers are read back
under the batch's schema, whoever else wrote to the batch (`SharedBatch.read_of_sameLayout`).

The row of another writer is taken in as well.  Reading it may be refused, or give cells
that were never set (`SharedBatch.foreign_row_taken`).
-/

namespace ColumnStore

variable {a b schema : Schema} {draft : RowDraft} {settings : Settings} {row bitset : Bytes}

/-! ## Schemas that lay rows out alike -/

/-- The columns of both schemas have, in order, the same types, and the same of them
allow nulls. -/
def Schema.SameLayout (a b : Schema) : Prop :=
  a.columns.toList.map (fun column => (column.type, column.nullable)) =
    b.columns.toList.map fun column => (column.type, column.nullable)

namespace Schema.SameLayout

theorem size_eq (h : a.SameLayout b) : a.size = b.size := by
  have hlength := congrArg List.length h
  rw [List.length_map, List.length_map, Array.length_toList, Array.length_toList] at hlength
  exact hlength

theorem nullable_eq (h : a.SameLayout b) :
    a.columns.toList.map (·.nullable) = b.columns.toList.map (·.nullable) := by
  have hnullable := congrArg (List.map Prod.snd) h
  rw [List.map_map, List.map_map] at hnullable
  exact hnullable

/-- A column of one schema has its like in the same place of the other. -/
theorem exists_column (h : a.SameLayout b) (ha : a.Numbered) (hb : b.Numbered) {i : Nat}
    {column : ColumnDef} (hi : b.columns[i]? = some column) :
    ∃ other, a.columns[i]? = some other ∧ other.cid = column.cid ∧ other.type = column.type ∧
      other.nullable = column.nullable := by
  have hpair := congrArg (fun l => l[i]?) h
  simp only [List.getElem?_map, Array.getElem?_toList, hi, Option.map_some] at hpair
  obtain ⟨other, hother, hsame⟩ := Option.map_eq_some_iff.1 hpair
  obtain ⟨htype, hnullable⟩ := Prod.mk.inj hsame
  exact ⟨other, hother, (ha.cid_eq hother).trans (hb.cid_eq hi).symm, htype, hnullable⟩

/-- Settings make the same cells of the columns of both. -/
theorem map_cell_eq (h : a.SameLayout b) (ha : a.Numbered) (hb : b.Numbered)
    (settings : Settings) : a.columns.map settings.cell = b.columns.map settings.cell := by
  apply Array.ext_getElem?
  intro i
  rw [Array.getElem?_map, Array.getElem?_map]
  cases hi : b.columns[i]? with
  | none =>
    have hout : a.size ≤ i := by
      rw [h.size_eq]
      exact Array.getElem?_eq_none_iff.1 hi
    rw [Array.getElem?_eq_none hout]
  | some column =>
    obtain ⟨other, hother, hcid, _⟩ := h.exists_column ha hb hi
    rw [hother, Option.map_some, Option.map_some, Settings.cell, Settings.cell, hcid]

end Schema.SameLayout

/-- Which set cells have a null bit depends only on which columns allow nulls. -/
theorem nullableCells_zip_congr {xs ys : List ColumnDef} {cells : List DraftCell}
    (h : xs.map (·.nullable) = ys.map (·.nullable)) :
    nullableCells (xs.zip cells) = nullableCells (ys.zip cells) := by
  induction xs generalizing ys cells with
  | nil =>
    rw [List.map_nil, eq_comm, List.map_eq_nil_iff] at h
    rw [h]
  | cons x xs ih =>
    cases ys with
    | nil => simp at h
    | cons y ys =>
      obtain ⟨hfirst, hrest⟩ := List.cons.inj h
      cases cells with
      | nil => rfl
      | cons cell cells =>
        have hfirst' : x.nullable = y.nullable := hfirst
        rw [List.zip_cons_cons, List.zip_cons_cons, RowWalk.nullableCells_cons,
          RowWalk.nullableCells_cons, hfirst', ih hrest]

namespace RowDraft

/-- The cells of a draft under another schema. -/
def under (draft : RowDraft) (schema : Schema) : RowDraft := { draft with schema }

theorem Reflects.under (h : draft.Reflects a settings) (hlayout : a.SameLayout b)
    (ha : a.Numbered) (hb : b.Numbered) : (draft.under b).Reflects b settings := by
  refine ⟨rfl, h.cells_eq.trans (hlayout.map_cell_eq ha hb settings), ?_⟩
  intro column hcolumn s hs
  obtain ⟨i, hi⟩ := Array.getElem?_of_mem hcolumn
  obtain ⟨other, hother, hcid, htype, hnullable⟩ := hlayout.exists_column ha hb hi
  rw [← htype, ← hnullable]
  exact h.suits other (Array.mem_of_getElem? hother) s (hcid ▸ hs)

/-- A row is laid out the same under the other schema. -/
theorem Layout.under (hrow : draft.Layout row bitset) (h : draft.schema.SameLayout b) :
    (draft.under b).Layout row bitset := by
  have hcells : (draft.under b).nullableCells = draft.nullableCells :=
    (nullableCells_zip_congr h.nullable_eq).symm
  have hcids : (draft.under b).schema.cidSize = draft.schema.cidSize :=
    congrArg (· + 1) h.size_eq.symm
  have hbits : (draft.under b).setCids ++ (draft.under b).nullBits =
      draft.setCids ++ draft.nullBits := by
    rw [nullBits, hcells, hcids]
    rfl
  refine ⟨?_, hrow.size_le, ?_, hrow.row_eq⟩
  · rw [bitCount, hcells, hcids]
    exact hrow.size_eq
  · rw [hbits]
    exact hrow.bit_eq

end RowDraft

/-! ## A batch of many writers -/

/-- A batch, and the writers whose rows it took in, first to last, as they were then. -/
structure SharedBatch where
  batch : RowBatch
  writers : List RowWriter

namespace SharedBatch

variable {s : SharedBatch} {w : RowWriter}

/-- What a writer writes is taken in or leaves the batch. -/
def write (s : SharedBatch) (w : RowWriter) : SharedBatch :=
  match w.draft.appendTo s.batch with
  | .ok batch => ⟨batch, s.writers ++ [w]⟩
  | .error _ => s

def run (s : SharedBatch) (writes : List RowWriter) : SharedBatch := writes.foldl write s

/-- The rows of a batch are those of its writers. -/
structure Inv (schema : Schema) (maxBytes maxRows : Nat) (s : SharedBatch) : Prop where
  schema_eq : s.batch.schema = schema
  maxBytes_eq : s.batch.maxBytes = maxBytes
  maxRows_eq : s.batch.maxRows = maxRows
  rows : ∃ rows, s.batch.Framed rows ∧
    List.Forall₂ (fun w row => w.draft.encode = .ok row) s.writers rows

variable {maxBytes maxRows : Nat}

theorem inv_start {batch : RowBatch}
    (h : RowBatch.bounded schema maxBytes maxRows = .ok batch) :
    Inv schema maxBytes maxRows ⟨batch, []⟩ := by
  obtain ⟨hframed, hschema, hbytes, hrows⟩ := RowBatch.framed_bounded h
  exact ⟨hschema, hbytes, hrows, [], hframed, .nil⟩

theorem Inv.write (h : Inv schema maxBytes maxRows s) (w : RowWriter) :
    Inv schema maxBytes maxRows (s.write w) := by
  unfold SharedBatch.write
  cases happend : w.draft.appendTo s.batch with
  | error _ => exact h
  | ok batch =>
    obtain ⟨row, hrow, hbatch⟩ := RowDraft.appendTo_eq_ok.1 happend
    obtain ⟨rows, hframed, hrows⟩ := h.rows
    have hafter := RowBatch.append_eq_ok hbatch
    refine ⟨?_, ?_, ?_, rows ++ [row], hframed.append (w.size_lt_of_encode hrow) hbatch, ?_⟩
    · exact (RowBatch.schema_append hbatch).trans h.schema_eq
    · rw [hafter]
      exact h.maxBytes_eq
    · rw [hafter]
      exact h.maxRows_eq
    · exact List.rel_append hrows (.cons hrow .nil)

theorem Inv.run (h : Inv schema maxBytes maxRows s) (writes : List RowWriter) :
    Inv schema maxBytes maxRows (s.run writes) := by
  induction writes generalizing s with
  | nil => exact h
  | cons w writes ih => exact ih (h.write w)

theorem Inv.size_eq (h : Inv schema maxBytes maxRows s) : s.batch.size = s.writers.length := by
  obtain ⟨rows, hframed, hrows⟩ := h.rows
  rw [hframed.size_eq, hrows.length_eq]

/-- A row of the batch is the one its writer encoded. -/
theorem Inv.row?_eq (h : Inv schema maxBytes maxRows s) {i : Nat} (hi : s.writers[i]? = some w) :
    ∃ row, w.draft.encode = .ok row ∧ s.batch.row? i = some row := by
  obtain ⟨rows, hframed, hrows⟩ := h.rows
  obtain ⟨hin, hw⟩ := List.getElem?_eq_some_iff.1 hi
  have hin' : i < rows.length := hrows.length_eq ▸ hin
  have hrow := hrows.get hin hin'
  rw [List.get_eq_getElem, List.get_eq_getElem, hw] at hrow
  exact ⟨rows[i], hrow, (hframed.row?_eq i).trans (List.getElem?_eq_getElem hin')⟩

/-- A batch takes what a writer writes exactly if the row can be encoded and there is
room for it, whatever the schema of the writer.  It has a row for each write that was
taken, and reading one never breaks off.  If the writer's schema lays rows out as the
batch's does, the row is read back, with a cell for each column its writer had set, of
the type and with the value it was set to. -/
theorem read_of_sameLayout {columns : List ColumnDef} {empty : RowBatch}
    (hschema : Schema.ofColumns columns = .ok schema)
    (hempty : RowBatch.bounded schema maxBytes maxRows = .ok empty) (writes : List RowWriter) :
    let s := run ⟨empty, []⟩ writes
    (∀ w : RowWriter, (∃ after, w.draft.appendTo s.batch = .ok after) ↔
        ∃ row, w.draft.encode = .ok row ∧
          s.batch.size < maxRows ∧ s.batch.usedBytes + 4 + row.size ≤ maxBytes) ∧
      s.batch.size = s.writers.length ∧
      ∀ i w, s.writers[i]? = some w → ∀ cursor : RowCursor, cursor.batch = s.batch →
        (∀ fault, (cursor.read i).1 ≠ .error (.fault fault)) ∧
        (w.schema.SameLayout schema →
          ∃ after, cursor.read i = (.ok (), after) ∧ after.Shows schema w.settings) := by
  intro s
  have h : Inv schema maxBytes maxRows s := (inv_start hempty).run writes
  refine ⟨?_, h.size_eq, ?_⟩
  · intro w
    simp only [RowDraft.appendTo_eq_ok]
    rw [exists_comm]
    refine exists_congr fun row => ?_
    rw [exists_and_left, RowBatch.exists_append_iff, h.maxBytes_eq, h.maxRows_eq]
    rfl
  · intro i w hw cursor hcursor
    refine ⟨?_, ?_⟩
    · intro fault
      exact RowCursor.step_read_ne_fault cursor i fault
    · intro hlayout
      have hnumbered := (Schema.ofColumns_eq_ok hschema).1
      obtain ⟨row, hencode, hrow⟩ := h.row?_eq hw
      obtain ⟨bitset, hrowLayout⟩ := w.exists_layout hencode
      have hreflects := w.reflects.under hlayout w.numbered hnumbered
      have hunder := hrowLayout.under (w.reflects.schema_eq ▸ hlayout)
      rw [← hcursor] at hrow
      exact RowCursor.read_of_layout hnumbered hreflects hunder (hcursor ▸ h.schema_eq) hrow

/-! ## Pairs of an id and a value -/

def pairColumns (t : ColumnType) : List ColumnDef :=
  [{ cid := 1, name := "id", type := .int, isKey := true }, { cid := 2, name := "v", type := t }]

def pairSchema (t : ColumnType) : Schema :=
  (Schema.ofColumns (pairColumns t)).toOption.getD Schema.empty

theorem ofColumns_pairColumns (t : ColumnType) :
    Schema.ofColumns (pairColumns t) = .ok (pairSchema t) := by
  have hok : (Schema.ofColumns (pairColumns t)).isOk = true := by
    cases t <;> decide +kernel
  exact eq_ok_of_isOk hok Schema.empty

def pairBatch (t : ColumnType) : RowBatch where
  schema := pairSchema t
  data := #[]
  starts := #[]
  maxBytes := 100
  maxRows := 3

/-- A writer of pairs that has set the id 7 and a value. -/
def pairWriter (t : ColumnType) (v : t.Value) : RowWriter :=
  ((RowWriter.new (ofColumns_pairColumns t)).setColumn 1 .int (some 7)).setColumn 2 t (some v)

/-- A pair with a value of four bytes is taken into a batch of pairs with eight, and
cannot be read.  In a batch of pairs with floats it is read, as a float. -/
theorem foreign_row_taken :
    RowBatch.bounded (pairSchema .bigInt) 100 3 = .ok (pairBatch .bigInt) ∧
      RowBatch.bounded (pairSchema .float) 100 3 = .ok (pairBatch .float) ∧
      (write ⟨pairBatch .bigInt, []⟩ (pairWriter .int 8)).batch.size = 1 ∧
      ((RowCursor.new (write ⟨pairBatch .bigInt, []⟩ (pairWriter .int 8)).batch).read 0).1 =
        .error (.error (.argument (.corruptRow 0))) ∧
      (write ⟨pairBatch .float, []⟩ (pairWriter .int 8)).batch.size = 1 ∧
      ((RowCursor.new (write ⟨pairBatch .float, []⟩ (pairWriter .int 8)).batch).read 0).1 = .ok () ∧
      ((RowCursor.new (write ⟨pairBatch .float, []⟩ (pairWriter .int 8)).batch).read 0).2.value
        1 .float = .ok (some 8) := by
  refine ⟨rfl, rfl, ?_, ?_, ?_, ?_, ?_⟩ <;> decide +kernel

/-- Two pairs of the batch's own schema, and between them one of another. -/
def pairRun : SharedBatch :=
  run ⟨pairBatch .int, []⟩ [pairWriter .int 8, pairWriter .bigInt 9, pairWriter .int 10]

/-- The last pair is read back though a foreign one stands before it. -/
theorem read_of_sameLayout_pair :
    Schema.ofColumns (pairColumns .int) = .ok (pairSchema .int) ∧
      RowBatch.bounded (pairSchema .int) 100 3 = .ok (pairBatch .int) ∧ pairRun.batch.size = 3 ∧
      ∃ w, pairRun.writers[2]? = some w ∧ w.schema.SameLayout (pairSchema .int) ∧
        ∃ after, (RowCursor.new pairRun.batch).read 2 = (.ok (), after) ∧
          after.Shows (pairSchema .int) w.settings ∧ after.value 1 .int = .ok (some 10) := by
  have hempty : RowBatch.bounded (pairSchema .int) 100 3 = .ok (pairBatch .int) := rfl
  have hcolumns : pairRun.writers[2]?.map (·.schema.columns) = some (pairSchema .int).columns := by
    decide +kernel
  obtain ⟨w, hw, hsame⟩ := Option.map_eq_some_iff.1 hcolumns
  have hlayout : w.schema.SameLayout (pairSchema .int) := by
    rw [Schema.SameLayout, hsame]
  obtain ⟨_, _, hrows⟩ := read_of_sameLayout (ofColumns_pairColumns .int) hempty
    [pairWriter .int 8, pairWriter .bigInt 9, pairWriter .int 10]
  obtain ⟨after, hread, hshows⟩ := (hrows 2 w hw _ (RowCursor.batch_new _)).2 hlayout
  refine ⟨ofColumns_pairColumns .int, hempty, by decide +kernel, w, hw, hlayout, after, hread,
    hshows, ?_⟩
  have hafter : ((RowCursor.new pairRun.batch).read 2).2 = after := congrArg Prod.snd hread
  rw [← hafter]
  decide +kernel

end SharedBatch

end ColumnStore
