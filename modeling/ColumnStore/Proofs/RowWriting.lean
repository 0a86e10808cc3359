import ColumnStore.Proofs.RowSession

/-!
# Which rows are written

A writer offers the row of its draft to batches, which need not share its schema.  The
row is written exactly if every key column is set, the length of the bit vector can be
counted, and the batch has room for one more row of the size that was foretold
(`FitsInto`).

A row that is written is the last of its batch, behind rows that stay (`GainsRow`).  A
row that is not written is refused, and every batch stays.  The draft stays in both
cases, so the writer goes on to write the same bytes (`write_accepted_iff`).
-/

namespace ColumnStore

/-! ## One row and one batch -/

/-- The batch afterwards has one more row, at the end. -/
structure RowBatch.GainsRow (before after : RowBatch) (row : Bytes) : Prop where
  size_eq : after.size = before.size + 1
  usedBytes_eq : after.usedBytes = before.usedBytes + 4 + row.size
  last : after.row? before.size = some row
  kept : ∀ (i : Nat) (held : Bytes), before.row? i = some held → after.row? i = some held
  bytes_kept : after.data.extract 0 before.usedBytes = before.data
  schema_eq : after.schema = before.schema
  maxBytes_eq : after.maxBytes = before.maxBytes
  maxRows_eq : after.maxRows = before.maxRows

theorem RowBatch.gainsRow_of_append {batch after : RowBatch} {row : Bytes}
    (h : batch.append row = .ok after) (hsmall : row.size < 2 ^ 32) :
    batch.GainsRow after row where
  size_eq := size_append h
  usedBytes_eq := by
    rw [append_eq_ok h]
    simp only [usedBytes, Array.size_append, List.size_toArray, LittleEndian.length_ofNat,
      lengthSize]
  last := row?_append_last h hsmall
  kept _ _ hheld := row?_append_of_some h hheld
  bytes_kept := by
    rw [append_eq_ok h, usedBytes, Array.append_assoc, Array.extract_append, Array.extract_size,
      Nat.sub_self, Array.extract_zero, Array.append_empty]
  schema_eq := schema_append h
  maxBytes_eq := by rw [append_eq_ok h]
  maxRows_eq := by rw [append_eq_ok h]

namespace RowDraft

variable {draft : RowDraft} {schema : Schema} {settings : Settings} {batch after : RowBatch}
  {row : Bytes}

/-- What it takes to write the row of a draft to a batch. -/
structure FitsInto (draft : RowDraft) (batch : RowBatch) : Prop where
  keysSet : ∀ p ∈ draft.columnCells, p.1.isKey = true → p.2.isSet = true
  bitsetCounted : (draft.schema.cidSize +
    draft.columnCells.countP (fun p => p.1.nullable && p.2.isSet) + 7) / 8 ≤ 65535
  rowsLeft : batch.size < batch.maxRows
  bytesLeft : batch.usedBytes + 4 + draft.encodedSize ≤ batch.maxBytes

/-- The bits of the bit vector are those of the columns and of the set columns that may
be null. -/
theorem width_bitCount (draft : RowDraft) :
    Bitset.width draft.bitCount = (draft.schema.cidSize +
      draft.columnCells.countP (fun p => p.1.nullable && p.2.isSet) + 7) / 8 := by
  rw [Bitset.width, bitCount, nullableCells, List.length_map, List.countP_eq_length_filter]

section Reflects

variable (hs : schema.Numbered) (h : draft.Reflects schema settings)

include hs h

/-- A row that fits is written, in the size that was foretold. -/
theorem appendTo_of_fits (hfits : draft.FitsInto batch) :
    ∃ row after, draft.appendTo batch = .ok after ∧ draft.encode = .ok row ∧
      row.size = draft.encodedSize ∧ batch.GainsRow after row := by
  have hnumbered : draft.schema.Numbered := by
    rw [h.schema_eq]
    exact hs
  have hshort : Bitset.width draft.bitCount ≤ bitsetLimit := by
    rw [width_bitCount]
    exact hfits.bitsetCounted
  have hkeys : draft.missingKey? = none := (missingKey?_eq_none_iff hnumbered).2 hfits.keysSet
  obtain ⟨row, bitset, hrow, hlayout⟩ := encode_of_fits h.cells_size hshort hkeys
  have hsize : row.size = draft.encodedSize := hlayout.size_eq_encodedSize h
  have hroom : ∃ after, batch.append row = .ok after := by
    rw [RowBatch.exists_append_iff, hsize]
    exact ⟨hfits.rowsLeft, hfits.bytesLeft⟩
  obtain ⟨after, happend⟩ := hroom
  exact ⟨row, after, appendTo_eq_ok.2 ⟨row, hrow, happend⟩, hrow, hsize,
    RowBatch.gainsRow_of_append happend (hlayout.size_lt h)⟩

/-- A row that does not fit is refused. -/
theorem appendTo_of_not_fits (hnot : ¬ draft.FitsInto batch) :
    ∃ e, draft.appendTo batch = .error (.error e) := by
  by_cases hencodes : Bitset.width draft.bitCount ≤ bitsetLimit ∧ draft.missingKey? = none
  · obtain ⟨row, bitset, hrow, hlayout⟩ :=
      encode_of_fits h.cells_size hencodes.1 hencodes.2
    rw [appendTo, hrow, ok_bind]
    cases happend : batch.append row with
    | error e => exact ⟨e, rfl⟩
    | ok after =>
      have hnumbered : draft.schema.Numbered := by
        rw [h.schema_eq]
        exact hs
      have hroom := (RowBatch.exists_append_iff batch row).1 ⟨after, happend⟩
      rw [hlayout.size_eq_encodedSize h] at hroom
      refine absurd ⟨?_, ?_, hroom.1, hroom.2⟩ hnot
      · exact (missingKey?_eq_none_iff hnumbered).1 hencodes.2
      · rw [← width_bitCount]
        exact hencodes.1
  · obtain ⟨e, he⟩ := encode_of_not_fits hencodes
    exact ⟨e, by rw [appendTo, he, error_bind]⟩

end Reflects

end RowDraft

/-! ## A writer at work -/

/-- A call of a writer.  Rows are written to one of several batches. -/
inductive WriterCall where
  | clear
  | setColumn (cid : Nat) (t : ColumnType) (v : Option t.Value)
  | setNamed (name : String) (t : ColumnType) (v : Option t.Value)
  | markDelete
  | write (batch : Nat)

/-- What the columns are set to after a call, by what became of it: nothing once the row
is cleared, and the new value of a column that was set. -/
def WriterCall.settingsAfter (schema : Schema) (settings : Settings) :
    WriterCall → Outcome Unit → Settings
  | .clear, _ => fun _ => none
  | .setColumn cid t v, .ok () => Function.update settings cid (some ⟨t, v⟩)
  | .setNamed name t v, .ok () =>
    match schema.columns.toList.find? (·.name == name) with
    | some column => Function.update settings column.cid (some ⟨t, v⟩)
    | none => settings
  | _, _ => settings

/-- A writer's draft and the batches it writes to. -/
structure WriterState where
  draft : RowDraft
  batches : Nat → RowBatch

namespace WriterState

/-- No column is set yet, and the batches are any. -/
def start (schema : Schema) (batches : Nat → RowBatch) : WriterState where
  draft := RowDraft.new schema
  batches

/-- What becomes of a call, and the state after it. -/
def step (s : WriterState) : WriterCall → Outcome Unit × WriterState
  | .clear => (.ok (), { s with draft := s.draft.clear })
  | .setColumn cid t v =>
    (liftM (s.draft.setColumn cid t v).1, { s with draft := (s.draft.setColumn cid t v).2 })
  | .setNamed name t v =>
    (liftM (s.draft.setNamed name t v).1, { s with draft := (s.draft.setNamed name t v).2 })
  | .markDelete => (liftM s.draft.markDelete, s)
  | .write k =>
    match s.draft.appendTo (s.batches k) with
    | .ok batch => (.ok (), { s with batches := Function.update s.batches k batch })
    | .error failure => (.error failure, s)

/-- The states that calls lead to. -/
inductive Reached (schema : Schema) : WriterState → Prop where
  | start (batches : Nat → RowBatch) : Reached schema (start schema batches)
  | step {s : WriterState} (h : Reached schema s) (call : WriterCall) :
      Reached schema (s.step call).2

variable {schema : Schema} {s : WriterState} {k : Nat}

/-- After a call the cells are those that the settings make then. -/
theorem reflects_step (hs : schema.Numbered) {settings : Settings}
    (h : s.draft.Reflects schema settings) (call : WriterCall) :
    (s.step call).2.draft.Reflects schema
      (call.settingsAfter schema settings (s.step call).1) := by
  cases call with
  | clear =>
    show (RowDraft.new s.draft.schema).Reflects schema fun _ => none
    rw [h.schema_eq]
    exact RowDraft.reflects_new schema
  | setColumn cid t v =>
    rcases h.setColumn hs cid t v with ⟨hok, hset⟩ | ⟨e, hrefused⟩
    · simp only [step, hok]
      exact hset
    · simp only [step, hrefused]
      exact h
  | setNamed name t v =>
    rcases h.setNamed hs name t v with ⟨column, hfind, hok, hset⟩ | ⟨e, hrefused⟩
    · simp only [step, hok, WriterCall.settingsAfter, liftM_error_ok, hfind]
      exact hset
    · simp only [step, hrefused]
      exact h
  | markDelete => exact h
  | write k =>
    unfold step
    dsimp only
    split
    · exact h
    · exact h

theorem Reached.reflects (hs : schema.Numbered) (h : Reached schema s) :
    ∃ settings, s.draft.Reflects schema settings := by
  induction h with
  | start batches => exact ⟨_, RowDraft.reflects_new schema⟩
  | step _ call ih =>
    obtain ⟨settings, hreflects⟩ := ih
    exact ⟨_, reflects_step hs hreflects call⟩

/-- Whether the row is written or not, the draft stays. -/
theorem draft_step_write (s : WriterState) (k : Nat) : (s.step (.write k)).2.draft = s.draft := by
  unfold step
  dsimp only
  split
  · rfl
  · rfl

/-- A writer's row is written if it fits. -/
theorem Reached.write_of_fits (hs : schema.Numbered) (h : Reached schema s)
    (hfits : s.draft.FitsInto (s.batches k)) :
    ∃ row after, s.step (.write k) = (.ok (), after) ∧ s.draft.encode = .ok row ∧
      row.size = s.draft.encodedSize ∧ (s.batches k).GainsRow (after.batches k) row ∧
      ∀ j, j ≠ k → after.batches j = s.batches j := by
  obtain ⟨settings, hreflects⟩ := h.reflects hs
  obtain ⟨row, batch, happend, hrow, hsize, hgains⟩ := RowDraft.appendTo_of_fits hs hreflects hfits
  have hstep : s.step (.write k) =
      (.ok (), { s with batches := Function.update s.batches k batch }) := by
    simp only [WriterState.step, happend]
  refine ⟨row, _, hstep, hrow, hsize, ?_, ?_⟩
  · dsimp only
    rw [Function.update_self]
    exact hgains
  · intro j hj
    exact Function.update_of_ne hj _ _

/-- A row that does not fit is refused. -/
theorem Reached.write_of_not_fits (hs : schema.Numbered) (h : Reached schema s)
    (hnot : ¬ s.draft.FitsInto (s.batches k)) :
    ∃ e, s.step (.write k) = (.error (.error e), s) := by
  obtain ⟨settings, hreflects⟩ := h.reflects hs
  obtain ⟨e, he⟩ := RowDraft.appendTo_of_not_fits hs hreflects hnot
  exact ⟨e, by simp only [WriterState.step, he]⟩

theorem Reached.fits_of_write (hs : schema.Numbered) (h : Reached schema s)
    (hok : (s.step (.write k)).1 = .ok ()) : s.draft.FitsInto (s.batches k) := by
  by_contra hnot
  obtain ⟨e, he⟩ := h.write_of_not_fits hs hnot
  rw [he] at hok
  exact nomatch hok

/-- Whatever a writer did before, its row is written to a batch exactly if it fits.  The
batch then has one more row of the size that was foretold, and the other batches stay.  A
row that is not written is refused, and all batches stay.  The draft stays in any case,
so the next row that is written has the same bytes. -/
theorem write_accepted_iff {columns : List ColumnDef}
    (hschema : Schema.ofColumns columns = .ok schema) (h : Reached schema s) (k : Nat) :
    ((s.step (.write k)).1 = .ok () ↔ s.draft.FitsInto (s.batches k)) ∧
      ((s.step (.write k)).1 = .ok () → ∃ row, s.draft.encode = .ok row ∧
        row.size = s.draft.encodedSize ∧
        (s.batches k).GainsRow ((s.step (.write k)).2.batches k) row ∧
        ∀ j, j ≠ k → (s.step (.write k)).2.batches j = s.batches j) ∧
      ((s.step (.write k)).1 ≠ .ok () →
        (∃ e, (s.step (.write k)).1 = .error (.error e)) ∧
          (s.step (.write k)).2.batches = s.batches) ∧
      (s.step (.write k)).2.draft = s.draft ∧
      ∀ next, ((s.step (.write k)).2.step (.write next)).1 = .ok () →
        ∃ row, s.draft.encode = .ok row ∧
          ((s.step (.write k)).2.batches next).GainsRow
            (((s.step (.write k)).2.step (.write next)).2.batches next) row := by
  have hs := (Schema.ofColumns_eq_ok hschema).1
  refine ⟨⟨h.fits_of_write hs, ?_⟩, ?_, ?_, draft_step_write s k, ?_⟩
  · intro hfits
    obtain ⟨row, after, hstep, _⟩ := h.write_of_fits hs hfits
    rw [hstep]
  · intro hok
    obtain ⟨row, after, hstep, hrow, hsize, hgains, hothers⟩ :=
      h.write_of_fits hs (h.fits_of_write hs hok)
    rw [hstep]
    exact ⟨row, hrow, hsize, hgains, hothers⟩
  · intro hrefused
    have hnot : ¬ s.draft.FitsInto (s.batches k) := by
      intro hfits
      obtain ⟨row, after, hstep, _⟩ := h.write_of_fits hs hfits
      rw [hstep] at hrefused
      exact hrefused rfl
    obtain ⟨e, hstep⟩ := h.write_of_not_fits hs hnot
    rw [hstep]
    exact ⟨⟨e, rfl⟩, rfl⟩
  · intro next hok
    have hafter := h.step (.write k)
    obtain ⟨row, after, hstep, hrow, _, hgains, _⟩ :=
      hafter.write_of_fits hs (hafter.fits_of_write hs hok)
    rw [draft_step_write] at hrow
    rw [hstep]
    exact ⟨row, hrow, hgains⟩

/-- A writer of trades whose row has been written once, with a null and an unset cell. -/
def tradeWriter : WriterState :=
  let ready := (start RowSession.tradeSchema fun _ => RowSession.tradeBatch).step
    (.setNamed "id" .int (some 7))
  ((ready.2.step (.setColumn 2 .smallInt none)).2.step (.write 0)).2

/-- The batch has room for two rows, so the row is written once more and then refused. -/
theorem write_accepted_iff_trades :
    Schema.ofColumns RowSession.tradeColumns = .ok RowSession.tradeSchema ∧
      Reached RowSession.tradeSchema tradeWriter ∧
      (tradeWriter.step (.write 0)).1 = .ok () ∧
      ((tradeWriter.step (.write 0)).2.batches 0).usedBytes = 22 ∧
      ∃ e, ((tradeWriter.step (.write 0)).2.step (.write 0)).1 = .error (.error e) := by
  have hschema := RowSession.ofColumns_tradeColumns
  have hreached : Reached RowSession.tradeSchema tradeWriter :=
    (((Reached.start _).step _).step _).step _
  have hfits : tradeWriter.draft.FitsInto (tradeWriter.batches 0) := by
    refine ⟨?_, ?_, ?_, ?_⟩ <;> decide +kernel
  have hused : (tradeWriter.batches 0).usedBytes = 11 := by decide +kernel
  have hforetold : tradeWriter.draft.encodedSize = 7 := by decide +kernel
  have hcount : (tradeWriter.batches 0).size = 1 := by decide +kernel
  have hrows : (tradeWriter.batches 0).maxRows = 2 := by decide +kernel
  obtain ⟨haccepted, hwritten, _⟩ := write_accepted_iff hschema hreached 0
  have hok := haccepted.2 hfits
  obtain ⟨row, _, hsize, hgains, _⟩ := hwritten hok
  obtain ⟨hagain, _, hrefused, _⟩ :=
    write_accepted_iff hschema (hreached.step (.write 0)) 0
  refine ⟨hschema, hreached, hok, ?_, (hrefused ?_).1⟩
  · rw [hgains.usedBytes_eq, hused, hsize, hforetold]
  · intro hfull
    have hleft := (hagain.1 hfull).rowsLeft
    rw [hgains.size_eq, hgains.maxRows_eq, hcount, hrows] at hleft
    exact absurd hleft (by decide)

end WriterState

end ColumnStore
