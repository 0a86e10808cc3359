import ColumnStore.Proofs.RowWriting

/-!
# What shows in the bytes of a row

Two writers of one schema may have come to their rows by any calls.  If the columns were
last set to the same, since their rows were started, the drafts are the same
(`RowDraft.Reflects.draft_eq`).  So the sizes they foretell agree, and two batches with
the same room take the same row or refuse with errors of one kind
(`WriterTrace.rows_agree`).

What is compared of a column is its cell: unset, null, or the bytes of a value.
-/

namespace ColumnStore

/-! ## Two batches with the same room -/

/-- Two errors of one kind, whatever they name. -/
def Error.SameKind (e e' : Error) : Prop := e.ctorIdx = e'.ctorIdx

/-- Two batches that can take as many rows and bytes more. -/
structure RowBatch.SameRoom (batch batch' : RowBatch) : Prop where
  rows_eq : batch.maxRows - batch.size = batch'.maxRows - batch'.size
  bytes_eq : batch.maxBytes - batch.usedBytes = batch'.maxBytes - batch'.usedBytes

namespace RowBatch

variable {batch batch' : RowBatch} {row : Bytes}

theorem append_eq_full (hrows : batch.maxRows - batch.size = 0) :
    batch.append row = .error (.full (.rows batch.maxRows)) := by
  rw [append, if_pos (Nat.le_of_sub_eq_zero hrows)]

theorem append_eq_long (hrows : batch.maxRows - batch.size ≠ 0)
    (hbytes : batch.maxBytes - batch.usedBytes < lengthSize + row.size) :
    batch.append row = .error
      (.full (.bytes batch.usedBytes (lengthSize + row.size) batch.maxBytes)) := by
  rw [append, if_neg (by omega), if_pos (by omega)]

/-- What is left of rows and bytes decides whether a row is taken. -/
theorem append_of_room (hrows : batch.maxRows - batch.size ≠ 0)
    (hbytes : lengthSize + row.size ≤ batch.maxBytes - batch.usedBytes) :
    ∃ after, batch.append row = .ok after := by
  have hlength : 0 < lengthSize := by decide
  rw [exists_append_iff]
  omega

/-- Batches with the same room take a row both, or refuse it with errors of one kind. -/
theorem SameRoom.append_agree (h : batch.SameRoom batch') (row : Bytes) :
    (∃ after after', batch.append row = .ok after ∧ batch'.append row = .ok after') ∨
      ∃ e e', batch.append row = .error e ∧ batch'.append row = .error e' ∧ e.SameKind e' := by
  have hrows := h.rows_eq
  have hbytes := h.bytes_eq
  by_cases hfull : batch.maxRows - batch.size = 0
  · exact .inr ⟨_, _, append_eq_full hfull, append_eq_full (hrows ▸ hfull), rfl⟩
  · by_cases hlong : batch.maxBytes - batch.usedBytes < lengthSize + row.size
    · exact .inr ⟨_, _, append_eq_long hfull hlong,
        append_eq_long (hrows ▸ hfull) (hbytes ▸ hlong), rfl⟩
    · have hfits : lengthSize + row.size ≤ batch.maxBytes - batch.usedBytes := by omega
      obtain ⟨after, hafter⟩ := append_of_room hfull hfits
      obtain ⟨after', hafter'⟩ := append_of_room (hrows ▸ hfull) (hbytes ▸ hfits)
      exact .inl ⟨after, after', hafter, hafter'⟩

end RowBatch

/-! ## Two drafts with the same cells -/

namespace RowDraft

variable {draft draft' : RowDraft} {schema : Schema} {settings settings' : Settings}
  {batch batch' : RowBatch}

/-- A draft is its schema and the cells that its settings make. -/
theorem Reflects.draft_eq (h : draft.Reflects schema settings)
    (h' : draft'.Reflects schema settings')
    (hsame : ∀ column ∈ schema.columns, settings.cell column = settings'.cell column) :
    draft = draft' := by
  have hcells : draft.cells = draft'.cells := by
    rw [h.cells_eq, h'.cells_eq]
    exact Array.map_congr_left hsame
  have hschema : draft.schema = draft'.schema := h.schema_eq.trans h'.schema_eq.symm
  calc draft = ⟨draft.schema, draft.cells⟩ := rfl
    _ = ⟨draft'.schema, draft'.cells⟩ := by rw [hschema, hcells]

/-- A draft is written to batches with the same room both, in the same bytes, or to
neither. -/
theorem Reflects.appendTo_agree (h : draft.Reflects schema settings)
    (hroom : batch.SameRoom batch') :
    (∃ row after after', draft.appendTo batch = .ok after ∧ draft.appendTo batch' = .ok after' ∧
        batch.GainsRow after row ∧ batch'.GainsRow after' row) ∨
      ∃ e e', draft.appendTo batch = .error (.error e) ∧
        draft.appendTo batch' = .error (.error e') ∧ e.SameKind e' := by
  rcases encode_cases h.cells_size with ⟨e, hrefused⟩ | ⟨row, bitset, hrow, hlayout⟩
  · right
    refine ⟨e, e, ?_, ?_, rfl⟩
    · rw [appendTo, hrefused, error_bind]
    · rw [appendTo, hrefused, error_bind]
  · have hsmall := hlayout.size_lt h
    rcases hroom.append_agree row with ⟨after, after', hafter, hafter'⟩ | ⟨e, e', he, he', hkind⟩
    · left
      exact ⟨row, after, after', appendTo_eq_ok.2 ⟨row, hrow, hafter⟩,
        appendTo_eq_ok.2 ⟨row, hrow, hafter'⟩, RowBatch.gainsRow_of_append hafter hsmall,
        RowBatch.gainsRow_of_append hafter' hsmall⟩
    · right
      refine ⟨e, e', ?_, ?_, hkind⟩
      · rw [appendTo, hrow, ok_bind, he, liftM_error_error]
      · rw [appendTo, hrow, ok_bind, he', liftM_error_error]

end RowDraft

/-! ## Two writers -/

/-- A writer at work, with what each column was last set to since the row was started. -/
structure WriterTrace where
  state : WriterState
  lastSets : Settings

namespace WriterTrace

def step (schema : Schema) (w : WriterTrace) (call : WriterCall) : WriterTrace where
  state := (w.state.step call).2
  lastSets := call.settingsAfter schema w.lastSets (w.state.step call).1

/-- The writer after calls, from one that has set nothing. -/
def ofCalls (schema : Schema) (batches : Nat → RowBatch) (calls : List WriterCall) :
    WriterTrace :=
  calls.foldl (step schema) ⟨WriterState.start schema batches, fun _ => none⟩

variable {schema : Schema} {columns : List ColumnDef}

/-- Whatever the calls are and become, the draft keeps the cells of the last sets. -/
theorem reflects_foldl (hs : schema.Numbered) {w : WriterTrace}
    (h : w.state.draft.Reflects schema w.lastSets) (calls : List WriterCall) :
    (calls.foldl (step schema) w).state.draft.Reflects schema
      (calls.foldl (step schema) w).lastSets := by
  induction calls generalizing w with
  | nil => exact h
  | cons call calls ih => exact ih (WriterState.reflects_step hs h call)

theorem reflects_ofCalls (hs : schema.Numbered) (batches : Nat → RowBatch)
    (calls : List WriterCall) :
    (ofCalls schema batches calls).state.draft.Reflects schema
      (ofCalls schema batches calls).lastSets :=
  reflects_foldl hs (RowDraft.reflects_new schema) calls

/-- Two writers whose columns were last set to the same foretell the same size.  Written
to batches with the same room, their rows are the same bytes, or are refused both with
errors of one kind. -/
theorem rows_agree (hschema : Schema.ofColumns columns = .ok schema)
    (batches batches' : Nat → RowBatch) (calls calls' : List WriterCall)
    (hsame : ∀ column ∈ schema.columns, (ofCalls schema batches calls).lastSets.cell column =
      (ofCalls schema batches' calls').lastSets.cell column) :
    (ofCalls schema batches calls).state.draft.encodedSize =
        (ofCalls schema batches' calls').state.draft.encodedSize ∧
      ∀ batch batch' : RowBatch, batch.SameRoom batch' →
        (∃ row after after',
          (ofCalls schema batches calls).state.draft.appendTo batch = .ok after ∧
          (ofCalls schema batches' calls').state.draft.appendTo batch' = .ok after' ∧
          batch.GainsRow after row ∧ batch'.GainsRow after' row) ∨
        ∃ e e', (ofCalls schema batches calls).state.draft.appendTo batch = .error (.error e) ∧
          (ofCalls schema batches' calls').state.draft.appendTo batch' = .error (.error e') ∧
          e.SameKind e' := by
  have hs := (Schema.ofColumns_eq_ok hschema).1
  have h := reflects_ofCalls hs batches calls
  have hdraft := h.draft_eq (reflects_ofCalls hs batches' calls') hsame
  rw [← hdraft]
  exact ⟨rfl, fun _ _ hroom => h.appendTo_agree hroom⟩

/-- A row of a key and a null, set at once. -/
def plainCalls : List WriterCall :=
  [.setNamed "id" .int (some 7), .setColumn 2 .smallInt none]

/-- The same row after another that was written, with values that are set over, a value of
another type and a call that is not supported in between. -/
def longCalls : List WriterCall :=
  [.setColumn 3 .double (some 1), .setColumn 1 .int (some 9), .write 0, .clear,
    .setColumn 2 .smallInt (some 5), .setNamed "venue" .smallInt none, .write 0,
    .setColumn 1 .int (some 8), .setColumn 2 .int (some 3), .markDelete,
    .setColumn 1 .int (some 7), .write 1]

/-- A batch with a row already, and room for as much as an empty batch of trades. -/
def begunBatch : RowBatch where
  schema := RowSession.tradeSchema
  data := #[1, 0, 0, 0, 0]
  starts := #[0]
  maxBytes := 105
  maxRows := 3

theorem rows_agree_trades :
    Schema.ofColumns RowSession.tradeColumns = .ok RowSession.tradeSchema ∧
      ∃ w w' : WriterTrace,
        w = ofCalls RowSession.tradeSchema (fun _ => RowSession.tradeBatch) plainCalls ∧
        w' = ofCalls RowSession.tradeSchema (fun _ => begunBatch) longCalls ∧
        (∀ column ∈ RowSession.tradeSchema.columns,
          w.lastSets.cell column = w'.lastSets.cell column) ∧
        w.state.draft.encodedSize = 7 ∧ w'.state.draft.encodedSize = 7 ∧
        RowSession.tradeBatch.SameRoom begunBatch ∧
        ∃ row after after', w.state.draft.appendTo RowSession.tradeBatch = .ok after ∧
          w'.state.draft.appendTo begunBatch = .ok after' ∧
          RowSession.tradeBatch.GainsRow after row ∧ begunBatch.GainsRow after' row := by
  have hschema := RowSession.ofColumns_tradeColumns
  have hsame : ∀ column ∈ RowSession.tradeSchema.columns,
      (ofCalls RowSession.tradeSchema (fun _ => RowSession.tradeBatch) plainCalls).lastSets.cell
        column =
      (ofCalls RowSession.tradeSchema (fun _ => begunBatch) longCalls).lastSets.cell column := by
    decide +kernel
  have hsize : (ofCalls RowSession.tradeSchema (fun _ => RowSession.tradeBatch)
      plainCalls).state.draft.encodedSize = 7 := by decide +kernel
  have hok : ((ofCalls RowSession.tradeSchema (fun _ => RowSession.tradeBatch)
      plainCalls).state.draft.appendTo RowSession.tradeBatch).isOk = true := by decide +kernel
  have hroom : RowSession.tradeBatch.SameRoom begunBatch := ⟨rfl, rfl⟩
  obtain ⟨hsizes, hwrites⟩ := rows_agree hschema _ _ plainCalls longCalls hsame
  refine ⟨hschema, _, _, rfl, rfl, hsame, hsize, hsizes.symm.trans hsize, hroom, ?_⟩
  rcases hwrites _ _ hroom with hwritten | ⟨e, _, he, _⟩
  · exact hwritten
  · rw [he] at hok
    exact nomatch hok

end WriterTrace

end ColumnStore
