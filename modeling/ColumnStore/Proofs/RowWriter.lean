import ColumnStore.Proofs.RowEncoding

/-!
# Writers of rows

A writer is a draft of a schema that was checked, in a state that calls can bring it to
(`RowDraft.Made`).  Its draft reflects what its columns were last set to, so
encoding it is refused or gives a row of the one layout (`RowWriter.encode_cases`), whose
size fits the length a batch keeps of it (`size_lt_of_encode`).
-/

namespace ColumnStore

variable {schema : Schema} {draft : RowDraft} {settings : Settings}

/-- The settings after a column was set to something, or was refused to be. -/
def Settings.after (settings : Settings) (outcome : Except Error Unit) (cid : Nat)
    (s : Setting) : Settings :=
  match outcome with
  | .ok () => Function.update settings cid (some s)
  | .error _ => settings

/-- The drafts that calls can make of an empty one, each with what its columns were
last set to.  Other calls, and names that no column has, leave the draft. -/
inductive RowDraft.Made (schema : Schema) : RowDraft → Settings → Prop
  | new : Made schema (RowDraft.new schema) fun _ => none
  | clear {draft : RowDraft} {settings : Settings} (h : Made schema draft settings) :
      Made schema draft.clear fun _ => none
  | setColumn {draft : RowDraft} {settings : Settings} (h : Made schema draft settings)
      (cid : Nat) (t : ColumnType) (v : Option t.Value) :
      Made schema (draft.setColumn cid t v).2
        (settings.after (draft.setColumn cid t v).1 cid ⟨t, v⟩)
  | setNamed {draft : RowDraft} {settings : Settings} (h : Made schema draft settings)
      {name : String} {column : ColumnDef} (hcolumn : schema.columnNamed? name = some column)
      (t : ColumnType) (v : Option t.Value) :
      Made schema (draft.setNamed name t v).2
        (settings.after (draft.setNamed name t v).1 column.cid ⟨t, v⟩)

namespace RowDraft

theorem Made.reflects (hs : schema.Numbered) (h : Made schema draft settings) :
    draft.Reflects schema settings := by
  induction h with
  | new => exact reflects_new schema
  | clear _ ih =>
    rw [RowDraft.clear, ih.schema_eq]
    exact reflects_new schema
  | setColumn _ cid t v ih =>
    rcases ih.setColumn hs cid t v with ⟨hok, hset⟩ | ⟨e, hrefused⟩
    · rw [hok]
      exact hset
    · rw [hrefused]
      exact ih
  | @setNamed _ _ _ name column hcolumn t v ih =>
    rw [hs.columnNamed?_eq] at hcolumn
    rcases ih.setNamed hs name t v with ⟨found, hfound, hok, hset⟩ | ⟨e, hrefused⟩
    · obtain rfl := Option.some.inj (hfound.symm.trans hcolumn)
      rw [hok]
      exact hset
    · rw [hrefused]
      exact ih

end RowDraft

/-- A writer of rows of a checked schema, and what its columns are set to. -/
structure RowWriter where
  columns : List ColumnDef
  schema : Schema
  draft : RowDraft
  settings : Settings
  schema_eq : Schema.ofColumns columns = .ok schema
  made : draft.Made schema settings

namespace RowWriter

/-- A writer that has set no column yet. -/
def new {columns : List ColumnDef} {schema : Schema}
    (h : Schema.ofColumns columns = .ok schema) : RowWriter :=
  { columns, schema, draft := RowDraft.new schema, settings := fun _ => none, schema_eq := h,
    made := .new }

/-- The writer after a column was set, or was refused to be. -/
def setColumn (w : RowWriter) (cid : Nat) (t : ColumnType) (v : Option t.Value) : RowWriter :=
  { w with
    draft := (w.draft.setColumn cid t v).2
    settings := w.settings.after (w.draft.setColumn cid t v).1 cid ⟨t, v⟩
    made := w.made.setColumn cid t v }

variable {row : Bytes}

theorem numbered (w : RowWriter) : w.schema.Numbered := (Schema.ofColumns_eq_ok w.schema_eq).1

theorem reflects (w : RowWriter) : w.draft.Reflects w.schema w.settings :=
  w.made.reflects w.numbered

theorem encode_cases (w : RowWriter) :
    (∃ e, w.draft.encode = .error (.error e)) ∨
      ∃ row bitset, w.draft.encode = .ok row ∧ w.draft.Layout row bitset :=
  RowDraft.encode_cases w.reflects.cells_size

theorem exists_layout (w : RowWriter) (h : w.draft.encode = .ok row) :
    ∃ bitset, w.draft.Layout row bitset := by
  rcases w.encode_cases with ⟨e, hrefused⟩ | ⟨row', bitset, hrow, hlayout⟩
  · rw [hrefused] at h
    simp at h
  · obtain rfl := Except.ok.inj (h.symm.trans hrow)
    exact ⟨bitset, hlayout⟩

/-- A row is short enough for the length a batch keeps of it. -/
theorem size_lt_of_encode (w : RowWriter) (h : w.draft.encode = .ok row) : row.size < 2 ^ 32 := by
  obtain ⟨bitset, hlayout⟩ := w.exists_layout h
  exact hlayout.size_lt w.reflects

end RowWriter

end ColumnStore
