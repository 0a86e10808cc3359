import ColumnStore.Proofs.RowCursor

/-!
# Writing rows and reading them back

Several writers put rows together and append them to one batch.  A session records
what each writer's columns were last set to, and at each write that succeeds the
position of the row together with what its writer had been set to.

`Inv` is what a call keeps: every draft reflects the settings of its writer, and
every row that was written is in the batch, in the layout of a draft that reflects
what is recorded of it.  So every row that was written reads back what its writer
had been set to (`read_of_written`).
-/

namespace ColumnStore

/-- A call of a writer. -/
inductive RowCall where
  | clear (writer : Nat)
  | setColumn (writer cid : Nat) (t : ColumnType) (v : Option t.Value)
  | setNamed (writer : Nat) (name : String) (t : ColumnType) (v : Option t.Value)
  | markDelete (writer : Nat)
  | write (writer : Nat)

/-- A batch and the drafts of its writers. -/
structure RowSession where
  batch : RowBatch
  drafts : Nat → RowDraft
  /-- What each writer's columns are set to. -/
  settings : Nat → Settings
  /-- The rows that were written: where, and what their writers had been set to. -/
  written : List (Nat × Settings)
  /-- What became of each call. -/
  outcomes : List (Outcome Unit)

namespace RowSession

/-- No writer has set a column yet, and the batch may hold rows already. -/
def start (schema : Schema) (batch : RowBatch) : RowSession where
  batch
  drafts _ := RowDraft.new schema
  settings _ _ := none
  written := []
  outcomes := []

/-- The session after a column was set, or was refused to be. -/
def set (s : RowSession) (writer : Nat) (result : Except Error Unit × RowDraft)
    (settings : Settings) : RowSession :=
  { s with
    drafts := Function.update s.drafts writer result.2
    settings := Function.update s.settings writer
      (match result.1 with
       | .ok () => settings
       | .error _ => s.settings writer)
    outcomes := s.outcomes ++ [liftM result.1] }

def step (s : RowSession) : RowCall → RowSession
  | .clear writer =>
    { s with
      drafts := Function.update s.drafts writer (s.drafts writer).clear
      settings := Function.update s.settings writer fun _ => none
      outcomes := s.outcomes ++ [.ok ()] }
  | .setColumn writer cid t v =>
    s.set writer ((s.drafts writer).setColumn cid t v)
      (Function.update (s.settings writer) cid (some ⟨t, v⟩))
  | .setNamed writer name t v =>
    s.set writer ((s.drafts writer).setNamed name t v)
      (match s.batch.schema.columns.toList.find? (·.name == name) with
       | some column => Function.update (s.settings writer) column.cid (some ⟨t, v⟩)
       | none => s.settings writer)
  | .markDelete writer =>
    { s with outcomes := s.outcomes ++ [liftM (s.drafts writer).markDelete] }
  | .write writer =>
    match (s.drafts writer).appendTo s.batch with
    | .ok batch =>
      { s with
        batch
        written := s.written ++ [(s.batch.size, s.settings writer)]
        outcomes := s.outcomes ++ [.ok ()] }
    | .error failure => { s with outcomes := s.outcomes ++ [.error failure] }

def run (s : RowSession) (calls : List RowCall) : RowSession :=
  calls.foldl step s

/-! ## What a call keeps -/

variable {schema : Schema} {s : RowSession}

/-- A row is in the batch, in the layout of a draft that reflects the settings. -/
def Holds (batch : RowBatch) (schema : Schema) (entry : Nat × Settings) : Prop :=
  ∃ draft row bitset, RowDraft.Reflects draft schema entry.2 ∧ draft.Layout row bitset ∧
    batch.row? entry.1 = some row

structure Inv (schema : Schema) (s : RowSession) : Prop where
  schema_eq : s.batch.schema = schema
  reflects : ∀ writer, (s.drafts writer).Reflects schema (s.settings writer)
  written : ∀ entry ∈ s.written, Holds s.batch schema entry
  noFault : ∀ fault, .error (.fault fault) ∉ s.outcomes

theorem inv_start {batch : RowBatch} (hbatch : batch.schema = schema) :
    Inv schema (start schema batch) := by
  refine ⟨hbatch, fun _ => RowDraft.reflects_new schema, ?_, ?_⟩
  · intro entry hentry
    simp [start] at hentry
  · intro fault
    simp [start]

/-- A writer's draft may be replaced together with its settings. -/
theorem reflects_update (h : Inv schema s) {writer : Nat} {draft : RowDraft}
    {settings : Settings} (hdraft : draft.Reflects schema settings) (w : Nat) :
    (Function.update s.drafts writer draft w).Reflects schema
      (Function.update s.settings writer settings w) := by
  by_cases hw : w = writer
  · subst hw
    rw [Function.update_self, Function.update_self]
    exact hdraft
  · rw [Function.update_of_ne hw, Function.update_of_ne hw]
    exact h.reflects w

theorem noFault_append (h : Inv schema s) {outcome : Outcome Unit}
    (ho : ∀ fault, outcome ≠ .error (.fault fault)) (fault : Fault) :
    .error (.fault fault) ∉ s.outcomes ++ [outcome] := by
  rw [List.mem_append, List.mem_singleton]
  intro hmem
  rcases hmem with hold | hnew
  · exact h.noFault fault hold
  · exact ho fault hnew.symm

/-- A call that sets a column sets it, or is refused and leaves the draft. -/
theorem Inv.set (h : Inv schema s) {writer : Nat} {result : Except Error Unit × RowDraft}
    {settings : Settings}
    (hresult : (result.1 = .ok () ∧ result.2.Reflects schema settings) ∨
      ∃ e, result = (.error e, s.drafts writer)) : Inv schema (s.set writer result settings) := by
  obtain ⟨outcome, draft⟩ := result
  rcases hresult with ⟨hok, hdraft⟩ | ⟨e, hrefused⟩
  · obtain rfl : outcome = .ok () := hok
    refine ⟨h.schema_eq, reflects_update h hdraft, h.written, noFault_append h ?_⟩
    intro fault
    simp
  · obtain ⟨rfl, rfl⟩ := Prod.mk.inj hrefused
    refine ⟨h.schema_eq, reflects_update h (h.reflects writer), h.written, noFault_append h ?_⟩
    intro fault
    simp

/-- What was written stays when a row is appended. -/
theorem Holds.append {batch batch' : RowBatch} {row : Bytes} {entry : Nat × Settings}
    (h : Holds batch schema entry) (hb : batch.append row = .ok batch') :
    Holds batch' schema entry := by
  obtain ⟨draft, held, bitset, hdraft, hlayout, hrow⟩ := h
  exact ⟨draft, held, bitset, hdraft, hlayout, RowBatch.row?_append_of_some hb hrow⟩

/-- Writing a row appends it in its layout, or is refused. -/
theorem appendTo_cases {draft : RowDraft} {settings : Settings} (batch : RowBatch)
    (h : draft.Reflects schema settings) :
    (∃ e, draft.appendTo batch = .error (.error e)) ∨
      ∃ row bitset batch', draft.appendTo batch = .ok batch' ∧ draft.Layout row bitset ∧
        batch.append row = .ok batch' := by
  unfold RowDraft.appendTo
  rcases RowDraft.encode_cases h.cells_size with ⟨e, hrefused⟩ | ⟨row, bitset, hrow, hlayout⟩
  · exact .inl ⟨e, by rw [hrefused]; rfl⟩
  · rw [hrow, ok_bind]
    cases happend : batch.append row with
    | error e => exact .inl ⟨e, rfl⟩
    | ok batch' => exact .inr ⟨row, bitset, batch', rfl, hlayout, happend⟩

theorem Inv.step (hs : schema.Numbered) (h : Inv schema s) (call : RowCall) :
    Inv schema (s.step call) := by
  cases call with
  | clear writer =>
    have hclear : (s.drafts writer).clear.Reflects schema fun _ => none := by
      rw [RowDraft.clear, (h.reflects writer).schema_eq]
      exact RowDraft.reflects_new schema
    refine ⟨h.schema_eq, reflects_update h hclear, h.written, noFault_append h ?_⟩
    intro fault
    simp
  | setColumn writer cid t v => exact h.set ((h.reflects writer).setColumn hs cid t v)
  | setNamed writer name t v =>
    apply h.set
    rw [h.schema_eq]
    rcases (h.reflects writer).setNamed hs name t v with ⟨column, hfind, hset⟩ | hrefused
    · rw [hfind]
      exact .inl hset
    · exact .inr hrefused
  | markDelete writer =>
    refine ⟨h.schema_eq, h.reflects, h.written, noFault_append h ?_⟩
    intro fault
    simp [RowDraft.markDelete]
  | write writer =>
    have hdraft := h.reflects writer
    simp only [RowSession.step]
    rcases appendTo_cases s.batch hdraft with
      ⟨e, hrefused⟩ | ⟨row, bitset, batch', hok, hlayout, happend⟩
    · rw [hrefused]
      refine ⟨h.schema_eq, h.reflects, h.written, noFault_append h ?_⟩
      intro fault
      simp
    · rw [hok]
      refine ⟨(RowBatch.schema_append happend).trans h.schema_eq, h.reflects, ?_,
        noFault_append h ?_⟩
      · intro entry hentry
        rw [List.mem_append, List.mem_singleton] at hentry
        rcases hentry with hold | rfl
        · exact (h.written entry hold).append happend
        · exact ⟨s.drafts writer, row, bitset, hdraft, hlayout,
            RowBatch.row?_append_last happend (hlayout.size_lt hdraft)⟩
      · intro fault
        simp

theorem Inv.run (hs : schema.Numbered) (h : Inv schema s) (calls : List RowCall) :
    Inv schema (s.run calls) := by
  induction calls generalizing s with
  | nil => exact h
  | cons call calls ih => exact ih (h.step hs call)

/-! ## Reading back -/

/-- Whatever the writers of a schema do, no call breaks off, and every row that was
written reads back what its writer had been set to when it was written, whatever
was read before. -/
theorem read_of_written {columns : List ColumnDef} {batch : RowBatch}
    (hschema : Schema.ofColumns columns = .ok schema) (hbatch : batch.schema = schema)
    (calls : List RowCall) :
    (∀ fault, .error (.fault fault) ∉ ((start schema batch).run calls).outcomes) ∧
      ∀ i settings, (i, settings) ∈ ((start schema batch).run calls).written →
        ∀ cursor : RowCursor, cursor.batch = ((start schema batch).run calls).batch →
          ∃ after, cursor.read i = (.ok (), after) ∧ after.Shows schema settings := by
  have hnumbered := (Schema.ofColumns_eq_ok hschema).1
  have h := (inv_start hbatch).run hnumbered calls
  refine ⟨h.noFault, ?_⟩
  intro i settings hentry cursor hcursor
  obtain ⟨draft, row, bitset, hdraft, hlayout, hrow⟩ := h.written _ hentry
  rw [← hcursor] at hrow
  exact RowCursor.read_of_layout hnumbered hdraft hlayout (hcursor ▸ h.schema_eq) hrow

/-! ## A batch of trades -/

def tradeColumns : List ColumnDef :=
  [{ cid := 1, name := "id", type := .int, isKey := true },
   { cid := 2, name := "venue", type := .smallInt, nullable := true },
   { cid := 3, name := "price", type := .double, nullable := true }]

def tradeSchema : Schema :=
  (Schema.ofColumns tradeColumns).toOption.getD Schema.empty

theorem ofColumns_tradeColumns : Schema.ofColumns tradeColumns = .ok tradeSchema := by
  have hok : (Schema.ofColumns tradeColumns).isOk = true := by decide +kernel
  exact eq_ok_of_isOk hok Schema.empty

def tradeBatch : RowBatch where
  schema := tradeSchema
  data := #[]
  starts := #[]
  maxBytes := 100
  maxRows := 2

/-- Two writers take turns.  The price of the first writer's row is a NaN with a
payload of its own, and two rows are refused, as their keys are not set. -/
def tradeCalls : List RowCall :=
  [.setColumn 0 1 .int (some 7), .setNamed 1 "venue" .smallInt (some 1), .write 1,
    .setNamed 1 "id" .int (some 8), .write 1,
    .setNamed 0 "price" .double (some 0x7FF8000000000123), .setColumn 0 2 .smallInt none,
    .setColumn 0 2 .int (some 5), .write 0, .clear 0, .write 0]

def tradeSession : RowSession := (start tradeSchema tradeBatch).run tradeCalls

theorem read_of_written_trades :
    Schema.ofColumns tradeColumns = .ok tradeSchema ∧ tradeBatch.schema = tradeSchema ∧
      ∃ settings, (1, settings) ∈ tradeSession.written ∧
        ∃ after, (RowCursor.new tradeSession.batch).read 1 = (.ok (), after) ∧
          after.Shows tradeSchema settings ∧ after.isDelete = false ∧ after.cellCount = 3 ∧
          after.value 0 .int = .ok (some 7) ∧ after.value 1 .smallInt = .ok none ∧
          after.value 2 .double = .ok (some 0x7FF8000000000123) := by
  refine ⟨ofColumns_tradeColumns, rfl, ?_⟩
  have hplace : tradeSession.written[1]?.map (·.1) = some 1 := by decide +kernel
  obtain ⟨⟨i, settings⟩, hentry, hi⟩ := Option.map_eq_some_iff.1 hplace
  obtain rfl : i = 1 := hi
  have hmem := List.mem_of_getElem? hentry
  have hbatch : tradeBatch.schema = tradeSchema := rfl
  obtain ⟨-, hall⟩ := read_of_written ofColumns_tradeColumns hbatch tradeCalls
  rw [← tradeSession] at hall
  obtain ⟨after, hread, hshows⟩ := hall 1 settings hmem _ (RowCursor.batch_new _)
  refine ⟨settings, hmem, after, hread, hshows, hshows.isDelete_eq, ?_⟩
  have hafter : ((RowCursor.new tradeSession.batch).read 1).2 = after := congrArg Prod.snd hread
  subst hafter
  refine ⟨?_, ?_, ?_, ?_⟩ <;> decide +kernel

end RowSession

end ColumnStore
