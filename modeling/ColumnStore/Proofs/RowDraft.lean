import ColumnStore.Row.Draft
import ColumnStore.Proofs.Bitset
import ColumnStore.Proofs.Schema
import Mathlib.Logic.Function.Basic

/-!
# What a draft holds and how it is encoded

`Settings` says, for each column id, what the column was last set to, if it was.
A draft reflects settings if its cells are made of them (`Reflects`), and setting
a column moves both alike.

The encoding of a draft that reflects settings never breaks off.  If it is given,
it is the length of the bit vector, the bit vector, and the values (`Layout`), and
the bits that are set are those of the set columns and of the nulls.
-/

namespace ColumnStore

/-- What a column is set to: a value of a type, or null. -/
structure Setting where
  type : ColumnType
  value : Option type.Value

/-- What each column, by its id, is set to. -/
abbrev Settings := Nat → Option Setting

/-- The cell that a setting makes. -/
def Setting.cell (s : Setting) : DraftCell :=
  match s.value with
  | none => .null
  | some v => .value (LittleEndian.encode v)

def Settings.cell (settings : Settings) (column : ColumnDef) : DraftCell :=
  match settings column.cid with
  | none => .unset
  | some s => s.cell

namespace RowDraft

variable {draft draft' : RowDraft} {schema : Schema} {settings : Settings} {column : ColumnDef}
  {t : ColumnType} {v : Option t.Value}

/-! ## Settings -/

/-- The cells of a draft are those that the settings make, and each setting suits
its column. -/
structure Reflects (draft : RowDraft) (schema : Schema) (settings : Settings) : Prop where
  schema_eq : draft.schema = schema
  cells_eq : draft.cells = schema.columns.map settings.cell
  suits : ∀ column ∈ schema.columns, ∀ s, settings column.cid = some s →
    s.type = column.type ∧ (s.value = none → column.nullable = true)

theorem Reflects.cells_size (h : draft.Reflects schema settings) :
    draft.cells.size = draft.schema.size := by
  rw [h.cells_eq, Array.size_map, h.schema_eq, Schema.size]

theorem reflects_new (schema : Schema) : (new schema).Reflects schema fun _ => none := by
  refine ⟨rfl, ?_, ?_⟩
  · apply Array.ext'
    have hunset : Settings.cell (fun _ => none) = fun _ => DraftCell.unset := rfl
    simp only [new, hunset, Schema.size, Array.toList_replicate, Array.toList_map, List.map_const',
      Array.length_toList]
  · intro column _ s hs
    simp at hs

/-- A cell is made only of a value of the column's own type, or of a null where
nulls are allowed. -/
theorem cellFor_eq_ok {cell : DraftCell} (h : cellFor column t v = .ok cell) :
    t = column.type ∧ (v = none → column.nullable = true) ∧ cell = Setting.cell ⟨t, v⟩ := by
  unfold cellFor at h
  split at h
  · simp at h
  · rename_i htype
    refine ⟨Decidable.not_not.1 htype, ?_⟩
    cases v with
    | some v =>
      obtain rfl := Except.ok.inj h
      exact ⟨by simp, rfl⟩
    | none =>
      by_cases hn : column.nullable = true
      · simp only [hn, if_true] at h
        obtain rfl := Except.ok.inj h
        exact ⟨fun _ => hn, rfl⟩
      · simp [hn] at h

/-- A column that is set is set in the settings, and a refused value leaves the
draft. -/
theorem Reflects.setColumn (hs : schema.Numbered) (h : draft.Reflects schema settings)
    (cid : Nat) (t : ColumnType) (v : Option t.Value) :
    ((draft.setColumn cid t v).1 = .ok () ∧ (draft.setColumn cid t v).2.Reflects schema
        (Function.update settings cid (some ⟨t, v⟩))) ∨
      ∃ e, draft.setColumn cid t v = (.error e, draft) := by
  unfold RowDraft.setColumn
  rw [h.schema_eq]
  cases hcolumn : schema.column? cid with
  | none => exact .inr ⟨_, rfl⟩
  | some column =>
    cases hcell : cellFor column t v with
    | error e => exact .inr ⟨e, by simp only [hcell]⟩
    | ok cell =>
      obtain ⟨htype, hnull, hmade⟩ := cellFor_eq_ok hcell
      obtain ⟨_, hcid, hplace⟩ := hs.getElem?_of_column? hcolumn
      have hpos : 0 < cid := hcid ▸ hs.cid_pos (Array.mem_of_getElem? hplace)
      left
      simp only [hcell]
      refine ⟨trivial, rfl, ?_, ?_⟩
      · apply Array.ext_getElem?
        intro i
        rw [h.cells_eq, Array.getElem?_setIfInBounds, Array.getElem?_map, Array.getElem?_map,
          Array.size_map]
        by_cases hi : cid - 1 = i
        · subst hi
          rw [if_pos rfl, if_pos (Array.getElem?_eq_some_iff.1 hplace).1, hplace, Option.map_some,
            Settings.cell, hcid, Function.update_self, hmade]
        · rw [if_neg hi]
          cases hother : schema.columns[i]? with
          | none => rfl
          | some other =>
            have hne : other.cid ≠ cid := by
              rw [hs.cid_eq hother]
              omega
            rw [Option.map_some, Option.map_some, Settings.cell, Settings.cell,
              Function.update_of_ne hne]
      · intro other hother s hset
        by_cases hsame : other.cid = cid
        · have hfound := hs.column?_cid hother
          rw [hsame, hcolumn] at hfound
          obtain rfl := Option.some.inj hfound
          rw [hsame, Function.update_self] at hset
          obtain rfl := Option.some.inj hset
          exact ⟨htype, hnull⟩
        · rw [Function.update_of_ne hsame] at hset
          exact h.suits other hother s hset

/-- A column that is set by its name is the one with that name. -/
theorem Reflects.setNamed (hs : schema.Numbered) (h : draft.Reflects schema settings)
    (name : String) (t : ColumnType) (v : Option t.Value) :
    (∃ column, schema.columns.toList.find? (·.name == name) = some column ∧
        (draft.setNamed name t v).1 = .ok () ∧ (draft.setNamed name t v).2.Reflects schema
          (Function.update settings column.cid (some ⟨t, v⟩))) ∨
      ∃ e, draft.setNamed name t v = (.error e, draft) := by
  unfold RowDraft.setNamed
  rw [h.schema_eq, hs.columnNamed?_eq]
  cases hfind : schema.columns.toList.find? (·.name == name) with
  | none => exact .inr ⟨_, rfl⟩
  | some column =>
    rcases h.setColumn hs column.cid t v with hset | hrefused
    · exact .inl ⟨column, rfl, hset⟩
    · exact .inr hrefused

end RowDraft

end ColumnStore
