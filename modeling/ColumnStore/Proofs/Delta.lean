import ColumnStore.Delta.Updates
import ColumnStore.Layers
import ColumnStore.Proofs.Buffer
import ColumnStore.Proofs.RowIndex

/-!
# Deltas and the updates they were committed from

Updates are collected by calls, and a refused call leaves what was collected.
`collect_getElem?` says what has been collected for a row: the value of the
last call for it that was accepted.

`Lays` relates a delta to the rows it was committed from: the index has their
ids in order, and the data and the flags stand beside it.  A delta that lays
rows answers for a row as those rows do (`Lays.find?_of_getElem?`,
`Lays.find?_of_none`, `Lays.value?_eq`).
-/

namespace ColumnStore

variable {st : ColumnType}

/-! ## Calls that collect updates -/

/-- A call that updates a row. -/
inductive RowUpdate (st : ColumnType) where
  | put (rid : RowId) (v : st.Value)
  | putNull (rid : RowId)
  | putOption (rid : RowId) (v : Option st.Value)

namespace RowUpdate

def row : RowUpdate st → RowId
  | put rid _ => rid
  | putNull rid => rid
  | putOption rid _ => rid

/-- What the row is set to, `none` for null. -/
def value : RowUpdate st → Option st.Value
  | put _ v => some v
  | putNull _ => none
  | putOption _ v => v

/-- Whether the call is accepted: a null only where nulls are allowed. -/
def accepted (nullable : Bool) (call : RowUpdate st) : Bool :=
  call.value.isSome || nullable

/-- The value of the last accepted call for a row. -/
def last? (nullable : Bool) (calls : List (RowUpdate st)) (rid : RowId) :
    Option (Option st.Value) :=
  (calls.reverse.find? fun call => call.row == rid && call.accepted nullable).map value

end RowUpdate

namespace Updates

/-- The updates after a call.  A refused call leaves them. -/
def apply (u : Updates st) (call : RowUpdate st) : Updates st :=
  let outcome : Except Error (Updates st) :=
    match call with
    | .put rid v => .ok (u.put rid v)
    | .putNull rid => u.putNull rid
    | .putOption rid v => u.putOption rid v
  match outcome with
  | .ok u' => u'
  | .error _ => u

/-- The updates that calls have collected for a column. -/
def collect (column : ColumnDef) (calls : List (RowUpdate st)) : Updates st :=
  calls.foldl apply (new st column)

/-- An accepted call sets its row, a refused one does nothing. -/
theorem apply_eq (u : Updates st) (call : RowUpdate st) :
    u.apply call =
      if call.accepted u.nullable then { u with rows := u.rows.insert call.row call.value }
      else u := by
  have hnull : ∀ rid, (match u.putNull rid with | .ok u' => u' | .error _ => u) =
      if u.nullable = true then { u with rows := u.rows.insert rid none } else u := by
    intro rid
    by_cases hn : u.nullable = true
    · simp [putNull, hn]
    · simp [putNull, hn]
  cases call with
  | put rid v => simp [apply, put, RowUpdate.accepted, RowUpdate.value, RowUpdate.row]
  | putNull rid =>
    have h := hnull rid
    simpa [apply, RowUpdate.accepted, RowUpdate.value, RowUpdate.row] using h
  | putOption rid v =>
    cases v with
    | none =>
      have h := hnull rid
      simpa [apply, putOption, RowUpdate.accepted, RowUpdate.value, RowUpdate.row] using h
    | some v => simp [apply, putOption, put, RowUpdate.accepted, RowUpdate.value, RowUpdate.row]

theorem collect_append (column : ColumnDef) (calls : List (RowUpdate st)) (call : RowUpdate st) :
    collect column (calls ++ [call]) = (collect column calls).apply call := by
  simp [collect]

theorem collect_nullable (column : ColumnDef) (calls : List (RowUpdate st)) :
    (collect column calls).nullable = column.nullable := by
  induction calls using List.reverseRecOn with
  | nil => rfl
  | append_singleton calls call ih =>
    rw [collect_append, apply_eq]
    split
    · exact ih
    · exact ih

/-- What is collected for a row is the value of the last accepted call for it. -/
theorem collect_getElem? (column : ColumnDef) (calls : List (RowUpdate st)) (rid : RowId) :
    (collect column calls).rows[rid]? = RowUpdate.last? column.nullable calls rid := by
  induction calls using List.reverseRecOn with
  | nil => simp [collect, new, RowUpdate.last?]
  | append_singleton calls call ih =>
    have hlast : RowUpdate.last? column.nullable (calls ++ [call]) rid =
        if call.row = rid ∧ call.accepted column.nullable = true then some call.value
        else RowUpdate.last? column.nullable calls rid := by
      by_cases hrow : call.row = rid <;> by_cases hok : call.accepted column.nullable = true <;>
        simp [RowUpdate.last?, hrow, hok]
    rw [hlast, collect_append, apply_eq, collect_nullable]
    by_cases hok : call.accepted column.nullable = true
    · rw [if_pos hok]
      simp only [Std.TreeMap.getElem?_insert, ih, hok, and_true, Std.LawfulEqCmp.compare_eq_iff_eq]
    · rw [if_neg hok, if_neg (fun h => hok h.2), ih]

/-- A null is collected only for a column that allows nulls. -/
theorem nullable_of_collect {column : ColumnDef} {calls : List (RowUpdate st)} {rid : RowId}
    (h : (collect column calls).rows[rid]? = some none) : column.nullable = true := by
  rw [collect_getElem?, RowUpdate.last?, Option.map_eq_some_iff] at h
  obtain ⟨call, hcall, hvalue⟩ := h
  have haccepted := List.find?_some hcall
  have hboth : call.row = rid ∧ column.nullable = true := by
    simpa [RowUpdate.accepted, hvalue] using haccepted
  exact hboth.2

end Updates

/-! ## The rows a delta lays out -/

namespace Delta

variable {d : Delta} {rows : Std.TreeMap RowId (Option st.Value)} {rid : RowId} {p : Nat}

/-- The delta holds the given rows, in the order of their ids, with the value of
each and, beside it, whether it is null.  Without flags no row is null. -/
structure Lays (d : Delta) (rows : Std.TreeMap RowId (Option st.Value)) : Prop where
  storage_eq : d.storage = st
  index_eq : RowIndex.ofRowIds (rows.toList.map (·.1)).toArray = .ok d.index
  small : rows.toList.length < 2 ^ 32
  data : d.data.Holds rows.toList.length st.width
  element : ∀ {p rid v}, rows.toList[p]? = some (rid, v) → d.data.element st.width p = v.getD 0
  flags : ∀ flags, d.nulls = some flags → flags.Holds rows.toList.length 1 ∧
    ∀ {p rid v}, rows.toList[p]? = some (rid, v) →
      flags.element 1 p = if v.isNone then 1 else 0
  noFlags : d.nulls = none → ∀ rid : RowId, rows[rid]? ≠ some none

/-- What a commit is made of. -/
theorem commit_eq_ok {u : Updates st} {version : Nat} (h : u.commit version = .ok d) :
    d.version = version ∧ d.storage = st ∧
      RowIndex.ofRowIds (u.rows.toList.map (·.1)).toArray = .ok d.index ∧
      Buffer.ofValues (u.rows.toList.map fun (_, v) => v.getD 0).toArray = .ok d.data ∧
      (u.nullable = false ∧ d.nulls = none ∨ u.nullable = true ∧ ∃ flags, d.nulls = some flags ∧
        Buffer.ofValues (u.rows.toList.map fun (_, v) =>
          if v.isNone then (1 : BitVec (8 * 1)) else 0).toArray = .ok flags) := by
  simp only [Updates.commit, bind_eq_ok] at h
  obtain ⟨index, hindex, data, hdata, h⟩ := h
  cases hn : u.nullable with
  | false =>
    simp only [hn, Bool.false_eq_true, if_false, pure_eq_ok, ok_bind] at h
    obtain rfl := Except.ok.inj h
    exact ⟨rfl, rfl, hindex, hdata, .inl ⟨rfl, rfl⟩⟩
  | true =>
    simp only [hn, if_true, bind_eq_ok, map_eq_ok] at h
    obtain ⟨_, ⟨flags, hflags, rfl⟩, h⟩ := h
    obtain rfl := Except.ok.inj h
    exact ⟨rfl, rfl, hindex, hdata, .inr ⟨rfl, flags, rfl, hflags⟩⟩

/-- A committed delta lays the rows that were collected. -/
theorem lays_of_commit {u : Updates st} {version : Nat} (h : u.commit version = .ok d)
    (hsmall : u.rows.toList.length < 2 ^ 32)
    (hnull : u.nullable = false → ∀ rid : RowId, u.rows[rid]? ≠ some none) : d.Lays u.rows := by
  obtain ⟨_, hstorage, hindex, hdata, hnulls⟩ := commit_eq_ok h
  have hholds := Buffer.holds_of_ofValues hdata
  rw [List.size_toArray, List.length_map] at hholds
  refine ⟨hstorage, hindex, hsmall, hholds, ?_, ?_, ?_⟩
  · intro p rid v hp
    apply Buffer.element_of_ofValues hdata
    simp [hp]
  · intro flags hflags
    rcases hnulls with ⟨_, hnone⟩ | ⟨_, flags', hsome, hvalues⟩
    · rw [hnone] at hflags
      simp at hflags
    · obtain rfl : flags' = flags := by simpa [hsome] using hflags
      have hholdsF := Buffer.holds_of_ofValues hvalues
      rw [List.size_toArray, List.length_map] at hholdsF
      refine ⟨hholdsF, ?_⟩
      intro p rid v hp
      apply Buffer.element_of_ofValues hvalues
      simp [hp]
  · intro hnone
    rcases hnulls with ⟨hn, _⟩ | ⟨_, flags', hsome, _⟩
    · exact hnull hn
    · rw [hnone] at hsome
      simp at hsome

namespace Lays

theorem rids_small (h : d.Lays rows) : (rows.toList.map (·.1)).toArray.size < 2 ^ 32 := by
  rw [List.size_toArray, List.length_map]
  exact h.small

/-- A row of a map has a place in its list. -/
theorem exists_position_iff {v : Option st.Value} :
    rows[rid]? = some v ↔ ∃ p : Nat, rows.toList[p]? = some (rid, v) := by
  rw [← Std.TreeMap.mem_toList_iff_getElem?_eq_some]
  exact List.mem_iff_getElem?

theorem getElem?_rids {v : Option st.Value} (hp : rows.toList[p]? = some (rid, v)) :
    (rows.toList.map (·.1)).toArray[p]? = some rid := by
  rw [List.getElem?_toArray, List.getElem?_map, hp]
  rfl

theorem mem_rids_iff : rid ∈ (rows.toList.map (·.1)).toArray ↔ ∃ v, rows[rid]? = some v := by
  rw [List.mem_toArray, List.mem_map]
  constructor
  · intro hmem
    obtain ⟨⟨_, v⟩, hentry, rfl⟩ := hmem
    exact ⟨v, Std.TreeMap.mem_toList_iff_getElem?_eq_some.1 hentry⟩
  · intro hv
    obtain ⟨v, hv⟩ := hv
    exact ⟨(rid, v), Std.TreeMap.mem_toList_iff_getElem?_eq_some.2 hv, rfl⟩

/-- A row that was set is found where it stands. -/
theorem find?_of_getElem? (h : d.Lays rows) {v : Option st.Value}
    (hp : rows.toList[p]? = some (rid, v)) : d.find? rid = .ok (some p) :=
  RowIndex.find?_of_getElem? h.index_eq h.rids_small (getElem?_rids hp)

/-- A row that was not set is not found. -/
theorem find?_of_none (h : d.Lays rows) (hrid : rows[rid]? = none) : d.find? rid = .ok none := by
  apply RowIndex.find?_of_not_mem h.index_eq h.rids_small
  rw [mem_rids_iff, hrid]
  simp

/-- The flag of a row is set if the row was set to null. -/
theorem isNull_eq (h : d.Lays rows) {v : Option st.Value}
    (hp : rows.toList[p]? = some (rid, v)) : d.isNull p = .ok v.isNone := by
  have hlt : p < rows.toList.length := (List.getElem?_eq_some_iff.1 hp).1
  cases hn : d.nulls with
  | none =>
    have hsome := h.noFlags hn rid
    cases v with
    | none => exact absurd (exists_position_iff.2 ⟨p, hp⟩) hsome
    | some v => simp [isNull, hn]
  | some flags =>
    obtain ⟨hholds, helement⟩ := h.flags flags hn
    have hread := Buffer.read_of_lt hholds hlt
    rw [helement hp] at hread
    cases v with
    | none => simp [isNull, hn, hread]
    | some v => simp [isNull, hn, hread]

theorem read_eq (h : d.Lays rows) {v : Option st.Value}
    (hp : rows.toList[p]? = some (rid, v)) : d.data.read st.width p = .ok (v.getD 0) := by
  have hlt : p < rows.toList.length := (List.getElem?_eq_some_iff.1 hp).1
  rw [Buffer.read_of_lt h.data hlt, h.element hp]

/-- The update found for a row is the one that was collected for it. -/
theorem value?_eq (h : d.Lays rows) {v : Option st.Value} {nullable : Bool}
    (hflags : d.nulls.isSome = true → nullable = true) (hp : rows.toList[p]? = some (rid, v)) :
    d.value? st nullable p = .ok v := by
  cases nullable with
  | true =>
    cases v with
    | none => simp [Delta.value?, h.isNull_eq hp]
    | some v => simp [Delta.value?, h.isNull_eq hp, h.read_eq hp]
  | false =>
    have hn : d.nulls = none := by simpa using hflags
    cases v with
    | none => exact absurd (exists_position_iff.2 ⟨p, hp⟩) (h.noFlags hn rid)
    | some v => simp [Delta.value?, h.read_eq hp]

end Lays

end Delta

end ColumnStore
