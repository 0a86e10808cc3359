import ColumnStore.Schema.Basic
import ColumnStore.Proofs.Outcome

/-!
# Schemas that were checked

A schema that is built of a list of columns has those columns, in order.  Their
ids count from 1, the map of names has exactly the names and ids of the columns,
and the key columns are the first of them (`Numbered`).  So a column is found by
its id or by its name if there is one, and else not (`column?_cid`,
`getElem?_of_column?`, `columnNamed?_eq`).
-/

namespace ColumnStore.Schema

variable {schema : Schema} {column : ColumnDef} {columns : List ColumnDef} {i : Nat}

/-- What is kept as columns are appended. -/
structure Numbered (schema : Schema) : Prop where
  cid_eq : ∀ {i : Nat} {column : ColumnDef}, schema.columns[i]? = some column → column.cid = i + 1
  named : ∀ (name : String) (cid : Nat), schema.cidOf[name]? = some cid ↔
    ∃ column ∈ schema.columns, column.name = name ∧ column.cid = cid
  keyCount_le : schema.keyCount ≤ schema.columns.size
  isKey_iff : ∀ {i : Nat} {column : ColumnDef}, schema.columns[i]? = some column →
    (column.isKey = true ↔ i < schema.keyCount)

theorem numbered_empty : Numbered empty := by
  refine ⟨?_, ?_, Nat.le_refl 0, ?_⟩
  · intro i column hi
    simp [empty] at hi
  · intro name cid
    simp [empty]
  · intro i column hi
    simp [empty] at hi

/-- What is asked of a column for it to follow those of a schema. -/
structure Accepts (schema : Schema) (column : ColumnDef) : Prop where
  cid_eq : column.cid = schema.columns.size + 1
  keysFirst : column.isKey = true → schema.keyCount = schema.columns.size
  keyNotNull : column.isKey = true → column.nullable = false
  newName : column.name ∉ schema.cidOf

/-- A column is appended exactly if it is accepted, and comes last then. -/
theorem append_eq_ok_iff {schema' : Schema} :
    schema.append column = .ok schema' ↔ schema.Accepts column ∧
      schema' = { columns := schema.columns.push column
                  cidOf := schema.cidOf.insert column.name column.cid
                  keyCount := if column.isKey then schema.keyCount + 1 else schema.keyCount } := by
  unfold append
  dsimp only
  by_cases hcid : column.cid ≠ schema.columns.size + 1
  · rw [if_pos hcid]
    exact iff_of_false nofun fun h => hcid h.1.cid_eq
  · rw [if_neg hcid]
    by_cases hlate : column.isKey = true ∧ schema.keyCount ≠ schema.columns.size
    · rw [if_pos hlate]
      exact iff_of_false nofun fun h => hlate.2 (h.1.keysFirst hlate.1)
    · rw [if_neg hlate]
      by_cases hnull : column.isKey = true ∧ column.nullable = true
      · rw [if_pos hnull]
        exact iff_of_false nofun fun h => Bool.noConfusion
          (hnull.2.symm.trans (h.1.keyNotNull hnull.1))
      · rw [if_neg hnull]
        by_cases hname : column.name ∈ schema.cidOf
        · rw [if_pos hname]
          exact iff_of_false nofun fun h => h.1.newName hname
        · rw [if_neg hname, Except.ok.injEq, eq_comm]
          have haccepts : schema.Accepts column := by
            refine ⟨Decidable.not_not.1 hcid, ?_, ?_, hname⟩
            · intro hkey
              exact Decidable.not_not.1 fun hne => hlate ⟨hkey, hne⟩
            · intro hkey
              exact Bool.eq_false_iff.2 fun htrue => hnull ⟨hkey, htrue⟩
          exact (and_iff_right haccepts).symm

/-- A column that is appended has the next id and a name of its own, and if it is a key
column, so are all before it. -/
theorem append_eq_ok {schema' : Schema} (h : schema.append column = .ok schema') :
    column.cid = schema.columns.size + 1 ∧ column.name ∉ schema.cidOf ∧
      (column.isKey = true → schema.keyCount = schema.columns.size) ∧
      schema'.columns = schema.columns.push column ∧
      schema'.cidOf = schema.cidOf.insert column.name column.cid ∧
      schema'.keyCount = if column.isKey then schema.keyCount + 1 else schema.keyCount := by
  obtain ⟨haccepts, rfl⟩ := append_eq_ok_iff.1 h
  exact ⟨haccepts.cid_eq, haccepts.newName, haccepts.keysFirst, rfl, rfl, rfl⟩

theorem Numbered.append {schema' : Schema} (hs : schema.Numbered)
    (h : schema.append column = .ok schema') : schema'.Numbered := by
  obtain ⟨hcid, hname, hfirst, hcolumns, hcidOf, hcount⟩ := append_eq_ok h
  have hle := hs.keyCount_le
  refine ⟨?_, ?_, ?_, ?_⟩
  · intro i c hi
    rw [hcolumns, Array.getElem?_push] at hi
    split at hi
    · rename_i hlast
      obtain rfl := Option.some.inj hi
      rw [hcid, hlast]
    · exact hs.cid_eq hi
  · intro name cid
    rw [hcolumns, hcidOf, Std.TreeMap.getElem?_insert]
    split
    · rename_i heq
      have hsame : column.name = name := Std.LawfulEqCmp.eq_of_compare heq
      constructor
      · intro hsome
        exact ⟨column, Array.mem_push_self, hsame, Option.some.inj hsome⟩
      · intro hex
        obtain ⟨other, hother, hothername, hothercid⟩ := hex
        rcases Array.mem_push.1 hother with hold | rfl
        · -- A column with this name before would have refused it.
          have hfound := (hs.named name cid).2 ⟨other, hold, hothername, hothercid⟩
          rw [Std.TreeMap.mem_iff_isSome_getElem?, hsame, hfound] at hname
          simp at hname
        · rw [hothercid]
    · rename_i hne
      rw [hs.named name cid]
      constructor
      · intro hex
        obtain ⟨other, hother, hrest⟩ := hex
        exact ⟨other, Array.mem_push_of_mem column hother, hrest⟩
      · intro hex
        obtain ⟨other, hother, hothername, hothercid⟩ := hex
        rcases Array.mem_push.1 hother with hold | rfl
        · exact ⟨other, hold, hothername, hothercid⟩
        · exact absurd (Std.LawfulEqCmp.compare_eq_iff_eq.2 hothername) hne
  · rw [hcount, hcolumns, Array.size_push]
    split
    · exact Nat.succ_le_succ hle
    · exact Nat.le_succ_of_le hle
  · intro i c hi
    rw [hcolumns, Array.getElem?_push] at hi
    rw [hcount]
    split at hi
    · rename_i hlast
      obtain rfl := Option.some.inj hi
      cases hkey : column.isKey with
      | true =>
        have := hfirst hkey
        simp only [if_true, true_iff]
        omega
      | false =>
        simp only [Bool.false_eq_true, if_false, false_iff]
        omega
    · -- An earlier column keeps its place before or after the last key column.
      have hin := (Array.getElem?_eq_some_iff.1 hi).1
      rw [hs.isKey_iff hi]
      split
      · rename_i hkey
        have := hfirst hkey
        omega
      · exact Iff.rfl

theorem foldlM_append_eq_ok {schema' : Schema} (hs : schema.Numbered)
    (h : columns.foldlM append schema = .ok schema') :
    schema'.Numbered ∧ schema'.columns.toList = schema.columns.toList ++ columns := by
  induction columns generalizing schema with
  | nil =>
    obtain rfl := Except.ok.inj h
    exact ⟨hs, by simp⟩
  | cons column columns ih =>
    rw [List.foldlM_cons] at h
    obtain ⟨next, hnext, hrest⟩ := bind_eq_ok.1 h
    obtain ⟨hnumbered, hcolumns⟩ := ih (hs.append hnext) hrest
    refine ⟨hnumbered, ?_⟩
    rw [hcolumns, (append_eq_ok hnext).2.2.2.1, Array.toList_push, List.append_assoc,
      List.singleton_append]

/-- A schema has the columns it is built of. -/
theorem ofColumns_eq_ok (h : ofColumns columns = .ok schema) :
    schema.Numbered ∧ schema.columns.toList = columns := by
  unfold ofColumns at h
  split at h
  · simp at h
  · obtain ⟨built, hbuilt, h⟩ := bind_eq_ok.1 h
    obtain ⟨hnumbered, hcolumns⟩ := foldlM_append_eq_ok numbered_empty hbuilt
    split at h
    · simp at h
    · obtain rfl := Except.ok.inj h
      exact ⟨hnumbered, hcolumns⟩

/-! ## Looking a column up -/

namespace Numbered

theorem ascending (hs : schema.Numbered) :
    schema.columns.toList.Pairwise (·.cid < ·.cid) := by
  rw [List.pairwise_iff_getElem]
  intro i j hi hj hij
  have hcid : ∀ k (hk : k < schema.columns.toList.length),
      schema.columns.toList[k].cid = k + 1 := by
    intro k hk
    apply hs.cid_eq
    rw [← Array.getElem?_toList, List.getElem?_eq_getElem hk]
  rw [hcid i hi, hcid j hj]
  omega

theorem cid_pos (hs : schema.Numbered) (hcolumn : column ∈ schema.columns) : 0 < column.cid := by
  obtain ⟨i, hi⟩ := Array.getElem?_of_mem hcolumn
  rw [hs.cid_eq hi]
  exact Nat.succ_pos i

/-- A column is found under its id. -/
theorem column?_cid (hs : schema.Numbered) (hcolumn : column ∈ schema.columns) :
    schema.column? column.cid = some column := by
  obtain ⟨i, hi⟩ := Array.getElem?_of_mem hcolumn
  have hpos : ¬ column.cid = deleteCid := Nat.ne_of_gt (hs.cid_pos hcolumn)
  rw [column?, if_neg hpos, hs.cid_eq hi, Nat.add_sub_cancel, hi]

/-- What is found under an id has that id. -/
theorem getElem?_of_column? {cid : Nat} (hs : schema.Numbered)
    (h : schema.column? cid = some column) :
    column ∈ schema.columns ∧ column.cid = cid ∧ schema.columns[cid - 1]? = some column := by
  unfold column? at h
  split at h
  · simp at h
  · rename_i hpos
    refine ⟨Array.mem_of_getElem? h, ?_, h⟩
    rw [hs.cid_eq h]
    simp only [deleteCid] at hpos
    omega

/-- The column found under a name is the one that has it. -/
theorem columnNamed?_eq (hs : schema.Numbered) (name : String) :
    schema.columnNamed? name = schema.columns.toList.find? (·.name == name) := by
  unfold columnNamed?
  cases hfind : schema.columns.toList.find? (·.name == name) with
  | some column =>
    have hmem := Array.mem_toList_iff.1 (List.mem_of_find?_eq_some hfind)
    have hname : column.name = name := by simpa using List.find?_some hfind
    rw [(hs.named name column.cid).2 ⟨column, hmem, hname, rfl⟩, Option.bind_some,
      hs.column?_cid hmem]
  | none =>
    cases hcid : schema.cidOf[name]? with
    | none => rfl
    | some cid =>
      obtain ⟨column, hmem, hname, _⟩ := (hs.named name cid).1 hcid
      have hnot := List.find?_eq_none.1 hfind column (Array.mem_toList_iff.2 hmem)
      simp [hname] at hnot

end Numbered

end ColumnStore.Schema
