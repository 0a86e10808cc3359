import ColumnStore.Proofs.Schema
import Mathlib.Data.List.Induction
import Mathlib.Data.List.Nodup

/-!
# Which columns form a schema

Columns are taken in one at a time, and each is checked against those before it alone.
All of them are taken exactly if the list as a whole is valid (`Valid`): ids count from 1,
the key columns are the first ones and allow no nulls, and no two names are equal.  The
step is `valid_append_singleton_iff`, which says of one column more what the check of that
column says, and the run is `exists_foldlM_append_iff`.  A schema then asks for one key
column at least.

A column is found by its id and by its name exactly if it is one of the list
(`Numbered.column?_eq_some_iff`, `Numbered.columnNamed?_eq_some_iff`).
-/

namespace ColumnStore.Schema

variable {schema : Schema} {column : ColumnDef} {columns : List ColumnDef} {keyCount : Nat}

/-! ## Valid lists of columns -/

/-- The ids of the columns count from 1, the key columns are the first `keyCount` of them and
allow no nulls, and each has a name of its own. -/
structure Valid (columns : List ColumnDef) (keyCount : Nat) : Prop where
  cid_eq : ∀ {i : Nat} {column : ColumnDef}, columns[i]? = some column → column.cid = i + 1
  keyCount_le : keyCount ≤ columns.length
  isKey_iff : ∀ {i : Nat} {column : ColumnDef}, columns[i]? = some column →
    (column.isKey = true ↔ i < keyCount)
  keyNotNull : ∀ column ∈ columns, column.isKey = true → column.nullable = false
  distinct : (columns.map (·.name)).Nodup

/-- Validity, read off the columns and their positions. -/
theorem valid_iff :
    Valid columns keyCount ↔
      (∀ p ∈ columns.zipIdx, p.1.cid = p.2 + 1 ∧ (p.1.isKey = true ↔ p.2 < keyCount)) ∧
        keyCount ≤ columns.length ∧
        (∀ column ∈ columns, column.isKey = true → column.nullable = false) ∧
        (columns.map (·.name)).Nodup := by
  constructor
  · intro h
    refine ⟨?_, h.keyCount_le, h.keyNotNull, h.distinct⟩
    intro p hp
    have hi := List.mem_zipIdx_iff_getElem?.1 hp
    exact ⟨h.cid_eq hi, h.isKey_iff hi⟩
  · rintro ⟨hplaces, hle, hnull, hdistinct⟩
    have hplace : ∀ {i : Nat} {column : ColumnDef}, columns[i]? = some column →
        column.cid = i + 1 ∧ (column.isKey = true ↔ i < keyCount) :=
      fun {i column} hi => hplaces (column, i) (List.mem_zipIdx_iff_getElem?.2 hi)
    exact ⟨fun hi => (hplace hi).1, hle, fun hi => (hplace hi).2, hnull, hdistinct⟩

instance (columns : List ColumnDef) (keyCount : Nat) : Decidable (Valid columns keyCount) :=
  decidable_of_iff _ valid_iff.symm

/-- What is asked of a column for it to follow others, of which the first `keyCount` are key
columns. -/
structure Follows (columns : List ColumnDef) (keyCount : Nat) (column : ColumnDef) : Prop where
  cid_eq : column.cid = columns.length + 1
  keysFirst : column.isKey = true → keyCount = columns.length
  keyNotNull : column.isKey = true → column.nullable = false
  newName : column.name ∉ columns.map (·.name)

theorem valid_nil_iff : Valid [] keyCount ↔ keyCount = 0 := by
  constructor
  · intro h
    exact Nat.le_zero.1 h.keyCount_le
  · rintro rfl
    exact ⟨by simp, Nat.le_refl 0, by simp, by simp, List.nodup_nil⟩

theorem getElem?_append_singleton_eq_some {i : Nat} {c : ColumnDef}
    (h : (columns ++ [column])[i]? = some c) :
    columns[i]? = some c ∨ i = columns.length ∧ c = column := by
  rcases Nat.lt_trichotomy i columns.length with hlt | rfl | hgt
  · rw [List.getElem?_append_left hlt] at h
    exact .inl h
  · rw [List.getElem?_concat_length] at h
    exact .inr ⟨rfl, (Option.some.inj h).symm⟩
  · have hin := (List.getElem?_eq_some_iff.1 h).1
    rw [List.length_append, List.length_singleton] at hin
    omega

/-- A column that follows a valid list makes it longer by one. -/
theorem Valid.append_singleton (h : Valid columns keyCount)
    (hfollows : Follows columns keyCount column) :
    Valid (columns ++ [column]) (if column.isKey then keyCount + 1 else keyCount) := by
  have hle := h.keyCount_le
  refine ⟨?_, ?_, ?_, ?_, ?_⟩
  · intro i c hi
    rcases getElem?_append_singleton_eq_some hi with hold | ⟨rfl, rfl⟩
    · exact h.cid_eq hold
    · exact hfollows.cid_eq
  · rw [List.length_append, List.length_singleton]
    split <;> omega
  · intro i c hi
    have hkeys := hfollows.keysFirst
    rcases getElem?_append_singleton_eq_some hi with hold | ⟨rfl, rfl⟩
    · have hin := (List.getElem?_eq_some_iff.1 hold).1
      rw [h.isKey_iff hold]
      cases hkey : column.isKey with
      | true =>
        have hall := hkeys hkey
        rw [if_pos rfl]
        omega
      | false => rfl
    · cases hkey : c.isKey with
      | true =>
        have hall := hkeys hkey
        rw [if_pos rfl]
        exact iff_of_true rfl (by omega)
      | false => exact iff_of_false nofun (by rw [if_neg nofun]; omega)
  · intro c hc
    rcases List.mem_append.1 hc with hold | hnew
    · exact h.keyNotNull c hold
    · obtain rfl := List.mem_singleton.1 hnew
      exact hfollows.keyNotNull
  · rw [List.map_append, List.map_singleton]
    refine List.nodup_append.2 ⟨h.distinct, List.nodup_singleton _, ?_⟩
    rintro name hname other hother rfl
    obtain rfl := List.mem_singleton.1 hother
    exact hfollows.newName hname

/-- Without its last column a valid list is valid, and that column follows the others. -/
theorem Valid.of_append_singleton (h : Valid (columns ++ [column]) keyCount) :
    ∃ before, Valid columns before ∧ Follows columns before column ∧
      keyCount = if column.isKey then before + 1 else before := by
  have hkept : ∀ {i : Nat} {c : ColumnDef}, columns[i]? = some c →
      (columns ++ [column])[i]? = some c := by
    intro i c hi
    rw [List.getElem?_append_left (List.getElem?_eq_some_iff.1 hi).1, hi]
  have hlast : (columns ++ [column])[columns.length]? = some column :=
    List.getElem?_concat_length
  have hle : keyCount ≤ columns.length + 1 := by
    have hle := h.keyCount_le
    rwa [List.length_append, List.length_singleton] at hle
  have hkey := h.isKey_iff hlast
  have hnames := h.distinct
  rw [List.map_append, List.map_singleton, List.nodup_append] at hnames
  obtain ⟨hdistinct, _, hnew⟩ := hnames
  refine ⟨min keyCount columns.length, ⟨fun hi => h.cid_eq (hkept hi), Nat.min_le_right _ _, ?_,
    fun c hc => h.keyNotNull c (List.mem_append_left _ hc), hdistinct⟩,
    ⟨h.cid_eq hlast, ?_, h.keyNotNull column (by simp), ?_⟩, ?_⟩
  · intro i c hi
    have hin := (List.getElem?_eq_some_iff.1 hi).1
    rw [h.isKey_iff (hkept hi)]
    omega
  · intro hisKey
    have hlt := hkey.1 hisKey
    omega
  · intro hmem
    exact hnew _ hmem _ (List.mem_singleton_self _) rfl
  · split
    · rename_i hisKey
      have hlt := hkey.1 hisKey
      omega
    · rename_i hnot
      have hge := mt hkey.2 hnot
      omega

/-- One column more makes a valid list exactly if it follows one. -/
theorem valid_append_singleton_iff :
    Valid (columns ++ [column]) keyCount ↔
      ∃ before, Valid columns before ∧ Follows columns before column ∧
        keyCount = if column.isKey then before + 1 else before := by
  constructor
  · exact Valid.of_append_singleton
  · rintro ⟨before, h, hfollows, rfl⟩
    exact h.append_singleton hfollows

/-! ## Building a schema -/

theorem Numbered.mem_cidOf_iff (hs : schema.Numbered) {name : String} :
    name ∈ schema.cidOf ↔ name ∈ schema.columns.toList.map (·.name) := by
  rw [Std.TreeMap.mem_iff_isSome_getElem?, Option.isSome_iff_exists, List.mem_map]
  constructor
  · rintro ⟨cid, hcid⟩
    obtain ⟨column, hmem, hname, _⟩ := (hs.named name cid).1 hcid
    exact ⟨column, Array.mem_toList_iff.2 hmem, hname⟩
  · rintro ⟨column, hmem, hname⟩
    exact ⟨column.cid, (hs.named name _).2 ⟨column, Array.mem_toList_iff.1 hmem, hname, rfl⟩⟩

/-- What a schema checks of a column is that it follows the columns there are. -/
theorem Numbered.accepts_iff (hs : schema.Numbered) :
    schema.Accepts column ↔ Follows schema.columns.toList schema.keyCount column := by
  constructor
  · rintro ⟨hcid, hkeys, hnull, hname⟩
    exact ⟨hcid, hkeys, hnull, mt hs.mem_cidOf_iff.2 hname⟩
  · rintro ⟨hcid, hkeys, hnull, hname⟩
    exact ⟨hcid, hkeys, hnull, mt hs.mem_cidOf_iff.1 hname⟩

/-- All of a list of columns are taken exactly if the list is valid. -/
theorem exists_foldlM_append_iff :
    (∃ schema, columns.foldlM append empty = .ok schema ∧ schema.keyCount = keyCount) ↔
      Valid columns keyCount := by
  induction columns using List.reverseRecOn generalizing keyCount with
  | nil =>
    rw [valid_nil_iff, List.foldlM_nil, pure_eq_ok]
    exact ⟨fun ⟨_, hempty, hcount⟩ => hcount ▸ Except.ok.inj hempty ▸ rfl,
      fun hcount => ⟨empty, rfl, hcount.symm⟩⟩
  | append_singleton columns column ih =>
    rw [valid_append_singleton_iff, List.foldlM_append]
    simp only [List.foldlM_cons, List.foldlM_nil, bind_pure]
    constructor
    · rintro ⟨schema', hrun, hcount⟩
      obtain ⟨schema, hbefore, happend⟩ := bind_eq_ok.1 hrun
      obtain ⟨hs, hcolumns⟩ := foldlM_append_eq_ok numbered_empty hbefore
      obtain ⟨haccepts, rfl⟩ := append_eq_ok_iff.1 happend
      have hfollows := hs.accepts_iff.1 haccepts
      rw [hcolumns] at hfollows
      exact ⟨schema.keyCount, ih.1 ⟨schema, hbefore, rfl⟩, hfollows, hcount.symm⟩
    · rintro ⟨before, hvalid, hfollows, rfl⟩
      obtain ⟨schema, hbefore, rfl⟩ := ih.2 hvalid
      obtain ⟨hs, hcolumns⟩ := foldlM_append_eq_ok numbered_empty hbefore
      have haccepts : schema.Accepts column := by
        rw [hs.accepts_iff, hcolumns]
        exact hfollows
      exact ⟨_, bind_eq_ok.2 ⟨schema, hbefore, append_eq_ok_iff.2 ⟨haccepts, rfl⟩⟩, rfl⟩

/-- A schema is built of a list that is not empty, all of whose columns are taken, with a key
column among them. -/
theorem ofColumns_eq_ok_iff :
    ofColumns columns = .ok schema ↔
      columns ≠ [] ∧ columns.foldlM append empty = .ok schema ∧ 0 < schema.keyCount := by
  unfold ofColumns
  cases columns with
  | nil => exact iff_of_false nofun fun h => h.1 rfl
  | cons first rest =>
    rw [and_iff_right (List.cons_ne_nil first rest)]
    constructor
    · intro h
      obtain ⟨built, hbuilt, h⟩ := bind_eq_ok.1 h
      split at h
      · simp at h
      · rename_i hkeys
        obtain rfl := Except.ok.inj h
        exact ⟨hbuilt, Nat.pos_of_ne_zero hkeys⟩
    · rintro ⟨hbuilt, hkeys⟩
      refine bind_eq_ok.2 ⟨schema, hbuilt, ?_⟩
      rw [if_neg (Nat.ne_of_gt hkeys)]
      rfl

/-- A schema with so many key columns is built of a list exactly if the list is valid with them
and there is one. -/
theorem exists_ofColumns_iff :
    (∃ schema, ofColumns columns = .ok schema ∧ schema.keyCount = keyCount) ↔
      0 < keyCount ∧ Valid columns keyCount := by
  constructor
  · rintro ⟨schema, h, rfl⟩
    obtain ⟨_, hbuilt, hkeys⟩ := ofColumns_eq_ok_iff.1 h
    exact ⟨hkeys, exists_foldlM_append_iff.1 ⟨schema, hbuilt, rfl⟩⟩
  · rintro ⟨hkeys, hvalid⟩
    obtain ⟨schema, hbuilt, rfl⟩ := exists_foldlM_append_iff.2 hvalid
    have hne : columns ≠ [] := by
      rintro rfl
      exact Nat.ne_of_gt hkeys (valid_nil_iff.1 hvalid)
    exact ⟨schema, ofColumns_eq_ok_iff.2 ⟨hne, hbuilt, hkeys⟩, rfl⟩

theorem valid_of_ofColumns (h : ofColumns columns = .ok schema) : Valid columns schema.keyCount :=
  (exists_ofColumns_iff.1 ⟨schema, h, rfl⟩).2

/-! ## Looking columns up -/

theorem Numbered.column?_eq_some_iff (hs : schema.Numbered) {cid : Nat} :
    schema.column? cid = some column ↔ column ∈ schema.columns ∧ column.cid = cid := by
  constructor
  · intro h
    obtain ⟨hmem, hcid, _⟩ := hs.getElem?_of_column? h
    exact ⟨hmem, hcid⟩
  · rintro ⟨hmem, rfl⟩
    exact hs.column?_cid hmem

theorem Numbered.columnNamed?_eq_some_iff (hs : schema.Numbered) {name : String} :
    schema.columnNamed? name = some column ↔ column ∈ schema.columns ∧ column.name = name := by
  rw [columnNamed?, Option.bind_eq_some_iff]
  constructor
  · rintro ⟨cid, hcid, hcolumn⟩
    obtain ⟨named, hmem, hname, rfl⟩ := (hs.named name cid).1 hcid
    obtain rfl := Option.some.inj ((hs.column?_cid hmem).symm.trans hcolumn)
    exact ⟨hmem, hname⟩
  · rintro ⟨hmem, hname⟩
    exact ⟨column.cid, (hs.named name _).2 ⟨column, hmem, hname, rfl⟩, hs.column?_cid hmem⟩

/-- Past the last id there is no column. -/
theorem column?_of_size_lt {cid : Nat} (h : schema.size < cid) : schema.column? cid = none := by
  have hpos : ¬ cid = deleteCid := by
    simp only [deleteCid]
    omega
  rw [column?, if_neg hpos, Array.getElem?_eq_none]
  show schema.size ≤ cid - 1
  omega

/-- A schema is built of a list of columns exactly if the list is not empty and valid with at
least one key column.  It has the columns of the list then, and counts the key columns.  A
column is found by its id exactly if it is the one of the list with that id, and by its name
exactly if it is the one with that name, so both ways lead to the same column.  The id of the
delete marker and ids past the last column lead to none. -/
theorem ofColumns_valid_iff (columns : List ColumnDef) :
    ((∃ schema, ofColumns columns = .ok schema) ↔
      columns ≠ [] ∧ ∃ keyCount, 0 < keyCount ∧ Valid columns keyCount) ∧
    ∀ schema, ofColumns columns = .ok schema →
      schema.columns.toList = columns ∧ 0 < schema.keyCount ∧ Valid columns schema.keyCount ∧
      (∀ cid column, schema.column? cid = some column ↔ column ∈ columns ∧ column.cid = cid) ∧
      (∀ name column, schema.columnNamed? name = some column ↔
        column ∈ columns ∧ column.name = name) ∧
      (∀ column ∈ columns, schema.column? column.cid = some column ∧
        schema.columnNamed? column.name = schema.column? column.cid) ∧
      schema.column? 0 = none ∧ ∀ cid, schema.size < cid → schema.column? cid = none := by
  constructor
  · constructor
    · rintro ⟨schema, h⟩
      obtain ⟨hne, _, hkeys⟩ := ofColumns_eq_ok_iff.1 h
      exact ⟨hne, schema.keyCount, hkeys, valid_of_ofColumns h⟩
    · rintro ⟨_, keyCount, hkeys, hvalid⟩
      obtain ⟨schema, h, _⟩ := exists_ofColumns_iff.2 ⟨hkeys, hvalid⟩
      exact ⟨schema, h⟩
  · intro schema h
    obtain ⟨hs, hcolumns⟩ := ofColumns_eq_ok h
    have hmem : ∀ column, column ∈ schema.columns ↔ column ∈ columns := by
      intro column
      rw [← Array.mem_toList_iff, hcolumns]
    have hcid : ∀ cid column, schema.column? cid = some column ↔
        column ∈ columns ∧ column.cid = cid := by
      intro cid column
      rw [hs.column?_eq_some_iff, hmem]
    have hname : ∀ name column, schema.columnNamed? name = some column ↔
        column ∈ columns ∧ column.name = name := by
      intro name column
      rw [hs.columnNamed?_eq_some_iff, hmem]
    refine ⟨hcolumns, (ofColumns_eq_ok_iff.1 h).2.2, valid_of_ofColumns h, hcid, hname, ?_, rfl,
      fun cid => column?_of_size_lt⟩
    intro column hcolumn
    have hfound := (hcid column.cid column).2 ⟨hcolumn, rfl⟩
    exact ⟨hfound, ((hname column.name column).2 ⟨hcolumn, rfl⟩).trans hfound.symm⟩

/-- Two key columns and a value column. -/
def stockColumns : List ColumnDef :=
  [{ cid := 1, name := "shop", type := .int, isKey := true },
    { cid := 2, name := "item", type := .bigInt, isKey := true },
    { cid := 3, name := "count", type := .smallInt, nullable := true }]

/-- The same with the second key column after the value column. -/
def lateKeyColumns : List ColumnDef :=
  [{ cid := 1, name := "shop", type := .int, isKey := true },
    { cid := 2, name := "count", type := .smallInt, nullable := true },
    { cid := 3, name := "item", type := .bigInt, isKey := true }]

theorem not_valid_lateKeyColumns (keyCount : Nat) : ¬ Valid lateKeyColumns keyCount := by
  intro h
  have hsecond : lateKeyColumns[1]? = some lateKeyColumns[1] := rfl
  have hthird : lateKeyColumns[2]? = some lateKeyColumns[2] := rfl
  have hvalue : ¬ 1 < keyCount := fun hlt => Bool.noConfusion ((h.isKey_iff hsecond).2 hlt)
  have hkey : 2 < keyCount := (h.isKey_iff hthird).1 rfl
  omega

/-- The columns in both orders, and names and ids that no column has. -/
theorem ofColumns_valid_iff_stock :
    Valid stockColumns 2 ∧ (¬ ∃ schema, ofColumns lateKeyColumns = .ok schema) ∧
      ∃ schema column, ofColumns stockColumns = .ok schema ∧ schema.keyCount = 2 ∧
        column ∈ stockColumns ∧ schema.column? 2 = some column ∧
        schema.columnNamed? "item" = some column ∧ schema.columnNamed? "Item" = none ∧
        schema.column? 0 = none ∧ schema.column? 4 = none := by
  have hlate : ¬ ∃ schema, ofColumns lateKeyColumns = .ok schema := by
    rw [(ofColumns_valid_iff lateKeyColumns).1]
    exact fun ⟨_, keyCount, _, hvalid⟩ => not_valid_lateKeyColumns keyCount hvalid
  obtain ⟨hbuilt, hall⟩ := ofColumns_valid_iff stockColumns
  obtain ⟨schema, hschema⟩ := hbuilt.2 ⟨by decide, 2, by decide, by decide⟩
  obtain ⟨hcolumns, _, hvalid, hcid, hname, hboth, hzero, hpast⟩ := hall schema hschema
  have hmem : stockColumns[1] ∈ stockColumns := List.getElem_mem _
  have hcount : schema.keyCount = 2 := by
    have hsecond : stockColumns[1]? = some stockColumns[1] := rfl
    have hthird : stockColumns[2]? = some stockColumns[2] := rfl
    have hkey : 1 < schema.keyCount := (hvalid.isKey_iff hsecond).1 rfl
    have hvalue : ¬ 2 < schema.keyCount := fun hlt =>
      Bool.noConfusion ((hvalid.isKey_iff hthird).2 hlt)
    omega
  have hsize : schema.size < 4 := by
    have hlength := congrArg List.length hcolumns
    rw [Array.length_toList] at hlength
    exact Nat.lt_of_le_of_lt (Nat.le_of_eq hlength) (by decide)
  have hnone : schema.columnNamed? "Item" = none := by
    rw [Option.eq_none_iff_forall_ne_some]
    intro column hcolumn
    obtain ⟨hin, hnamed⟩ := (hname _ _).1 hcolumn
    exact absurd hnamed ((by decide : ∀ c ∈ stockColumns, c.name ≠ "Item") column hin)
  exact ⟨by decide, hlate, schema, stockColumns[1], hschema, hcount, hmem,
    (hboth _ hmem).1, (hname _ _).2 ⟨hmem, rfl⟩, hnone, hzero, hpast 4 hsize⟩

end ColumnStore.Schema
