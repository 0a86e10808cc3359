import ColumnStore.Schema.Parser
import ColumnStore.Schema.Printer
import ColumnStore.Proofs.SchemaValidity
import ColumnStore.Proofs.Text

/-!
# What schema texts describe

A text describes a list of columns if its items, the stretches between commas, describe one
column each, in order, and the columns are valid with the first as their only key
(`Schema.Describes`).  An item describes a column if it spells the column's name, the name of
its type in any case and, where nulls are allowed, the word `null` in any case
(`ColumnDef.DescribedBy`).  Neither says how a text is read.

A text is read as a schema of some columns exactly if it describes them
(`Schema.parse_iff_describes`), and the text that is written for columns describes them
(`Schema.describes_renderColumns`).  Which error a text that describes nothing is refused with
is not looked at here.
-/

namespace ColumnStore

/-! ## Names -/

namespace ColumnDef

/-- Letters, digits and underscores of ASCII, with no digit in front. -/
def IsName (name : List Char) : Prop :=
  ∃ first rest, name = first :: rest ∧ (first.isAlpha = true ∨ first = '_') ∧
    ∀ c ∈ rest, c.isAlphanum = true ∨ c = '_'

theorem checkName_eq_ok_iff {name : List Char} : checkName name = .ok () ↔ IsName name := by
  cases name with
  | nil => exact iff_of_false nofun nofun
  | cons first rest =>
    have hstart : isNameStart first = true ↔ first.isAlpha = true ∨ first = '_' := by
      rw [isNameStart, Bool.or_eq_true, beq_iff_eq]
    have hrest : rest.all isNameRest = true ↔ ∀ c ∈ rest, c.isAlphanum = true ∨ c = '_' := by
      simp only [List.all_eq_true, isNameRest, Bool.or_eq_true, beq_iff_eq]
    have hparts : IsName (first :: rest) ↔
        isNameStart first = true ∧ rest.all isNameRest = true := by
      rw [hstart, hrest]
      constructor
      · rintro ⟨_, _, hname, hfirst, hall⟩
        obtain ⟨rfl, rfl⟩ := List.cons.inj hname
        exact ⟨hfirst, hall⟩
      · rintro ⟨hfirst, hall⟩
        exact ⟨first, rest, rfl, hfirst, hall⟩
    rw [hparts, checkName]
    cases isNameStart first with
    | false => exact iff_of_false nofun nofun
    | true =>
      cases rest.all isNameRest with
      | false => exact iff_of_false nofun nofun
      | true => exact iff_of_true rfl ⟨rfl, rfl⟩

end ColumnDef

namespace ColumnType

theorem eq_of_sameIgnoringCase {s t : ColumnType}
    (h : Text.sameIgnoringCase s.name t.name = true) : s = t := by
  have hall : ∀ s ∈ all, ∀ t ∈ all, Text.sameIgnoringCase s.name t.name = true → s = t := by
    decide
  exact hall s (mem_all s) t (mem_all t) h

/-- The name of a type is read in any case, and no other text is. -/
theorem parse_eq_ok_iff {name : String} {t : ColumnType} :
    parse name = .ok t ↔ Text.sameIgnoringCase t.name name = true := by
  have hsame : ∀ {a b c : String}, Text.sameIgnoringCase a c = true →
      Text.sameIgnoringCase b c = true → Text.sameIgnoringCase a b = true := by
    intro a b c hac hbc
    simp only [Text.sameIgnoringCase, beq_iff_eq] at hac hbc ⊢
    rw [hac, hbc]
  unfold parse
  cases hfind : all.find? fun t => Text.sameIgnoringCase t.name name with
  | some found =>
    have hfound : Text.sameIgnoringCase found.name name = true := by
      simpa using List.find?_some hfind
    constructor
    · intro h
      obtain rfl := Except.ok.inj h
      exact hfound
    · intro h
      exact congrArg _ (eq_of_sameIgnoringCase (hsame hfound h))
  | none =>
    have hnone := List.find?_eq_none.1 hfind t (mem_all t)
    refine iff_of_false ?_ hnone
    dsimp only
    split <;> nofun

end ColumnType

/-! ## Items -/

namespace ColumnDef

variable {item : List Char} {column : ColumnDef} {columns : List ColumnDef} {position : Nat}
  {items : List (List Char)}

/-- The words are those of a column: its name, the name of its type in any case and, where
nulls are allowed, `null` in any case. -/
inductive Wording (column : ColumnDef) : List (List Char) → Prop where
  | plain {type : List Char} (htype : Text.sameIgnoringCase column.type.name (String.ofList type))
      (hnull : column.nullable = false) : Wording column [column.name.toList, type]
  | nullable {type null : List Char}
      (htype : Text.sameIgnoringCase column.type.name (String.ofList type))
      (hnull : column.nullable = true) (hword : Text.sameIgnoringCase (String.ofList null) "null") :
      Wording column [column.name.toList, type, null]

/-- The item spells the words of the column, whose name is a legal one. -/
structure DescribedBy (column : ColumnDef) (item : List Char) : Prop where
  isName : IsName column.name.toList
  spelled : ∃ ws, Text.Spells item ws ∧ column.Wording ws

theorem split?_eq_some_iff {name type : List Char} {nullable : Bool} :
    split? item = some (name, type, nullable) ↔
      (Text.words item = [name, type] ∧ nullable = false) ∨
        ∃ null, Text.words item = [name, type, null] ∧
          Text.sameIgnoringCase (String.ofList null) "null" = true ∧ nullable = true := by
  unfold split?
  generalize Text.words item = ws
  match ws with
  | [] => simp
  | [_] => simp
  | [_, _] => simp [and_assoc]
  | [_, _, null] =>
    by_cases hnull : Text.sameIgnoringCase (String.ofList null) "null" = true
    · simp [hnull, and_assoc]
    · simp [hnull]
  | _ :: _ :: _ :: _ :: _ => simp

theorem spells_wording_iff :
    (∃ ws, Text.Spells item ws ∧ column.Wording ws) ↔
      ∃ type, split? item = some (column.name.toList, type, column.nullable) ∧
        Text.sameIgnoringCase column.type.name (String.ofList type) = true := by
  constructor
  · rintro ⟨ws, hspells, hwording⟩
    have hwords := Text.words_eq_iff.2 hspells
    cases hwording with
    | plain htype hnull => exact ⟨_, split?_eq_some_iff.2 (.inl ⟨hwords, hnull⟩), htype⟩
    | nullable htype hnull hword =>
      exact ⟨_, split?_eq_some_iff.2 (.inr ⟨_, hwords, hword, hnull⟩), htype⟩
  · rintro ⟨type, hsplit, htype⟩
    rcases split?_eq_some_iff.1 hsplit with ⟨hwords, hnull⟩ | ⟨null, hwords, hword, hnull⟩
    · exact ⟨_, Text.words_eq_iff.1 hwords, .plain htype hnull⟩
    · exact ⟨_, Text.words_eq_iff.1 hwords, .nullable htype hnull hword⟩

/-- The column has the id of its position, counted from 0, and is the key at the first. -/
structure Placed (column : ColumnDef) (position : Nat) : Prop where
  cid_eq : column.cid = position + 1
  isKey_iff : column.isKey = true ↔ position = 0

/-- An item is read as the column that it describes, placed where the item is. -/
theorem parse_eq_ok_iff :
    parse position item = .ok column ↔ column.DescribedBy item ∧ column.Placed position := by
  constructor
  · intro h
    unfold parse at h
    split at h
    · simp at h
    · rename_i name type nullable hsplit
      obtain ⟨_, hname, h⟩ := bind_eq_ok.1 h
      obtain ⟨t, htype, h⟩ := bind_eq_ok.1 h
      obtain rfl := Except.ok.inj h
      rw [← String.toList_ofList (l := name)] at hsplit hname
      exact ⟨⟨checkName_eq_ok_iff.1 hname, spells_wording_iff.2
        ⟨type, hsplit, ColumnType.parse_eq_ok_iff.1 htype⟩⟩, rfl, beq_iff_eq⟩
  · rintro ⟨⟨hname, hspelled⟩, hcid, hkey⟩
    obtain ⟨type, hsplit, htype⟩ := spells_wording_iff.1 hspelled
    have hisKey : (position == 0) = column.isKey := by
      rw [Bool.eq_iff_iff, hkey, beq_iff_eq]
    unfold parse
    simp only [hsplit, checkName_eq_ok_iff.2 hname, ColumnType.parse_eq_ok_iff.2 htype, ok_bind,
      pure_eq_ok, String.ofList_toList, hisKey, ← hcid]

/-- Items are read in turn as the columns that they describe, each placed where its item is. -/
theorem mapM_parse_eq_ok_iff (first : Nat) :
    (items.zipIdx first).mapM (fun (item, position) => parse position item) = .ok columns ↔
      List.Forall₂ (fun item column => column.DescribedBy item) items columns ∧
        ∀ (i : Nat) (column : ColumnDef), columns[i]? = some column →
          column.Placed (first + i) := by
  induction items generalizing first columns with
  | nil =>
    rw [List.zipIdx_nil, List.mapM_nil, pure_eq_ok, Except.ok.injEq, List.forall₂_nil_left_iff]
    constructor
    · rintro rfl
      exact ⟨rfl, by simp⟩
    · exact fun h => h.1.symm
  | cons item items ih =>
    have hnext : ∀ i, first + 1 + i = first + (i + 1) := fun i => by omega
    rw [List.zipIdx_cons, List.mapM_cons]
    constructor
    · intro h
      obtain ⟨column, hcolumn, h⟩ := bind_eq_ok.1 h
      obtain ⟨others, hothers, h⟩ := bind_eq_ok.1 h
      obtain rfl := Except.ok.inj h
      obtain ⟨hdescribed, hplaced⟩ := parse_eq_ok_iff.1 hcolumn
      obtain ⟨hrest, hplaces⟩ := (ih (first + 1)).1 hothers
      refine ⟨.cons hdescribed hrest, ?_⟩
      intro i c hi
      cases i with
      | zero =>
        obtain rfl := Option.some.inj hi
        exact hplaced
      | succ i =>
        rw [← hnext]
        exact hplaces i c hi
    · rintro ⟨hdescribed, hplaces⟩
      cases hdescribed with
      | @cons _ column _ others hitem hrest =>
        have hcolumn := parse_eq_ok_iff.2 ⟨hitem, hplaces 0 column rfl⟩
        have hothers := (ih (first + 1)).2 ⟨hrest, fun i c hi => hnext i ▸ hplaces (i + 1) c hi⟩
        exact bind_eq_ok.2 ⟨column, hcolumn, bind_eq_ok.2 ⟨others, hothers, rfl⟩⟩

end ColumnDef

/-! ## Texts -/

namespace Schema

variable {text : String} {columns : List ColumnDef} {keyCount : Nat}

/-- The items of the text describe the columns, one each and in order, and the columns are
valid with one key column: their ids count from 1, the first is the key and allows no nulls,
and no two have the same name. -/
structure Describes (text : List Char) (columns : List ColumnDef) : Prop where
  items : ∃ items, Text.Joined ',' items text ∧
    List.Forall₂ (fun item column => column.DescribedBy item) items columns
  valid : Valid columns 1

/-- Columns that are the key in the first place only have one key column. -/
theorem Valid.keyCount_eq_one (h : Valid columns keyCount) (hpos : 0 < keyCount)
    (hplaces : ∀ (i : Nat) (column : ColumnDef), columns[i]? = some column → column.Placed i) :
    keyCount = 1 := by
  by_contra hne
  have hlt : 1 < columns.length := by
    have hle := h.keyCount_le
    omega
  have hsecond : columns[1]? = some columns[1] := List.getElem?_eq_getElem hlt
  have hkey := (h.isKey_iff hsecond).2 (by omega)
  exact Nat.one_ne_zero ((hplaces 1 _ hsecond).isKey_iff.1 hkey)

theorem Valid.placed (h : Valid columns 1) {i : Nat} {column : ColumnDef}
    (hi : columns[i]? = some column) : column.Placed i := by
  refine ⟨h.cid_eq hi, ?_⟩
  rw [h.isKey_iff hi, Nat.lt_one_iff]

/-- A text is read as a schema of some columns exactly if it describes them. -/
theorem parse_iff_describes :
    (∃ schema, parse text = .ok schema ∧ schema.columns.toList = columns) ↔
      Describes text.toList columns := by
  constructor
  · rintro ⟨schema, h, hcolumns⟩
    obtain ⟨read, hread, hschema⟩ := bind_eq_ok.1 h
    obtain rfl : read = columns := (ofColumns_eq_ok hschema).2.symm.trans hcolumns
    obtain ⟨hdescribed, hplaces⟩ := (ColumnDef.mapM_parse_eq_ok_iff 0).1 hread
    simp only [Nat.zero_add] at hplaces
    have hvalid := valid_of_ofColumns hschema
    rw [hvalid.keyCount_eq_one (ofColumns_eq_ok_iff.1 hschema).2.2 hplaces] at hvalid
    exact ⟨⟨_, Text.cut_eq_iff.1 rfl, hdescribed⟩, hvalid⟩
  · rintro ⟨⟨items, hjoined, hdescribed⟩, hvalid⟩
    obtain ⟨schema, hschema, _⟩ := exists_ofColumns_iff.2 ⟨Nat.one_pos, hvalid⟩
    refine ⟨schema, bind_eq_ok.2 ⟨columns, ?_, hschema⟩, (ofColumns_eq_ok hschema).2⟩
    rw [Text.cut_eq_iff.2 hjoined, ColumnDef.mapM_parse_eq_ok_iff]
    refine ⟨hdescribed, ?_⟩
    intro i column hi
    rw [Nat.zero_add]
    exact hvalid.placed hi

end Schema

/-! ## Written columns -/

namespace ColumnDef

variable {column : ColumnDef} {name : List Char}

/-- The letters and digits of ASCII lie between the digit 0 and the letter z. -/
theorem bounds_of_isAlphanum {c : Char} (h : c.isAlphanum = true) :
    0x30 ≤ c.toNat ∧ c.toNat ≤ 0x7A := by
  have hupper : c.isUpper = true → 'A'.toNat ≤ c.toNat ∧ c.toNat ≤ 'Z'.toNat := by
    intro hc
    have hval : c.val ≥ 'A'.val ∧ c.val ≤ 'Z'.val := of_decide_eq_true hc
    exact ⟨UInt32.le_iff_toNat_le.1 hval.1, UInt32.le_iff_toNat_le.1 hval.2⟩
  have hlower : c.isLower = true → 'a'.toNat ≤ c.toNat ∧ c.toNat ≤ 'z'.toNat := by
    intro hc
    have hval := Bool.and_eq_true_iff.1 hc
    exact ⟨UInt32.le_iff_toNat_le.1 (of_decide_eq_true hval.1),
      UInt32.le_iff_toNat_le.1 (of_decide_eq_true hval.2)⟩
  have hbetween : ∀ {low high : Nat}, low ≤ c.toNat ∧ c.toNat ≤ high → 0x30 ≤ low →
      high ≤ 0x7A → 0x30 ≤ c.toNat ∧ c.toNat ≤ 0x7A :=
    fun hc hlow hhigh => ⟨Nat.le_trans hlow hc.1, Nat.le_trans hc.2 hhigh⟩
  rcases Bool.or_eq_true_iff.1 h with halpha | hdigit
  · rcases Bool.or_eq_true_iff.1 halpha with hc | hc
    · exact hbetween (hupper hc) (by decide) (by decide)
    · exact hbetween (hlower hc) (by decide) (by decide)
  · exact hbetween (Char.isDigit_iff_toNat.1 hdigit) (by decide) (by decide)

/-- So do the characters of names. -/
theorem IsName.bounds (h : IsName name) : ∀ c ∈ name, 0x30 ≤ c.toNat ∧ c.toNat ≤ 0x7A := by
  have hword : ∀ c : Char, c.isAlphanum = true ∨ c = '_' → 0x30 ≤ c.toNat ∧ c.toNat ≤ 0x7A := by
    rintro c (hc | rfl)
    · exact bounds_of_isAlphanum hc
    · decide
  obtain ⟨first, rest, rfl, hfirst, hrest⟩ := h
  intro c hc
  rcases List.mem_cons.1 hc with rfl | hmem
  · exact hword c (hfirst.imp_left fun halpha => Bool.or_eq_true_iff.2 (.inl halpha))
  · exact hword c (hrest c hmem)

theorem IsName.ne_nil (h : IsName name) : name ≠ [] := by
  obtain ⟨first, rest, rfl, _⟩ := h
  exact List.cons_ne_nil first rest

theorem IsName.not_blank (h : IsName name) : ∀ c ∈ name, Text.isBlank c = false := by
  intro c hc
  have hbounds := h.bounds c hc
  simp only [Text.isBlank, Text.blankRanges, List.any_cons, List.any_nil, Bool.or_false,
    Bool.or_eq_false_iff, Bool.and_eq_false_iff, decide_eq_false_iff_not]
  omega

theorem IsName.comma_not_mem (h : IsName name) : ',' ∉ name := by
  intro hmem
  exact absurd (h.bounds ',' hmem).1 (by decide)

theorem isName_typeName (t : ColumnType) : IsName t.name.toList := by
  rw [← checkName_eq_ok_iff]
  cases t <;> rfl

theorem isName_null : IsName "null".toList := checkName_eq_ok_iff.1 rfl

theorem toList_render (column : ColumnDef) :
    column.render.toList = column.name.toList ++ ' ' :: (column.type.name.toList ++
      if column.nullable then ' ' :: "null".toList else []) := by
  unfold render
  split
  · show (column.name ++ " " ++ column.type.name ++ " null").toList = _
    simp
  · show (column.name ++ " " ++ column.type.name).toList = _
    simp

/-- What is written for a column describes it. -/
theorem describedBy_render (h : IsName column.name.toList) :
    column.DescribedBy column.render.toList := by
  have htype := isName_typeName column.type
  have hsame : Text.sameIgnoringCase column.type.name (String.ofList column.type.name.toList) =
      true := by
    rw [String.ofList_toList, Text.sameIgnoringCase, beq_self_eq_true]
  have hnullWord : Text.sameIgnoringCase (String.ofList "null".toList) "null" = true := by
    rw [String.ofList_toList, Text.sameIgnoringCase, beq_self_eq_true]
  have hspace : Text.isBlank ' ' = true := by decide
  refine ⟨h, ?_⟩
  rw [toList_render]
  cases hnull : column.nullable with
  | false =>
    refine ⟨_, Text.words_eq_iff.1 ?_, .plain hsame hnull⟩
    rw [if_neg nofun, List.append_nil, Text.words_append_blank h.ne_nil h.not_blank hspace,
      Text.words_single htype.ne_nil htype.not_blank]
  | true =>
    refine ⟨_, Text.words_eq_iff.1 ?_, .nullable hsame hnull hnullWord⟩
    rw [if_pos rfl, Text.words_append_blank h.ne_nil h.not_blank hspace,
      Text.words_append_blank htype.ne_nil htype.not_blank hspace,
      Text.words_single isName_null.ne_nil isName_null.not_blank]

theorem comma_not_mem_render (h : IsName column.name.toList) : ',' ∉ column.render.toList := by
  have hspace : ',' ≠ ' ' := by decide
  rw [toList_render, List.mem_append, List.mem_cons, List.mem_append, not_or, not_or, not_or]
  refine ⟨h.comma_not_mem, hspace, (isName_typeName column.type).comma_not_mem, ?_⟩
  split
  · rw [List.mem_cons, not_or]
    exact ⟨hspace, isName_null.comma_not_mem⟩
  · exact List.not_mem_nil

end ColumnDef

namespace Schema

/-- What is written for columns with legal names, of which the first is the only key,
describes them. -/
theorem describes_renderColumns {columns : List ColumnDef} (hvalid : Valid columns 1)
    (hnames : ∀ column ∈ columns, ColumnDef.IsName column.name.toList) :
    Describes (renderColumns columns).toList columns := by
  refine ⟨⟨columns.map (·.render.toList), ⟨?_, ?_, ?_⟩, ?_⟩, hvalid⟩
  · have hle := hvalid.keyCount_le
    rintro hnil
    obtain rfl := List.map_eq_nil_iff.1 hnil
    exact Nat.not_succ_le_zero 0 hle
  · intro item hitem
    obtain ⟨column, hcolumn, rfl⟩ := List.mem_map.1 hitem
    exact ColumnDef.comma_not_mem_render (hnames column hcolumn)
  · rw [renderColumns, String.toList_intercalate, List.map_map]
    rfl
  · rw [List.forall₂_map_left_iff, List.forall₂_same]
    exact fun column hcolumn => ColumnDef.describedBy_render (hnames column hcolumn)

/-- A text is read as a schema exactly if it describes columns, and the schema has these
columns, whatever blanks and letters the text has.  So columns with legal names, of which the
first is the only key, are read back from the text that is written for them. -/
theorem parse_exact (text : String) :
    ((∃ schema, parse text = .ok schema) ↔ ∃ columns, Describes text.toList columns) ∧
    (∀ columns, (∃ schema, parse text = .ok schema ∧ schema.columns.toList = columns) ↔
      Describes text.toList columns) ∧
    ∀ columns, Valid columns 1 →
      (∀ column ∈ columns, ColumnDef.IsName column.name.toList) →
      ∃ schema, parse (renderColumns columns) = .ok schema ∧ schema.columns.toList = columns := by
  refine ⟨?_, fun columns => parse_iff_describes, fun columns hvalid hnames =>
    parse_iff_describes.2 (describes_renderColumns hvalid hnames)⟩
  constructor
  · rintro ⟨schema, h⟩
    exact ⟨_, parse_iff_describes.1 ⟨schema, h, rfl⟩⟩
  · rintro ⟨columns, h⟩
    obtain ⟨schema, hschema, _⟩ := parse_iff_describes.2 h
    exact ⟨schema, hschema⟩

/-- A key and a value column that allows nulls. -/
def cityColumns : List ColumnDef :=
  [{ cid := 1, name := "id", type := .int, isKey := true },
    { cid := 2, name := "city", type := .tinyInt, nullable := true }]

theorem valid_cityColumns : Valid cityColumns 1 := by decide

/-- A text for them with blanks of several kinds and letters of both cases. -/
theorem describes_cityColumns :
    Describes "id INT,\tcity  TinyInt NULL ".toList cityColumns := by
  have hitems : Text.Joined ',' ["id INT".toList, "\tcity  TinyInt NULL ".toList]
      "id INT,\tcity  TinyInt NULL ".toList := Text.cut_eq_iff.1 (by decide)
  refine ⟨⟨_, hitems, .cons ⟨?_, ?_⟩ (.cons ⟨?_, ?_⟩ .nil)⟩, valid_cityColumns⟩
  · exact ColumnDef.checkName_eq_ok_iff.1 rfl
  · exact ⟨["id".toList, "INT".toList], Text.words_eq_iff.1 (by decide), .plain (by decide) rfl⟩
  · exact ColumnDef.checkName_eq_ok_iff.1 rfl
  · exact ⟨["city".toList, "TinyInt".toList, "NULL".toList], Text.words_eq_iff.1 (by decide),
      .nullable (by decide) rfl (by decide)⟩

/-- The columns are read from both texts, and nothing is read from one that names two columns
alike. -/
theorem parse_exact_city :
    (∃ schema, parse "id INT,\tcity  TinyInt NULL " = .ok schema ∧
      schema.columns.toList = cityColumns) ∧
    (∃ schema, parse (renderColumns cityColumns) = .ok schema ∧
      schema.columns.toList = cityColumns) ∧
    renderColumns cityColumns = "id int,city tinyint null" ∧
    ¬ ∃ columns, Describes "id int,id int".toList columns := by
  have hnames : ∀ column ∈ cityColumns, ColumnDef.IsName column.name.toList := by
    intro column hcolumn
    rcases List.mem_pair.1 hcolumn with rfl | rfl
    · exact ColumnDef.checkName_eq_ok_iff.1 rfl
    · exact ColumnDef.checkName_eq_ok_iff.1 rfl
  refine ⟨((parse_exact _).2.1 cityColumns).2 describes_cityColumns,
    (parse_exact "").2.2 cityColumns valid_cityColumns hnames, by decide +kernel, ?_⟩
  rw [← (parse_exact "id int,id int").1]
  rintro ⟨schema, h⟩
  have hrefused : (parse "id int,id int").isOk = false := by decide +kernel
  rw [h] at hrefused
  exact Bool.noConfusion hrefused

end Schema

end ColumnStore
