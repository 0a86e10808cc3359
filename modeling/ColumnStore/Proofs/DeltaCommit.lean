import ColumnStore.Proofs.DeltaAcceptance
import ColumnStore.Proofs.RowIndexMap
import Mathlib.Data.List.Dedup
import Mathlib.Data.List.Perm.Subperm

/-!
# What a commit makes of updates

Of the updates that were collected for a row, the last that was accepted counts.  Committing
them never fails for want of order, since the rows are taken out in the order of their ids,
nor, with the ideal allocator of `reserve`, for want of storage, if there are fewer than 2^32
of them (`Updates.exists_commit`).  The delta has each row that was updated once, and its value
and its flag at the same position (`Delta.Records`).

So a delta depends on the last accepted update of each row and on nothing else of the
calls (`Updates.commit_records_last`).
-/

namespace ColumnStore

variable {st : ColumnType}

/-! ## Rows with updates -/

namespace RowUpdate

/-- The rows that calls were accepted for, each once. -/
def updatedRows (nullable : Bool) (calls : List (RowUpdate st)) : List RowId :=
  ((calls.filter (·.accepted nullable)).map row).dedup

variable {nullable : Bool} {calls : List (RowUpdate st)} {rid : RowId}

theorem mem_updatedRows_iff : rid ∈ updatedRows nullable calls ↔ Updated nullable calls rid := by
  simp only [updatedRows, List.mem_dedup, List.mem_map, List.mem_filter, Updated, and_assoc,
    and_comm]

theorem nodup_updatedRows (nullable : Bool) (calls : List (RowUpdate st)) :
    (updatedRows nullable calls).Nodup := List.nodup_dedup _

/-- There are no more of them than rows the calls name. -/
theorem length_updatedRows_le (nullable : Bool) (calls : List (RowUpdate st)) :
    (updatedRows nullable calls).length ≤ (calls.map row).dedup.length := by
  have hsubset : updatedRows nullable calls ⊆ (calls.map row).dedup := by
    intro rid hrid
    obtain ⟨call, hcall, hrow, _⟩ := mem_updatedRows_iff.1 hrid
    exact List.mem_dedup.2 (List.mem_map.2 ⟨call, hcall, hrow⟩)
  exact (List.subperm_of_subset (nodup_updatedRows nullable calls) hsubset).length_le

end RowUpdate

namespace Updates

variable {u u' : Updates st} {rid : RowId} {version : Nat}

/-! ## Nulls -/

theorem putNull_eq_error_iff (u : Updates st) (rid : RowId) :
    (∃ e, u.putNull rid = .error e) ↔ u.nullable = false := by
  unfold putNull
  cases u.nullable with
  | true => simp
  | false => simp

/-- A null that is refused leaves the updates. -/
theorem apply_of_refused {call : RowUpdate st} (hnull : call.value = none)
    (hn : u.nullable = false) : u.apply call = u := by
  have hrefused : call.accepted u.nullable = false := by
    rw [RowUpdate.accepted, hnull, hn]
    rfl
  rw [apply_eq, hrefused]
  rfl

/-! ## The number of rows -/

/-- The rows with updates are those that calls were accepted for. -/
theorem size_collect (column : ColumnDef) (calls : List (RowUpdate st)) :
    (collect column calls).size = (RowUpdate.updatedRows column.nullable calls).length := by
  have hperm : (collect column calls).rows.keys.Perm
      (RowUpdate.updatedRows column.nullable calls) := by
    rw [List.perm_ext_iff_of_nodup Std.TreeMap.nodup_keys (RowUpdate.nodup_updatedRows _ calls)]
    intro rid
    rw [Std.TreeMap.mem_keys, Std.TreeMap.mem_iff_isSome_getElem?, collect_getElem?,
      Option.isSome_iff_exists, RowUpdate.exists_last?_iff, RowUpdate.mem_updatedRows_iff]
  rw [size, ← Std.TreeMap.length_keys, hperm.length_eq]

/-! ## Committing -/

/-- The rows that were collected ascend in the order they are laid out. -/
theorem ascending_toList (rows : Std.TreeMap RowId (Option st.Value)) :
    RowIndex.Ascending (rows.toList.map (·.1)).toArray := by
  have hordered := Std.TreeMap.ordered_keys_toList (t := rows)
  rw [RowIndex.Ascending, List.pairwise_map]
  exact hordered.imp fun hlt => Std.compare_eq_lt.1 hlt

/-- A commit of fewer than 2^32 rows is always served. -/
theorem exists_commit (hsmall : u.size < 2 ^ 32) (version : Nat) :
    ∃ d, u.commit version = .ok d := by
  have hindex := (RowIndex.exists_ofRowIds_iff _).2 (ascending_toList u.rows)
  have hserved : ∀ {width : Nat} (f : RowId × Option st.Value → BitVec (8 * width)),
      0 < width → width ≤ Buffer.wordBytes →
      ∃ b, Buffer.ofValues (u.rows.toList.map f).toArray = .ok b := by
    intro width f hpos hword
    apply Buffer.exists_ofValues hpos
    have hmul := Nat.mul_le_mul (Nat.le_of_lt hsmall) hword
    rw [List.size_toArray, List.length_map, Std.TreeMap.length_toList]
    simp only [Updates.size, Buffer.wordBytes, allocationLimit] at *
    omega
  unfold commit
  refine exists_bind_ok hindex fun index => ?_
  refine exists_bind_ok (hserved _ st.width_pos st.width_le) fun data => ?_
  dsimp only
  split
  · exact exists_bind_ok (exists_map_ok (hserved _ (by decide) (by decide))) fun _ => ⟨_, rfl⟩
  · exact ⟨_, rfl⟩

/-- A commit depends on what was collected for each row. -/
theorem commit_congr (hn : u.nullable = u'.nullable)
    (hrows : ∀ rid : RowId, u.rows[rid]? = u'.rows[rid]?) (version : Nat) :
    u.commit version = u'.commit version := by
  have hlist : u.rows.toList = u'.rows.toList :=
    (Std.TreeMap.Equiv.of_forall_constGet?_eq hrows).toList_eq
  simp only [commit, hlist, hn]

end Updates

/-! ## What is recorded -/

namespace Delta

variable {d : Delta} {rows : Std.TreeMap RowId (Option st.Value)} {nullable : Bool}
  {last? : RowId → Option (Option st.Value)}

/-- The delta has an entry for each row that something was last set to, in the order of the
ids, with its value and its flag beside it.  It has no other entries, and flags exactly if
nulls are allowed. -/
structure Records (d : Delta) (nullable : Bool)
    (last? : RowId → Option (Option st.Value)) : Prop where
  ascending : d.index.rowIds.Pairwise (· < ·)
  mem_iff : ∀ rid, rid ∈ d.index.rowIds ↔ ∃ v, last? rid = some v
  length_eq : d.index.rowIds.length = d.size
  data_size : d.data.size = d.size
  flags_size : ∀ flags, d.nulls = some flags → flags.size = d.size
  tracksNulls : d.nulls.isSome = nullable
  found : ∀ rid v, last? rid = some v → ∃ p, d.find? rid = .ok (some p) ∧
    d.index.rowIds[p]? = some rid ∧ d.isNull p = .ok v.isNone ∧
    d.data.read st.width p = .ok (v.getD 0)
  not_found : ∀ rid, last? rid = none → d.find? rid = .ok none

theorem Lays.rowIds_eq (h : d.Lays rows) : d.index.rowIds = rows.toList.map (·.1) := by
  rw [RowIndex.rowIds_eq h.index_eq h.rids_small]

theorem Lays.size_eq (h : d.Lays rows) : d.size = rows.size := by
  rw [Delta.size, RowIndex.size_eq h.index_eq, List.size_toArray, List.length_map,
    Std.TreeMap.length_toList]

/-- A delta records the rows it lays. -/
theorem Lays.records (h : d.Lays rows) (hn : d.nulls.isSome = nullable)
    (hrows : ∀ rid : RowId, rows[rid]? = last? rid) : d.Records nullable last? := by
  have hlength : rows.toList.length = d.size := by
    rw [h.size_eq, Std.TreeMap.length_toList]
  refine ⟨?_, ?_, ?_, ?_, ?_, hn, ?_, ?_⟩
  · rw [h.rowIds_eq]
    exact Updates.ascending_toList rows
  · intro rid
    rw [RowIndex.mem_rowIds_iff h.index_eq h.rids_small, Lays.mem_rids_iff, hrows]
  · rw [h.rowIds_eq, List.length_map, hlength]
  · rw [h.data.size_eq, hlength]
  · intro flags hflags
    rw [(h.flags flags hflags).1.size_eq, hlength]
  · intro rid v hv
    rw [← hrows] at hv
    obtain ⟨p, hp⟩ := Lays.exists_position_iff.1 hv
    refine ⟨p, h.find?_of_getElem? hp, ?_, h.isNull_eq hp, h.read_eq hp⟩
    rw [h.rowIds_eq, List.getElem?_map, hp, Option.map_some]
  · intro rid hnone
    exact h.find?_of_none ((hrows rid).trans hnone)

end Delta

namespace Updates

open RowUpdate

/-- Of calls that name fewer than 2^32 rows, those that set a row to null are refused exactly
if the column allows none, and leave the updates then.  The updates are of as many rows as
calls were accepted for, and their delta records the last accepted update of each.  Other
calls whose last accepted updates are the same have the same delta. -/
theorem commit_records_last (column : ColumnDef) (calls : List (RowUpdate st)) (version : Nat)
    (hsmall : (calls.map row).dedup.length < 2 ^ 32) :
    (∀ rid, ((∃ e, (collect column calls).putNull rid = .error e) ↔ column.nullable = false) ∧
      ((∃ e, (collect column calls).putOption rid none = .error e) ↔
        column.nullable = false)) ∧
    (∀ call, call.value = none → column.nullable = false →
      (collect column calls).apply call = collect column calls) ∧
    (collect column calls).size = (updatedRows column.nullable calls).length ∧
    ∃ d, (collect column calls).commit version = .ok d ∧ d.version = version ∧
      d.size = (collect column calls).size ∧
      d.Records column.nullable (last? column.nullable calls) ∧
      ∀ others : List (RowUpdate st),
        (∀ rid, last? column.nullable others rid = last? column.nullable calls rid) →
        (collect column others).commit version = .ok d := by
  have hnullable := collect_nullable column calls
  have hsize := size_collect column calls
  have hcount : (collect column calls).size < 2 ^ 32 := by
    have hle := length_updatedRows_le column.nullable calls
    omega
  obtain ⟨d, hd⟩ := exists_commit hcount version
  obtain ⟨hversion, _, _, _, hflags⟩ := Delta.commit_eq_ok hd
  have hlays : d.Lays (collect column calls).rows := by
    apply Delta.lays_of_commit hd
    · rw [Std.TreeMap.length_toList]
      exact hcount
    · intro hn rid hnull
      have hallowed := hnullable.trans (nullable_of_collect hnull)
      rw [hn] at hallowed
      exact Bool.noConfusion hallowed
  have htracks : d.nulls.isSome = column.nullable := by
    rw [← hnullable]
    rcases hflags with ⟨hn, hnone⟩ | ⟨hn, flags, hsome, _⟩
    · rw [hn, hnone, Option.isSome_none]
    · rw [hn, hsome, Option.isSome_some]
  refine ⟨?_, ?_, hsize, d, hd, hversion, hlays.size_eq,
    hlays.records htracks (collect_getElem? column calls), ?_⟩
  · intro rid
    rw [← hnullable]
    exact ⟨putNull_eq_error_iff _ rid, putNull_eq_error_iff _ rid⟩
  · intro call hnull hn
    exact apply_of_refused hnull (hnullable.trans hn)
  · intro others hsame
    rw [← hd]
    apply commit_congr
    · rw [collect_nullable, hnullable]
    · intro rid
      rw [collect_getElem?, collect_getElem?, hsame rid]

/-- Row 0 is set to a value after a null, row 3 to null after a value. -/
def mixedCalls : List (RowUpdate .smallInt) :=
  [.put 3 5, .putNull 0, .putOption 65536 (some 8), .put 0 6, .putOption 3 none]

/-- The last updates of these rows alone, in another order. -/
def shortCalls : List (RowUpdate .smallInt) := [.putOption 65536 (some 8), .putNull 3, .put 0 6]

theorem last?_shortCalls (rid : RowId) :
    last? true shortCalls rid = last? true mixedCalls rid := by
  by_cases hzero : rid = 0
  · subst hzero
    decide
  · by_cases hthree : rid = 3
    · subst hthree
      decide
    · by_cases hfar : rid = 65536
      · subst hfar
        decide
      · simp [last?, shortCalls, mixedCalls, row, Ne.symm hzero, Ne.symm hthree, Ne.symm hfar]

/-- The delta of the price column, and a column that allows no nulls. -/
theorem commit_records_last_price :
    (mixedCalls.map row).dedup.length < 2 ^ 32 ∧
      ∃ d, (collect History.price mixedCalls).commit 4 = .ok d ∧ d.size = 3 ∧
        d.index.rowIds.Pairwise (· < ·) ∧
        (∃ p, d.find? 0 = .ok (some p) ∧ d.isNull p = .ok false ∧ d.data.read 2 p = .ok 6) ∧
        (∃ p, d.find? 3 = .ok (some p) ∧ d.isNull p = .ok true) ∧
        d.find? 1 = .ok none ∧ (collect History.price shortCalls).commit 4 = .ok d ∧
        ∃ e, (collect { History.price with nullable := false } mixedCalls).putNull 3 =
          .error e := by
  have hsmall : (mixedCalls.map row).dedup.length < 2 ^ 32 := by decide
  obtain ⟨_, _, hsize, d, hd, _, hrows, hrecords, hothers⟩ :=
    commit_records_last History.price mixedCalls 4 hsmall
  obtain ⟨hnulls, _⟩ :=
    commit_records_last { History.price with nullable := false } mixedCalls 4 hsmall
  obtain ⟨p, hp, _, hpnull, hpvalue⟩ := hrecords.found 0 (some 6) (by decide)
  obtain ⟨q, hq, _, hqnull, _⟩ := hrecords.found 3 none (by decide)
  refine ⟨hsmall, d, hd, ?_, hrecords.ascending, ⟨p, hp, hpnull, hpvalue⟩, ⟨q, hq, hqnull⟩,
    hrecords.not_found 1 (by decide), hothers shortCalls last?_shortCalls, (hnulls 3).1.2 rfl⟩
  rw [hrows, hsize]
  decide

end Updates

end ColumnStore
