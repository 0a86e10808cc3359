import ColumnStore.Proofs.Stability

/-!
# Which deltas a column takes

A delta is looked at block by block, and of each block only the last entry.  This is
enough: a delta that was committed from updates is taken exactly if it is newer, stored
as the column is, has flags only where nulls are allowed, and every row that was updated
is a row of the base layer (`publishDelta_accepted_iff`).

The check of the rows is settled apart.  It passes exactly if all rows are contained
(`requireRows_iff`), and where it does not pass it refuses and never breaks off
(`requireRows_eq_error`).
-/

namespace ColumnStore

variable {st : ColumnType}

namespace RowUpdate

/-- A call for the row was accepted. -/
def Updated (nullable : Bool) (calls : List (RowUpdate st)) (rid : RowId) : Prop :=
  ∃ call ∈ calls, call.row = rid ∧ call.accepted nullable = true

theorem exists_last?_iff {nullable : Bool} {calls : List (RowUpdate st)} {rid : RowId} :
    (∃ v, last? nullable calls rid = some v) ↔ Updated nullable calls rid := by
  have hfound : (∃ v, last? nullable calls rid = some v) ↔
      (calls.reverse.find? fun call =>
        call.row == rid && call.accepted nullable).isSome = true := by
    rw [last?, ← Option.isSome_iff_exists, Option.isSome_map]
  rw [hfound, List.find?_isSome]
  simp only [List.mem_reverse, Bool.and_eq_true, beq_iff_eq]
  exact Iff.rfl

end RowUpdate

namespace Column

variable {c : Column} {d : Delta} {rids : Array RowId} {index : RowIndex}

/-! ## The check of the rows -/

section Index

variable (hindex : RowIndex.ofRowIds rids = .ok index) (hsmall : rids.size < 2 ^ 32)

include hindex hsmall

/-- The last entries of the blocks decide of all rows. -/
theorem requireRows_iff : c.requireRows index = .ok () ↔ ∀ rid ∈ rids, c.Contains rid := by
  refine ⟨fun h => (contains_of_requireRows hindex h).2, ?_⟩
  intro hall
  have hbound : index.blockBound ≤ c.blocks.size := by
    rw [RowIndex.blockBound_eq hindex, RowIndex.blocksSpanned]
    split
    · exact Nat.zero_le _
    · rename_i last hlast
      obtain ⟨base, hbase, _⟩ := hall last (Array.mem_of_back? hlast)
      exact (Array.getElem?_eq_some_iff.1 hbase).1
  refine requireRows_eq_ok_iff.2 ⟨hbound, ?_⟩
  intro number hnumber
  rcases RowIndex.lastOffset?_cases hindex hsmall number with
    ⟨hnone, _⟩ | ⟨last, hlast, rfl, hoffset, _⟩
  · have hbase := Array.getElem?_eq_getElem (Nat.lt_of_lt_of_le hnumber hbound)
    refine ⟨_, none, hbase, hnone, ?_⟩
    intro offset hsome
    cases hsome
  · obtain ⟨base, hbase, hless⟩ := hall last hlast
    refine ⟨base, some last.offset, hbase, hoffset, ?_⟩
    intro offset hsome
    rw [← Option.some.inj hsome]
    exact hless

/-- Rows that are not let pass are refused. -/
theorem requireRows_eq_error {failure : Failure} (h : c.requireRows index = .error failure) :
    ∃ flaw, failure = .error (.argument flaw) := by
  unfold requireRows at h
  by_cases hbound : c.blocks.size < index.blockBound
  · simp only [hbound, if_true, throw_eq_error, error_bind] at h
    exact ⟨_, (Except.error.inj h).symm⟩
  · simp only [hbound, if_false, pure_eq_ok] at h
    obtain ⟨⟨base, number⟩, _, hstep⟩ := exists_of_forM_eq_error h
    rcases RowIndex.lastOffset?_cases hindex hsmall number with
      ⟨hnone, _⟩ | ⟨last, _, _, hoffset, _⟩
    · simp [hnone] at hstep
    · simp only [hoffset, liftM_fault_ok, ok_bind] at hstep
      by_cases houtside : base.block.size ≤ last.offset
      · simp only [houtside, if_true, throw_eq_error] at hstep
        exact ⟨_, (Except.error.inj hstep).symm⟩
      · simp [houtside] at hstep

end Index

/-! ## The checks of a delta -/

/-- What a column asks of a delta, given which rows were updated. -/
structure Admits (c : Column) (d : Delta) (Updated : RowId → Prop) : Prop where
  newer : c.version < d.version
  storage_eq : d.storage = c.storage
  flags : d.nulls.isSome = true → c.definition.nullable = true
  inside : ∀ rid, Updated rid → c.Contains rid

/-- A delta that passes the other checks is taken if its rows are. -/
theorem publishDelta_of_fits (hnewer : c.version < d.version) (hstorage : d.storage = c.storage)
    (hflags : d.nulls.isSome = true → c.definition.nullable = true) :
    c.publishDelta d =
      (c.requireRows d.index >>= fun _ => .ok { c with deltas := c.deltas.push d }) := by
  have hversion : ¬ d.version ≤ c.version := Nat.not_le.2 hnewer
  have hcarries : ¬ (!c.definition.nullable && d.nulls.isSome) = true := by
    intro hboth
    rw [Bool.and_eq_true, Bool.not_eq_true'] at hboth
    rw [hflags hboth.2] at hboth
    exact Bool.noConfusion hboth.1
  unfold publishDelta
  simp only [hversion, if_false, hstorage, ne_eq, not_true_eq_false, hcarries]
  rfl

/-- One that fails another check is refused. -/
theorem publishDelta_of_not_fits
    (h : ¬ (c.version < d.version ∧ d.storage = c.storage ∧
      (d.nulls.isSome = true → c.definition.nullable = true))) :
    ∃ e, c.publishDelta d = .error (.error e) := by
  unfold publishDelta
  by_cases hversion : d.version ≤ c.version
  · exact ⟨_, by simp only [hversion, if_true, throw_eq_error, error_bind]; rfl⟩
  · by_cases hstorage : d.storage = c.storage
    · by_cases hcarries : (!c.definition.nullable && d.nulls.isSome) = true
      · exact ⟨_, by simp [hversion, hstorage, hcarries]; rfl⟩
      · refine absurd ⟨Nat.not_le.1 hversion, hstorage, ?_⟩ h
        intro hsome
        simpa [hsome] using hcarries
    · exact ⟨_, by simp [hversion, hstorage]; rfl⟩

section Committed

variable {column : ColumnDef} {calls : List (RowUpdate st)} {version : Nat}
  (hd : (Updates.collect column calls).commit version = .ok d)
  (hsmall : (Updates.collect column calls).size < 2 ^ 32)

include hd hsmall

/-- The index is of the rows that were updated. -/
theorem ofRowIds_committed :
    ∃ rids, RowIndex.ofRowIds rids = .ok d.index ∧ rids.size < 2 ^ 32 ∧
      ∀ rid, rid ∈ rids ↔ RowUpdate.Updated column.nullable calls rid := by
  obtain ⟨_, _, hindex, _, _⟩ := Delta.commit_eq_ok hd
  refine ⟨_, hindex, ?_, ?_⟩
  · rw [List.size_toArray, List.length_map, Std.TreeMap.length_toList]
    exact hsmall
  · intro rid
    rw [Delta.Lays.mem_rids_iff, Updates.collect_getElem?, RowUpdate.exists_last?_iff]

theorem publishDelta_of_admits (h : c.Admits d (RowUpdate.Updated column.nullable calls)) :
    c.publishDelta d = .ok { c with deltas := c.deltas.push d } := by
  obtain ⟨rids, hindex, hrids, hmem⟩ := ofRowIds_committed hd hsmall
  have hrows : c.requireRows d.index = .ok () :=
    (requireRows_iff hindex hrids).2 fun rid hrid => h.inside rid ((hmem rid).1 hrid)
  rw [publishDelta_of_fits h.newer h.storage_eq h.flags, hrows, ok_bind]

theorem publishDelta_of_not_admits
    (h : ¬ c.Admits d (RowUpdate.Updated column.nullable calls)) :
    ∃ e, c.publishDelta d = .error (.error e) := by
  by_cases hfits : c.version < d.version ∧ d.storage = c.storage ∧
      (d.nulls.isSome = true → c.definition.nullable = true)
  · obtain ⟨hnewer, hstorage, hflags⟩ := hfits
    obtain ⟨rids, hindex, hrids, hmem⟩ := ofRowIds_committed hd hsmall
    rw [publishDelta_of_fits hnewer hstorage hflags]
    cases hrows : c.requireRows d.index with
    | ok _ =>
      have hinside := (requireRows_iff hindex hrids).1 hrows
      exact absurd ⟨hnewer, hstorage, hflags, fun rid hrid => hinside rid ((hmem rid).2 hrid)⟩ h
    | error failure =>
      obtain ⟨flaw, rfl⟩ := requireRows_eq_error hindex hrids hrows
      exact ⟨_, rfl⟩
  · exact publishDelta_of_not_fits hfits

end Committed

/-- A delta committed from updates to fewer than 2^32 rows is taken exactly if it is newer
than the column, stored as the column is, has flags only if the column allows nulls, and
every row that was updated is a row of the base layer.  A delta that is taken is the last
of the history, and its version is the column's.  One that is not taken is refused and
leaves the column. -/
theorem publishDelta_accepted_iff (c : Column) {column : ColumnDef} {calls : List (RowUpdate st)}
    {version : Nat} (hd : (Updates.collect column calls).commit version = .ok d)
    (hsmall : (Updates.collect column calls).size < 2 ^ 32) :
    ((∃ c', c.publishDelta d = .ok c') ↔
        c.Admits d (RowUpdate.Updated column.nullable calls)) ∧
      (∀ c', c.publishDelta d = .ok c' →
        c' = { c with deltas := c.deltas.push d } ∧ c'.version = d.version) ∧
      ((∀ c', c.publishDelta d ≠ .ok c') →
        (∃ e, c.publishDelta d = .error (.error e)) ∧ c.publish (.delta d) = c) := by
  by_cases hadmits : c.Admits d (RowUpdate.Updated column.nullable calls)
  · have htaken := publishDelta_of_admits hd hsmall hadmits
    refine ⟨iff_of_true ⟨_, htaken⟩ hadmits, ?_, fun hnot => absurd htaken (hnot _)⟩
    intro c' hc'
    obtain rfl := Except.ok.inj (htaken.symm.trans hc')
    refine ⟨rfl, ?_⟩
    rw [Column.version, Array.back?_push]
  · obtain ⟨e, he⟩ := publishDelta_of_not_admits hd hsmall hadmits
    have hnone : ∀ c', c.publishDelta d ≠ .ok c' := by
      intro c' hc'
      cases he.symm.trans hc'
    refine ⟨iff_of_false (fun htake => ?_) hadmits, fun c' hc' => absurd hc' (hnone c'), ?_⟩
    · obtain ⟨c', hc'⟩ := htake
      exact hnone c' hc'
    · exact fun _ => ⟨⟨e, he⟩, publish_of_refuses ⟨_, he⟩⟩

/-! ## Deltas for the price column -/

/-- The price column has one block of four rows. -/
theorem contains_price_iff (rid : RowId) :
    priceColumn.Contains rid ↔ rid.block = 0 ∧ rid.offset < 4 := by
  have hcount : priceColumn.blocks.size = 1 := by decide +kernel
  have hsize : (priceColumn.blocks[0]?).map (·.block.size) = some 4 := by decide +kernel
  obtain ⟨only, honly, hfour⟩ := Option.map_eq_some_iff.1 hsize
  constructor
  · intro hcontains
    obtain ⟨base, hbase, hless⟩ := hcontains
    have hblock : rid.block = 0 := by
      have hin := (Array.getElem?_eq_some_iff.1 hbase).1
      omega
    rw [hblock, honly] at hbase
    rw [← Option.some.inj hbase, hfour] at hless
    exact ⟨hblock, hless⟩
  · intro hplace
    refine ⟨only, ?_, ?_⟩
    · rw [hplace.1]
      exact honly
    · rw [hfour]
      exact hplace.2

/-- Updates of the first and the last row, the last twice. -/
def insideCalls : List (RowUpdate .smallInt) := [.put 3 5, .put 0 8, .putNull 3]

/-- Updates of the last row, of the place after it, and of the first row. -/
def outsideCalls : List (RowUpdate .smallInt) := [.put 3 5, .put 4 8, .put 0 9]

/-- The newest version of the column is 15.  At version 16 the updates inside the block
are taken, those outside are not, and at version 15 neither are. -/
theorem publishDelta_accepted_iff_price :
    (Updates.collect History.price insideCalls).size < 2 ^ 32 ∧
      (Updates.collect History.price outsideCalls).size < 2 ^ 32 ∧
      ∃ inside outside late : Delta,
        (Updates.collect History.price insideCalls).commit 16 = .ok inside ∧
        (Updates.collect History.price outsideCalls).commit 16 = .ok outside ∧
        (Updates.collect History.price insideCalls).commit 15 = .ok late ∧
        (∃ c', priceColumn.publishDelta inside = .ok c' ∧ c'.version = 16) ∧
        (∃ e, priceColumn.publishDelta outside = .error (.error e)) ∧
        priceColumn.publish (.delta late) = priceColumn := by
  have hversion : priceColumn.version = 15 := by decide +kernel
  have hnullable : priceColumn.definition.nullable = true := by decide +kernel
  have hin : (Updates.collect History.price insideCalls).size < 2 ^ 32 := by decide +kernel
  have hout : (Updates.collect History.price outsideCalls).size < 2 ^ 32 := by decide +kernel
  obtain ⟨inside, hinside⟩ : ∃ d, (Updates.collect History.price insideCalls).commit 16 = .ok d :=
    exists_of_isOk (by decide +kernel)
  obtain ⟨outside, houtside⟩ :
      ∃ d, (Updates.collect History.price outsideCalls).commit 16 = .ok d :=
    exists_of_isOk (by decide +kernel)
  obtain ⟨late, hlate⟩ : ∃ d, (Updates.collect History.price insideCalls).commit 15 = .ok d :=
    exists_of_isOk (by decide +kernel)
  refine ⟨hin, hout, inside, outside, late, hinside, houtside, hlate, ?_, ?_, ?_⟩
  · obtain ⟨htaken, hafter, _⟩ := publishDelta_accepted_iff priceColumn hinside hin
    obtain ⟨hstamp, hstorage, _⟩ := Delta.commit_eq_ok hinside
    obtain ⟨c', hc'⟩ := htaken.2 {
      newer := by rw [hversion, hstamp]; decide
      storage_eq := by rw [hstorage]; decide +kernel
      flags := fun _ => hnullable
      inside := by
        intro rid hupdated
        obtain ⟨call, hcall, rfl, _⟩ := hupdated
        rw [contains_price_iff]
        revert call
        decide }
    exact ⟨c', hc', (hafter c' hc').2.trans hstamp⟩
  · obtain ⟨htaken, _, hrefused⟩ := publishDelta_accepted_iff priceColumn houtside hout
    refine (hrefused fun c' hc' => ?_).1
    have hcontains := (htaken.1 ⟨c', hc'⟩).inside 4 ⟨.put 4 8, by simp [outsideCalls], rfl, rfl⟩
    exact absurd ((contains_price_iff 4).1 hcontains) (by decide)
  · obtain ⟨htaken, _, hrefused⟩ := publishDelta_accepted_iff priceColumn hlate hin
    refine (hrefused fun c' hc' => ?_).2
    have hnewer := (htaken.1 ⟨c', hc'⟩).newer
    rw [hversion, (Delta.commit_eq_ok hlate).1] at hnewer
    exact absurd hnewer (by decide)

end Column

end ColumnStore
