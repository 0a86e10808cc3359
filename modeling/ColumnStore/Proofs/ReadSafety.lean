import ColumnStore.Proofs.Materialize

/-!
# Reads that do not break off

What a column has checked once, reading need not check again.  `Column.Sound`
lists it: how the versions of the deltas stand, what the blocks hold, and where the
rows of the deltas lie.  It is read off the layers that calls keep
(`Column.Layered.sound`).

What follows for reading is the second half of the module.  Looking a row up
breaks off exactly if the row lies outside the base layer
(`Snapshot.Layered.get_eq_error_iff`).  Reading a block of the base layer can be
refused, for more rows than there are, but never breaks off
(`Snapshot.Layered.readBlock_ne_fault`).
-/

namespace ColumnStore

namespace Column

variable {c : Column}

/-- What a column guarantees to those that read it.  The versions of its deltas
ascend from above the base version.  Its blocks have the element width of its
storage and flags exactly if nulls are allowed, and hold exactly their rows.  Its
deltas are stored as it is, have flags only if nulls are allowed, and update rows
of the base layer alone. -/
structure Sound (c : Column) : Prop where
  ascending : c.deltas.toList.Pairwise (·.version < ·.version)
  aboveBase : ∀ d ∈ c.deltas.toList, c.baseVersion < d.version
  serves : ∀ base ∈ c.blocks, Serves base.block c.storage c.definition.nullable
  storage_eq : ∀ d ∈ c.deltas.toList, d.storage = c.storage
  flags : ∀ d ∈ c.deltas.toList, d.nulls.isSome = true → c.definition.nullable = true
  inside : ∀ d ∈ c.deltas.toList, ∀ rid ∈ d.index.rowIds, c.Contains rid

end Column

/-- The rows of a delta's index are those of the layer it lays. -/
theorem Delta.Lays.mem_rowIds_iff {st : ColumnType} {d : Delta}
    {rows : Std.TreeMap RowId (Option st.Value)} (h : d.Lays rows) {rid : RowId} :
    rid ∈ d.index.rowIds ↔ ∃ v, rows[rid]? = some v := by
  rw [RowIndex.mem_rowIds_iff h.index_eq h.rids_small]
  exact mem_rids_iff

theorem Column.Layered.sound {c : Column} {st : ColumnType} {layers : List (Layer st)}
    (h : c.Layered layers) : c.Sound := by
  obtain rfl := h.storage_eq
  refine ⟨h.ascending, h.aboveBase, h.serves, ?_, h.flags, ?_⟩
  · intro d hd
    obtain ⟨layer, _, his⟩ := Delta.exists_layer_of_mem h.isLayer hd
    exact his.lays.storage_eq
  · intro d hd rid hrid
    obtain ⟨layer, hlayer, his⟩ := Delta.exists_layer_of_mem h.isLayer hd
    obtain ⟨v, hv⟩ := his.lays.mem_rowIds_iff.1 hrid
    exact h.inside layer hlayer rid v hv

namespace Snapshot

variable {logical storage : ColumnType} {nullable : Bool} {s : Snapshot logical storage nullable}
  {layers : List (Layer storage)} {base : BaseBlock} {rid : RowId} {rows number : Nat}
  {holder : Holder}

/-! ## Looking a row up -/

/-- The base layer breaks off at a row id that is not its own. -/
theorem baseValue?_of_not_contains (h : ¬ s.Contains rid) :
    ∃ fault, s.baseValue? storage nullable rid = .error fault := by
  unfold Layers.baseValue?
  cases hbase : s.blocks[rid.block]? with
  | none => exact ⟨_, rfl⟩
  | some base =>
    have hoffset : ¬ rid.offset < base.block.size := fun hlt => h ⟨base, hbase, hlt⟩
    simp only [hoffset, if_false]
    exact ⟨_, rfl⟩

/-- Where all updates lie in the base layer, looking a row up breaks off exactly if
the row lies outside of it. -/
theorem Layered.get_eq_error_iff (h : s.Layered layers)
    (hinside : ∀ layer ∈ layers, ∀ (rid : RowId) (v : Option storage.Value),
      layer.rows[rid]? = some v → s.Contains rid) :
    (∃ fault, s.get rid = .error fault) ↔ ¬ s.Contains rid := by
  constructor
  · intro hfault hrid
    obtain ⟨fault, hfault⟩ := hfault
    obtain ⟨base, hbase, hoffset⟩ := hrid
    rw [h.get_eq hbase hoffset] at hfault
    simp at hfault
  · intro hrid
    -- No layer has the row, so the search comes down to the base layer.
    have hnone : Layer.newest? layers rid = none := by
      rw [Layer.newest?_eq_none_iff]
      intro layer hlayer
      rw [Option.eq_none_iff_forall_ne_some]
      intro v hv
      exact hrid (hinside layer hlayer rid v hv)
    have hsearch := Layers.firstUpdate?_bind (List.forall₂_reverse_iff.2 h.isLayer)
      (fun d hd => h.flags d (List.mem_reverse.1 hd)) rid (s.baseValue? storage nullable rid)
    rw [← Layer.newest?, hnone] at hsearch
    obtain ⟨fault, hfault⟩ := baseValue?_of_not_contains hrid
    exact ⟨fault, hsearch.trans hfault⟩

/-- A row lies outside the base layer if its block does, or its offset lies past the
rows of its block. -/
theorem not_contains_iff :
    ¬ s.Contains rid ↔
      s.blocks.size ≤ rid.block ∨ ∃ n, s.rowCount rid.block = .ok n ∧ n ≤ rid.offset := by
  unfold Layers.Contains rowCount
  cases hbase : s.blocks[rid.block]? with
  | none => simp [Array.getElem?_eq_none_iff.1 hbase]
  | some base =>
    have hin := (Array.getElem?_eq_some_iff.1 hbase).1
    simp [Nat.not_le.2 hin]

/-! ## Reading a block -/

/-- Asked for more rows than the block has, a copy is refused. -/
theorem patched_of_lt {b : Block} (s : Snapshot logical storage nullable) (hrows : b.size < rows)
    (number : Nat) (own : Option Block) :
    ∃ e, s.patched rows number b own = .error (.error e) := by
  unfold patched
  cases htarget : s.copyTarget rows b own with
  | error e => exact ⟨e, rfl⟩
  | ok target =>
    have hlong : b.size < rows ∨ target.size < rows := .inl hrows
    refine ⟨.argument (.copyTooLong rows b.size target.size), ?_⟩
    simp only [liftM_error_ok, ok_bind, Block.copyRows, if_pos hlong]
    rfl

/-- Reading a block of the base layer never breaks off, and the holder can be read
into again. -/
theorem Layered.readBlock_ne_fault (h : s.Layered layers) (hbase : s.blocks[number]? = some base)
    (rows : Nat) (hholder : holder.WellFormed) :
    (∀ fault, (s.readBlock rows number holder).1 ≠ .error (.fault fault)) ∧
      (s.readBlock rows number holder).2.WellFormed := by
  have hmem := Array.mem_of_getElem? hbase
  unfold readBlock
  simp only [hbase]
  by_cases htouches : s.deltas.any (·.touches number) = true
  · rw [if_pos htouches]
    rcases Nat.lt_or_ge base.block.size rows with hlong | hrows
    · obtain ⟨e, hrefused⟩ := s.patched_of_lt hlong number holder.owned?
      simp only [hrefused]
      refine ⟨by simp, ?_⟩
      intro own hown
      simp [Holder.owned?] at hown
    · obtain ⟨b, hpatched, hwell, _⟩ := h.patched_of_le number hmem hrows hholder
      simp only [hpatched]
      refine ⟨by simp, ?_⟩
      intro own hown
      obtain rfl : b = own := by simpa [Holder.owned?] using hown
      exact hwell
  · rw [if_neg htouches]
    refine ⟨by simp, ?_⟩
    intro own hown
    simp [Holder.owned?] at hown

end Snapshot

/-! ## Columns that calls lead to -/

namespace Column

variable {c : Column}

/-- Every column that calls lead to is sound, whatever was refused on the way.  In each of
its snapshots a row is looked up without breaking off exactly if its block exists
and has that many rows, and a block that exists is read without breaking off,
however many rows are asked for and whatever the holder held. -/
theorem sound_and_reads_safe (hc : c.Reachable) :
    c.Sound ∧ ∀ {logical storage : ColumnType} {nullable : Bool} {version : Nat}
      {s : Snapshot logical storage nullable},
      c.snapshot logical storage nullable version = .ok s →
      (∀ rid : RowId, (∃ fault, s.get rid = .error fault) ↔
        s.blocks.size ≤ rid.block ∨ ∃ n, s.rowCount rid.block = .ok n ∧ n ≤ rid.offset) ∧
      ∀ (rows number : Nat) (holder : Holder), number < s.blocks.size → holder.WellFormed →
        (∀ fault, (s.readBlock rows number holder).1 ≠ .error (.fault fault)) ∧
          (s.readBlock rows number holder).2.WellFormed := by
  obtain ⟨st, layers, hlayered⟩ := hc.layered
  refine ⟨hlayered.sound, ?_⟩
  intro logical storage nullable version s hs
  obtain rfl : st = storage := by
    rw [← hlayered.storage_eq]
    exact (snapshot_eq_ok.1 hs).1.2.1.symm
  have h := hlayered.snapshot hs
  have hinside : ∀ layer ∈ layers.filter (·.version ≤ version), ∀ (rid : RowId)
      (v : Option st.Value), layer.rows[rid]? = some v → s.Contains rid := by
    intro layer hlayer rid v hv
    obtain ⟨_, rfl⟩ := snapshot_eq_ok.1 hs
    exact hlayered.inside layer (List.mem_filter.1 hlayer).1 rid v hv
  refine ⟨?_, ?_⟩
  · intro rid
    rw [h.get_eq_error_iff hinside]
    exact Snapshot.not_contains_iff
  · intro rows number holder hnumber hholder
    exact h.readBlock_ne_fault (Array.getElem?_eq_getElem hnumber) rows hholder

/-- The price column at version 13: a row past its block and a row past the last block
break off, and more rows than a block can have are asked for without breaking off. -/
theorem sound_and_reads_safe_price :
    History.priceHistory.column.Reachable ∧ Holder.WellFormed (.owned Snapshot.usedBlock) ∧
      History.priceHistory.column.Sound ∧
      ∃ s : Snapshot .int .smallInt true,
        History.priceHistory.column.snapshot .int .smallInt true 13 = .ok s ∧ 0 < s.blocks.size ∧
        (∃ fault, s.get 4 = .error fault) ∧ (∃ fault, s.get 65536 = .error fault) ∧
        (∀ fault, (s.readBlock 70000 0 (.owned Snapshot.usedBlock)).1 ≠ .error (.fault fault)) ∧
        (s.readBlock 70000 0 (.owned Snapshot.usedBlock)).2.WellFormed := by
  have hreachable := History.made_priceHistory.reachable
  have hholder : Holder.WellFormed (.owned Snapshot.usedBlock) := by
    intro own hown
    obtain rfl := Option.some.inj hown
    exact Snapshot.usedBlock_wellFormed
  have hs : History.priceHistory.column.snapshot .int .smallInt true 13 =
      .ok (History.priceHistory.column.at .int .smallInt true 13) := by
    refine snapshot_eq_ok.2 ⟨⟨?_, ?_, ?_, ?_⟩, rfl⟩ <;> decide +kernel
  obtain ⟨hsound, hreads⟩ := sound_and_reads_safe hreachable
  obtain ⟨hget, hread⟩ := hreads hs
  have hblocks : 0 < (History.priceHistory.column.at .int .smallInt true 13).blocks.size := by
    decide +kernel
  have hrows : (History.priceHistory.column.at .int .smallInt true 13).rowCount 0 = .ok 4 := by
    decide +kernel
  have hlast : (History.priceHistory.column.at .int .smallInt true 13).blocks.size ≤ 1 := by
    decide +kernel
  have hpast : ∃ n, (History.priceHistory.column.at .int .smallInt true 13).rowCount
      (RowId.block 4) = .ok n ∧ n ≤ RowId.offset 4 := ⟨4, hrows, by decide⟩
  exact ⟨hreachable, hholder, hsound, _, hs, hblocks, (hget 4).2 (.inr hpast),
    (hget 65536).2 (.inl hlast), hread 70000 0 _ hblocks hholder⟩

end Column

end ColumnStore
