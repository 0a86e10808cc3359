import ColumnStore.Proofs.ReadSafety
import ColumnStore.Proofs.Stability

/-!
# Which reads of a block are accepted

A block of the base layer is read in one of two ways.  Where a delta in sight updates
one of its rows, the rows asked for are copied, and more rows than the block has are
refused (`Snapshot.Layered.readBlock_of_patched`, `readBlock_of_lt`).  Where none does,
the holder shares the block, and how many rows were asked for is not looked at
(`readBlock_of_not_touches`).

So more rows than the block has are accepted until a delta updates the block, and then
the block that is held falls short of them (`Snapshot.readBlock_accepted_iff`).  Of the
rows the block has, all that were asked for can be read in either case.
-/

namespace ColumnStore

namespace Snapshot

variable {logical storage : ColumnType} {nullable : Bool} {s : Snapshot logical storage nullable}
  {layers : List (Layer storage)} {base : BaseBlock} {rows number : Nat} {holder : Holder}

/-! ## The two ways -/

/-- Some delta in sight updates a row of the block. -/
def Touches (s : Snapshot logical storage nullable) (number : Nat) : Prop :=
  ∃ d ∈ s.deltas, ∃ rid ∈ d.index.rowIds, rid.block = number

/-- The index of a delta tells whether it updates a row of the block. -/
theorem Layered.any_touches_iff (h : s.Layered layers) :
    s.deltas.any (·.touches number) = true ↔ s.Touches number := by
  have htouches : ∀ d ∈ s.deltas,
      (d.touches number = true ↔ ∃ rid ∈ d.index.rowIds, rid.block = number) := by
    intro d hd
    obtain ⟨layer, _, his⟩ := Delta.exists_layer_of_mem h.isLayer (Array.mem_toList_iff.2 hd)
    rw [Delta.touches, RowIndex.touches_iff his.lays.index_eq his.lays.rids_small]
    simp only [RowIndex.mem_rowIds_iff his.lays.index_eq his.lays.rids_small]
  rw [Array.any_eq_true']
  exact exists_congr fun d => and_congr_right fun hd => htouches d hd

/-- Where the block is updated, the holder has the patched copy. -/
theorem Layered.readBlock_of_patched (h : s.Layered layers) (hbase : s.blocks[number]? = some base)
    (htouches : s.Touches number) {b : Block}
    (hpatched : s.patched rows number base.block holder.owned? = .ok b) :
    s.readBlock rows number holder = (.ok (), .owned b) := by
  simp only [readBlock, hbase, h.any_touches_iff.2 htouches, if_true, hpatched]

/-- Where the block is updated, more rows than it has are refused. -/
theorem Layered.readBlock_of_lt (h : s.Layered layers) (hbase : s.blocks[number]? = some base)
    (htouches : s.Touches number) (hrows : base.block.size < rows) (holder : Holder) :
    ∃ e, s.readBlock rows number holder = (.error (.error e), .empty) := by
  obtain ⟨e, hrefused⟩ := s.patched_of_lt hrows number holder.owned?
  refine ⟨e, ?_⟩
  simp only [readBlock, hbase, h.any_touches_iff.2 htouches, if_true, hrefused]

/-- Where the block is not updated, it is shared. -/
theorem Layered.readBlock_of_not_touches (h : s.Layered layers)
    (hbase : s.blocks[number]? = some base) (htouches : ¬ s.Touches number) (rows : Nat)
    (holder : Holder) : s.readBlock rows number holder = (.ok (), .shared base) := by
  have hquiet : ¬ s.deltas.any (·.touches number) = true := mt h.any_touches_iff.1 htouches
  simp only [readBlock, hbase, hquiet]
  rfl

/-! ## Acceptance -/

variable {c : Column} {version : Nat}

/-- A read of a block is accepted exactly if the block has the rows asked for or no
delta in sight updates it.  A read that is not accepted is refused and leaves the holder
empty.  After one that is, the block that is held has the rows asked for exactly if the
block that is read has, and of the rows asked for each that the block has can be
read. -/
theorem readBlock_accepted_iff (hc : c.Reachable)
    (hs : c.snapshot logical storage nullable version = .ok s)
    (hbase : s.blocks[number]? = some base) (rows : Nat) (hholder : holder.WellFormed) :
    ((s.readBlock rows number holder).1 = .ok () ↔
        rows ≤ base.block.size ∨ ¬ s.Touches number) ∧
      ((s.readBlock rows number holder).1 ≠ .ok () →
        ∃ e, s.readBlock rows number holder = (.error (.error e), .empty)) ∧
      ((s.readBlock rows number holder).1 = .ok () →
        ∃ held, (s.readBlock rows number holder).2.block? = some held ∧
          (rows ≤ held.size ↔ rows ≤ base.block.size) ∧
          ∀ i < rows, i < base.block.size → ∃ v, held.value? storage.width i = .ok v) := by
  obtain ⟨layers, h⟩ := hc.layered_snapshot hs
  by_cases htouches : s.Touches number
  · rcases Nat.lt_or_ge base.block.size rows with hlong | hrows
    · obtain ⟨e, hrefused⟩ := h.readBlock_of_lt hbase htouches hlong holder
      simp only [hrefused]
      refine ⟨?_, fun _ => ⟨e, rfl⟩, ?_⟩
      · simp [htouches, Nat.not_le.2 hlong]
      · simp
    · obtain ⟨b, hpatched, hwell, hwidth, hsize, _⟩ :=
        h.patched_of_le number (Array.mem_of_getElem? hbase) hrows hholder
      simp only [h.readBlock_of_patched hbase htouches hpatched]
      refine ⟨by simp [hrows], by simp, fun _ => ⟨b, rfl, ?_, ?_⟩⟩
      · exact iff_of_true hsize hrows
      · intro i hi _
        exact ⟨_, Block.value?_of_lt hwell hwidth (Nat.lt_of_lt_of_le hi hsize)⟩
  · have hserves := h.serves base (Array.mem_of_getElem? hbase)
    simp only [h.readBlock_of_not_touches hbase htouches rows holder]
    refine ⟨by simp [htouches], by simp, fun _ => ⟨base.block, rfl, Iff.rfl, ?_⟩⟩
    intro i _ hi
    exact ⟨_, Block.value?_of_lt hserves.wellFormed hserves.width_eq hi⟩

/-! ## The block of prices -/

theorem reachable_priceColumn : priceColumn.Reachable := History.made_priceHistory.reachable

theorem snapshot_priceColumn {version : Nat} (hversion : 10 ≤ version) :
    priceColumn.snapshot .int .smallInt true version =
      .ok (priceColumn.at .int .smallInt true version) := by
  have hbase : priceColumn.baseVersion = 10 := by decide +kernel
  refine Column.snapshot_eq_ok.2 ⟨⟨?_, ?_, ?_, ?_⟩, rfl⟩
  · decide +kernel
  · decide +kernel
  · decide +kernel
  · rw [hbase]
    exact hversion

theorem exists_priceBlock (version : Nat) :
    ∃ base, (priceColumn.at .int .smallInt true version).blocks[0]? = some base ∧
      base.block.size = 4 := by
  have hany : (priceColumn.blocks[0]?).any (·.block.size = 4) = true := by decide +kernel
  show ∃ base, priceColumn.blocks[0]? = some base ∧ base.block.size = 4
  simpa [Option.any_eq_true] using hany

theorem touches_priceColumn : (priceColumn.at .int .smallInt true 13).Touches 0 := by
  obtain ⟨_, h⟩ := reachable_priceColumn.layered_snapshot
    (snapshot_priceColumn (show 10 ≤ 13 by decide))
  exact h.any_touches_iff.1 (by decide +kernel)

theorem usedHolder_wellFormed : Holder.WellFormed (.owned usedBlock) := by
  intro own hown
  obtain rfl := Option.some.inj hown
  exact usedBlock_wellFormed

/-- Five rows of the block of four are accepted as long as no delta in sight updates it,
and the last of them cannot be read.  At a later version they are refused. -/
theorem rows_past_block_accepted :
    priceColumn.Reachable ∧ ∃ s s' : Snapshot .int .smallInt true,
      priceColumn.snapshot .int .smallInt true 10 = .ok s ∧
      priceColumn.snapshot .int .smallInt true 13 = .ok s' ∧
      s.rowCount 0 = .ok 4 ∧ s'.rowCount 0 = .ok 4 ∧
      (s.readBlock 5 0 .empty).1 = .ok () ∧
      (∃ held, (s.readBlock 5 0 .empty).2.block? = some held ∧
        held.value? 2 4 = .error (.rowOutOfBlock 4)) ∧
      (s'.readBlock 5 0 .empty).1 = .error (.error (.argument (.copyTooLong 5 4 5))) := by
  refine ⟨reachable_priceColumn, _, _, snapshot_priceColumn (by decide),
    snapshot_priceColumn (by decide), ?_, ?_, ?_, ?_, ?_⟩
  · decide +kernel
  · decide +kernel
  · decide +kernel
  · have hshared : ((((priceColumn.at .int .smallInt true 10).readBlock 5 0 .empty).2.block?).any
        (·.value? 2 4 = .error (.rowOutOfBlock 4))) = true := by decide +kernel
    simpa [Option.any_eq_true] using hshared
  · decide +kernel

/-- Where the block is updated, its four rows are read and five are refused. -/
theorem readBlock_accepted_iff_price :
    priceColumn.Reachable ∧ Holder.WellFormed (.owned usedBlock) ∧
      ∃ (s : Snapshot .int .smallInt true) (base : BaseBlock),
        priceColumn.snapshot .int .smallInt true 13 = .ok s ∧ s.blocks[0]? = some base ∧
        base.block.size = 4 ∧ s.Touches 0 ∧
        (s.readBlock 4 0 (.owned usedBlock)).1 = .ok () ∧
        ∃ e, s.readBlock 5 0 (.owned usedBlock) = (.error (.error e), .empty) := by
  have hs := snapshot_priceColumn (show 10 ≤ 13 by decide)
  obtain ⟨base, hbase, hsize⟩ := exists_priceBlock 13
  have hread := fun rows =>
    readBlock_accepted_iff reachable_priceColumn hs hbase rows usedHolder_wellFormed
  refine ⟨reachable_priceColumn, usedHolder_wellFormed, _, base, hs, hbase, hsize,
    touches_priceColumn, ?_, ?_⟩
  · exact (hread 4).1.2 (.inl (Nat.le_of_eq hsize.symm))
  · apply (hread 5).2.1
    rw [ne_eq, (hread 5).1, not_or, not_not, hsize]
    exact ⟨by decide, touches_priceColumn⟩

end Snapshot

end ColumnStore
