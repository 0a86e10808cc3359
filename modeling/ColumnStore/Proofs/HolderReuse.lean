import ColumnStore.Proofs.ReadAcceptance

/-!
# Reading into a holder that was used before

Where a delta in sight updates a block, reading it leaves a block of the holder's own:
the one it had, if that fits, and else a fresh one.  Whatever that block held before,
its first rows are those of the base block under the deltas, value by value and flag by
flag, so two holders agree on all bytes of those rows (`Snapshot.readBlock_leaks_nothing`).
That includes the value under a set flag.

Past the rows asked for, a block that is used again keeps its bytes.
-/

namespace ColumnStore

namespace Snapshot

variable {logical storage : ColumnType} {nullable : Bool} {s : Snapshot logical storage nullable}
  {layers : List (Layer storage)} {base : BaseBlock} {rows number : Nat}
  {holder holder' : Holder}

/-! ## What is stored in the holder -/

/-- Whatever the holder held, it holds the base block under all layers.  A block that is
used again keeps its shape, and its bytes past the rows asked for. -/
theorem Layered.readBlock_stored (h : s.Layered layers) (hbase : s.blocks[number]? = some base)
    (htouches : s.Touches number) (hrows : rows ≤ base.block.size) (hholder : holder.WellFormed) :
    ∃ b, s.readBlock rows number holder = (.ok (), .owned b) ∧ b.WellFormed ∧
      b.data.width = storage.width ∧ rows ≤ b.size ∧
      (nullable = true → b.tracksNulls = true) ∧
      (∀ i < rows, b.stored storage.width i =
        (base.block.stored storage.width i).overlay nullable number i layers) ∧
      ∀ own, holder = .owned own → own.fits storage rows base.block = true →
        b.SameShape own ∧
        b.data.bytes.drop (rows * storage.width) = own.data.bytes.drop (rows * storage.width) ∧
        b.nulls.map (·.bytes.drop rows) = own.nulls.map (·.bytes.drop rows) := by
  obtain ⟨target, b, htarget, hpatched, htakes, hwell, hshape, hstored⟩ :=
    h.patched_eq number (Array.mem_of_getElem? hbase) hrows hholder
  have hfinal := htakes.of_sameShape hwell hshape
  refine ⟨b, h.readBlock_of_patched hbase htouches hpatched, hwell, hfinal.width_eq,
    hfinal.rows_le, hfinal.tracksNulls, ?_, ?_⟩
  · intro i hi
    rw [hstored i, if_pos hi]
  · intro own hown hfits
    subst hown
    -- A block that fits is the one the copy goes to.
    have hreused : s.copyTarget rows base.block (Holder.owned own).owned? = .ok own :=
      s.copyTarget_of_reusable (Block.fits_iff.1 hfits)
    obtain rfl : target = own := Except.ok.inj (htarget.symm.trans hreused)
    refine ⟨hshape, Block.drop_eq hwell htakes.wellFormed hshape htakes.width_eq ?_⟩
    intro i hi
    rw [hstored i, if_neg (Nat.not_lt.2 hi)]

/-! ## Two holders -/

variable {c : Column} {version : Nat}

/-- Where a delta in sight updates the block, what two holders hold after reading it
agrees in the bytes of the rows asked for, whatever each of them held before: in the
values, also of nulls, and where nulls are allowed in the flags.  Where none are
allowed, none of these rows is null.  A block that is used again keeps its bytes past
these rows. -/
theorem readBlock_leaks_nothing (hc : c.Reachable)
    (hs : c.snapshot logical storage nullable version = .ok s)
    (hbase : s.blocks[number]? = some base) (htouches : s.Touches number)
    (hrows : rows ≤ base.block.size) (hholder : holder.WellFormed)
    (hholder' : holder'.WellFormed) :
    ∃ b b' : Block, s.readBlock rows number holder = (.ok (), .owned b) ∧
      s.readBlock rows number holder' = (.ok (), .owned b') ∧
      rows ≤ b.size ∧ rows ≤ b'.size ∧
      b.data.bytes.take (rows * storage.width) = b'.data.bytes.take (rows * storage.width) ∧
      (nullable = true → b.tracksNulls = true ∧ b'.tracksNulls = true ∧
        b.nulls.map (·.bytes.take rows) = b'.nulls.map (·.bytes.take rows)) ∧
      (nullable = false → ∀ i < rows, b.isNull i = .ok false ∧ b'.isNull i = .ok false) ∧
      ∀ own, holder = .owned own → own.fits storage rows base.block = true →
        b.SameShape own ∧
        b.data.bytes.drop (rows * storage.width) = own.data.bytes.drop (rows * storage.width) ∧
        b.nulls.map (·.bytes.drop rows) = own.nulls.map (·.bytes.drop rows) := by
  obtain ⟨layers, h⟩ := hc.layered_snapshot hs
  obtain ⟨b, hread, hwell, hwidth, hsize, htracks, hstored, hkept⟩ :=
    h.readBlock_stored hbase htouches hrows hholder
  obtain ⟨b', hread', hwell', hwidth', hsize', htracks', hstored', _⟩ :=
    h.readBlock_stored hbase htouches hrows hholder'
  have hsame : ∀ i < rows, b.stored storage.width i = b'.stored storage.width i := by
    intro i hi
    rw [hstored i hi, hstored' i hi]
  have hvisible : nullable = false → ∀ i,
      ((base.block.stored storage.width i).overlay nullable number i layers).flag = 0 := by
    intro hn i
    subst hn
    rw [StoredRow.flag_overlay _ (h.noNulls rfl)]
    exact h.flag_eq_zero rfl (Array.mem_of_getElem? hbase) i
  refine ⟨b, b', hread, hread', hsize, hsize', ?_, ?_, ?_, hkept⟩
  · exact Block.take_data_eq hwell hwell' hwidth hwidth' hsize hsize' hsame
  · intro hn
    exact ⟨htracks hn, htracks' hn,
      Block.take_flags_eq hwell hwell' (htracks hn) (htracks' hn) hsize hsize' hsame⟩
  · intro hn i hi
    have hflag := (congrArg StoredRow.flag (hstored i hi)).trans (hvisible hn i)
    have hflag' := (congrArg StoredRow.flag (hstored' i hi)).trans (hvisible hn i)
    exact ⟨Block.isNull_of_flag_eq_zero hwell (by omega) hflag,
      Block.isNull_of_flag_eq_zero hwell' (by omega) hflag'⟩

/-- A holder whose block is used again and one that is empty. -/
theorem readBlock_leaks_nothing_price :
    priceColumn.Reachable ∧ Holder.WellFormed (.owned usedBlock) ∧ Holder.WellFormed .empty ∧
      ∃ (s : Snapshot .int .smallInt true) (base : BaseBlock) (b b' : Block),
        priceColumn.snapshot .int .smallInt true 13 = .ok s ∧ s.blocks[0]? = some base ∧
        s.Touches 0 ∧ 3 ≤ base.block.size ∧ usedBlock.fits .smallInt 3 base.block = true ∧
        s.readBlock 3 0 (.owned usedBlock) = (.ok (), .owned b) ∧
        s.readBlock 3 0 .empty = (.ok (), .owned b') ∧
        b.data.bytes.take 6 = b'.data.bytes.take 6 ∧
        b.data.bytes.drop 6 = usedBlock.data.bytes.drop 6 ∧
        b.nulls.map (·.bytes.drop 3) = some #[255, 255] := by
  have hs := snapshot_priceColumn (show 10 ≤ 13 by decide)
  obtain ⟨base, hbase, hsize⟩ := exists_priceBlock 13
  have hempty : Holder.WellFormed .empty := by
    intro own hown
    simp [Holder.owned?] at hown
  have hrows : 3 ≤ base.block.size := by omega
  have hfits : usedBlock.fits .smallInt 3 base.block = true := by
    simp [Block.fits, Block.tracksNulls, usedBlock, ColumnType.width]
  obtain ⟨b, b', hread, hread', _, _, htake, _, _, hkept⟩ :=
    readBlock_leaks_nothing reachable_priceColumn hs hbase touches_priceColumn hrows
      usedHolder_wellFormed hempty
  obtain ⟨_, hdata, hflags⟩ := hkept usedBlock rfl hfits
  refine ⟨reachable_priceColumn, usedHolder_wellFormed, hempty, _, base, b, b', hs, hbase,
    touches_priceColumn, hrows, hfits, hread, hread', htake, hdata, ?_⟩
  rw [hflags]
  decide

end Snapshot

end ColumnStore
