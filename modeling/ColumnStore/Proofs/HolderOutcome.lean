import ColumnStore.Proofs.HolderReuse

/-!
# What a holder holds after a read

A read leaves a holder in one of three ways, whatever the holder held before.  After a
read that fails it is empty.  Where no delta in sight updates the block, it shares that
very block of the column and no other, since each block of a column has a place of its
own (`Column.Reachable.origin_eq`).  Where a delta in sight does, at whatever row, it has
a block of its own: the one it had, if that can take the rows, and a fresh one of exactly
the rows asked for if not (`Snapshot.readBlock_outcome`).
-/

namespace ColumnStore

/-! ## Places of blocks -/

/-- The blocks of a column are told apart by their place. -/
theorem Column.Reachable.origin_eq {c : Column} {place : Nat} {base : BaseBlock}
    (h : c.Reachable) (hbase : c.blocks[place]? = some base) : base.origin = ⟨c.tag, place⟩ := by
  induction h with
  | new tag definition storage baseVersion => simp [Column.newStoredAs] at hbase
  | @publish c p _ _ ih =>
    cases p with
    | block b =>
      simp only [Column.publish] at hbase ⊢
      split at hbase
      · rename_i c' hpublish
        obtain ⟨_, _, _, rfl⟩ := Column.publishBlock_eq_ok hpublish
        show base.origin = ⟨c.tag, place⟩
        rw [Array.getElem?_push] at hbase
        split at hbase
        · rename_i hlast
          rw [← Option.some.inj hbase, hlast]
        · exact ih hbase
      · exact ih hbase
    | delta d =>
      simp only [Column.publish] at hbase ⊢
      split at hbase
      · rename_i c' hpublish
        obtain ⟨_, _, _, _, rfl⟩ := Column.publishDelta_eq_ok hpublish
        exact ih hbase
      · exact ih hbase

namespace Snapshot

variable {logical storage : ColumnType} {nullable : Bool} {s : Snapshot logical storage nullable}
  {layers : List (Layer storage)} {base other : BaseBlock} {rows number place : Nat}
  {holder : Holder} {c : Column} {version : Nat}

/-- A holder that shares a block of the column shares no other. -/
theorem shares_iff (hc : c.Reachable) (hs : c.snapshot logical storage nullable version = .ok s)
    (hbase : s.blocks[number]? = some base) (hother : s.blocks[place]? = some other) :
    (Holder.shared base).shares other = true ↔ place = number := by
  obtain ⟨_, rfl⟩ := Column.snapshot_eq_ok.1 hs
  have hnumber : base.origin = ⟨c.tag, number⟩ := hc.origin_eq hbase
  have hplace : other.origin = ⟨c.tag, place⟩ := hc.origin_eq hother
  show (base.origin == other.origin) = true ↔ place = number
  rw [hnumber, hplace, beq_iff_eq, Origin.mk.injEq]
  exact ⟨fun h => h.2.symm, fun h => ⟨rfl, h.symm⟩⟩

/-! ## A block of the holder's own -/

/-- A read of a block that fails leaves the holder empty. -/
theorem readBlock_of_failure {failure : Failure} {after : Holder}
    (hbase : s.blocks[number]? = some base)
    (h : s.readBlock rows number holder = (.error failure, after)) : after = .empty := by
  simp only [readBlock, hbase] at h
  split at h
  · split at h
    · exact (Prod.mk.inj h).2.symm
    · simp at h
  · simp at h

/-- Where the block is updated and the holder has no block that can take the rows, it has
a fresh one of these rows then. -/
theorem Layered.readBlock_of_not_reusable (h : s.Layered layers)
    (hbase : s.blocks[number]? = some base) (htouches : s.Touches number)
    (hrows : rows ≤ base.block.size) (hholder : holder.WellFormed)
    (hnot : ∀ own, holder.owned? = some own → ¬ own.Reusable storage rows base.block) :
    ∃ b, s.readBlock rows number holder = (.ok (), .owned b) ∧ b.size = rows ∧
      b.data.width = storage.width ∧ b.tracksNulls = nullable := by
  obtain ⟨fresh, b, htarget, hpatched, _, _, hshape, _⟩ :=
    h.patched_eq number (Array.mem_of_getElem? hbase) hrows hholder
  rw [s.copyTarget_of_not_reusable hnot] at htarget
  obtain ⟨hsize, hwidth, htracks⟩ := Block.shape_of_zeroed htarget
  exact ⟨b, h.readBlock_of_patched hbase htouches hpatched, hshape.size_eq.trans hsize,
    hshape.width_eq.trans hwidth, hshape.tracksNulls_eq.trans htracks⟩

/-- Where the block is updated and the holder's own block can take the rows, that block
is patched in place: it keeps its shape, and its bytes past the rows. -/
theorem Layered.readBlock_of_reusable (h : s.Layered layers)
    (hbase : s.blocks[number]? = some base) (htouches : s.Touches number)
    (hrows : rows ≤ base.block.size) (hholder : holder.WellFormed) {own : Block}
    (hown : holder.owned? = some own) (hreusable : own.Reusable storage rows base.block) :
    ∃ b, s.readBlock rows number holder = (.ok (), .owned b) ∧ b.SameShape own ∧
      b.data.bytes.drop (rows * storage.width) = own.data.bytes.drop (rows * storage.width) ∧
      b.nulls.map (·.bytes.drop rows) = own.nulls.map (·.bytes.drop rows) := by
  cases holder with
  | empty => simp [Holder.owned?] at hown
  | shared _ => simp [Holder.owned?] at hown
  | owned block =>
    obtain rfl : block = own := Option.some.inj hown
    obtain ⟨b, hread, _, _, _, _, _, hkept⟩ :=
      h.readBlock_stored hbase htouches hrows hholder
    exact ⟨b, hread, hkept block rfl (Block.fits_iff.2 hreusable)⟩

/-! ## The outcome -/

/-- After a read that fails the holder is empty.  Of the rows a block has, any may be read:
where no delta in sight updates the block, the holder shares it and no other of the
column; where one does, it has a block of its own and shares none.  That is the block it
had, patched in place, if that can take the rows, and else a fresh one of exactly these
rows that tracks nulls as the column does. -/
theorem readBlock_outcome (hc : c.Reachable)
    (hs : c.snapshot logical storage nullable version = .ok s)
    (hbase : s.blocks[number]? = some base) (hholder : holder.WellFormed) (rows : Nat) :
    (∀ failure after, s.readBlock rows number holder = (.error failure, after) →
      after = .empty) ∧
    (rows ≤ base.block.size → ¬ s.Touches number →
      s.readBlock rows number holder = (.ok (), .shared base) ∧
      ∀ place other, s.blocks[place]? = some other →
        ((Holder.shared base).shares other = true ↔ place = number)) ∧
    (rows ≤ base.block.size → s.Touches number →
      ∃ b, s.readBlock rows number holder = (.ok (), .owned b) ∧
        (∀ other, (Holder.owned b).shares other = false) ∧
        (∀ own, holder.owned? = some own → own.Reusable storage rows base.block →
          b.SameShape own ∧
          b.data.bytes.drop (rows * storage.width) =
            own.data.bytes.drop (rows * storage.width) ∧
          b.nulls.map (·.bytes.drop rows) = own.nulls.map (·.bytes.drop rows)) ∧
        ((∀ own, holder.owned? = some own → ¬ own.Reusable storage rows base.block) →
          b.size = rows ∧ b.data.width = storage.width ∧ b.tracksNulls = nullable)) := by
  obtain ⟨layers, h⟩ := hc.layered_snapshot hs
  refine ⟨fun _ _ => readBlock_of_failure hbase, ?_, ?_⟩
  · intro _ htouches
    exact ⟨h.readBlock_of_not_touches hbase htouches rows holder,
      fun _ _ hother => shares_iff hc hs hbase hother⟩
  · intro hrows htouches
    by_cases hreusable : ∃ own, holder.owned? = some own ∧ own.Reusable storage rows base.block
    · obtain ⟨own, hown, hfits⟩ := hreusable
      obtain ⟨b, hread, hkept⟩ :=
        h.readBlock_of_reusable hbase htouches hrows hholder hown hfits
      refine ⟨b, hread, fun _ => rfl, ?_, fun hnot => absurd hfits (hnot own hown)⟩
      intro own' hown' _
      obtain rfl : own = own' := Option.some.inj (hown.symm.trans hown')
      exact hkept
    · have hnot : ∀ own, holder.owned? = some own → ¬ own.Reusable storage rows base.block :=
        fun own hown hfits => hreusable ⟨own, hown, hfits⟩
      obtain ⟨b, hread, hfresh⟩ :=
        h.readBlock_of_not_reusable hbase htouches hrows hholder hnot
      exact ⟨b, hread, fun _ => rfl, fun own hown hfits => absurd hfits (hnot own hown),
        fun _ => hfresh⟩

/-- The block of prices, shared before a delta updates it, read into a block that is used
again after, and into a fresh one. -/
theorem readBlock_outcome_price :
    priceColumn.Reachable ∧ Holder.WellFormed (.owned usedBlock) ∧ Holder.WellFormed .empty ∧
      ∃ (s s' : Snapshot .int .smallInt true) (base : BaseBlock) (b fresh : Block),
        priceColumn.snapshot .int .smallInt true 10 = .ok s ∧
        priceColumn.snapshot .int .smallInt true 13 = .ok s' ∧
        s.blocks[0]? = some base ∧ s'.blocks[0]? = some base ∧ base.block.size = 4 ∧
        ¬ s.Touches 0 ∧ s'.Touches 0 ∧
        s.readBlock 3 0 (.owned usedBlock) = (.ok (), .shared base) ∧
        s'.readBlock 3 0 (.owned usedBlock) = (.ok (), .owned b) ∧ b.size = 5 ∧
        s'.readBlock 3 0 .empty = (.ok (), .owned fresh) ∧ fresh.size = 3 ∧
        ∃ failure, s'.readBlock 5 0 (.owned usedBlock) = (.error failure, .empty) := by
  have hs := snapshot_priceColumn (Nat.le_refl 10)
  have hs' := snapshot_priceColumn (show 10 ≤ 13 by decide)
  obtain ⟨base, hbase, hsize⟩ := exists_priceBlock 10
  have hbase' : (priceColumn.at .int .smallInt true 13).blocks[0]? = some base := hbase
  have hempty : Holder.WellFormed .empty := nofun
  have hrows : 3 ≤ base.block.size := by omega
  have hquiet : ¬ (priceColumn.at .int .smallInt true 10).Touches 0 := by
    obtain ⟨_, h⟩ := reachable_priceColumn.layered_snapshot hs
    exact mt h.any_touches_iff.2 (by decide +kernel)
  have hreusable : usedBlock.Reusable .smallInt 3 base.block := ⟨by decide, rfl, fun _ => rfl⟩
  have hshared := readBlock_outcome reachable_priceColumn hs hbase usedHolder_wellFormed 3
  have hlong := readBlock_outcome reachable_priceColumn hs' hbase' usedHolder_wellFormed 5
  obtain ⟨b, hread, _, hpatched, _⟩ :=
    (readBlock_outcome reachable_priceColumn hs' hbase' usedHolder_wellFormed 3).2.2 hrows
      touches_priceColumn
  obtain ⟨fresh, hfresh, _, _, hnew⟩ :=
    (readBlock_outcome reachable_priceColumn hs' hbase' hempty 3).2.2 hrows touches_priceColumn
  have hfails : ((priceColumn.at .int .smallInt true 13).readBlock 5 0 (.owned usedBlock)).1 =
      .error (.error (.argument (.copyTooLong 5 4 5))) := by decide +kernel
  refine ⟨reachable_priceColumn, usedHolder_wellFormed, hempty, _, _, base, b, fresh, hs, hs',
    hbase, hbase', hsize, hquiet, touches_priceColumn, (hshared.2.1 hrows hquiet).1, hread, ?_,
    hfresh, (hnew nofun).1, _, Prod.ext hfails (hlong.1 _ _ (Prod.ext hfails rfl))⟩
  show b.size = usedBlock.size
  exact (hpatched usedBlock rfl hreusable).1.size_eq

end Snapshot

end ColumnStore
