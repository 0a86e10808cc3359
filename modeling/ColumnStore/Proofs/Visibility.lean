import ColumnStore.Proofs.ReadAcceptance

/-!
# What a version sees

The versions of a column's deltas ascend from above its base version, so the deltas that a
version sees are the first of the column (`Column.toList_visible`).  The column with these
alone (`Column.seenAt`) has as its version the effective version of the snapshot
(`Column.effectiveVersion_at`), which is the greatest of theirs.  That version sees the same
deltas again (`Column.Layered.deltas_seenAt_version`).  So a snapshot at the effective version
shows what the snapshot it was taken from shows.

How much more a later version sees is not said beyond that it starts with the same deltas.
-/

namespace ColumnStore

namespace Column

variable {c : Column} {version later : Nat} {st : ColumnType} {layers : List (Layer st)}

/-- The version is the greatest of the deltas', or the base version if there are none. -/
def IsNewest (c : Column) (deltas : List Delta) (version : Nat) : Prop :=
  (deltas = [] ∧ version = c.baseVersion) ∨
    ∃ d ∈ deltas, d.version = version ∧ ∀ d' ∈ deltas, d'.version ≤ version

theorem isNewest_version (hasc : c.deltas.toList.Pairwise (·.version < ·.version)) :
    c.IsNewest c.deltas.toList c.version := by
  cases hback : c.deltas.back? with
  | none =>
    have hempty : c.deltas = #[] := Array.back?_eq_none_iff.1 hback
    refine .inl ⟨congrArg Array.toList hempty, ?_⟩
    simp only [Column.version, hback]
  | some d =>
    have hmem : d ∈ c.deltas.toList := by
      rw [Array.back?_eq_getElem?] at hback
      exact Array.mem_toList_iff.2 (Array.mem_of_getElem? hback)
    refine .inr ⟨d, hmem, ?_, fun d' hd' => version_le hasc hd'⟩
    simp only [Column.version, hback]

/-! ## The deltas in sight -/

/-- The column without the deltas that a version does not see. -/
def seenAt (c : Column) (version : Nat) : Column :=
  { c with deltas := c.deltas.extract 0 (c.visibleAt version) }

theorem toList_seenAt (hasc : c.deltas.toList.Pairwise (·.version < ·.version)) (version : Nat) :
    (c.seenAt version).deltas.toList = c.deltas.toList.filter (·.version ≤ version) :=
  toList_visible hasc version

theorem mem_seenAt_iff (hasc : c.deltas.toList.Pairwise (·.version < ·.version)) {d : Delta} :
    d ∈ (c.seenAt version).deltas.toList ↔ d ∈ c.deltas.toList ∧ d.version ≤ version := by
  rw [toList_seenAt hasc, List.mem_filter, decide_eq_true_iff]

theorem seenAt_prefix (c : Column) (version : Nat) :
    (c.seenAt version).deltas.toList <+: c.deltas.toList := by
  show (c.deltas.extract 0 (c.visibleAt version)).toList <+: c.deltas.toList
  rw [Array.toList_extract, List.extract_eq_take_drop, List.drop_zero]
  exact List.take_prefix _ _

/-- What an earlier version sees comes first in what a later one sees. -/
theorem seenAt_prefix_seenAt (hasc : c.deltas.toList.Pairwise (·.version < ·.version))
    (hle : version ≤ later) :
    (c.seenAt version).deltas.toList <+: (c.seenAt later).deltas.toList := by
  refine List.prefix_of_prefix_length_le (c.seenAt_prefix version) (c.seenAt_prefix later) ?_
  rw [toList_seenAt hasc, toList_seenAt hasc]
  apply List.Sublist.length_le
  apply List.monotone_filter_right
  intro d hd
  have hseen : d.version ≤ version := by simpa using hd
  simpa using Nat.le_trans hseen hle

theorem isNewest_seenAt (hasc : c.deltas.toList.Pairwise (·.version < ·.version))
    (version : Nat) :
    c.IsNewest (c.seenAt version).deltas.toList (c.seenAt version).version :=
  isNewest_version (hasc.sublist (c.seenAt_prefix version).sublist)

/-- From the base version on, the newest version in sight lies between it and the version
that sees it. -/
theorem Layered.version_seenAt_bounds (h : c.Layered layers) (hlow : c.baseVersion ≤ version) :
    c.baseVersion ≤ (c.seenAt version).version ∧ (c.seenAt version).version ≤ version := by
  rcases isNewest_seenAt h.ascending version with ⟨_, heq⟩ | ⟨d, hd, heq, _⟩
  · rw [heq]
    exact ⟨Nat.le_refl _, hlow⟩
  · obtain ⟨hmem, hle⟩ := (mem_seenAt_iff h.ascending).1 hd
    rw [← heq]
    exact ⟨Nat.le_of_lt (h.aboveBase d hmem), hle⟩

/-- The newest version in sight sees the same deltas. -/
theorem Layered.deltas_seenAt_version (h : c.Layered layers) (hlow : c.baseVersion ≤ version) :
    (c.seenAt (c.seenAt version).version).deltas = (c.seenAt version).deltas := by
  have hle := (h.version_seenAt_bounds hlow).2
  apply Array.toList_inj.1
  rw [toList_seenAt h.ascending, toList_seenAt h.ascending version]
  apply List.filter_congr
  intro d hd
  rw [decide_eq_decide]
  constructor
  · intro hseen
    exact Nat.le_trans hseen hle
  · intro hseen
    have hmem := (mem_seenAt_iff h.ascending).2 ⟨hd, hseen⟩
    rcases isNewest_seenAt h.ascending version with ⟨hnone, _⟩ | ⟨_, _, _, hall⟩
    · rw [hnone] at hmem
      exact absurd hmem List.not_mem_nil
    · exact hall d hmem

/-! ## The effective version -/

theorem effectiveVersion_at (c : Column) (logical storage : ColumnType) (nullable : Bool)
    (version : Nat) :
    (c.at logical storage nullable version).effectiveVersion = (c.seenAt version).version := by
  show ((c.seenAt version).deltas.back?.map Delta.version).getD c.baseVersion = _
  unfold Column.version
  cases (c.seenAt version).deltas.back? <;> rfl

/-- At the effective version a column shows what it shows at the version. -/
theorem Layered.showsAll_version_seenAt (h : c.Layered layers) (hlow : c.baseVersion ≤ version)
    (logical storage : ColumnType) (nullable : Bool) :
    (c.at logical storage nullable (c.seenAt version).version).ShowsAll
      (c.at logical storage nullable version) := by
  have hdeltas := h.deltas_seenAt_version hlow
  refine ⟨fun hbase => hbase, hdeltas, ?_⟩
  show ((c.seenAt (c.seenAt version).version).deltas.back?.map Delta.version).getD c.baseVersion =
    ((c.seenAt version).deltas.back?.map Delta.version).getD c.baseVersion
  rw [hdeltas]

end Column

namespace Snapshot

variable {logical storage : ColumnType} {nullable : Bool} {s : Snapshot logical storage nullable}
  {layers : List (Layer storage)} {base : BaseBlock} {rows number : Nat} {holder : Holder}

/-- What is held of the rows after a read is the base block under all layers, whatever the
holder held before. -/
theorem Layered.readBlock_value (h : s.Layered layers) (hbase : s.blocks[number]? = some base)
    (hrows : rows ≤ base.block.size) (hholder : holder.WellFormed) :
    ∃ held after, s.readBlock rows number holder = (.ok (), after) ∧ after.block? = some held ∧
      ∀ i < rows, held.value? storage.width i = .ok
        ((base.block.stored storage.width i).overlay nullable number i layers).seen := by
  obtain ⟨held, after, hread, hheld, hwell, hwidth, hsize, hstored⟩ :=
    h.readBlock_of_le hbase hrows hholder
  refine ⟨held, after, hread, hheld, ?_⟩
  intro i hi
  rw [Block.value?_of_lt hwell hwidth (Nat.lt_of_lt_of_le hi hsize), hstored i hi]

end Snapshot

/-- A reachable column can be read at a version exactly if that is not before its base version.
The snapshot has the deltas of the column that do not pass the version, all of them and in
their order, and its effective version is the greatest of theirs, or the base version.  A
later version sees these deltas first.  At the effective version the column shows the same:
each of its rows has the same value, a block is read alike into the same holder, and its
rows have the same values in any two holders. -/
theorem Column.snapshot_selects_visible {c : Column} (hc : c.Reachable) (version : Nat) :
    ((∃ s, c.snapshot c.definition.type c.storage c.definition.nullable version = .ok s) ↔
      c.baseVersion ≤ version) ∧
    ∀ s, c.snapshot c.definition.type c.storage c.definition.nullable version = .ok s →
      s.deltas.toList = c.deltas.toList.filter (·.version ≤ version) ∧
      c.IsNewest s.deltas.toList s.effectiveVersion ∧ s.effectiveVersion ≤ version ∧
      (∀ later s', version ≤ later →
        c.snapshot c.definition.type c.storage c.definition.nullable later = .ok s' →
        s.deltas.toList <+: s'.deltas.toList) ∧
      ∃ s', c.snapshot c.definition.type c.storage c.definition.nullable s.effectiveVersion =
          .ok s' ∧
        s'.deltas = s.deltas ∧ s'.effectiveVersion = s.effectiveVersion ∧
        (∀ rid, s.Contains rid → ∃ v, s.get rid = .ok v ∧ s'.get rid = .ok v) ∧
        ∀ number base rows, s.blocks[number]? = some base →
          (∀ holder, s'.readBlock rows number holder = s.readBlock rows number holder) ∧
          (rows ≤ base.block.size →
            ∀ holder holder' : Holder, holder.WellFormed → holder'.WellFormed →
              ∃ held after held' after', s.readBlock rows number holder = (.ok (), after) ∧
                s'.readBlock rows number holder' = (.ok (), after') ∧
                after.block? = some held ∧ after'.block? = some held' ∧
                ∀ i < rows, ∃ v, held.value? c.storage.width i = .ok v ∧
                  held'.value? c.storage.width i = .ok v) := by
  obtain ⟨st, layers, hlayered⟩ := hc.layered
  obtain rfl := hlayered.storage_eq
  have hsnapshot : ∀ {v : Nat}, c.baseVersion ≤ v →
      c.snapshot c.definition.type c.storage c.definition.nullable v =
        .ok (c.at c.definition.type c.storage c.definition.nullable v) := by
    intro v hv
    exact snapshot_eq_ok.2 ⟨⟨rfl, rfl, rfl, hv⟩, rfl⟩
  refine ⟨⟨?_, fun hlow => ⟨_, hsnapshot hlow⟩⟩, ?_⟩
  · rintro ⟨s, hs⟩
    exact (snapshot_eq_ok.1 hs).1.2.2.2
  · intro s hs
    have h := hlayered.snapshot hs
    obtain ⟨⟨_, _, _, hlow⟩, rfl⟩ := snapshot_eq_ok.1 hs
    obtain ⟨habove, hbelow⟩ := hlayered.version_seenAt_bounds hlow
    have hall := hlayered.showsAll_version_seenAt hlow c.definition.type c.storage
      c.definition.nullable
    rw [effectiveVersion_at]
    refine ⟨toList_seenAt hlayered.ascending version, isNewest_seenAt hlayered.ascending version,
      hbelow, ?_, _, hsnapshot habove, hall.deltas_eq, ?_, ?_, ?_⟩
    · intro later s' hle hs'
      obtain ⟨_, rfl⟩ := snapshot_eq_ok.1 hs'
      exact seenAt_prefix_seenAt hlayered.ascending hle
    · rw [hall.effectiveVersion_eq, effectiveVersion_at]
    · intro rid hrid
      obtain ⟨base, hbase, hoffset⟩ := hrid
      have hget := h.get_eq hbase hoffset
      exact ⟨_, hget, (hall.get_eq ⟨base, hbase, hoffset⟩).trans hget⟩
    · intro number base rows hbase
      refine ⟨hall.readBlock_eq hbase rows, ?_⟩
      intro hrows holder holder' hholder hholder'
      obtain ⟨held, after, hread, hheld, hvalue⟩ := h.readBlock_value hbase hrows hholder
      obtain ⟨held', after', hread', hheld', hvalue'⟩ := h.readBlock_value hbase hrows hholder'
      rw [← hall.readBlock_eq hbase] at hread'
      exact ⟨held, after, held', after', hread, hread', hheld, hheld',
        fun i hi => ⟨_, hvalue i hi, hvalue' i hi⟩⟩

/-- The price column between two deltas, and before them all. -/
theorem Column.snapshot_selects_visible_price :
    priceColumn.Reachable ∧ priceColumn.baseVersion = 10 ∧
      (∀ s, priceColumn.snapshot priceColumn.definition.type priceColumn.storage
        priceColumn.definition.nullable 9 ≠ .ok s) ∧
      ∃ s s' s'' : Snapshot priceColumn.definition.type priceColumn.storage
          priceColumn.definition.nullable,
        priceColumn.snapshot _ _ _ 13 = .ok s ∧ s.deltas.toList.map (·.version) = [11, 12] ∧
        s.effectiveVersion = 12 ∧ priceColumn.snapshot _ _ _ 15 = .ok s' ∧
        s.deltas.toList <+: s'.deltas.toList ∧ priceColumn.snapshot _ _ _ 12 = .ok s'' ∧
        s.Contains 0 ∧ s.get 0 = .ok (some 9) ∧ s''.get 0 = .ok (some 9) := by
  have hbase : priceColumn.baseVersion = 10 := by decide +kernel
  have hseen := fun version => snapshot_selects_visible Snapshot.reachable_priceColumn version
  have hread : ∀ version, 10 ≤ version → ∃ s, priceColumn.snapshot priceColumn.definition.type
      priceColumn.storage priceColumn.definition.nullable version = .ok s := by
    intro version hversion
    exact (hseen version).1.2 (hbase ▸ hversion)
  obtain ⟨s, hs⟩ := hread 13 (by decide)
  obtain ⟨s', hs'⟩ := hread 15 (by decide)
  obtain ⟨hdeltas, _, _, hprefix, s'', hs'', _, _, hrow, _⟩ := (hseen 13).2 s hs
  obtain ⟨_, hat⟩ := snapshot_eq_ok.1 hs
  have heffective : s.effectiveVersion = 12 := by
    rw [hat]
    decide +kernel
  have hcontains : s.Contains 0 := by
    rw [hat]
    decide +kernel
  have hget : s.get 0 = .ok (some 9) := by
    rw [hat]
    decide +kernel
  obtain ⟨v, hv, hv''⟩ := hrow 0 hcontains
  obtain rfl := Except.ok.inj (hv.symm.trans hget)
  refine ⟨Snapshot.reachable_priceColumn, hbase, ?_, s, s', s'', hs, ?_, heffective, hs',
    hprefix 15 s' (by decide) hs', heffective ▸ hs'', hcontains, hget, hv''⟩
  · intro s hs
    have hlow := (hseen 9).1.1 ⟨s, hs⟩
    omega
  · rw [hdeltas]
    decide +kernel

end ColumnStore
