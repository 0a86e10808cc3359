import ColumnStore.Proofs.Materialize

/-!
# Snapshots do not change

What is published later is newer than the version of the column it is published
to, and blocks are added at the end.  So a column that has grown shows at an old
version what it showed before: the same deltas, the same rows, and the same
blocks (`snapshot_stable`).

What is published is not looked at here: the checks of the column are enough.
-/

namespace ColumnStore

namespace Column

variable {c c' : Column} {p : Publication}

/-! ## Growth -/

/-- The column has been reached from another by calls: its base layer starts with
the other's, and its deltas are the other's and then newer ones. -/
structure GrownFrom (c' c : Column) : Prop where
  definition_eq : c'.definition = c.definition
  storage_eq : c'.storage = c.storage
  baseVersion_eq : c'.baseVersion = c.baseVersion
  block_eq : ∀ {number : Nat} {base : BaseBlock},
    c.blocks[number]? = some base → c'.blocks[number]? = some base
  ascending : c'.deltas.toList.Pairwise (·.version < ·.version)
  version_le : c.version ≤ c'.version
  newer : ∃ later, c'.deltas.toList = c.deltas.toList ++ later ∧ ∀ d ∈ later, c.version < d.version

theorem GrownFrom.refl (hasc : c.deltas.toList.Pairwise (·.version < ·.version)) :
    c.GrownFrom c :=
  ⟨rfl, rfl, rfl, id, hasc, Nat.le_refl _, [], by simp, by simp⟩

theorem GrownFrom.publishBlock {b : Block} {id : UInt32} {c₁ : Column} (h : c'.GrownFrom c)
    (hc : c'.publishBlock b = .ok (id, c₁)) : c₁.GrownFrom c := by
  obtain ⟨_, _, _, rfl⟩ := publishBlock_eq_ok hc
  refine ⟨h.definition_eq, h.storage_eq, h.baseVersion_eq, ?_, h.ascending, h.version_le, h.newer⟩
  intro number base hbase
  have hold := h.block_eq hbase
  have hin := (Array.getElem?_eq_some_iff.1 hold).1
  simp only [Array.getElem?_push, Nat.ne_of_lt hin, if_false]
  exact hold

theorem GrownFrom.publishDelta {d : Delta} {c₁ : Column} (h : c'.GrownFrom c)
    (hc : c'.publishDelta d = .ok c₁) : c₁.GrownFrom c := by
  obtain ⟨hversion, _, _, _, rfl⟩ := publishDelta_eq_ok hc
  have hnew : c.version < d.version := Nat.lt_of_le_of_lt h.version_le hversion
  obtain ⟨later, hlater, hnewer⟩ := h.newer
  refine ⟨h.definition_eq, h.storage_eq, h.baseVersion_eq, h.block_eq, ?_, ?_, later ++ [d], ?_, ?_⟩
  · rw [Array.toList_push, List.pairwise_append]
    refine ⟨h.ascending, List.pairwise_singleton _ _, ?_⟩
    intro d' hd' d'' hd''
    rw [List.mem_singleton.1 hd'']
    exact Nat.lt_of_le_of_lt (Column.version_le h.ascending hd') hversion
  · simp only [version, Array.back?_push]
    exact Nat.le_of_lt hnew
  · rw [Array.toList_push, hlater, List.append_assoc]
  · intro d' hd'
    rw [List.mem_append, List.mem_singleton] at hd'
    rcases hd' with hold | rfl
    · exact hnewer d' hold
    · exact hnew

theorem GrownFrom.publish (h : c'.GrownFrom c) (p : Publication) :
    (c'.publish p).GrownFrom c := by
  cases p with
  | block b =>
    simp only [Column.publish]
    split
    · rename_i hc
      exact h.publishBlock hc
    · exact h
  | delta d =>
    simp only [Column.publish]
    split
    · rename_i hc
      exact h.publishDelta hc
    · exact h

/-- Any calls make a column grow. -/
theorem grownFrom_publishAll (hasc : c.deltas.toList.Pairwise (·.version < ·.version))
    (calls : List Publication) : (c.publishAll calls).GrownFrom c := by
  induction calls using List.reverseRecOn with
  | nil => exact GrownFrom.refl hasc
  | append_singleton calls p ih =>
    rw [publishAll_append_singleton]
    exact ih.publish p

/-- Up to the old version, a column that has grown shows the old deltas. -/
theorem GrownFrom.visible_eq (h : c'.GrownFrom c)
    (hasc : c.deltas.toList.Pairwise (·.version < ·.version)) {version : Nat}
    (hversion : version ≤ c.version) :
    c'.deltas.extract 0 (c'.visibleAt version) = c.deltas.extract 0 (c.visibleAt version) := by
  obtain ⟨later, hlater, hnewer⟩ := h.newer
  apply Array.toList_inj.1
  rw [toList_visible h.ascending, toList_visible hasc, hlater, List.filter_append]
  have hnone : later.filter (·.version ≤ version) = [] := by
    rw [List.filter_eq_nil_iff]
    intro d hd
    have := hnewer d hd
    simp only [decide_eq_true_eq]
    omega
  rw [hnone, List.append_nil]

/-- The call is refused. -/
def Refuses (c : Column) : Publication → Prop
  | .block b => ∃ e, c.publishBlock b = .error e
  | .delta d => ∃ e, c.publishDelta d = .error e

theorem publish_of_refuses (h : c.Refuses p) : c.publish p = c := by
  cases p with
  | block b =>
    obtain ⟨e, he⟩ := h
    simp only [publish, he]
  | delta d =>
    obtain ⟨e, he⟩ := h
    simp only [publish, he]

end Column

namespace Snapshot

variable {logical storage : ColumnType} {nullable : Bool} {s s' : Snapshot logical storage nullable}

/-! ## Snapshots that show the same -/

/-- The second snapshot has every block of the first, and the same deltas. -/
structure ShowsAll (s' s : Snapshot logical storage nullable) : Prop where
  block_eq : ∀ {number : Nat} {base : BaseBlock},
    s.blocks[number]? = some base → s'.blocks[number]? = some base
  deltas_eq : s'.deltas = s.deltas
  effectiveVersion_eq : s'.effectiveVersion = s.effectiveVersion

/-- A row of the base layer is looked up alike. -/
theorem ShowsAll.get_eq (h : s'.ShowsAll s) {rid : RowId} (hrid : s.Contains rid) :
    s'.get rid = s.get rid := by
  obtain ⟨base, hbase, _⟩ := hrid
  have hvalue : s'.baseValue? storage nullable rid = s.baseValue? storage nullable rid := by
    simp only [Layers.baseValue?, hbase, h.block_eq hbase]
  simp only [get, Layers.value?, h.deltas_eq, hvalue]

/-- A block is read alike. -/
theorem ShowsAll.readBlock_eq (h : s'.ShowsAll s) {number : Nat} {base : BaseBlock}
    (hbase : s.blocks[number]? = some base) (rows : Nat) (holder : Holder) :
    s'.readBlock rows number holder = s.readBlock rows number holder := by
  have hpatched : ∀ own, s'.patched rows number base.block own =
      s.patched rows number base.block own := by
    intro own
    simp only [patched, h.deltas_eq]
    rfl
  simp only [readBlock, hbase, h.block_eq hbase, h.deltas_eq, hpatched]

end Snapshot

/-- A snapshot of a column that has grown shows all of the old one. -/
theorem Column.GrownFrom.showsAll {c c' : Column} {version : Nat} (h : c'.GrownFrom c)
    (hasc : c.deltas.toList.Pairwise (·.version < ·.version)) (hversion : version ≤ c.version)
    (logical storage : ColumnType) (nullable : Bool) :
    (c'.at logical storage nullable version).ShowsAll (c.at logical storage nullable version) := by
  have hvisible := h.visible_eq hasc hversion
  refine ⟨h.block_eq, hvisible, ?_⟩
  simp only [Column.at, hvisible, h.baseVersion_eq]

/-- Up to the version of a column, whatever calls come later, a snapshot shows
what it would have shown before them: the same deltas and the same effective
version, the same value for each row of the column, and the same rows when a
block of the column is read, whatever the two holders held.  A refused call
changes nothing. -/
theorem Column.snapshot_stable {c : Column} {version : Nat} (hc : c.Reachable)
    (hlow : c.baseVersion ≤ version) (hhigh : version ≤ c.version) (calls : List Publication) :
    (∀ p, c.Refuses p → c.publish p = c) ∧
    ∃ s s' : Snapshot c.definition.type c.storage c.definition.nullable,
      c.snapshot c.definition.type c.storage c.definition.nullable version = .ok s ∧
      (c.publishAll calls).snapshot c.definition.type c.storage c.definition.nullable version =
        .ok s' ∧
      s'.deltas = s.deltas ∧ s'.effectiveVersion = s.effectiveVersion ∧
      (∀ rid, s.Contains rid → ∃ v, s.get rid = .ok v ∧ s'.get rid = .ok v) ∧
      ∀ number base rows, s.blocks[number]? = some base → rows ≤ base.block.size →
        (∀ holder, s'.readBlock rows number holder = s.readBlock rows number holder) ∧
        ∀ holder holder' : Holder, holder.WellFormed → holder'.WellFormed →
          ∃ held after held' after', s.readBlock rows number holder = (.ok (), after) ∧
            s'.readBlock rows number holder' = (.ok (), after') ∧
            after.block? = some held ∧ after'.block? = some held' ∧
            ∀ i < rows, ∃ v, held.value? c.storage.width i = .ok v ∧
              held'.value? c.storage.width i = .ok v := by
  obtain ⟨st, layers, hlayered⟩ := hc.layered
  obtain rfl := hlayered.storage_eq
  have hgrown := grownFrom_publishAll hlayered.ascending calls
  have hall := hgrown.showsAll hlayered.ascending hhigh c.definition.type c.storage
    c.definition.nullable
  have hs : c.snapshot c.definition.type c.storage c.definition.nullable version =
      .ok (c.at c.definition.type c.storage c.definition.nullable version) :=
    snapshot_eq_ok.2 ⟨⟨rfl, rfl, rfl, hlow⟩, rfl⟩
  have hs' : (c.publishAll calls).snapshot c.definition.type c.storage c.definition.nullable
      version = .ok ((c.publishAll calls).at c.definition.type c.storage c.definition.nullable
        version) := by
    refine snapshot_eq_ok.2 ⟨⟨?_, ?_, ?_, ?_⟩, rfl⟩
    · rw [hgrown.definition_eq]
    · rw [hgrown.storage_eq]
    · rw [hgrown.definition_eq]
    · rw [hgrown.baseVersion_eq]
      exact hlow
  have h := hlayered.snapshot hs
  refine ⟨fun p hp => publish_of_refuses hp, _, _, hs, hs', hall.deltas_eq,
    hall.effectiveVersion_eq, ?_, ?_⟩
  · intro rid hrid
    obtain ⟨base, hbase, hoffset⟩ := hrid
    have hget := h.get_eq hbase hoffset
    exact ⟨_, hget, (hall.get_eq ⟨base, hbase, hoffset⟩).trans hget⟩
  · intro number base rows hbase hrows
    refine ⟨hall.readBlock_eq hbase rows, ?_⟩
    intro holder holder' hholder hholder'
    obtain ⟨held, after, hread, hheld, hwell, hwidth, hsize, hstored⟩ :=
      h.readBlock_of_le hbase hrows hholder
    obtain ⟨held', after', hread', hheld', hwell', hwidth', hsize', hstored'⟩ :=
      h.readBlock_of_le hbase hrows hholder'
    rw [← hall.readBlock_eq hbase] at hread'
    refine ⟨held, after, held', after', hread, hread', hheld, hheld', ?_⟩
    intro i hi
    have hvalue := Block.value?_of_lt hwell hwidth (Nat.lt_of_lt_of_le hi hsize)
    have hvalue' := Block.value?_of_lt hwell' hwidth' (Nat.lt_of_lt_of_le hi hsize')
    rw [hstored' i hi, ← hstored i hi] at hvalue'
    exact ⟨_, hvalue, hvalue'⟩

/-- Calls on the price column: a newer delta for the first row, a further block, and
a delta that is refused for its version. -/
def priceCalls : List Publication :=
  [.delta ⟨16, .smallInt, ⟨#[1], #[0]⟩, ⟨Array.replicate 16 1, 2, 2⟩,
      some ⟨Array.replicate 16 0, 1, 1⟩⟩,
    .block History.priceBlock,
    .delta ⟨14, .smallInt, ⟨#[], #[]⟩, ⟨#[], 0, 2⟩, some ⟨#[], 0, 1⟩⟩]

def priceColumn : Column := History.priceHistory.column

theorem Column.snapshot_stable_price :
    priceColumn.Reachable ∧ priceColumn.baseVersion ≤ 13 ∧ 13 ≤ priceColumn.version ∧
      (priceColumn.publishAll priceCalls).version = 16 ∧
      ∃ s s' : Snapshot priceColumn.definition.type priceColumn.storage
          priceColumn.definition.nullable,
        priceColumn.snapshot _ _ _ 13 = .ok s ∧
        (priceColumn.publishAll priceCalls).snapshot _ _ _ 13 = .ok s' ∧
        s.get 0 = .ok (some 9) ∧ s'.get 0 = .ok (some 9) := by
  have hreachable : priceColumn.Reachable := History.made_priceHistory.reachable
  have hlow : priceColumn.baseVersion ≤ 13 := by decide +kernel
  have hhigh : 13 ≤ priceColumn.version := by decide +kernel
  obtain ⟨_, s, s', hs, hs', _, _, hrow, _⟩ :=
    snapshot_stable hreachable hlow hhigh priceCalls
  refine ⟨hreachable, hlow, hhigh, by decide +kernel, s, s', hs, hs', ?_⟩
  obtain ⟨_, rfl⟩ := snapshot_eq_ok.1 hs
  have hin : (priceColumn.at priceColumn.definition.type priceColumn.storage
      priceColumn.definition.nullable 13).Contains 0 := by
    decide +kernel
  have hget : (priceColumn.at priceColumn.definition.type priceColumn.storage
      priceColumn.definition.nullable 13).get 0 = .ok (some 9) := by
    decide +kernel
  obtain ⟨v, hv, hv'⟩ := hrow 0 hin
  obtain rfl := Except.ok.inj (hv.symm.trans hget)
  exact ⟨hget, hv'⟩

end ColumnStore
