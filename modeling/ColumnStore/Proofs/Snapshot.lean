import ColumnStore.Snapshot.Basic
import ColumnStore.Proofs.Column

/-!
# Snapshots of layered columns

A snapshot of a layered column is layered too: its deltas are those of the
column up to its version (`toList_visible`), so its layers are those of the
column up to its version (`Column.Layered.snapshot`).  A row is looked up
through the layers from the newest to the oldest, and then in its block
(`Snapshot.Layered.get_eq`).
-/

namespace ColumnStore

variable {c : Column} {logical storage : ColumnType} {nullable : Bool} {version : Nat}

/-! ## The visible deltas -/

theorem take_eq_filter {α : Type} {p : α → Bool} {l : List α} {k : Nat}
    (h : ∀ i (hi : i < l.length), p l[i] = true ↔ i < k) : l.take k = l.filter p := by
  have hsplit : l.filter p = (l.take k).filter p ++ (l.drop k).filter p := by
    rw [← List.filter_append, List.take_append_drop]
  have htake : (l.take k).filter p = l.take k := by
    rw [List.filter_eq_self]
    intro a ha
    obtain ⟨i, hi, rfl⟩ := List.getElem_of_mem ha
    rw [List.length_take] at hi
    rw [List.getElem_take]
    exact (h i (by omega)).2 (by omega)
  have hdrop : (l.drop k).filter p = [] := by
    rw [List.filter_eq_nil_iff]
    intro a ha
    obtain ⟨i, hi, rfl⟩ := List.getElem_of_mem ha
    rw [List.length_drop] at hi
    rw [List.getElem_drop, h (k + i) (by omega)]
    omega
  rw [hsplit, htake, hdrop, List.append_nil]

/-- As versions ascend, the deltas counted are those that do not pass the
version. -/
theorem Column.toList_visible (hasc : c.deltas.toList.Pairwise (·.version < ·.version))
    (version : Nat) :
    (c.deltas.extract 0 (c.visibleAt version)).toList =
      c.deltas.toList.filter (·.version ≤ version) := by
  rw [Array.toList_extract, List.extract_eq_take_drop, List.drop_zero, Nat.sub_zero]
  apply take_eq_filter
  intro i hi
  have hsize : i < c.deltas.size := by simpa using hi
  have hmono : ∀ i j, 0 ≤ i → i ≤ j → j < c.deltas.size →
      (c.deltas[j]?).any (·.version ≤ version) = true →
      (c.deltas[i]?).any (·.version ≤ version) = true := by
    intro i j _ hij hj hholds
    rw [Array.getElem?_eq_getElem hj] at hholds
    rw [Array.getElem?_eq_getElem (by omega)]
    simp only [Option.any_some, decide_eq_true_eq] at *
    rcases Nat.lt_or_eq_of_le hij with hlt | rfl
    · have hstep := List.pairwise_iff_getElem.1 hasc i j (by simp; omega) (by simpa) hlt
      simp only [Array.getElem_toList] at hstep
      omega
    · exact hholds
  have hholds := holds_iff_lt_partitionPoint hmono (Nat.zero_le i) hsize
  rw [Column.visibleAt, ← hholds, Array.getElem?_eq_getElem hsize, Array.getElem_toList]
  simp

/-! ## The snapshot -/

/-- The column at a version, where nothing is refused. -/
def Column.at (c : Column) (logical storage : ColumnType) (nullable : Bool) (version : Nat) :
    Snapshot logical storage nullable :=
  let deltas := c.deltas.extract 0 (c.visibleAt version)
  { definition := c.definition, blocks := c.blocks, version, deltas
    effectiveVersion := (deltas.back?.map Delta.version).getD c.baseVersion }

/-- A snapshot is given exactly if it is asked for with the column's own types
and nullability, and not before its base version. -/
theorem Column.snapshot_eq_ok {s : Snapshot logical storage nullable} :
    c.snapshot logical storage nullable version = .ok s ↔
      (logical = c.definition.type ∧ storage = c.storage ∧ nullable = c.definition.nullable ∧
        c.baseVersion ≤ version) ∧ s = c.at logical storage nullable version := by
  unfold Column.snapshot
  by_cases hlogical : logical = c.definition.type
  · by_cases hstorage : storage = c.storage
    · by_cases hnullable : nullable = c.definition.nullable
      · by_cases hversion : version < c.baseVersion
        · simp [hlogical, hstorage, hnullable, hversion]
        · simp only [hlogical, hstorage, hnullable, hversion, ne_eq, not_true_eq_false, if_false,
            pure_eq_ok, Except.ok.injEq, Nat.le_of_not_lt hversion, and_self, true_and, Column.at,
            eq_comm]
      · simp [hlogical, hstorage, hnullable]
    · simp [hlogical, hstorage]
  · simp [hlogical]

/-- A row id of the base layer. -/
def Layers.Contains (l : Layers) (rid : RowId) : Prop :=
  ∃ base, l.blocks[rid.block]? = some base ∧ rid.offset < base.block.size

instance (l : Layers) (rid : RowId) : Decidable (l.Contains rid) :=
  decidable_of_iff ((l.blocks[rid.block]?).any (rid.offset < ·.block.size) = true) (by
    simp [Option.any_eq_true, Layers.Contains])

namespace Snapshot

variable {s : Snapshot logical storage nullable} {layers : List (Layer storage)}

/-- The blocks were checked against the column, and the deltas lay one layer
each. -/
structure Layered (s : Snapshot logical storage nullable) (layers : List (Layer storage)) :
    Prop where
  serves : ∀ base ∈ s.blocks, Column.Serves base.block storage nullable
  isLayer : List.Forall₂ Delta.IsLayer s.deltas.toList layers
  flags : ∀ d ∈ s.deltas.toList, d.nulls.isSome = true → nullable = true

/-- Where no nulls are allowed, no layer has one. -/
theorem Layered.noNulls (h : s.Layered layers) (hn : nullable = false) :
    ∀ layer ∈ layers, ∀ rid : RowId, layer.rows[rid]? ≠ some none := by
  intro layer hlayer
  obtain ⟨d, hmem, hd⟩ := Delta.exists_of_mem_layers h.isLayer hlayer
  have hflags := h.flags d hmem
  apply hd.lays.noFlags
  simpa [hn] using hflags

/-- Where no nulls are allowed, no block has a flag. -/
theorem Layered.flag_eq_zero (h : s.Layered layers) (hn : nullable = false) {base : BaseBlock}
    (hbase : base ∈ s.blocks) (i : Nat) : base.block.flag i = 0 := by
  have htracks := (h.serves base hbase).tracksNulls_eq
  have hnone : base.block.nulls = none := by simpa [Block.tracksNulls, hn] using htracks
  rw [Block.flag, hnone]

end Snapshot

/-- A snapshot of a layered column has the layers that do not pass its version.
-/
theorem Column.Layered.snapshot {s : Snapshot logical storage nullable}
    {layers : List (Layer storage)} (h : c.Layered layers)
    (hs : c.snapshot logical storage nullable version = .ok s) :
    s.Layered (layers.filter (·.version ≤ version)) := by
  obtain ⟨⟨_, _, hnullable, _⟩, rfl⟩ := Column.snapshot_eq_ok.1 hs
  refine ⟨?_, ?_, ?_⟩
  · intro base hbase
    rw [hnullable]
    exact h.serves base hbase
  · simp only [Column.at]
    rw [Column.toList_visible h.ascending]
    refine List.rel_filter ?_ h.isLayer
    intro d layer hd
    show decide (d.version ≤ version) = true ↔ decide (layer.version ≤ version) = true
    rw [hd.version_eq]
  · intro d hd
    simp only [Column.at] at hd
    rw [Column.toList_visible h.ascending] at hd
    rw [hnullable]
    exact h.flags d (List.mem_filter.1 hd).1

/-- A snapshot of a column that calls lead to is layered. -/
theorem Column.Reachable.layered_snapshot {s : Snapshot logical storage nullable}
    (hc : c.Reachable) (hs : c.snapshot logical storage nullable version = .ok s) :
    ∃ layers : List (Layer storage), s.Layered layers := by
  obtain ⟨st, layers, hlayered⟩ := hc.layered
  obtain rfl : st = storage := by
    rw [← hlayered.storage_eq]
    exact (Column.snapshot_eq_ok.1 hs).1.2.1.symm
  exact ⟨_, hlayered.snapshot hs⟩

/-! ## Looking a row up -/

/-- The value the newest of the layers gives a row, oldest layer first. -/
def Layer.newest? (layers : List (Layer storage)) (rid : RowId) :
    Option (Option storage.Value) :=
  layers.reverse.findSome? (·.rows[rid]?)

theorem Layer.newest?_append (layers : List (Layer storage)) (layer : Layer storage)
    (rid : RowId) :
    Layer.newest? (layers ++ [layer]) rid =
      match layer.rows[rid]? with
      | some v => some v
      | none => Layer.newest? layers rid := by
  rw [Layer.newest?, List.reverse_append, List.reverse_singleton, List.singleton_append,
    List.findSome?_cons]
  cases layer.rows[rid]? with
  | none => rfl
  | some v => rfl

theorem Layer.newest?_eq_none_iff {layers : List (Layer storage)} {rid : RowId} :
    Layer.newest? layers rid = none ↔ ∀ layer ∈ layers, layer.rows[rid]? = none := by
  simp only [Layer.newest?, List.findSome?_eq_none_iff, List.mem_reverse]

theorem Layer.exists_of_newest? {layers : List (Layer storage)} {rid : RowId}
    {v : Option storage.Value} (h : Layer.newest? layers rid = some v) :
    ∃ layer ∈ layers, layer.rows[rid]? = some v := by
  obtain ⟨layer, hlayer, hrow⟩ := List.exists_of_findSome?_eq_some h
  exact ⟨layer, List.mem_reverse.1 hlayer, hrow⟩

/-- The deltas are searched as their layers are. -/
theorem Layers.firstUpdate?_bind {ds : List Delta} {layers : List (Layer storage)}
    (h : List.Forall₂ Delta.IsLayer ds layers)
    (hflags : ∀ d ∈ ds, d.nulls.isSome = true → nullable = true) (rid : RowId)
    (otherwise : Except Fault (Option storage.Value)) :
    (do match ← Layers.firstUpdate? rid ds with
        | some (d, position) => d.value? storage nullable position
        | none => otherwise) =
      match layers.findSome? (·.rows[rid]?) with
      | some v => .ok v
      | none => otherwise := by
  induction h with
  | nil => rfl
  | @cons d layer ds layers hd _ ih =>
    rw [List.findSome?_cons, Layers.firstUpdate?]
    cases hrow : layer.rows[rid]? with
    | none =>
      rw [hd.lays.find?_of_none hrow]
      exact ih fun d' hd' => hflags d' (List.mem_cons_of_mem d hd')
    | some v =>
      obtain ⟨p, hp⟩ := Delta.Lays.exists_position_iff.1 hrow
      rw [hd.lays.find?_of_getElem? hp]
      exact hd.lays.value?_eq (hflags d List.mem_cons_self) hp

namespace Snapshot

variable {s : Snapshot logical storage nullable} {layers : List (Layer storage)} {base : BaseBlock}
  {rid : RowId}

/-- The base layer gives what its block shows of the row. -/
theorem Layered.baseValue?_eq (h : s.Layered layers) (hbase : s.blocks[rid.block]? = some base)
    (hoffset : rid.offset < base.block.size) :
    s.baseValue? storage nullable rid =
      .ok (base.block.stored storage.width rid.offset).seen := by
  have hserves := h.serves base (Array.mem_of_getElem? hbase)
  have hvalue := Block.value?_of_lt hserves.wellFormed hserves.width_eq hoffset
  simp only [Layers.baseValue?, hbase, hoffset, if_true]
  cases nullable with
  | true =>
    rw [← hvalue]
    rfl
  | false =>
    have hflag := h.flag_eq_zero rfl (Array.mem_of_getElem? hbase) rid.offset
    have hread := Buffer.read_of_lt (hserves.width_eq ▸ hserves.wellFormed.data) hoffset
    simp only [Bool.false_eq_true, if_false, pure_eq_ok, ok_bind, hread]
    exact congrArg _ (if_pos hflag).symm

/-- A row of the base layer shows what the newest layer with it gives, and else
what its block shows. -/
theorem Layered.get_eq (h : s.Layered layers) (hbase : s.blocks[rid.block]? = some base)
    (hoffset : rid.offset < base.block.size) :
    s.get rid = .ok ((Layer.newest? layers rid).getD
      (base.block.stored storage.width rid.offset).seen) := by
  have hreverse : List.Forall₂ Delta.IsLayer s.deltas.toList.reverse layers.reverse :=
    List.forall₂_reverse_iff.2 h.isLayer
  have hflags : ∀ d ∈ s.deltas.toList.reverse, d.nulls.isSome = true → nullable = true :=
    fun d hd => h.flags d (List.mem_reverse.1 hd)
  have hsearch := Layers.firstUpdate?_bind hreverse hflags rid (s.baseValue? storage nullable rid)
  rw [h.baseValue?_eq hbase hoffset] at hsearch
  rw [get, Layers.value?, h.baseValue?_eq hbase hoffset, Layer.newest?]
  refine hsearch.trans ?_
  cases layers.reverse.findSome? (·.rows[rid]?) <;> rfl

end Snapshot

end ColumnStore
