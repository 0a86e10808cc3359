import ColumnStore.Proofs.Snapshot

/-!
# Histories

A history is a column with what was published to it, in the order it was
published: the blocks, as they were handed in, and the batches of update calls.
It is made by events.  An event that is refused leaves the history.

`Recorded` is what an event keeps: the layers of the column are those of the
batches, and its base layer is made of the blocks.  A snapshot then shows of a
row the last accepted call for it, among all calls of the batches up to the
snapshot's version, or what the block of the row had when it was handed in.
-/

namespace ColumnStore

variable {st : ColumnType}

/-- One batch of calls, committed together at a version. -/
structure Batch (st : ColumnType) where
  version : Nat
  calls : List (RowUpdate st)

/-- The layer that a batch adds to a column. -/
def Batch.layer (definition : ColumnDef) (batch : Batch st) : Layer st :=
  ⟨batch.version, (Updates.collect definition batch.calls).rows⟩

/-- Something that may be published. -/
inductive Event (st : ColumnType) where
  | block (b : Block)
  | batch (batch : Batch st)

/-- A column with the blocks and the batches published to it, oldest first. -/
structure History (st : ColumnType) where
  column : Column
  blocks : List Block
  batches : List (Batch st)

namespace History

def start (tag : Nat) (definition : ColumnDef) (st : ColumnType) (baseVersion : Nat) :
    History st :=
  ⟨Column.newStoredAs tag definition st baseVersion, [], []⟩

/-- The history after an event.  Calls are collected for the column's own
definition and committed as it is stored. -/
def step (h : History st) : Event st → History st
  | .block b =>
    match h.column.publishBlock b with
    | .ok (_, column) => { h with column, blocks := h.blocks ++ [b] }
    | .error _ => h
  | .batch batch =>
    match (Updates.collect h.column.definition batch.calls).commit batch.version with
    | .error _ => h
    | .ok d =>
      match h.column.publishDelta d with
      | .ok column => { h with column, batches := h.batches ++ [batch] }
      | .error _ => h

def run (h : History st) (events : List (Event st)) : History st :=
  events.foldl step h

/-! ## What a history records -/

/-- The column is made of the blocks and the batches. -/
structure Recorded (definition : ColumnDef) (baseVersion : Nat) (h : History st) : Prop where
  definition_eq : h.column.definition = definition
  baseVersion_eq : h.column.baseVersion = baseVersion
  layered : h.column.Layered (h.batches.map (Batch.layer definition))
  blocks_eq : h.column.blocks.toList.map (·.block) = h.blocks.map h.column.kept

variable {definition : ColumnDef} {baseVersion : Nat} {h : History st}

theorem recorded_start (tag : Nat) (definition : ColumnDef) (st : ColumnType)
    (baseVersion : Nat) : Recorded definition baseVersion (start tag definition st baseVersion) :=
  ⟨rfl, rfl, Column.layered_new tag definition st baseVersion, rfl⟩

theorem Recorded.step {event : Event st} (h' : Recorded definition baseVersion h)
    (hmade : ∀ b, event = .block b → b.Made) : Recorded definition baseVersion (h.step event) := by
  cases event with
  | block b =>
    have hb := (hmade b rfl).wellFormed
    cases hc : h.column.publishBlock b with
    | error e =>
      simp only [History.step, hc]
      exact h'
    | ok published =>
      obtain ⟨id, column⟩ := published
      have hlayered := h'.layered.publishBlock hb.1 hb.2 hc
      simp only [History.step, hc]
      obtain ⟨_, _, _, rfl⟩ := Column.publishBlock_eq_ok hc
      refine ⟨h'.definition_eq, h'.baseVersion_eq, hlayered, ?_⟩
      simp only [Array.toList_push, List.map_append, h'.blocks_eq]
      rfl
  | batch batch =>
    cases hd : (Updates.collect definition batch.calls).commit batch.version with
    | error e =>
      simp only [History.step, h'.definition_eq, hd]
      exact h'
    | ok d =>
      cases hc : h.column.publishDelta d with
      | error e =>
        simp only [History.step, h'.definition_eq, hd, hc]
        exact h'
      | ok column =>
        have hlayered := h'.layered.publishDelta hd hc
        simp only [History.step, h'.definition_eq, hd, hc]
        obtain ⟨_, _, _, _, rfl⟩ := Column.publishDelta_eq_ok hc
        refine ⟨h'.definition_eq, h'.baseVersion_eq, ?_, h'.blocks_eq⟩
        rw [List.map_append]
        exact hlayered

/-- What is recorded at the start is recorded after any events. -/
theorem recorded_run (tag : Nat) (definition : ColumnDef) (baseVersion : Nat)
    (events : List (Event st)) (hmade : ∀ b, Event.block b ∈ events → b.Made) :
    Recorded definition baseVersion ((start tag definition st baseVersion).run events) := by
  induction events using List.reverseRecOn with
  | nil => exact recorded_start tag definition st baseVersion
  | append_singleton events event ih =>
    have hbefore := ih fun b hb => hmade b (List.mem_append_left _ hb)
    rw [run, List.foldl_append]
    refine hbefore.step ?_
    intro b hb
    exact hmade b (by simp [hb])

/-- The versions of the batches ascend. -/
theorem Recorded.ascending (h' : Recorded definition baseVersion h) :
    h.batches.Pairwise (·.version < ·.version) := by
  have hversions : h.column.deltas.toList.map Delta.version = h.batches.map Batch.version := by
    have hlayers := List.Forall₂.imp (fun _ _ hd => hd.version_eq) h'.layered.isLayer
    rw [List.forall₂_map_right_iff] at hlayers
    exact List.forall₂_eq_eq_eq ▸ List.forall₂_map_left_iff.2 (List.forall₂_map_right_iff.2 hlayers)
  have hdeltas := h'.layered.ascending
  rw [← List.pairwise_map (f := Delta.version), hversions, List.pairwise_map] at hdeltas
  exact hdeltas

/-! ## The last update of a row -/

end History

theorem RowUpdate.last?_append (nullable : Bool) (calls later : List (RowUpdate st))
    (rid : RowId) :
    RowUpdate.last? nullable (calls ++ later) rid =
      match RowUpdate.last? nullable later rid with
      | some v => some v
      | none => RowUpdate.last? nullable calls rid := by
  unfold RowUpdate.last?
  rw [List.reverse_append, List.find?_append]
  cases later.reverse.find? fun call => call.row == rid && call.accepted nullable with
  | none => simp
  | some call => simp

/-- The newest layer with a row has the value of the last accepted call for it
among the calls of all batches. -/
theorem Batch.newest?_layers (definition : ColumnDef) (batches : List (Batch st)) (rid : RowId) :
    Layer.newest? (batches.map (Batch.layer definition)) rid =
      RowUpdate.last? definition.nullable (batches.flatMap Batch.calls) rid := by
  induction batches using List.reverseRecOn with
  | nil => rfl
  | append_singleton batches batch ih =>
    have hcollected := Updates.collect_getElem? definition batch.calls rid
    rw [List.map_append, List.map_singleton, Layer.newest?_append, List.flatMap_append,
      List.flatMap_singleton, RowUpdate.last?_append, ih, ← hcollected]
    rfl

/-! ## Snapshots of histories -/

namespace History

/-- The histories of a column that events lead to. -/
def Made (definition : ColumnDef) (baseVersion : Nat) (h : History st) : Prop :=
  ∃ (tag : Nat) (events : List (Event st)),
    (∀ b, Event.block b ∈ events → b.Made) ∧ h = (start tag definition st baseVersion).run events

variable {definition : ColumnDef} {baseVersion version : Nat} {h : History st}

theorem step_reachable {event : Event st} (h' : h.column.Reachable)
    (hmade : ∀ b, event = .block b → b.Made) : (h.step event).column.Reachable := by
  cases event with
  | block b =>
    have hnext := h'.publish (p := .block b) (hmade b rfl)
    simp only [Column.publish] at hnext
    simp only [History.step]
    cases hc : h.column.publishBlock b with
    | error e => exact h'
    | ok published => simpa only [hc] using hnext
  | batch batch =>
    simp only [History.step]
    cases hd : (Updates.collect h.column.definition batch.calls).commit batch.version with
    | error e => exact h'
    | ok d =>
      have hnext := h'.publish (p := .delta d) ⟨st, _, _, _, hd⟩
      simp only [Column.publish] at hnext
      cases hc : h.column.publishDelta d with
      | error e => simpa only [hc] using h'
      | ok column => simpa only [hc] using hnext

/-- Events are calls on the column. -/
theorem Made.reachable (hmade : h.Made definition baseVersion) : h.column.Reachable := by
  obtain ⟨tag, events, hblocks, rfl⟩ := hmade
  induction events using List.reverseRecOn with
  | nil => exact .new tag definition st baseVersion
  | append_singleton events event ih =>
    have hbefore := ih fun b hb => hblocks b (List.mem_append_left _ hb)
    rw [run, List.foldl_append]
    refine step_reachable hbefore ?_
    intro b hb
    exact hblocks b (by simp [hb])

/-- What is to be shown of a row at a version: the value of the last accepted
call for it, among the calls of the batches up to that version in their order;
if there is none, what the block of the row had when it was handed in, where a
flag counts only if nulls are allowed. -/
def shown? (h : History st) (nullable : Bool) (version : Nat) (rid : RowId) :
    Option (Option st.Value) :=
  h.blocks[rid.block]?.map fun (b : Block) =>
    let calls := (h.batches.filter (·.version ≤ version)).flatMap Batch.calls
    (RowUpdate.last? nullable calls rid).getD
      (if nullable = true ∧ b.flag rid.offset ≠ 0 then none
       else some (b.data.element st.width rid.offset))

/-- From its base version on, a column can be read at any version.  The batches
published to it stand in the order of their versions, and a row of the base
layer shows what the blocks and the batches up to the version have for it. -/
theorem get_eq_last_update (hmade : h.Made definition baseVersion)
    (hversion : baseVersion ≤ version) :
    ∃ s : Snapshot definition.type st definition.nullable,
      h.column.snapshot definition.type st definition.nullable version = .ok s ∧
      h.batches.Pairwise (·.version < ·.version) ∧
      ∀ rid : RowId, s.Contains rid →
        ∃ v, h.shown? definition.nullable version rid = some v ∧ s.get rid = .ok v := by
  obtain ⟨tag, events, hblocks, rfl⟩ := hmade
  have hrecorded := recorded_run tag definition baseVersion events hblocks
  generalize (start tag definition st baseVersion).run events = h at hrecorded
  have hsnapshot : h.column.snapshot definition.type st definition.nullable version =
      .ok (h.column.at definition.type st definition.nullable version) := by
    refine Column.snapshot_eq_ok.2 ⟨⟨?_, ?_, ?_, ?_⟩, rfl⟩
    · rw [hrecorded.definition_eq]
    · exact hrecorded.layered.storage_eq.symm
    · rw [hrecorded.definition_eq]
    · rw [hrecorded.baseVersion_eq]
      exact hversion
  refine ⟨_, hsnapshot, hrecorded.ascending, ?_⟩
  intro rid hrid
  obtain ⟨base, hbase, hoffset⟩ := hrid
  -- The block of the row is kept of the one that was handed in at its place.
  have hplace := congrArg (·[rid.block]?) hrecorded.blocks_eq
  have hbase' : h.column.blocks.toList[rid.block]? = some base := by
    rw [Array.getElem?_toList]
    exact hbase
  simp only [List.getElem?_map, hbase', Option.map_some] at hplace
  obtain ⟨b, hb, hkept⟩ := Option.map_eq_some_iff.1 hplace.symm
  have hlayers := hrecorded.layered.snapshot hsnapshot
  have hvisible : (h.batches.map (Batch.layer definition)).filter (·.version ≤ version) =
      (h.batches.filter (·.version ≤ version)).map (Batch.layer definition) := by
    rw [List.filter_map]
    rfl
  refine ⟨_, by rw [shown?, hb, Option.map_some], ?_⟩
  rw [hlayers.get_eq hbase hoffset, hvisible, Batch.newest?_layers, ← hkept, Column.seen_kept,
    hrecorded.definition_eq]

/-! ## A price column -/

def price : ColumnDef := { cid := 2, name := "price", type := .int, nullable := true }

/-- The values 5, 6, 7 and 8, in two bytes each, with the third marked null. -/
def priceBlock : Block where
  size := 4
  data := ⟨#[5, 0, 6, 0, 7, 0, 8, 0, 0, 0, 0, 0, 0, 0, 0, 0], 8, 2⟩
  nulls := some ⟨#[0, 0, 1, 0, 0, 0, 0, 0, 0, 0, 0, 0, 0, 0, 0, 0], 4, 1⟩

theorem made_priceBlock : priceBlock.Made := by
  have hvalues : Block.ofValues (#[5, 6, 7, 8] : Array (BitVec (8 * 2))) =
      .ok { priceBlock with nulls := some ⟨Array.replicate 16 0, 4, 1⟩ } := rfl
  have hmarked : Block.markNull { priceBlock with nulls := some ⟨Array.replicate 16 0, 4, 1⟩ }
      2 true = .ok priceBlock := rfl
  exact .markNull (.ofValues hvalues) hmarked

/-- Three batches are published, and one between them is refused for its version. -/
def priceHistory : History .smallInt :=
  (start 0 price .smallInt 10).run
    [.batch ⟨11, []⟩, .block priceBlock, .batch ⟨12, [.put 0 7, .put 0 9, .putNull 1]⟩,
      .batch ⟨11, [.put 3 1]⟩, .batch ⟨15, [.putNull 0]⟩]

theorem made_priceHistory : priceHistory.Made price 10 := by
  refine ⟨0, _, ?_, rfl⟩
  intro b hb
  obtain rfl : b = priceBlock := by simpa using hb
  exact made_priceBlock

theorem get_eq_last_update_price :
    priceHistory.Made price 10 ∧ 10 ≤ 13 ∧ priceHistory.batches.map (·.version) = [11, 12, 15] ∧
      ∃ s : Snapshot .int .smallInt true,
        priceHistory.column.snapshot .int .smallInt true 13 = .ok s ∧
        s.get 0 = .ok (some 9) ∧ s.get 1 = .ok none ∧ s.get 2 = .ok none ∧
        s.get 3 = .ok (some 8) := by
  obtain ⟨s, hs, _, hget⟩ := get_eq_last_update made_priceHistory (show 10 ≤ 13 by decide)
  refine ⟨made_priceHistory, by decide, by decide +kernel, s, hs, ?_⟩
  have hrow : ∀ (rid : RowId) (v : Option ColumnType.smallInt.Value), s.Contains rid →
      priceHistory.shown? true 13 rid = some v → s.get rid = .ok v := by
    intro rid v hrid hv
    obtain ⟨v', hv', hget⟩ := hget rid hrid
    obtain rfl : v' = v := Option.some.inj (hv'.symm.trans hv)
    exact hget
  obtain ⟨_, rfl⟩ := Column.snapshot_eq_ok.1 hs
  refine ⟨hrow 0 _ ?_ ?_, hrow 1 _ ?_ ?_, hrow 2 _ ?_ ?_, hrow 3 _ ?_ ?_⟩ <;> decide +kernel

end History

end ColumnStore
