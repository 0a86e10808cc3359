import ColumnStore.Column
import ColumnStore.Proofs.Block
import ColumnStore.Proofs.Delta
import Mathlib.Data.List.Forall2

/-!
# What a column keeps

A column is reached from an empty one by calls that publish blocks and deltas.
A refused call leaves the column.  `Layered` is what every call keeps: each
block is well formed, of the column's element width and with flags exactly if
the column allows nulls; the deltas lay one layer of rows each, all of them rows
of the base layer; and their versions ascend from above the base version.

What an accepted call has checked is said once for each kind of call, in
`publishBlock_eq_ok` and `publishDelta_eq_ok`.
-/

namespace ColumnStore

/-! ## Calls -/

/-- A delta committed from the updates that calls have collected. -/
def Delta.Built (d : Delta) : Prop :=
  ∃ (st : ColumnType) (column : ColumnDef) (calls : List (RowUpdate st)) (version : Nat),
    (Updates.collect column calls).commit version = .ok d

/-- What is handed to a column to be published. -/
inductive Publication where
  | block (b : Block)
  | delta (d : Delta)

/-- A block a caller can make, or a delta committed from updates. -/
def Publication.Made : Publication → Prop
  | block b => b.Made
  | delta d => d.Built

namespace Column

/-- The column after a call.  A refused call leaves it. -/
def publish (c : Column) : Publication → Column
  | .block b =>
    match c.publishBlock b with
    | .ok (_, c') => c'
    | .error _ => c
  | .delta d =>
    match c.publishDelta d with
    | .ok c' => c'
    | .error _ => c

def publishAll (c : Column) (calls : List Publication) : Column :=
  calls.foldl publish c

theorem publishAll_append_singleton (c : Column) (calls : List Publication) (p : Publication) :
    c.publishAll (calls ++ [p]) = (c.publishAll calls).publish p := by
  simp only [publishAll, List.foldl_append, List.foldl_cons, List.foldl_nil]

/-- The columns that calls lead to. -/
inductive Reachable : Column → Prop where
  | new (tag : Nat) (definition : ColumnDef) (storage : ColumnType) (baseVersion : Nat) :
      Reachable (newStoredAs tag definition storage baseVersion)
  | publish {c : Column} {p : Publication} : Reachable c → p.Made → Reachable (c.publish p)

variable {c c' : Column} {b : Block} {d : Delta} {rid : RowId}

/-- A row id of the base layer. -/
def Contains (c : Column) (rid : RowId) : Prop :=
  ∃ base, c.blocks[rid.block]? = some base ∧ rid.offset < base.block.size

/-- The block a column keeps of one that is published. -/
def kept (c : Column) (b : Block) : Block :=
  if c.definition.nullable then b else b.withoutFlags

theorem size_kept (c : Column) (b : Block) : (c.kept b).size = b.size := by
  unfold kept
  split <;> rfl

/-- What a kept block shows of a row is what the block that was handed in has
for it.  Its flags count only where nulls are allowed. -/
theorem seen_kept (c : Column) (b : Block) (width i : Nat) :
    ((c.kept b).stored width i).seen =
      if c.definition.nullable = true ∧ b.flag i ≠ 0 then none
      else some (b.data.element width i) := by
  unfold kept
  cases c.definition.nullable with
  | true =>
    simp only [if_true, true_and]
    by_cases hflag : b.flag i = 0
    · rw [if_neg (not_not_intro hflag)]
      exact if_pos hflag
    · rw [if_pos hflag]
      exact if_neg hflag
  | false =>
    simp only [Bool.false_eq_true, if_false, false_and]
    exact if_pos rfl

/-- A block that is published was checked for its width and its flags, and
becomes the last of the base layer. -/
theorem publishBlock_eq_ok {id : UInt32} (h : c.publishBlock b = .ok (id, c')) :
    b.data.width = c.storage.width ∧
      (c.definition.nullable = true → b.tracksNulls = true) ∧
      id = UInt32.ofNat c.blocks.size ∧
      c' = { c with blocks := c.blocks.push ⟨⟨c.tag, c.blocks.size⟩, c.kept b⟩ } := by
  unfold publishBlock at h
  by_cases hwidth : b.data.width = c.storage.width
  · by_cases hflags : (c.definition.nullable && !b.tracksNulls) = true
    · simp [hwidth, hflags] at h
    · simp only [hwidth, ne_eq, not_true_eq_false, if_false, hflags, pure_eq_ok] at h
      obtain ⟨rfl, rfl⟩ := Prod.mk.inj (Except.ok.inj h)
      refine ⟨hwidth, ?_, rfl, rfl⟩
      intro hn
      simpa [hn] using hflags
  · simp [hwidth] at h

/-- However many blocks there are, a block that passes the checks is published. -/
theorem publishBlock_of_fits (hwidth : b.data.width = c.storage.width)
    (hflags : c.definition.nullable = true → b.tracksNulls = true) :
    c.publishBlock b = .ok (UInt32.ofNat c.blocks.size,
      { c with blocks := c.blocks.push ⟨⟨c.tag, c.blocks.size⟩, c.kept b⟩ }) := by
  have htracks : ¬ (c.definition.nullable && !b.tracksNulls) = true := by simpa using hflags
  unfold publishBlock
  simp only [hwidth, ne_eq, not_true_eq_false, if_false, htracks, pure_eq_ok]
  rfl

/-- What is asked of one block of an index: the last entry, if there is one, is a row of
the base block. -/
def LastInside (c : Column) (index : RowIndex) (number : Nat) : Prop :=
  ∃ (base : BaseBlock) (last : Option Nat), c.blocks[number]? = some base ∧
    index.lastOffset? number = .ok last ∧ ∀ offset, last = some offset → offset < base.block.size

/-- An index is let pass if its blocks are there and each lets its last entry pass. -/
theorem requireRows_eq_ok_iff {index : RowIndex} :
    c.requireRows index = .ok () ↔
      index.blockBound ≤ c.blocks.size ∧
        ∀ number < index.blockBound, c.LastInside index number := by
  unfold requireRows
  by_cases hbound : c.blocks.size < index.blockBound
  · simp [hbound]
  · simp only [hbound, if_false, forM_eq_ok]
    rw [and_iff_right (Nat.le_of_not_lt hbound)]
    constructor
    · intro h number hnumber
      have hget : c.blocks[number]? = some c.blocks[number] :=
        Array.getElem?_eq_getElem (by omega)
      have hmem : (c.blocks[number], number) ∈ (c.blocks.toList.take index.blockBound).zipIdx := by
        rw [List.mk_mem_zipIdx_iff_getElem?, List.getElem?_take, if_pos hnumber,
          Array.getElem?_toList]
        exact hget
      obtain ⟨last, hlast, hcheck⟩ := bind_eq_ok.1 (h _ hmem)
      refine ⟨_, last, hget, liftM_fault_eq_ok.1 hlast, ?_⟩
      intro offset hoffset
      subst hoffset
      by_contra hge
      simp [Nat.le_of_not_lt hge] at hcheck
    · intro h entry hentry
      obtain ⟨base, number⟩ := entry
      rw [List.mk_mem_zipIdx_iff_getElem?, List.getElem?_take] at hentry
      split at hentry
      · rename_i hnumber
        obtain ⟨base', last, hget, hlast, hless⟩ := h number hnumber
        rw [Array.getElem?_toList, hget] at hentry
        obtain rfl := Option.some.inj hentry
        simp only [hlast, liftM_fault_ok, ok_bind]
        cases last with
        | none => rfl
        | some offset => simp [Nat.not_le.2 (hless offset rfl)]
      · simp at hentry

/-- The rows of an index that is let pass lie in the base layer.  The check is of
the last row of each block, and of the index of all row ids it fails. -/
theorem contains_of_requireRows {index : RowIndex} {rids : Array RowId}
    (hindex : RowIndex.ofRowIds rids = .ok index) (h : c.requireRows index = .ok ()) :
    rids.size < 2 ^ 32 ∧ ∀ rid ∈ rids, c.Contains rid := by
  have hlast := (requireRows_eq_ok_iff.1 h).2
  have hsmall : rids.size < 2 ^ 32 := by
    apply RowIndex.lt_of_requireSpan hindex
    intro number hnumber
    obtain ⟨_, _, _, hl, _⟩ := hlast number hnumber
    exact RowIndex.requireSpan_of_lastOffset? hl
  refine ⟨hsmall, ?_⟩
  intro rid hrid
  have hin : rid.block < index.blockBound := by
    obtain ⟨p, hp, rfl⟩ := Array.getElem_of_mem hrid
    rw [RowIndex.blockBound_eq hindex]
    exact RowIndex.block_lt_spanned (RowIndex.ofRowIds_eq_ok hindex).1 hp
  obtain ⟨base, last, hbase, hl, hless⟩ := hlast rid.block hin
  rcases RowIndex.lastOffset?_cases hindex hsmall rid.block with
    ⟨_, hnone⟩ | ⟨greatest, _, _, hgreatest, hle⟩
  · exact absurd rfl (hnone rid hrid)
  · rw [hl] at hgreatest
    have hlt := hless greatest.offset (Except.ok.inj hgreatest)
    exact ⟨base, hbase, Nat.lt_of_le_of_lt (hle rid hrid rfl) hlt⟩

/-- A delta that is published is newer than all before it, is stored as the
column is, has flags only if the column allows nulls, and has its rows let pass.
-/
theorem publishDelta_eq_ok (h : c.publishDelta d = .ok c') :
    c.version < d.version ∧ d.storage = c.storage ∧
      (d.nulls.isSome = true → c.definition.nullable = true) ∧
      c.requireRows d.index = .ok () ∧ c' = { c with deltas := c.deltas.push d } := by
  unfold publishDelta at h
  by_cases hversion : d.version ≤ c.version
  · simp [hversion] at h
  · by_cases hstorage : d.storage = c.storage
    · by_cases hflags : (!c.definition.nullable && d.nulls.isSome) = true
      · simp [hversion, hstorage, hflags] at h
      · simp only [hversion, if_false, hstorage, ne_eq, not_true_eq_false, hflags] at h
        obtain ⟨_, hrows, h⟩ := bind_eq_ok.1 h
        refine ⟨by omega, hstorage, ?_, hrows, (Except.ok.inj h).symm⟩
        intro hsome
        simpa [hsome] using hflags
    · simp [hversion, hstorage] at h

/-! ## The invariant -/

/-- The block was checked against the column it is published in. -/
structure Serves (b : Block) (st : ColumnType) (nullable : Bool) : Prop where
  wellFormed : b.WellFormed
  width_eq : b.data.width = st.width
  size_le : b.size ≤ RowId.blockCapacity
  tracksNulls_eq : b.tracksNulls = nullable

end Column

/-- The rows of a delta, with its version. -/
structure Layer (st : ColumnType) where
  version : Nat
  rows : Std.TreeMap RowId (Option st.Value)

/-- The delta lays the rows of the layer, at its version. -/
structure Delta.IsLayer {st : ColumnType} (d : Delta) (layer : Layer st) : Prop where
  version_eq : d.version = layer.version
  lays : d.Lays layer.rows

/-- Where two lists are related place by place, each member of the second is related
to one of the first. -/
theorem exists_of_mem_forall₂ {α β : Type} {R : α → β → Prop} {as : List α} {bs : List β}
    (h : List.Forall₂ R as bs) {b : β} (hb : b ∈ bs) : ∃ a ∈ as, R a b := by
  induction h with
  | nil => simp at hb
  | @cons a _ as _ hr _ ih =>
    rcases List.mem_cons.1 hb with rfl | hrest
    · exact ⟨a, List.mem_cons_self, hr⟩
    · obtain ⟨a', ha', hr'⟩ := ih hrest
      exact ⟨a', List.mem_cons_of_mem a ha', hr'⟩

/-- Each layer is laid by one of the deltas. -/
theorem Delta.exists_of_mem_layers {st : ColumnType} {ds : List Delta} {layers : List (Layer st)}
    (h : List.Forall₂ IsLayer ds layers) {layer : Layer st} (hlayer : layer ∈ layers) :
    ∃ d ∈ ds, d.IsLayer layer :=
  exists_of_mem_forall₂ h hlayer

/-- Each delta lays one of the layers. -/
theorem Delta.exists_layer_of_mem {st : ColumnType} {ds : List Delta} {layers : List (Layer st)}
    (h : List.Forall₂ IsLayer ds layers) {d : Delta} (hd : d ∈ ds) :
    ∃ layer ∈ layers, d.IsLayer layer :=
  exists_of_mem_forall₂ (R := flip IsLayer) (List.Forall₂.flip h) hd

namespace Column

variable {c c' : Column} {b : Block} {d : Delta} {st : ColumnType} {layers : List (Layer st)}

/-- What every call keeps of a column. -/
structure Layered (c : Column) {st : ColumnType} (layers : List (Layer st)) : Prop where
  storage_eq : c.storage = st
  serves : ∀ base ∈ c.blocks, Serves base.block st c.definition.nullable
  isLayer : List.Forall₂ Delta.IsLayer c.deltas.toList layers
  flags : ∀ d ∈ c.deltas.toList, d.nulls.isSome = true → c.definition.nullable = true
  inside : ∀ layer ∈ layers, ∀ (rid : RowId) (v : Option st.Value),
    layer.rows[rid]? = some v → c.Contains rid
  ascending : c.deltas.toList.Pairwise (·.version < ·.version)
  aboveBase : ∀ d ∈ c.deltas.toList, c.baseVersion < d.version

theorem layered_new (tag : Nat) (definition : ColumnDef) (st : ColumnType) (baseVersion : Nat) :
    (newStoredAs tag definition st baseVersion).Layered ([] : List (Layer st)) := by
  refine ⟨rfl, ?_, .nil, ?_, ?_, .nil, ?_⟩ <;> simp [newStoredAs]

/-- The newest version is that of the last delta, so it is not below any. -/
theorem version_le (hasc : c.deltas.toList.Pairwise (·.version < ·.version))
    (hd : d ∈ c.deltas.toList) : d.version ≤ c.version := by
  obtain ⟨i, hi, rfl⟩ := List.getElem_of_mem hd
  have hsize : i < c.deltas.size := by simpa using hi
  have hback : c.deltas.back? = some c.deltas[c.deltas.size - 1] := by
    rw [Array.back?_eq_getElem?, Array.getElem?_eq_getElem]
  simp only [version, hback, Array.getElem_toList]
  rcases Nat.lt_or_ge i (c.deltas.size - 1) with hlt | hge
  · have hstep := List.pairwise_iff_getElem.1 hasc i (c.deltas.size - 1) hi (by simp; omega) hlt
    simpa using Nat.le_of_lt hstep
  · obtain rfl : i = c.deltas.size - 1 := by omega
    exact Nat.le_refl _

theorem Layered.baseVersion_le (h : c.Layered layers) : c.baseVersion ≤ c.version := by
  unfold version
  split
  · exact Nat.le_refl _
  · rename_i d hback
    have hmem : d ∈ c.deltas.toList := by
      rw [Array.back?_eq_getElem?] at hback
      exact Array.mem_toList_iff.2 (Array.mem_of_getElem? hback)
    exact Nat.le_of_lt (h.aboveBase d hmem)

/-- A row of the base layer stays one when a block is added. -/
theorem Contains.push {rid : RowId} (h : c.Contains rid) (base : BaseBlock) :
    Contains { c with blocks := c.blocks.push base } rid := by
  obtain ⟨held, hheld, hlt⟩ := h
  refine ⟨held, ?_, hlt⟩
  have hin := (Array.getElem?_eq_some_iff.1 hheld).1
  simp only [Array.getElem?_push, Nat.ne_of_lt hin, if_false]
  exact hheld

theorem serves_kept (hb : b.WellFormed) (hsize : b.size ≤ RowId.blockCapacity)
    (hwidth : b.data.width = st.width)
    (hflags : c.definition.nullable = true → b.tracksNulls = true) :
    Serves (c.kept b) st c.definition.nullable := by
  unfold kept
  cases hn : c.definition.nullable with
  | true => exact ⟨hb, hwidth, hsize, hflags hn⟩
  | false => exact ⟨hb.withoutFlags, hwidth, hsize, rfl⟩

/-- A published block leaves the layers. -/
theorem Layered.publishBlock {id : UInt32} (h : c.Layered layers) (hb : b.WellFormed)
    (hsize : b.size ≤ RowId.blockCapacity) (hc : c.publishBlock b = .ok (id, c')) :
    c'.Layered layers := by
  obtain ⟨hwidth, hflags, _, rfl⟩ := publishBlock_eq_ok hc
  rw [h.storage_eq] at hwidth
  refine ⟨h.storage_eq, ?_, h.isLayer, h.flags, ?_, h.ascending, h.aboveBase⟩
  · intro base hbase
    rcases Array.mem_push.1 hbase with hold | rfl
    · exact h.serves base hold
    · exact serves_kept hb hsize hwidth hflags
  · intro layer hlayer rid v hv
    exact (h.inside layer hlayer rid v hv).push _

/-- A published delta adds the layer of the rows that were collected for it. -/
theorem Layered.publishDelta {column : ColumnDef} {calls : List (RowUpdate st)} {version : Nat}
    (h : c.Layered layers) (hd : (Updates.collect column calls).commit version = .ok d)
    (hc : c.publishDelta d = .ok c') :
    c'.Layered (layers ++ [⟨version, (Updates.collect column calls).rows⟩]) := by
  obtain ⟨hversion, _, hflags, hrows, rfl⟩ := publishDelta_eq_ok hc
  obtain ⟨hstamp, _, hindex, _, _⟩ := Delta.commit_eq_ok hd
  obtain ⟨hsmall, hin⟩ := contains_of_requireRows hindex hrows
  rw [List.size_toArray, List.length_map] at hsmall
  have hlays : d.Lays (Updates.collect column calls).rows := by
    apply Delta.lays_of_commit hd hsmall
    intro hn rid hnone
    rw [Updates.collect_nullable] at hn
    rw [Updates.nullable_of_collect hnone] at hn
    simp at hn
  refine ⟨h.storage_eq, h.serves, ?_, ?_, ?_, ?_, ?_⟩
  · rw [Array.toList_push]
    exact List.rel_append h.isLayer (.cons ⟨hstamp, hlays⟩ .nil)
  · intro d' hd'
    rw [Array.toList_push, List.mem_append, List.mem_singleton] at hd'
    rcases hd' with hold | rfl
    · exact h.flags d' hold
    · exact hflags
  · intro layer hlayer rid v hv
    rw [List.mem_append, List.mem_singleton] at hlayer
    rcases hlayer with hold | rfl
    · exact h.inside layer hold rid v hv
    · exact hin rid (Delta.Lays.mem_rids_iff.2 ⟨v, hv⟩)
  · rw [Array.toList_push, List.pairwise_append]
    refine ⟨h.ascending, List.pairwise_singleton _ _, ?_⟩
    intro d' hd' d'' hd''
    rw [List.mem_singleton.1 hd'']
    exact Nat.lt_of_le_of_lt (version_le h.ascending hd') hversion
  · intro d' hd'
    rw [Array.toList_push, List.mem_append, List.mem_singleton] at hd'
    rcases hd' with hold | rfl
    · exact h.aboveBase d' hold
    · exact Nat.lt_of_le_of_lt h.baseVersion_le hversion

/-- Whatever is handed to it, a column stays layered. -/
theorem Layered.publish {p : Publication} (h : c.Layered layers) (hp : p.Made) :
    ∃ layers' : List (Layer st), (c.publish p).Layered layers' := by
  cases p with
  | block b =>
    have hb : b.Made := hp
    simp only [Column.publish]
    split
    · rename_i c' hc
      exact ⟨layers, h.publishBlock hb.wellFormed.1 hb.wellFormed.2 hc⟩
    · exact ⟨layers, h⟩
  | delta d =>
    obtain ⟨st', column, calls, version, hd⟩ : d.Built := hp
    simp only [Column.publish]
    split
    · rename_i c' hc
      have hst : st' = st := by
        rw [← (Delta.commit_eq_ok hd).2.1, (publishDelta_eq_ok hc).2.1, h.storage_eq]
      subst hst
      exact ⟨_, h.publishDelta hd hc⟩
    · exact ⟨layers, h⟩

theorem Reachable.publishAll (h : c.Reachable) {calls : List Publication}
    (hcalls : ∀ p ∈ calls, p.Made) : (c.publishAll calls).Reachable := by
  induction calls generalizing c with
  | nil => exact h
  | cons p calls ih =>
    exact ih (h.publish (hcalls p List.mem_cons_self))
      fun q hq => hcalls q (List.mem_cons_of_mem p hq)

/-- Every column that calls lead to is layered. -/
theorem Reachable.layered (h : c.Reachable) :
    ∃ (st : ColumnType) (layers : List (Layer st)), c.Layered layers := by
  induction h with
  | new tag definition storage baseVersion => exact ⟨storage, [], layered_new _ _ _ _⟩
  | publish _ hp ih =>
    obtain ⟨st, layers, h⟩ := ih
    exact ⟨st, h.publish hp⟩

end Column

end ColumnStore
