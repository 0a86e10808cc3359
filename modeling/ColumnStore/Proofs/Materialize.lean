import ColumnStore.Snapshot.Materialize
import ColumnStore.Proofs.History

/-!
# Blocks that are read as a whole

Laying a delta over a block is laying its layer over the stored rows: each row
takes the update the layer has for it (`applyDelta_of_isLayer`), and the deltas of a
snapshot, one after another, lay all its layers (`applyDeltas_of_isLayer`).

What is read into a holder is the base block under the layers, whatever the
holder held before (`readBlock_of_le`).  A row laid over by all layers shows what
the newest of them has for it (`seen_overlay`), which is what looking the row up
gives.
-/

namespace ColumnStore

variable {st : ColumnType} {width number rows i : Nat} {nullable : Bool}

/-! ## Layers over a stored row -/

namespace StoredRow

/-- The stored row after an update.  A null leaves the value as it was, and flags
change only where nulls are allowed. -/
def update (nullable : Bool) (row : StoredRow width) :
    Option (BitVec (8 * width)) → StoredRow width
  | none => { row with flag := 1 }
  | some v => { flag := if nullable then 0 else row.flag, value := v }

end StoredRow

/-- The update a layer has for a row of a block. -/
def Layer.update? (layer : Layer st) (number i : Nat) : Option (Option st.Value) :=
  (RowId.at? number i).bind (layer.rows[·]?)

/-- The stored row under a layer. -/
def StoredRow.under (nullable : Bool) (number i : Nat) (row : StoredRow st.width)
    (layer : Layer st) : StoredRow st.width :=
  match layer.update? number i with
  | none => row
  | some v => row.update nullable v

/-- The stored row under all of the layers, the oldest laid first. -/
def StoredRow.overlay (nullable : Bool) (number i : Nat) (layers : List (Layer st))
    (row : StoredRow st.width) : StoredRow st.width :=
  layers.foldl (StoredRow.under nullable number i) row

theorem Layer.update?_eq_some {layer : Layer st} {v : Option st.Value} :
    layer.update? number i = some v ↔
      ∃ rid : RowId, (rid.block = number ∧ rid.offset = i) ∧ layer.rows[rid]? = some v := by
  rw [Layer.update?, Option.bind_eq_some_iff]
  simp only [RowId.at?_eq_some]

theorem Layer.update?_of_row (layer : Layer st) {rid : RowId} (hblock : rid.block = number)
    (hoffset : rid.offset = i) : layer.update? number i = layer.rows[rid]? := by
  rw [Layer.update?, RowId.at?_eq_some.2 ⟨hblock, hoffset⟩, Option.bind_some]

/-- Where no nulls are allowed, layers without nulls leave the flag. -/
theorem StoredRow.flag_overlay {layers : List (Layer st)} (row : StoredRow st.width)
    (hnulls : ∀ layer ∈ layers, ∀ rid : RowId, layer.rows[rid]? ≠ some none) :
    (row.overlay false number i layers).flag = row.flag := by
  induction layers using List.reverseRecOn with
  | nil => rfl
  | append_singleton layers layer ih =>
    have hbelow := ih fun l hl => hnulls l (List.mem_append_left _ hl)
    rw [overlay, List.foldl_append, List.foldl_cons, List.foldl_nil, under]
    cases hupdate : layer.update? number i with
    | none => exact hbelow
    | some v =>
      cases v with
      | none =>
        obtain ⟨rid, _, hrid⟩ := Layer.update?_eq_some.1 hupdate
        exact absurd hrid (hnulls layer (by simp) rid)
      | some v => exact hbelow

/-- A row under layers shows what the newest layer with it gives, and else what
it showed before. -/
theorem StoredRow.seen_overlay {layers : List (Layer st)} {row : StoredRow st.width}
    {rid : RowId} (hblock : rid.block = number) (hoffset : rid.offset = i)
    (hflag : nullable = false → row.flag = 0)
    (hnulls : nullable = false → ∀ layer ∈ layers, ∀ rid : RowId, layer.rows[rid]? ≠ some none) :
    (row.overlay nullable number i layers).seen =
      (Layer.newest? layers rid).getD row.seen := by
  induction layers using List.reverseRecOn with
  | nil => rfl
  | append_singleton layers layer ih =>
    have hbelow := ih fun hn l hl => hnulls hn l (List.mem_append_left _ hl)
    rw [overlay, List.foldl_append, List.foldl_cons, List.foldl_nil, under,
      layer.update?_of_row hblock hoffset, Layer.newest?_append]
    cases hrow : layer.rows[rid]? with
    | none => exact hbelow
    | some v =>
      cases v with
      | none => rfl
      | some v =>
        cases hn : nullable with
        | true => rfl
        | false =>
          have hkept : (row.overlay false number i layers).flag = 0 := by
            rw [flag_overlay row fun l hl => hnulls hn l (List.mem_append_left _ hl)]
            exact hflag hn
          exact if_pos hkept

/-! ## A delta over a block -/

namespace Block

variable {b : Block} {d : Delta} {updates : Std.TreeMap RowId (Option st.Value)} {rid : RowId}
  {p : Nat}

/-- What laying updates over a block asks of it. -/
structure Takes (b : Block) (st : ColumnType) (nullable : Bool) (rows : Nat) : Prop where
  wellFormed : b.WellFormed
  width_eq : b.data.width = st.width
  rows_le : rows ≤ b.size
  tracksNulls : nullable = true → b.tracksNulls = true

/-- A block of the same shape takes updates too. -/
theorem Takes.of_sameShape {b' : Block} (h : b.Takes st nullable rows) (hb' : b'.WellFormed)
    (hshape : b'.SameShape b) : b'.Takes st nullable rows := by
  refine ⟨hb', hshape.width_eq.trans h.width_eq, ?_, ?_⟩
  · rw [hshape.size_eq]
    exact h.rows_le
  · intro hn
    rw [hshape.tracksNulls_eq]
    exact h.tracksNulls hn

/-- The value written for a row changes the stored row and no other. -/
theorem stored_putData (hb : b.WellFormed) (hwidth : b.data.width = width) {row : Nat}
    (hrow : row < b.size) (v : BitVec (8 * width)) (i : Nat) :
    stored { b with data := b.data.put row v } width i =
      if i = row then { b.stored width i with value := v } else b.stored width i := by
  have hdata : b.data.Holds b.size width := hwidth ▸ hb.data
  show StoredRow.mk (b.flag i) ((b.data.put row v).element width i) = _
  rw [Buffer.element_put hdata hrow]
  split <;> rfl

/-- So does the flag written for it. -/
theorem stored_putFlag (hb : b.WellFormed) {flags : Buffer} (hflags : b.nulls = some flags)
    {row : Nat} (hrow : row < b.size) (f : BitVec (8 * 1)) (i : Nat) :
    stored { b with nulls := some (flags.put row f) } width i =
      if i = row then { b.stored width i with flag := f } else b.stored width i := by
  have hflag : b.flag i = flags.element 1 i := by rw [flag, hflags]
  show StoredRow.mk ((flags.put row f).element 1 i) (b.data.element width i) = _
  rw [Buffer.element_put (hb.nulls flags hflags) hrow]
  split
  · rfl
  · rw [← hflag]
    rfl

/-- An update changes the row it is for and no other. -/
theorem applyUpdate_of_lays (hb : b.Takes st nullable rows) (hd : d.Lays updates)
    (hflags : d.nulls.isSome = true → nullable = true) {v : Option st.Value}
    (hp : updates.toList[p]? = some (rid, v)) (hrid : rid.offset < rows) :
    ∃ b', applyUpdate st nullable d b p = .ok b' ∧ b'.WellFormed ∧ b'.SameShape b ∧
      ∀ i, b'.stored st.width i =
        if i = rid.offset then (b.stored st.width i).update nullable v
        else b.stored st.width i := by
  have hoffset : d.index.offsets[p]? = some rid.offset.toUInt16 := by
    rw [RowIndex.getElem?_offsets hd.index_eq, Delta.Lays.getElem?_rids hp, Option.map_some]
  have hrow : rid.offset.toUInt16.toNat = rid.offset := RowId.toNat_offset_toUInt16 rid
  have hlt : rid.offset < b.size := Nat.lt_of_lt_of_le hrid hb.rows_le
  have hread := hd.read_eq hp
  have hnull := hd.isNull_eq hp
  have hwrite : ∀ u : st.Value, b.data.write rid.offset u = .ok (b.data.put rid.offset u) :=
    fun u => Buffer.write_of_lt (hb.width_eq ▸ hb.wellFormed.data) hlt u
  have hwithData : ∀ u : st.Value, WellFormed { b with data := b.data.put rid.offset u } :=
    fun u => hb.wellFormed.withData (hb.wellFormed.data.put _ _)
  cases hn : nullable with
  | false =>
    -- Without nulls the delta has no flags, so the update is to a value.
    obtain ⟨u, rfl⟩ : ∃ u : st.Value, v = some u := by
      cases v with
      | some u => exact ⟨u, rfl⟩
      | none =>
        have hnone : d.nulls = none := by simpa [hn] using hflags
        exact absurd (Delta.Lays.exists_position_iff.2 ⟨p, hp⟩) (hd.noFlags hnone rid)
    refine ⟨{ b with data := b.data.put rid.offset u }, ?_, hwithData u, ⟨rfl, rfl, rfl⟩, ?_⟩
    · cases hnulls : b.nulls with
      | none =>
        simp only [applyUpdate, hoffset, hnulls, hrow, hread, hwrite, Option.getD_some, ok_bind,
          pure_eq_ok]
      | some flags =>
        simp only [applyUpdate, hoffset, hnulls, hrow, hread, hwrite, Option.getD_some, ok_bind,
          Bool.false_eq_true, if_false, pure_eq_ok]
    · exact stored_putData hb.wellFormed hb.width_eq hlt u
  | true =>
    obtain ⟨flags, hnulls⟩ : ∃ flags, b.nulls = some flags := by
      have htracks := hb.tracksNulls hn
      exact Option.isSome_iff_exists.1 htracks
    have hwriteF : ∀ f : BitVec (8 * 1), flags.write rid.offset f = .ok (flags.put rid.offset f) :=
      fun f => Buffer.write_of_lt (hb.wellFormed.nulls flags hnulls) hlt f
    have hwithFlags : ∀ f : BitVec (8 * 1),
        WellFormed { b with nulls := some (flags.put rid.offset f) } :=
      fun f => hb.wellFormed.withFlags ((hb.wellFormed.nulls flags hnulls).put _ f)
    have hshape : b.tracksNulls = true := by simp [Block.tracksNulls, hnulls]
    cases v with
    | none =>
      refine ⟨{ b with nulls := some (flags.put rid.offset 1) }, ?_, hwithFlags 1,
        ⟨rfl, rfl, hshape.symm⟩, ?_⟩
      · simp only [applyUpdate, hoffset, hnulls, hrow, hnull, hwriteF, Option.isNone_none, ok_bind,
          if_true, pure_eq_ok]
      · exact stored_putFlag hb.wellFormed hnulls hlt 1
    | some u =>
      refine ⟨{ b with nulls := some (flags.put rid.offset 0), data := b.data.put rid.offset u },
        ?_, (hwithFlags 0).withData (hb.wellFormed.data.put _ _), ⟨rfl, rfl, hshape.symm⟩, ?_⟩
      · simp only [applyUpdate, hoffset, hnulls, hrow, hnull, hread, hwrite, hwriteF,
          Option.isNone_some, Option.getD_some, ok_bind, Bool.false_eq_true, if_true, if_false,
          pure_eq_ok]
      · intro i
        have hdata := stored_putData (hwithFlags 0) hb.width_eq hlt u i
        rw [stored_putFlag hb.wellFormed hnulls hlt 0 i] at hdata
        refine hdata.trans ?_
        split <;> rfl

/-- Some of the positions holds an update for the offset. -/
def UpdateAt (updates : Std.TreeMap RowId (Option st.Value)) (positions : List Nat) (i : Nat)
    (v : Option st.Value) : Prop :=
  ∃ p ∈ positions, ∃ rid : RowId, updates.toList[p]? = some (rid, v) ∧ rid.offset = i

/-- Two positions for one row of a block are the same. -/
theorem position_unique (hd : d.Lays updates) {q : Nat} {rid' : RowId} {v v' : Option st.Value}
    (hp : updates.toList[p]? = some (rid, v)) (hq : updates.toList[q]? = some (rid', v'))
    (hblock : rid.block = rid'.block) (hoffset : rid.offset = rid'.offset) : p = q := by
  have hrid := RowId.eq_of_block_offset hblock hoffset
  subst hrid
  exact RowIndex.position_unique (RowIndex.ofRowIds_eq_ok hd.index_eq).1
    (Delta.Lays.getElem?_rids hp) (Delta.Lays.getElem?_rids hq)

/-- The updates of one block at different positions change the rows they are for,
each once, and no other. -/
theorem applyUpdates_of_lays (hd : d.Lays updates)
    (hflags : d.nulls.isSome = true → nullable = true) {positions : List Nat}
    (hnodup : positions.Nodup)
    (hpositions : ∀ p ∈ positions, ∃ (rid : RowId) (v : Option st.Value),
      updates.toList[p]? = some (rid, v) ∧ rid.block = number ∧ rid.offset < rows)
    (hb : b.Takes st nullable rows) :
    ∃ b', positions.foldlM (applyUpdate st nullable d) b = .ok b' ∧ b'.WellFormed ∧
      b'.SameShape b ∧ ∀ i,
        (∀ v, UpdateAt updates positions i v →
          b'.stored st.width i = (b.stored st.width i).update nullable v) ∧
        ((∀ v, ¬ UpdateAt updates positions i v) → b'.stored st.width i = b.stored st.width i) := by
  induction positions generalizing b with
  | nil =>
    refine ⟨b, rfl, hb.wellFormed, SameShape.refl b, ?_⟩
    intro i
    refine ⟨?_, fun _ => rfl⟩
    intro v hv
    obtain ⟨p, hp, _⟩ := hv
    simp at hp
  | cons p positions ih =>
    obtain ⟨hnot, hnodup⟩ := List.nodup_cons.1 hnodup
    obtain ⟨rid, v, hp, hblock, hrid⟩ := hpositions p List.mem_cons_self
    obtain ⟨b1, hstep, hwell1, hshape1, hstored1⟩ := applyUpdate_of_lays hb hd hflags hp hrid
    obtain ⟨b2, hrest, hwell2, hshape2, hstored2⟩ := ih hnodup
      (fun q hq => hpositions q (List.mem_cons_of_mem p hq)) (hb.of_sameShape hwell1 hshape1)
    refine ⟨b2, ?_, hwell2, hshape2.trans hshape1, ?_⟩
    · rw [List.foldlM_cons, hstep, ok_bind, hrest]
    · intro i
      -- No later position is for the row of this one.
      have hlater : i = rid.offset → ∀ v', ¬ UpdateAt updates positions i v' := by
        intro hi v' hv'
        obtain ⟨q, hq, rid', hqv, hoffset⟩ := hv'
        obtain ⟨rid'', v'', hqv', hblock', _⟩ := hpositions q (List.mem_cons_of_mem p hq)
        obtain ⟨rfl, _⟩ : rid'' = rid' ∧ v'' = v' := by simpa [hqv] using hqv'.symm
        have hpq := position_unique hd hp hqv (hblock.trans hblock'.symm)
          (hi.symm.trans hoffset.symm)
        subst hpq
        exact hnot hq
      obtain ⟨hset, hkept⟩ := hstored2 i
      refine ⟨?_, ?_⟩
      · intro v' hv'
        obtain ⟨q, hq, rid', hqv, hoffset⟩ := hv'
        rcases List.mem_cons.1 hq with rfl | hq
        · obtain ⟨rfl, rfl⟩ : rid = rid' ∧ v = v' := by simpa [hp] using hqv
          rw [hkept (hlater hoffset.symm), hstored1 i, if_pos hoffset.symm]
        · have hcovered : UpdateAt updates positions i v' := ⟨q, hq, rid', hqv, hoffset⟩
          have hne : ¬ i = rid.offset := fun hi => hlater hi v' hcovered
          rw [hset v' hcovered, hstored1 i, if_neg hne]
      · intro hnone
        have hne : ¬ i = rid.offset :=
          fun hi => hnone v ⟨p, List.mem_cons_self, rid, hp, hi.symm⟩
        have hrest : ∀ v', ¬ UpdateAt updates positions i v' := by
          intro v' hv'
          obtain ⟨q, hq, hfor⟩ := hv'
          exact hnone v' ⟨q, List.mem_cons_of_mem p hq, hfor⟩
        rw [hkept hrest, hstored1 i, if_neg hne]

/-- A delta lays its layer over the first rows of a block. -/
theorem applyDelta_of_isLayer {layer : Layer st} (number : Nat) (hb : b.Takes st nullable rows)
    (hd : d.IsLayer layer) (hflags : d.nulls.isSome = true → nullable = true) :
    ∃ b', applyDelta st nullable number rows b d = .ok b' ∧ b'.WellFormed ∧ b'.SameShape b ∧
      ∀ i, b'.stored st.width i =
        if i < rows then (b.stored st.width i).under nullable number i layer
        else b.stored st.width i := by
  have hindex := hd.lays.index_eq
  have hsmall := hd.lays.rids_small
  have hrun := RowIndex.run_bounds hindex hsmall number
  have hstop : d.index.firstNotBelow (d.index.run number) rows ≤ (d.index.run number).stop :=
    partitionPoint_le hrun.1
  have hstart : (d.index.run number).start ≤ d.index.firstNotBelow (d.index.run number) rows :=
    le_partitionPoint _ _ _
  -- The positions gone through are those of the block's rows before the cut.
  have hmem : ∀ p, p ∈ List.range' (d.index.run number).start
      (d.index.firstNotBelow (d.index.run number) rows - (d.index.run number).start) ↔
      ∃ (rid : RowId) (v : Option st.Value), layer.rows.toList[p]? = some (rid, v) ∧
        rid.block = number ∧ rid.offset < rows := by
    intro p
    rw [List.mem_range'_1]
    constructor
    · intro hp
      obtain ⟨rid, hrid, hblock⟩ :=
        (RowIndex.mem_run_iff hindex hsmall number p).1 ⟨hp.1, by omega⟩
      have hcut := (RowIndex.lt_firstNotBelow_iff hindex hsmall rows hrid hblock).1
        (by omega)
      rw [List.getElem?_toArray, List.getElem?_map, Option.map_eq_some_iff] at hrid
      obtain ⟨⟨_, v⟩, hentry, rfl⟩ := hrid
      exact ⟨_, v, hentry, hblock, hcut⟩
    · intro hentry
      obtain ⟨rid, v, hentry, hblock, hcut⟩ := hentry
      have hrid := Delta.Lays.getElem?_rids hentry
      have hin := (RowIndex.mem_run_iff hindex hsmall _ _).2 ⟨rid, hrid, hblock⟩
      have hbefore := (RowIndex.lt_firstNotBelow_iff hindex hsmall rows hrid hblock).2 hcut
      omega
  obtain ⟨b', happly, hwell, hshape, hstored⟩ := applyUpdates_of_lays hd.lays hflags
    List.nodup_range' (fun p hp => (hmem p).1 hp) hb
  refine ⟨b', ?_, hwell, hshape, ?_⟩
  · simp only [applyDelta, RowIndex.requireSpan_run hindex hsmall _, ok_bind]
    exact happly
  · intro i
    obtain ⟨hset, hkept⟩ := hstored i
    split
    · rename_i hi
      unfold StoredRow.under
      split
      · rename_i hnone
        apply hkept
        intro v hv
        obtain ⟨p, hp, rid, hentry, hoffset⟩ := hv
        obtain ⟨rid', v', hentry', hblock, _⟩ := (hmem p).1 hp
        obtain ⟨rfl, rfl⟩ : rid' = rid ∧ v' = v := by simpa [hentry] using hentry'.symm
        rw [layer.update?_of_row hblock hoffset,
          Delta.Lays.exists_position_iff.2 ⟨p, hentry⟩] at hnone
        simp at hnone
      · rename_i v hsome
        obtain ⟨rid, ⟨hblock, hoffset⟩, hrow⟩ := Layer.update?_eq_some.1 hsome
        obtain ⟨p, hentry⟩ := Delta.Lays.exists_position_iff.1 hrow
        exact hset v ⟨p, (hmem p).2 ⟨rid, v, hentry, hblock, hoffset ▸ hi⟩, rid, hentry, hoffset⟩
    · rename_i hi
      apply hkept
      intro v hv
      obtain ⟨p, hp, rid, hentry, hoffset⟩ := hv
      obtain ⟨rid', v', hentry', _, hcut⟩ := (hmem p).1 hp
      obtain ⟨rfl, _⟩ : rid' = rid ∧ v' = v := by simpa [hentry] using hentry'.symm
      omega

/-- The deltas lay their layers over the first rows of a block, one after
another. -/
theorem applyDeltas_of_isLayer {ds : List Delta} {layers : List (Layer st)} (number : Nat)
    (hds : List.Forall₂ Delta.IsLayer ds layers)
    (hflags : ∀ d ∈ ds, d.nulls.isSome = true → nullable = true)
    (hb : b.Takes st nullable rows) :
    ∃ b', ds.foldlM (applyDelta st nullable number rows) b = .ok b' ∧ b'.WellFormed ∧
      b'.SameShape b ∧ ∀ i, b'.stored st.width i =
        if i < rows then (b.stored st.width i).overlay nullable number i layers
        else b.stored st.width i := by
  induction hds generalizing b with
  | nil =>
    refine ⟨b, rfl, hb.wellFormed, SameShape.refl b, ?_⟩
    intro i
    split <;> rfl
  | @cons d layer ds layers hd _ ih =>
    obtain ⟨b1, hstep, hwell1, hshape1, hstored1⟩ :=
      applyDelta_of_isLayer number hb hd (hflags d List.mem_cons_self)
    obtain ⟨b2, hrest, hwell2, hshape2, hstored2⟩ := ih
      (fun d' hd' => hflags d' (List.mem_cons_of_mem d hd')) (hb.of_sameShape hwell1 hshape1)
    refine ⟨b2, ?_, hwell2, hshape2.trans hshape1, ?_⟩
    · rw [List.foldlM_cons, hstep, ok_bind, hrest]
    · intro i
      rw [hstored2 i, hstored1 i]
      split <;> rfl

end Block

/-! ## Reading into a holder -/

/-- The block can take a copy of the first rows of a base block: it has the rows and the
width, and flags if the base block does. -/
structure Block.Reusable (own : Block) (st : ColumnType) (rows : Nat) (base : Block) : Prop where
  rows_le : rows ≤ own.size
  width_eq : own.data.width = st.width
  tracksNulls : base.tracksNulls = true → own.tracksNulls = true

theorem Block.fits_iff {own base : Block} {st : ColumnType} {rows : Nat} :
    own.fits st rows base = true ↔ own.Reusable st rows base := by
  have hflags : (own.tracksNulls || !base.tracksNulls) = true ↔
      (base.tracksNulls = true → own.tracksNulls = true) := by
    cases own.tracksNulls <;> cases base.tracksNulls <;> decide
  simp only [Block.fits, Bool.and_eq_true, decide_eq_true_eq, beq_iff_eq, hflags]
  exact ⟨fun h => ⟨h.1.1, h.1.2, h.2⟩, fun h => ⟨⟨h.rows_le, h.width_eq⟩, h.tracksNulls⟩⟩

/-- A holder's own block is well formed.  A shared one need not be. -/
def Holder.WellFormed (holder : Holder) : Prop :=
  ∀ own, holder.owned? = some own → own.WellFormed

namespace Snapshot

variable {logical storage : ColumnType} {nullable : Bool} {s : Snapshot logical storage nullable}
  {layers : List (Layer storage)} {base : BaseBlock} {rows number : Nat} {holder : Holder}

/-- A copy goes to the holder's own block, if that can be used again. -/
theorem copyTarget_of_reusable {own b : Block} (s : Snapshot logical storage nullable)
    (h : own.Reusable storage rows b) : s.copyTarget rows b (some own) = .ok own := by
  rw [copyTarget, Option.filter_some, if_pos (Block.fits_iff.2 h)]

/-- Without such a block a copy goes to a fresh one. -/
theorem copyTarget_of_not_reusable {b : Block} {own : Option Block}
    (s : Snapshot logical storage nullable)
    (h : ∀ o, own = some o → ¬ o.Reusable storage rows b) :
    s.copyTarget rows b own = Block.zeroed rows storage.width nullable := by
  have hnone : own.filter (·.fits storage rows b) = none := by
    rw [Option.filter_eq_none_iff]
    intro o ho
    exact mt Block.fits_iff.1 (h o ho)
  rw [copyTarget, hnone]

/-- A copy goes to a block that can take it and all updates. -/
theorem copyTarget_of_serves {b : Block} (s : Snapshot logical storage nullable)
    (hb : Column.Serves b storage nullable) (hrows : rows ≤ b.size) {own : Option Block}
    (hown : ∀ o, own = some o → o.WellFormed) :
    ∃ target, s.copyTarget rows b own = .ok target ∧ target.Takes storage nullable rows ∧
      (b.tracksNulls = true → target.tracksNulls = true) := by
  by_cases hreusable : ∃ o, own = some o ∧ o.Reusable storage rows b
  · obtain ⟨target, rfl, hfits⟩ := hreusable
    refine ⟨target, s.copyTarget_of_reusable hfits, ⟨hown target rfl, hfits.width_eq,
      hfits.rows_le, ?_⟩, hfits.tracksNulls⟩
    intro hn
    exact hfits.tracksNulls (hb.tracksNulls_eq.trans hn)
  · obtain ⟨fresh, hfresh⟩ := Block.exists_zeroed (Nat.le_trans hrows hb.size_le) storage.width_pos
      storage.width_le nullable
    obtain ⟨hsize, hwidth, htracks⟩ := Block.shape_of_zeroed hfresh
    have htarget : s.copyTarget rows b own = .ok fresh := by
      rw [s.copyTarget_of_not_reusable fun o ho hfits => hreusable ⟨o, ho, hfits⟩, hfresh]
    refine ⟨fresh, htarget, ⟨Block.wellFormed_of_zeroed hfresh, hwidth, Nat.le_of_eq hsize.symm,
      htracks.trans⟩, ?_⟩
    intro hbase
    exact htracks.trans (hb.tracksNulls_eq.symm.trans hbase)

/-- A patched copy is the block it goes to, with the first rows those of the base block
under all layers. -/
theorem Layered.patched_eq (h : s.Layered layers) (number : Nat) (hbase : base ∈ s.blocks)
    (hrows : rows ≤ base.block.size) {own : Option Block}
    (hown : ∀ o, own = some o → o.WellFormed) :
    ∃ target b, s.copyTarget rows base.block own = .ok target ∧
      s.patched rows number base.block own = .ok b ∧ target.Takes storage nullable rows ∧
      b.WellFormed ∧ b.SameShape target ∧ ∀ i, b.stored storage.width i =
        if i < rows then (base.block.stored storage.width i).overlay nullable number i layers
        else target.stored storage.width i := by
  have hserves := h.serves base hbase
  obtain ⟨target, htarget, htakes, htracks⟩ := s.copyTarget_of_serves hserves hrows hown
  obtain ⟨copy, hcopy, hwell, hshape, hstored⟩ := Block.copyRows_of_copyable hserves.wellFormed
    htakes.wellFormed ⟨hrows, htakes.rows_le, hserves.width_eq, htakes.width_eq⟩ htracks
  obtain ⟨b, hb, hwellB, hshapeB, hstoredB⟩ :=
    Block.applyDeltas_of_isLayer number h.isLayer h.flags (htakes.of_sameShape hwell hshape)
  refine ⟨target, b, htarget, ?_, htakes, hwellB, hshapeB.trans hshape, ?_⟩
  · simp only [patched, htarget, hcopy, hb, liftM_error_ok, liftM_fault_ok, ok_bind]
  · intro i
    rw [hstoredB i, hstored i]
    split <;> rfl

/-- A patched copy is the base block under all layers. -/
theorem Layered.patched_of_le (h : s.Layered layers) (number : Nat) (hbase : base ∈ s.blocks)
    (hrows : rows ≤ base.block.size) {own : Option Block}
    (hown : ∀ o, own = some o → o.WellFormed) :
    ∃ b, s.patched rows number base.block own = .ok b ∧ b.WellFormed ∧
      b.data.width = storage.width ∧ rows ≤ b.size ∧ ∀ i < rows,
        b.stored storage.width i =
          (base.block.stored storage.width i).overlay nullable number i layers := by
  obtain ⟨target, b, _, hb, htakes, hwell, hshape, hstored⟩ :=
    h.patched_eq number hbase hrows hown
  have hfinal := htakes.of_sameShape hwell hshape
  refine ⟨b, hb, hwell, hfinal.width_eq, hfinal.rows_le, ?_⟩
  intro i hi
  rw [hstored i, if_pos hi]

/-- Layers without the block leave its rows. -/
theorem Layered.overlay_of_not_touched (h : s.Layered layers)
    (htouches : s.deltas.any (·.touches number) = false) (i : Nat)
    (row : StoredRow storage.width) : row.overlay nullable number i layers = row := by
  have hnone : ∀ layer ∈ layers, layer.update? number i = none := by
    intro layer hlayer
    obtain ⟨d, hmem, hd⟩ := Delta.exists_of_mem_layers h.isLayer hlayer
    rw [Option.eq_none_iff_forall_ne_some]
    intro v hv
    obtain ⟨rid, ⟨hblock, _⟩, hrow⟩ := Layer.update?_eq_some.1 hv
    have htouch := (RowIndex.touches_iff hd.lays.index_eq hd.lays.rids_small).2
      ⟨rid, Delta.Lays.mem_rids_iff.2 ⟨v, hrow⟩, hblock⟩
    have hnot : ¬ d.touches number = true := by
      rw [Array.any_eq_false'] at htouches
      exact htouches d (Array.mem_toList_iff.1 hmem)
    exact hnot htouch
  clear h htouches
  induction layers with
  | nil => rfl
  | cons layer layers ih =>
    rw [StoredRow.overlay, List.foldl_cons, StoredRow.under, hnone layer List.mem_cons_self]
    exact ih fun l hl => hnone l (List.mem_cons_of_mem layer hl)

/-- Reading the first rows of a block succeeds for every holder, and what is held
then is the base block under all layers. -/
theorem Layered.readBlock_of_le (h : s.Layered layers) (hbase : s.blocks[number]? = some base)
    (hrows : rows ≤ base.block.size) (hholder : holder.WellFormed) :
    ∃ held after, s.readBlock rows number holder = (.ok (), after) ∧ after.block? = some held ∧
      held.WellFormed ∧ held.data.width = storage.width ∧ rows ≤ held.size ∧ ∀ i < rows,
        held.stored storage.width i =
          (base.block.stored storage.width i).overlay nullable number i layers := by
  have hmem := Array.mem_of_getElem? hbase
  unfold readBlock
  rw [hbase]
  by_cases htouches : s.deltas.any (·.touches number) = true
  · obtain ⟨b, hb, hheld⟩ := h.patched_of_le number hmem hrows hholder
    refine ⟨b, .owned b, ?_, rfl, hheld⟩
    simp only [htouches, if_true, hb]
  · have hserves := h.serves base hmem
    refine ⟨base.block, .shared base, ?_, rfl, hserves.wellFormed, hserves.width_eq, hrows, ?_⟩
    · simp only [htouches, Bool.false_eq_true, if_false]
    · intro i _
      rw [h.overlay_of_not_touched (by simpa using htouches)]

/-! ## Reading a block and looking its rows up -/

variable {c : Column} {version : Nat}

/-- Reading the first rows of a block gives, row by row, what looking them up
gives, whatever the holder held before. -/
theorem readBlock_agrees_get (hc : c.Reachable)
    (hs : c.snapshot logical storage nullable version = .ok s)
    (hbase : s.blocks[number]? = some base) (hnumber : number < 65536)
    (hrows : rows ≤ base.block.size) (hholder : holder.WellFormed) :
    ∃ held after, s.readBlock rows number holder = (.ok (), after) ∧ after.block? = some held ∧
      ∀ i < rows, ∃ rid v, RowId.ofBlock (UInt32.ofNat number) (UInt32.ofNat i) = .ok rid ∧
        held.value? storage.width i = .ok v ∧ s.get rid = .ok v := by
  obtain ⟨st, layers, hlayered⟩ := hc.layered
  obtain rfl : st = storage := by
    rw [← hlayered.storage_eq]
    exact (Column.snapshot_eq_ok.1 hs).1.2.1.symm
  have h := hlayered.snapshot hs
  have hmem := Array.mem_of_getElem? hbase
  obtain ⟨held, after, hread, hheld, hwell, hwidth, hsize, hstored⟩ :=
    h.readBlock_of_le hbase hrows hholder
  refine ⟨held, after, hread, hheld, ?_⟩
  intro i hi
  have hcapacity := (h.serves base hmem).size_le
  obtain ⟨rid, hrid, hblock, hoffset⟩ := RowId.ofBlock_of_lt hnumber (show i < _ by omega)
  have hvalue := Block.value?_of_lt hwell hwidth (Nat.lt_of_lt_of_le hi hsize)
  have hget := h.get_eq (hblock ▸ hbase) (hoffset ▸ Nat.lt_of_lt_of_le hi hrows)
  rw [hstored i hi, StoredRow.seen_overlay hblock hoffset
    (fun hn => h.flag_eq_zero hn hmem i) h.noNulls] at hvalue
  rw [hoffset] at hget
  exact ⟨rid, _, hrid, hvalue, hget⟩

/-- A block of five rows of two bytes each, all of them null. -/
def usedBlock : Block where
  size := 5
  data := ⟨Array.replicate 16 255, 10, 2⟩
  nulls := some ⟨Array.replicate 16 255, 5, 1⟩

theorem usedBlock_wellFormed : usedBlock.WellFormed := by
  refine ⟨⟨rfl, by decide, rfl, by decide⟩, ?_⟩
  intro flags hflags
  obtain rfl := Option.some.inj hflags
  exact ⟨rfl, by decide, rfl, by decide⟩

theorem readBlock_agrees_get_price :
    History.priceHistory.column.Reachable ∧ Holder.WellFormed (.owned usedBlock) ∧
      ∃ (s : Snapshot .int .smallInt true) (base : BaseBlock),
        History.priceHistory.column.snapshot .int .smallInt true 13 = .ok s ∧
        s.blocks[0]? = some base ∧ 0 < 65536 ∧ 4 ≤ base.block.size ∧
        ∃ held after, s.readBlock 4 0 (.owned usedBlock) = (.ok (), after) ∧
          after.block? = some held ∧ held.value? 2 0 = .ok (some 9) ∧
          held.value? 2 1 = .ok none ∧ held.value? 2 2 = .ok none ∧
          held.value? 2 3 = .ok (some 8) := by
  have hreachable := History.made_priceHistory.reachable
  have hholder : Holder.WellFormed (.owned usedBlock) := by
    intro own hown
    obtain rfl := Option.some.inj hown
    exact usedBlock_wellFormed
  obtain ⟨base, hbase, hsize⟩ : ∃ base,
      (History.priceHistory.column.at .int .smallInt true 13).blocks[0]? = some base ∧
        4 ≤ base.block.size := by
    have hany : ((History.priceHistory.column.at .int .smallInt true 13).blocks[0]?).any
        (4 ≤ ·.block.size) = true := by decide +kernel
    simpa [Option.any_eq_true] using hany
  have hs : History.priceHistory.column.snapshot .int .smallInt true 13 =
      .ok (History.priceHistory.column.at .int .smallInt true 13) := by
    refine Column.snapshot_eq_ok.2 ⟨⟨?_, ?_, ?_, ?_⟩, rfl⟩ <;> decide +kernel
  obtain ⟨held, after, hread, hheld, hrow⟩ :=
    readBlock_agrees_get hreachable hs hbase (by decide) hsize hholder
  refine ⟨hreachable, hholder, _, base, hs, hbase, by decide, hsize, held, after, hread, hheld, ?_⟩
  have hvalue : ∀ i v, i < 4 →
      (History.priceHistory.column.at .int .smallInt true 13).get (UInt32.ofNat i) = .ok v →
      held.value? 2 i = .ok v := by
    intro i v hi hget
    have hcompose : ∀ i < 4,
        RowId.ofBlock (UInt32.ofNat 0) (UInt32.ofNat i) = .ok (UInt32.ofNat i) := by decide
    obtain ⟨rid, v', hrid, hvalue, hget'⟩ := hrow i hi
    obtain rfl := Except.ok.inj (hrid.symm.trans (hcompose i hi))
    obtain rfl := Except.ok.inj (hget'.symm.trans hget)
    exact hvalue
  exact ⟨hvalue 0 _ (by decide) (by decide +kernel), hvalue 1 _ (by decide) (by decide +kernel),
    hvalue 2 _ (by decide) (by decide +kernel), hvalue 3 _ (by decide) (by decide +kernel)⟩

end Snapshot

end ColumnStore
