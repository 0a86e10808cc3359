import ColumnStore.Proofs.ReadSafety
import ColumnStore.Proofs.Stability

/-!
# The row ids of a published block

A block is published under its number, and a row id has room for numbers below
65536.  Up to there the row id composed of a block's number and an offset names
that row and no other, however the column grows (`Column.row_of_published`).

A column does not stop there.  Every block that passes the checks is published, and
of a number that does not fit a row id keeps the low bits (`Column.ofBlock_published`),
so the rows of a late block go by the names of rows of an early one
(`Column.late_block_shares_row`).
-/

namespace ColumnStore

namespace Snapshot

variable {logical storage : ColumnType} {nullable : Bool} {s : Snapshot logical storage nullable}
  {layers : List (Layer storage)} {base : BaseBlock} {rid : RowId}

/-- A row that no delta in sight updates shows what its block shows. -/
theorem Layered.get_eq_seen (h : s.Layered layers) (hbase : s.blocks[rid.block]? = some base)
    (hoffset : rid.offset < base.block.size) (hquiet : ∀ d ∈ s.deltas, rid ∉ d.index.rowIds) :
    s.get rid = .ok (base.block.stored storage.width rid.offset).seen := by
  have hnone : Layer.newest? layers rid = none := by
    rw [Layer.newest?_eq_none_iff]
    intro layer hlayer
    rw [Option.eq_none_iff_forall_ne_some]
    intro v hv
    obtain ⟨d, hd, his⟩ := Delta.exists_of_mem_layers h.isLayer hlayer
    exact hquiet d (Array.mem_toList_iff.1 hd) (his.lays.mem_rowIds_iff.2 ⟨v, hv⟩)
  rw [h.get_eq hbase hoffset, hnone, Option.getD_none]

end Snapshot

namespace Column

variable {c c' : Column} {b : Block} {id : UInt32} {offset : Nat}

/-! ## The number of a block -/

/-- Of the number of a published block, a row id keeps what fits. -/
theorem ofBlock_published (hpublish : c.publishBlock b = .ok (id, c'))
    (hoffset : offset < RowId.blockCapacity) :
    ∃ rid, RowId.ofBlock id (UInt32.ofNat offset) = .ok rid ∧
      rid.block = c.blocks.size % RowId.blockCapacity ∧ rid.offset = offset := by
  obtain ⟨_, _, rfl, _⟩ := publishBlock_eq_ok hpublish
  have hrid := RowId.at?_eq_some.1
    (show RowId.at? (c.blocks.size % RowId.blockCapacity) offset = some _ from
      if_pos ⟨Nat.mod_lt _ (by decide), hoffset⟩)
  refine ⟨_, RowId.ofBlock_eq_ok.2 ?_, hrid⟩
  rw [hrid.1, hrid.2, UInt32.toNat_ofNat', UInt32.toNat_ofNat']
  simp only [RowId.blockCapacity] at *
  omega

/-- A number that fits is the block's place. -/
theorem toNat_published (hpublish : c.publishBlock b = .ok (id, c'))
    (hroom : c.blocks.size < RowId.blockCapacity) : id.toNat = c.blocks.size := by
  obtain ⟨_, _, rfl, _⟩ := publishBlock_eq_ok hpublish
  rw [UInt32.toNat_ofNat']
  simp only [RowId.blockCapacity] at hroom
  omega

/-- Publishing the block was the first of the calls. -/
theorem publishAll_published (hpublish : c.publishBlock b = .ok (id, c'))
    (calls : List Publication) :
    c'.publishAll calls = c.publishAll (.block b :: calls) := by
  rw [publishAll, publishAll, List.foldl_cons, publish, hpublish]

/-- A published block stays at its place. -/
theorem getElem?_published (hc : c.Reachable) (hpublish : c.publishBlock b = .ok (id, c'))
    (calls : List Publication) :
    (c'.publishAll calls).blocks[c.blocks.size]? =
      some ⟨⟨c.tag, c.blocks.size⟩, c.kept b⟩ := by
  obtain ⟨st, layers, hlayered⟩ := hc.layered
  have hgrown := GrownFrom.publishBlock (GrownFrom.refl hlayered.ascending) hpublish
  have hlast : c'.blocks[c.blocks.size]? = some ⟨⟨c.tag, c.blocks.size⟩, c.kept b⟩ := by
    obtain ⟨_, _, _, rfl⟩ := publishBlock_eq_ok hpublish
    exact Array.getElem?_push_size
  exact (grownFrom_publishAll hgrown.ascending calls).block_eq hlast

/-! ## Rows of a published block -/

/-- At its place, a published block shows what it was handed in with, unless a delta in
sight updates the row. -/
theorem get_published (hc : c.Reachable) (hb : b.Made)
    (hpublish : c.publishBlock b = .ok (id, c')) {calls : List Publication}
    (hcalls : ∀ p ∈ calls, p.Made) {logical storage : ColumnType} {nullable : Bool} {version : Nat}
    {s : Snapshot logical storage nullable}
    (hs : (c'.publishAll calls).snapshot logical storage nullable version = .ok s) {rid : RowId}
    (hblock : rid.block = c.blocks.size) (hoffset : rid.offset < b.size) :
    s.blocks[rid.block]? = some ⟨⟨c.tag, c.blocks.size⟩, c.kept b⟩ ∧ s.Contains rid ∧
      ((∀ d ∈ s.deltas, rid ∉ d.index.rowIds) →
        s.get rid = .ok (if nullable = true ∧ b.flag rid.offset ≠ 0 then none
          else some (b.data.element storage.width rid.offset))) := by
  have hall : ∀ p ∈ Publication.block b :: calls, p.Made := by
    intro p hp
    rcases List.mem_cons.1 hp with rfl | hlater
    · exact hb
    · exact hcalls p hlater
  have hplace : (c'.publishAll calls).blocks[rid.block]? =
      some ⟨⟨c.tag, c.blocks.size⟩, c.kept b⟩ := by
    rw [hblock]
    exact getElem?_published hc hpublish calls
  rw [publishAll_published hpublish] at hs hplace
  obtain ⟨_, _, hold⟩ := hc.layered
  obtain ⟨st, layers, hlayered⟩ := (hc.publishAll hall).layered
  have hdefinition := (grownFrom_publishAll hold.ascending (.block b :: calls)).definition_eq
  obtain ⟨⟨_, hstorage, hnullable, _⟩, rfl⟩ := snapshot_eq_ok.1 hs
  obtain rfl : st = storage := hlayered.storage_eq.symm.trans hstorage.symm
  have hlt : rid.offset < (c.kept b).size := by
    rw [size_kept]
    exact hoffset
  refine ⟨hplace, ⟨_, hplace, hlt⟩, ?_⟩
  intro hquiet
  rw [(hlayered.snapshot hs).get_eq_seen hplace hlt hquiet, seen_kept, hnullable, hdefinition]

/-- A block that is one of the first 65536 has its rows to itself.  The row id composed of
its number and an offset gives both back, and is composed of no other pair of a
number that fits and an offset.  Whatever is published later, it names the row of that
block, which shows what the block was handed in with unless a delta in sight updates
it. -/
theorem row_of_published (hc : c.Reachable) (hb : b.Made)
    (hpublish : c.publishBlock b = .ok (id, c')) (hroom : c.blocks.size < RowId.blockCapacity)
    (hoffset : offset < b.size) :
    ∃ rid, RowId.ofBlock id (UInt32.ofNat offset) = .ok rid ∧
      rid.block = id.toNat ∧ rid.offset = offset ∧
      (∀ number other : UInt32, number.toNat < RowId.blockCapacity →
        RowId.ofBlock number other = .ok rid → number = id ∧ other = UInt32.ofNat offset) ∧
      ∀ calls : List Publication, (∀ p ∈ calls, p.Made) →
        ∀ {logical storage : ColumnType} {nullable : Bool} {version : Nat}
          {s : Snapshot logical storage nullable},
          (c'.publishAll calls).snapshot logical storage nullable version = .ok s →
          s.blocks[rid.block]? = some ⟨⟨c.tag, id.toNat⟩, c.kept b⟩ ∧ s.Contains rid ∧
            ((∀ d ∈ s.deltas, rid ∉ d.index.rowIds) →
              s.get rid = .ok (if nullable = true ∧ b.flag offset ≠ 0 then none
                else some (b.data.element storage.width offset))) := by
  have hid := toNat_published hpublish hroom
  have hfits : offset < RowId.blockCapacity := Nat.lt_of_lt_of_le hoffset hb.wellFormed.2
  obtain ⟨rid, hrid, hblock, rfl⟩ := ofBlock_published hpublish hfits
  rw [Nat.mod_eq_of_lt hroom] at hblock
  refine ⟨rid, hrid, hblock.trans hid.symm, rfl, ?_, ?_⟩
  · intro number other hnumber hsame
    exact RowId.ofBlock_inj hnumber (hid ▸ hroom) hsame hrid
  · intro calls hcalls logical storage nullable version s hs
    rw [hid]
    exact get_published hc hb hpublish hcalls hs hblock hoffset

/-! ## A column of counts -/

def count : ColumnDef := { cid := 1, name := "count", type := .int, isKey := true }

def fiveBlock : Block where
  size := 1
  data := ⟨#[5, 0, 0, 0, 0, 0, 0, 0, 0, 0, 0, 0, 0, 0, 0, 0], 4, 4⟩
  nulls := some ⟨Array.replicate 16 0, 1, 1⟩

def sevenBlock : Block where
  size := 1
  data := ⟨#[7, 0, 0, 0, 0, 0, 0, 0, 0, 0, 0, 0, 0, 0, 0, 0], 4, 4⟩
  nulls := some ⟨Array.replicate 16 0, 1, 1⟩

theorem made_fiveBlock : fiveBlock.Made := by
  have hvalues : Block.ofValues (#[5] : Array (BitVec (8 * 4))) = .ok fiveBlock := rfl
  exact .ofValues hvalues

theorem made_sevenBlock : sevenBlock.Made := by
  have hvalues : Block.ofValues (#[7] : Array (BitVec (8 * 4))) = .ok sevenBlock := rfl
  exact .ofValues hvalues

def countColumnOf (blocks : Array BaseBlock) : Column :=
  { Column.new 0 count 0 with blocks }

/-- The column before and after its first block is published. -/
def countColumn : Column := countColumnOf #[]

def countColumnFive : Column := countColumnOf #[⟨⟨0, 0⟩, fiveBlock.withoutFlags⟩]

theorem reachable_countColumn : countColumn.Reachable := .new 0 count .int 0

theorem publishBlock_five : countColumn.publishBlock fiveBlock = .ok (0, countColumnFive) := rfl

theorem reachable_countColumnFive : countColumnFive.Reachable :=
  Reachable.publish (p := .block fiveBlock) reachable_countColumn made_fiveBlock

/-- Without deltas in the column there are none in sight. -/
theorem not_mem_deltas_at {c : Column} (h : c.deltas = #[]) {logical storage : ColumnType}
    {nullable : Bool} {version : Nat} (d : Delta) :
    d ∉ (c.at logical storage nullable version).deltas := by
  simp [Column.at, h]

theorem row_of_published_five :
    countColumn.Reachable ∧ fiveBlock.Made ∧
      countColumn.publishBlock fiveBlock = .ok (0, countColumnFive) ∧
      countColumn.blocks.size < RowId.blockCapacity ∧ 0 < fiveBlock.size ∧
      RowId.ofBlock 0 0 = .ok 0 ∧
      ∃ s : Snapshot .int .int false,
        (countColumnFive.publishAll [.block sevenBlock]).snapshot .int .int false 0 = .ok s ∧
        s.get 0 = .ok (some 5) := by
  have hroom : countColumn.blocks.size < RowId.blockCapacity := by decide
  have hoffset : 0 < fiveBlock.size := by decide
  obtain ⟨rid, hrid, _, _, _, hlater⟩ :=
    row_of_published reachable_countColumn made_fiveBlock publishBlock_five hroom hoffset
  have hzero : RowId.ofBlock 0 0 = .ok 0 := rfl
  obtain rfl : rid = 0 := Except.ok.inj (hrid.symm.trans hzero)
  have hmade : ∀ p ∈ [Publication.block sevenBlock], p.Made := by
    intro p hp
    rw [List.mem_singleton.1 hp]
    exact made_sevenBlock
  have hs : (countColumnFive.publishAll [.block sevenBlock]).snapshot .int .int false 0 =
      .ok ((countColumnFive.publishAll [.block sevenBlock]).at .int .int false 0) := by
    refine snapshot_eq_ok.2 ⟨⟨?_, ?_, ?_, ?_⟩, rfl⟩ <;> decide +kernel
  obtain ⟨_, _, hget⟩ := hlater _ hmade hs
  refine ⟨reachable_countColumn, made_fiveBlock, publishBlock_five, hroom, hoffset, hzero, _, hs,
    ?_⟩
  refine (hget ?_).trans (by decide +kernel)
  intro d hd
  exact absurd hd (not_mem_deltas_at rfl d)

/-! ## A crowded column -/

/-- A block that passes the checks is published as often as it is handed in. -/
theorem publishAll_replicate (hwidth : b.data.width = c.storage.width)
    (hflags : c.definition.nullable = true → b.tracksNulls = true) (n : Nat) :
    ∃ blocks, c.publishAll (List.replicate n (.block b)) = { c with blocks } ∧
      blocks.size = c.blocks.size + n := by
  induction n generalizing c with
  | zero => exact ⟨c.blocks, rfl, rfl⟩
  | succ n ih =>
    have hnext : c.publish (.block b) =
        { c with blocks := c.blocks.push ⟨⟨c.tag, c.blocks.size⟩, c.kept b⟩ } := by
      rw [publish, publishBlock_of_fits hwidth hflags]
    obtain ⟨blocks, hall, hsize⟩ := ih (c := c.publish (.block b))
      (by rw [hnext]; exact hwidth) (by rw [hnext]; exact hflags)
    refine ⟨blocks, ?_, ?_⟩
    · rw [List.replicate_succ, publishAll, List.foldl_cons]
      refine hall.trans ?_
      rw [hnext]
    · rw [hsize, hnext, Array.size_push]
      omega

/-- The first block, handed in 65535 times more. -/
def manyFives : List Publication := List.replicate 65535 (.block fiveBlock)

theorem made_manyFives : ∀ p ∈ manyFives, p.Made := by
  intro p hp
  rw [List.eq_of_mem_replicate hp]
  exact made_fiveBlock

theorem exists_publishAll_manyFives :
    ∃ blocks, countColumnFive.publishAll manyFives = countColumnOf blocks ∧
      blocks.size = 65536 :=
  publishAll_replicate (c := countColumnFive) (b := fiveBlock) rfl (fun _ => rfl) 65535

theorem publishBlock_seven {blocks : Array BaseBlock} (hfull : blocks.size = 65536) :
    (countColumnOf blocks).publishBlock sevenBlock =
      .ok (65536, countColumnOf (blocks.push ⟨⟨0, 65536⟩, sevenBlock.withoutFlags⟩)) := by
  have hfits :=
    publishBlock_of_fits (c := countColumnOf blocks) (b := sevenBlock) rfl (fun _ => rfl)
  simp only [countColumnOf, hfull] at hfits
  exact hfits

/-- Block 65536 is published, and the row id composed of its number is that of a row of
block 0, which is what it names. -/
theorem late_block_shares_row :
    ∃ (c c' : Column) (s : Snapshot .int .int false), c.Reachable ∧ sevenBlock.Made ∧
      c.publishBlock sevenBlock = .ok (65536, c') ∧ c'.snapshot .int .int false 0 = .ok s ∧
      s.blocks[65536]? = some ⟨⟨0, 65536⟩, sevenBlock.withoutFlags⟩ ∧
      sevenBlock.withoutFlags.value? 4 0 = .ok (some 7) ∧
      RowId.ofBlock 65536 0 = .ok 0 ∧ RowId.ofBlock 0 0 = .ok 0 ∧ s.get 0 = .ok (some 5) := by
  obtain ⟨blocks, hall, hfull⟩ := exists_publishAll_manyFives
  have hcrowded : (countColumnOf blocks).Reachable := by
    rw [← hall]
    exact reachable_countColumnFive.publishAll made_manyFives
  have hpublish := publishBlock_seven hfull
  have hmade : ∀ p ∈ manyFives ++ [.block sevenBlock], p.Made := by
    intro p hp
    rcases List.mem_append.1 hp with hfive | hseven
    · exact made_manyFives p hfive
    · rw [List.mem_singleton.1 hseven]
      exact made_sevenBlock
  -- The crowded column has grown from the first block, whose row is still in place.
  have hgrown : countColumnFive.publishAll (manyFives ++ [.block sevenBlock]) =
      countColumnOf (blocks.push ⟨⟨0, 65536⟩, sevenBlock.withoutFlags⟩) := by
    rw [publishAll_append_singleton, hall, publish, hpublish]
  have hs : (countColumnOf (blocks.push ⟨⟨0, 65536⟩, sevenBlock.withoutFlags⟩)).snapshot
      .int .int false 0 = .ok _ := snapshot_eq_ok.2 ⟨⟨rfl, rfl, rfl, Nat.le_refl 0⟩, rfl⟩
  have hs' := hs
  rw [← hgrown] at hs'
  have hrow : RowId.block 0 = countColumn.blocks.size := rfl
  obtain ⟨_, _, hget⟩ := get_published reachable_countColumn made_fiveBlock publishBlock_five
    hmade hs' hrow (by decide)
  rw [hgrown] at hget
  have hlast : (blocks.push ⟨⟨0, 65536⟩, sevenBlock.withoutFlags⟩)[65536]? =
      some ⟨⟨0, 65536⟩, sevenBlock.withoutFlags⟩ := by
    rw [← hfull]
    exact Array.getElem?_push_size
  refine ⟨_, _, _, hcrowded, made_sevenBlock, hpublish, hs, hlast, by decide +kernel, rfl, rfl, ?_⟩
  exact (hget fun d hd => absurd hd (not_mem_deltas_at rfl d)).trans (by decide +kernel)

end Column

end ColumnStore
