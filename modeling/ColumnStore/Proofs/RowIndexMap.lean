import ColumnStore.Proofs.RowIndex

/-!
# The row index as a map

An index stands for its list: it is had of strictly ascending lists and of no others,
and what it answers of row ids, positions and blocks is what the list says
(`AnswersFor`).  The runs of the blocks follow each other and cover all positions
(`run_succ_start`, `run_stop_of_last`), within a run the offsets ascend
(`exists_offset_lt`), and no other list has the same index (`ofRowIds_answersFor`).

The ends of the runs can be collected in one pass over the list, which gives every
block that is skipped the end of the entries so far (`toList_ends_eq`).
-/

namespace ColumnStore.RowIndex

variable {rids : Array RowId} {index : RowIndex} {rid : RowId} {block p q n : Nat}

/-! ## Which lists have an index -/

/-- Row ids that ascend strictly. -/
def Ascending (rids : Array RowId) : Prop := rids.toList.Pairwise (· < ·)

theorem ascending_iff : Ascending rids ↔ firstDescent? rids.toList = none := by
  rw [firstDescent?_eq_none_iff, Ascending]
  simp only [UInt32.lt_iff_toNat_lt]

theorem exists_ofRowIds_iff (rids : Array RowId) :
    (∃ index, ofRowIds rids = .ok index) ↔ Ascending rids := by
  rw [ascending_iff, ofRowIds]
  cases firstDescent? rids.toList with
  | none => simp
  | some pair => simp

/-! ## One pass over the list -/

/-- The ends after an entry was seen at a position: the blocks that were skipped up to its
own end there. -/
def endsUpTo (ends : List UInt32) (entry : RowId × Nat) : List UInt32 :=
  ends ++ List.replicate (entry.1.block - ends.length) (UInt32.ofNat entry.2)

/-- The ends of the blocks, collected in one pass. -/
def collectEnds (rids : Array RowId) : List UInt32 :=
  let ends := rids.toList.zipIdx.foldl endsUpTo []
  ends ++ List.replicate (blocksSpanned rids - ends.length) (UInt32.ofNat rids.size)

/-- The ends of the first `n` blocks. -/
def firstEnds (rids : Array RowId) (n : Nat) : List UInt32 :=
  (List.range n).map fun block => UInt32.ofNat (endOf rids block)

theorem length_firstEnds (rids : Array RowId) (n : Nat) : (firstEnds rids n).length = n := by
  simp [firstEnds]

/-- Blocks with one end are appended as that end. -/
theorem firstEnds_append {m : Nat} (hmn : m ≤ n)
    (hend : ∀ block, m ≤ block → block < n → endOf rids block = p) :
    firstEnds rids m ++ List.replicate (n - (firstEnds rids m).length) (UInt32.ofNat p) =
      firstEnds rids n := by
  obtain ⟨k, rfl⟩ := Nat.exists_eq_add_of_le hmn
  rw [length_firstEnds, Nat.add_sub_cancel_left]
  induction k with
  | zero => simp
  | succ k ih =>
    have hlast : endOf rids (m + k) = p := hend (m + k) (by omega) (by omega)
    rw [List.replicate_succ', ← List.append_assoc,
      ih (by omega) fun block hlow hhigh => hend block hlow (by omega), firstEnds, firstEnds,
      ← Nat.add_assoc, List.range_succ, List.map_append, List.map_singleton, hlast]

section Ascending

variable (hasc : rids.toList.Pairwise (fun a b => a.toNat < b.toNat))

include hasc

/-- A block that is skipped ends where the next entry stands. -/
theorem endOf_skipped (hp : p < rids.size) (hblock : block < rids[p].block)
    (hbefore : ∀ q (hq : q < p), rids[q].block ≤ block) : endOf rids block = p := by
  have hle := endOf_le rids block
  rcases Nat.lt_trichotomy (endOf rids block) p with hlt | heq | hgt
  · have hin := (lt_endOf_iff hasc block (show endOf rids block < rids.size by omega)).2
      (hbefore _ hlt)
    omega
  · exact heq
  · have hin := (lt_endOf_iff hasc block hp).1 hgt
    omega

/-- After some entries the pass has the ends of the blocks before the last that was
seen. -/
theorem foldl_endsUpTo (hn : n ≤ rids.size) :
    ∃ m, (rids.toList.zipIdx.take n).foldl endsUpTo [] = firstEnds rids m ∧
      (∀ q (hq : q < n), rids[q].block ≤ m) ∧
      ∀ b, (∀ q (hq : q < n), rids[q].block ≤ b) → m ≤ b := by
  induction n with
  | zero => exact ⟨0, rfl, by simp, by simp⟩
  | succ n ih =>
    obtain ⟨m, hfold, hbound, hleast⟩ := ih (by omega)
    have hnext : rids.toList.zipIdx[n]? = some (rids[n], n) := by
      rw [List.getElem?_zipIdx, Array.getElem?_toList, Array.getElem?_eq_getElem (by omega)]
      simp
    have hmono : ∀ q (hq : q < n + 1), rids[q].block ≤ rids[n].block :=
      fun q hq => block_mono hasc (by omega) (by omega)
    refine ⟨rids[n].block, ?_, hmono, fun b hb => hb n (by omega)⟩
    rw [List.take_add_one, hnext, Option.toList_some, List.foldl_append, hfold]
    refine firstEnds_append (hleast _ fun q hq => hmono q (by omega)) ?_
    intro block hlow hhigh
    exact endOf_skipped hasc (by omega) hhigh fun q hq => Nat.le_trans (hbound q hq) hlow

theorem collectEnds_eq : collectEnds rids = firstEnds rids (blocksSpanned rids) := by
  obtain ⟨m, hfold, hbound, hleast⟩ := foldl_endsUpTo hasc (Nat.le_refl rids.size)
  rw [List.take_of_length_le (by simp)] at hfold
  have hspanned : blocksSpanned rids ≤ m + 1 := by
    unfold blocksSpanned
    split
    · exact Nat.zero_le _
    · rename_i last hlast
      rw [Array.back?_eq_getElem?] at hlast
      obtain ⟨hin, rfl⟩ := Array.getElem?_eq_some_iff.1 hlast
      exact Nat.succ_le_succ (hbound _ hin)
  rw [collectEnds, hfold]
  refine firstEnds_append (hleast _ fun q hq => Nat.le_of_lt (block_lt_spanned hasc hq)) ?_
  intro block hlow _
  exact endOf_last hasc (by omega)

end Ascending

/-! ## What an index answers -/

/-- What an index answers is what its list says. -/
structure AnswersFor (index : RowIndex) (rids : Array RowId) : Prop where
  size_eq : index.size = rids.size
  /-- Looking a row id up never breaks off. -/
  find?_ok : ∀ rid, ∃ found, index.find? rid = .ok found
  find?_iff : ∀ rid p, index.find? rid = .ok (some p) ↔ p < index.size ∧ rids[p]? = some rid
  /-- The run of a block is the positions of its row ids. -/
  mem_run_iff : ∀ block p, (index.run block).start ≤ p ∧ p < (index.run block).stop ↔
    ∃ rid, rids[p]? = some rid ∧ rid.block = block
  run_le : ∀ block, (index.run block).start ≤ (index.run block).stop
  /-- The runs follow each other from the first position to the last. -/
  run_first_start : (index.run 0).start = 0
  run_next_start : ∀ block, block + 1 < index.blockBound →
    (index.run (block + 1)).start = (index.run block).stop
  run_last_stop : ∀ block, block + 1 = index.blockBound → (index.run block).stop = index.size
  touches_iff : ∀ block, index.touches block = true ↔ ∃ rid ∈ rids, rid.block = block
  /-- The bound is one past the last block with a row id, and 0 if there is none. -/
  blockBound_le_iff : ∀ n, index.blockBound ≤ n ↔ ∀ rid ∈ rids, rid.block < n
  offsets_ascending : ∀ block p q, (index.run block).start ≤ p → p < q →
    q < (index.run block).stop →
    ∃ a b, index.offsets[p]? = some a ∧ index.offsets[q]? = some b ∧ a < b
  toList_ends_eq : index.ends.toList = collectEnds rids
  rowIds_eq : index.rowIds = rids.toList

section Built

variable (h : ofRowIds rids = .ok index)

include h

theorem toList_ends_eq : index.ends.toList = collectEnds rids := by
  rw [collectEnds_eq (ofRowIds_eq_ok h).1]
  apply List.ext_getElem?
  intro block
  rw [Array.getElem?_toList, firstEnds, List.getElem?_map]
  rcases Nat.lt_or_ge block (blocksSpanned rids) with hlt | hge
  · rw [getElem?_ends h hlt, List.getElem?_range hlt, Option.map_some]
  · rw [Array.getElem?_eq_none, List.getElem?_eq_none]
    · rfl
    · rw [List.length_range]
      exact hge
    · rw [← blockBound, blockBound_eq h]
      exact hge

theorem blockBound_le_iff : index.blockBound ≤ n ↔ ∀ rid ∈ rids, rid.block < n := by
  rw [blockBound_eq h]
  constructor
  · intro hle rid hrid
    obtain ⟨p, hp, rfl⟩ := Array.getElem_of_mem hrid
    exact Nat.lt_of_lt_of_le (block_lt_spanned (ofRowIds_eq_ok h).1 hp) hle
  · intro hall
    unfold blocksSpanned
    split
    · exact Nat.zero_le _
    · rename_i last hlast
      exact hall last (Array.mem_of_back? hlast)

section Run

variable (hsmall : rids.size < 2 ^ 32)

include hsmall

theorem find?_eq_ok_some_iff :
    index.find? rid = .ok (some p) ↔ p < index.size ∧ rids[p]? = some rid := by
  constructor
  · intro hfound
    by_cases hrid : rid ∈ rids
    · obtain ⟨q, hq⟩ := Array.getElem?_of_mem hrid
      rw [find?_of_getElem? h hsmall hq] at hfound
      obtain rfl : q = p := Option.some.inj (Except.ok.inj hfound)
      rw [size_eq h]
      exact ⟨(Array.getElem?_eq_some_iff.1 hq).1, hq⟩
    · rw [find?_of_not_mem h hsmall hrid] at hfound
      simp at hfound
  · intro hp
    exact find?_of_getElem? h hsmall hp.2

theorem exists_find?_eq (rid : RowId) : ∃ found, index.find? rid = .ok found := by
  by_cases hrid : rid ∈ rids
  · obtain ⟨p, hp⟩ := Array.getElem?_of_mem hrid
    exact ⟨some p, find?_of_getElem? h hsmall hp⟩
  · exact ⟨none, find?_of_not_mem h hsmall hrid⟩

theorem run_zero_start : (index.run 0).start = 0 := by
  rcases Nat.eq_zero_or_pos (blocksSpanned rids) with hzero | hpos
  · rw [run_of_le h (Nat.le_of_eq hzero)]
  · rw [run_eq h hsmall hpos, startOf]

theorem run_succ_start (hblock : block + 1 < index.blockBound) :
    (index.run (block + 1)).start = (index.run block).stop := by
  rw [blockBound_eq h] at hblock
  rw [run_eq h hsmall hblock, run_eq h hsmall (by omega), startOf]

theorem run_stop_of_last (hblock : block + 1 = index.blockBound) :
    (index.run block).stop = index.size := by
  rw [blockBound_eq h] at hblock
  rw [run_eq h hsmall (by omega), size_eq h]
  exact endOf_last (ofRowIds_eq_ok h).1 (Nat.le_of_eq hblock.symm)

/-- Within a run the offsets ascend. -/
theorem exists_offset_lt (hp : (index.run block).start ≤ p) (hpq : p < q)
    (hq : q < (index.run block).stop) :
    ∃ a b, index.offsets[p]? = some a ∧ index.offsets[q]? = some b ∧ a < b := by
  obtain ⟨first, hfirst, hblock⟩ := (mem_run_iff h hsmall block p).1 ⟨hp, by omega⟩
  obtain ⟨second, hsecond, hblock'⟩ := (mem_run_iff h hsmall block q).1 ⟨by omega, hq⟩
  refine ⟨first.offset.toUInt16, second.offset.toUInt16, ?_, ?_, ?_⟩
  · rw [getElem?_offsets h, hfirst, Option.map_some]
  · rw [getElem?_offsets h, hsecond, Option.map_some]
  · obtain ⟨_, rfl⟩ := Array.getElem?_eq_some_iff.1 hfirst
    obtain ⟨hin, rfl⟩ := Array.getElem?_eq_some_iff.1 hsecond
    have hroom := toNat_add_le (ofRowIds_eq_ok h).1 (Nat.le_of_lt hpq) hin
    rw [RowId.toNat_eq, RowId.toNat_eq rids[q], hblock, hblock'] at hroom
    rw [UInt16.lt_iff_toNat_lt, RowId.toNat_offset_toUInt16, RowId.toNat_offset_toUInt16]
    omega

theorem answersFor : index.AnswersFor rids where
  size_eq := size_eq h
  find?_ok := exists_find?_eq h hsmall
  find?_iff _ _ := find?_eq_ok_some_iff h hsmall
  mem_run_iff := RowIndex.mem_run_iff h hsmall
  run_le block := (run_bounds h hsmall block).1
  run_first_start := run_zero_start h hsmall
  run_next_start _ := run_succ_start h hsmall
  run_last_stop _ := run_stop_of_last h hsmall
  touches_iff _ := RowIndex.touches_iff h hsmall
  blockBound_le_iff _ := RowIndex.blockBound_le_iff h
  offsets_ascending _ _ _ := exists_offset_lt h hsmall
  toList_ends_eq := RowIndex.toList_ends_eq h
  rowIds_eq := RowIndex.rowIds_eq h hsmall

end Run

end Built

/-- Row ids have an index exactly if they ascend strictly.  If there are fewer than 2^32
of them, the index answers for their list, and it is the index of no other such list. -/
theorem ofRowIds_answersFor (rids : Array RowId) :
    ((∃ index, ofRowIds rids = .ok index) ↔ Ascending rids) ∧
      ∀ index, ofRowIds rids = .ok index → rids.size < 2 ^ 32 →
        index.AnswersFor rids ∧
          ∀ others : Array RowId, ofRowIds others = .ok index → others.size < 2 ^ 32 →
            others = rids := by
  refine ⟨exists_ofRowIds_iff rids, ?_⟩
  intro index h hsmall
  refine ⟨answersFor h hsmall, ?_⟩
  intro others hother hothers
  apply Array.ext'
  rw [← RowIndex.rowIds_eq h hsmall, ← RowIndex.rowIds_eq hother hothers]

/-- Three row ids of block 1, with the first and the last offset among them, and one of
block 3. -/
def sparseRowIds : Array RowId := #[65536, 65540, 131071, 196613]

/-- Blocks 0 and 2 have no row ids, and 65537 lies between two that are there. -/
theorem ofRowIds_answersFor_sparse :
    Ascending sparseRowIds ∧ sparseRowIds.size < 2 ^ 32 ∧
      ∃ index, ofRowIds sparseRowIds = .ok index ∧ index.blockBound = 4 ∧
        index.find? 131071 = .ok (some 2) ∧ index.find? 65537 = .ok none ∧
        index.touches 2 = false ∧ index.rowIds = [65536, 65540, 131071, 196613] := by
  have hascending : Ascending sparseRowIds := by
    unfold Ascending
    decide
  have hsmall : sparseRowIds.size < 2 ^ 32 := by decide
  obtain ⟨hbuilt, hanswers⟩ := ofRowIds_answersFor sparseRowIds
  obtain ⟨index, hindex⟩ := hbuilt.2 hascending
  obtain ⟨h, _⟩ := hanswers index hindex hsmall
  refine ⟨hascending, hsmall, index, hindex, ?_, ?_, ?_, ?_, h.rowIds_eq⟩
  · have hle : index.blockBound ≤ 4 := by
      rw [h.blockBound_le_iff]
      intro rid hrid
      simp only [sparseRowIds, List.mem_toArray, List.mem_cons, List.not_mem_nil, or_false] at hrid
      rcases hrid with rfl | rfl | rfl | rfl <;> decide
    have hnot : ¬ index.blockBound ≤ 3 := by
      rw [h.blockBound_le_iff]
      intro hall
      exact absurd (hall 196613 (by simp [sparseRowIds])) (by decide)
    omega
  · refine (h.find?_iff 131071 2).2 ⟨?_, rfl⟩
    rw [h.size_eq]
    decide
  · obtain ⟨found, hfound⟩ := h.find?_ok 65537
    cases found with
    | none => exact hfound
    | some p =>
      have hmem := Array.mem_of_getElem? ((h.find?_iff 65537 p).1 hfound).2
      exact absurd hmem (by simp [sparseRowIds])
  · rw [Bool.eq_false_iff, Ne, h.touches_iff]
    decide

end ColumnStore.RowIndex
