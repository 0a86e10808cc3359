import ColumnStore.RowIndex
import ColumnStore.Proofs.RowId
import Mathlib.Algebra.Group.Nat.Defs
import Mathlib.Data.List.Chain

/-!
# The row index against its list

An index is built from a strictly ascending list of row ids.  The list decides
every answer of the index: the run of a block is the stretch of its row ids
(`mem_run_iff`), a row id is found at its position in the list, or not at all
(`find?_of_getElem?`, `find?_of_not_mem`), and the row ids that the index gives
back are the list (`rowIds_eq`).

Positions are kept in 32 bits, so all of this is of lists of fewer than 2^32
row ids.  The one longer list, that of all row ids, has an index whose last run
is no stretch of positions (`lt_of_requireSpan`).
-/

namespace ColumnStore.RowIndex

variable {rids : Array RowId} {index : RowIndex} {rid : RowId} {block p : Nat}

/-! ## Ascending lists -/

theorem firstDescent?_eq_none_iff (l : List RowId) :
    firstDescent? l = none ↔ l.Pairwise (fun a b => a.toNat < b.toNat) := by
  have htrans : IsTrans RowId fun a b => a.toNat < b.toNat := ⟨fun _ _ _ => Nat.lt_trans⟩
  rw [← List.isChain_iff_pairwise]
  fun_induction firstDescent? l with
  | case1 first second rest hlt ih =>
    refine ih.trans ?_
    rw [List.isChain_cons_cons]
    exact (and_iff_right (UInt32.lt_iff_toNat_lt.1 hlt)).symm
  | case2 first second rest hlt =>
    rw [List.isChain_cons_cons]
    simp only [reduceCtorEq, false_iff, not_and]
    intro h
    exact absurd (UInt32.lt_iff_toNat_lt.2 h) hlt
  | case3 l hshort =>
    rcases l with _ | ⟨a, _ | ⟨b, l⟩⟩
    · simp
    · simp
    · exact absurd rfl (hshort a b l)

/-- The position after the last row id of a block or of a block before it. -/
def endOf (rids : Array RowId) (block : Nat) : Nat :=
  partitionPoint (fun i => (rids[i]?).any (·.block ≤ block)) 0 rids.size

/-- The position after the last row id before a block. -/
def startOf (rids : Array RowId) : Nat → Nat
  | 0 => 0
  | block + 1 => endOf rids block

/-- What an index is made of. -/
theorem ofRowIds_eq_ok (h : ofRowIds rids = .ok index) :
    rids.toList.Pairwise (fun a b => a.toNat < b.toNat) ∧
      index = { ends := Array.ofFn (n := blocksSpanned rids) fun b => UInt32.ofNat (endOf rids b)
                offsets := rids.map fun rid => rid.offset.toUInt16 } := by
  rw [← firstDescent?_eq_none_iff]
  unfold ofRowIds at h
  split at h
  · simp at h
  · rename_i hnone
    exact ⟨hnone, (Except.ok.inj h).symm⟩

/-- Between two positions there is room for as many row ids. -/
theorem toNat_add_le (hasc : rids.toList.Pairwise (fun a b => a.toNat < b.toNat)) {q : Nat}
    (hpq : p ≤ q) (hq : q < rids.size) : rids[p].toNat + (q - p) ≤ rids[q].toNat := by
  induction q with
  | zero =>
    obtain rfl : p = 0 := by omega
    simp
  | succ q ih =>
    rcases Nat.lt_or_ge q p with hlt | hle
    · obtain rfl : p = q + 1 := by omega
      simp
    · have hstep : rids[q].toNat < rids[q + 1].toNat := by
        have := List.pairwise_iff_getElem.1 hasc q (q + 1) (by simp; omega) (by simpa) (by omega)
        simpa using this
      have := ih hle (by omega)
      omega

section Ascending

variable (hasc : rids.toList.Pairwise (fun a b => a.toNat < b.toNat))

include hasc

theorem block_mono {q : Nat} (hpq : p ≤ q) (hq : q < rids.size) :
    rids[p].block ≤ rids[q].block := by
  have hle := toNat_add_le hasc hpq hq
  rw [RowId.block_eq, RowId.block_eq]
  exact Nat.div_le_div_right (by omega)

/-- A row id stands at one position. -/
theorem position_unique {q : Nat} (hp : rids[p]? = some rid) (hq : rids[q]? = some rid) :
    p = q := by
  obtain ⟨hps, hp⟩ := Array.getElem?_eq_some_iff.1 hp
  obtain ⟨hqs, hq⟩ := Array.getElem?_eq_some_iff.1 hq
  rcases Nat.lt_trichotomy p q with hlt | heq | hgt
  · have := toNat_add_le hasc (Nat.le_of_lt hlt) hqs
    rw [hp, hq] at this
    omega
  · exact heq
  · have := toNat_add_le hasc (Nat.le_of_lt hgt) hps
    rw [hp, hq] at this
    omega

theorem lt_endOf_iff (block : Nat) (hp : p < rids.size) :
    p < endOf rids block ↔ rids[p].block ≤ block := by
  have hmono : ∀ i j, 0 ≤ i → i ≤ j → j < rids.size →
      (rids[j]?).any (·.block ≤ block) = true → (rids[i]?).any (·.block ≤ block) = true := by
    intro i j _ hij hj hholds
    have hle := block_mono hasc hij hj
    rw [Array.getElem?_eq_getElem hj] at hholds
    rw [Array.getElem?_eq_getElem (by omega)]
    simp only [Option.any_some, decide_eq_true_eq] at *
    omega
  have hholds := holds_iff_lt_partitionPoint hmono (Nat.zero_le p) hp
  rw [endOf, ← hholds, Array.getElem?_eq_getElem hp]
  simp

omit hasc in
theorem endOf_le (rids : Array RowId) (block : Nat) : endOf rids block ≤ rids.size :=
  partitionPoint_le (Nat.zero_le _)

/-- No row id lies in a block past those spanned. -/
theorem block_lt_spanned (hp : p < rids.size) : rids[p].block < blocksSpanned rids := by
  have hlast : rids.back? = some rids[rids.size - 1] := by
    rw [Array.back?_eq_getElem?, Array.getElem?_eq_getElem]
  have hmono := block_mono hasc (show p ≤ rids.size - 1 by omega) (by omega)
  simp only [blocksSpanned, hlast]
  omega

/-- All row ids lie in a block spanned last or before it. -/
theorem endOf_last (hlast : blocksSpanned rids ≤ block + 1) : endOf rids block = rids.size := by
  rcases Nat.lt_or_ge (endOf rids block) rids.size with hlt | hge
  · have hin := block_lt_spanned hasc hlt
    have hend := (lt_endOf_iff hasc block hlt).2 (by omega)
    omega
  · exact Nat.le_antisymm (endOf_le rids block) hge

/-- The row ids of a block stand between the end of the blocks before it and its
own. -/
theorem mem_stretch_iff (block p : Nat) :
    startOf rids block ≤ p ∧ p < endOf rids block ↔
      ∃ rid, rids[p]? = some rid ∧ rid.block = block := by
  have hstart : ∀ hp : p < rids.size, startOf rids block ≤ p ↔ block ≤ rids[p].block := by
    intro hp
    cases block with
    | zero => simp [startOf]
    | succ block =>
      have hend := lt_endOf_iff hasc block hp
      rw [startOf]
      omega
  constructor
  · intro hin
    obtain ⟨hlow, hhigh⟩ := hin
    have hp := Nat.lt_of_lt_of_le hhigh (endOf_le rids block)
    have hle := (hstart hp).1 hlow
    have hge := (lt_endOf_iff hasc block hp).1 hhigh
    exact ⟨rids[p], Array.getElem?_eq_getElem hp, by omega⟩
  · intro hex
    obtain ⟨rid, hrid, hblock⟩ := hex
    obtain ⟨hp, rfl⟩ := Array.getElem?_eq_some_iff.1 hrid
    exact ⟨(hstart hp).2 (by omega), (lt_endOf_iff hasc _ hp).2 (by omega)⟩

theorem startOf_le_endOf (block : Nat) : startOf rids block ≤ endOf rids block := by
  cases block with
  | zero => exact Nat.zero_le _
  | succ block =>
    rcases Nat.lt_or_ge (endOf rids (block + 1)) (endOf rids block) with hlt | hge
    · have hp := Nat.lt_of_lt_of_le hlt (endOf_le rids block)
      have h1 := (lt_endOf_iff hasc block hp).1 hlt
      have h2 := mt (lt_endOf_iff hasc (block + 1) hp).2 (Nat.lt_irrefl _)
      omega
    · exact hge

/-- A block has at most as many row ids as it can have rows. -/
theorem stretch_length_le (block : Nat) :
    endOf rids block - startOf rids block ≤ RowId.blockCapacity := by
  by_contra hlong
  obtain ⟨first, hfirst, hblock⟩ :=
    (mem_stretch_iff hasc block (startOf rids block)).1 ⟨Nat.le_refl _, by omega⟩
  obtain ⟨last, hlast, hblock'⟩ :=
    (mem_stretch_iff hasc block (endOf rids block - 1)).1 ⟨by omega, by omega⟩
  obtain ⟨_, rfl⟩ := Array.getElem?_eq_some_iff.1 hfirst
  obtain ⟨hin, rfl⟩ := Array.getElem?_eq_some_iff.1 hlast
  have hspread := toNat_add_le hasc (show startOf rids block ≤ endOf rids block - 1 by omega) hin
  have hoffset := rids[endOf rids block - 1].offset_lt
  rw [RowId.toNat_eq rids[startOf rids block], RowId.toNat_eq rids[endOf rids block - 1], hblock,
    hblock'] at hspread
  omega

end Ascending

/-- The last entry of a block is looked up only if its run is a stretch of
positions. -/
theorem requireSpan_of_lastOffset? {last : Option Nat} (h : index.lastOffset? block = .ok last) :
    index.requireSpan (index.run block) = .ok () := by
  simp only [lastOffset?, bind_eq_ok] at h
  obtain ⟨_, hspan, _⟩ := h
  exact hspan

section Built

variable (h : ofRowIds rids = .ok index)

include h

theorem size_eq : index.size = rids.size := by
  obtain ⟨_, rfl⟩ := ofRowIds_eq_ok h
  simp [size]

theorem blockBound_eq : index.blockBound = blocksSpanned rids := by
  obtain ⟨_, rfl⟩ := ofRowIds_eq_ok h
  simp [blockBound]

theorem getElem?_offsets : index.offsets[p]? = (rids[p]?).map (·.offset.toUInt16) := by
  obtain ⟨_, rfl⟩ := ofRowIds_eq_ok h
  exact Array.getElem?_map

theorem getElem?_ends (hblock : block < blocksSpanned rids) :
    index.ends[block]? = some (UInt32.ofNat (endOf rids block)) := by
  obtain ⟨_, rfl⟩ := ofRowIds_eq_ok h
  simp [hblock]

/-- A block past those spanned has an empty run. -/
theorem run_of_le (hblock : blocksSpanned rids ≤ block) : index.run block = ⟨0, 0⟩ := by
  have hends : index.ends[block]? = none := by
    rw [Array.getElem?_eq_none]
    rw [← blockBound, blockBound_eq h]
    exact hblock
  rw [run, hends]

/-- The ends of a run, as they are kept. -/
theorem run_of_lt (hblock : block < blocksSpanned rids) :
    index.run block = ⟨startOf rids block % 2 ^ 32, endOf rids block % 2 ^ 32⟩ := by
  rw [run, getElem?_ends h hblock]
  cases block with
  | zero => simp [startOf]
  | succ block =>
    simp only [Nat.succ_ne_zero, if_false, Nat.add_sub_cancel]
    rw [getElem?_ends h (by omega)]
    simp [startOf]

/-- Only the list of all row ids is too long for its index, and there the last
run is no stretch of positions. -/
theorem lt_of_requireSpan
    (hspans : ∀ block < index.blockBound, index.requireSpan (index.run block) = .ok ()) :
    rids.size < 2 ^ 32 := by
  have hasc := (ofRowIds_eq_ok h).1
  by_contra hlarge
  have hsize : rids.size = 2 ^ 32 := by
    have hlast := toNat_add_le hasc (Nat.zero_le (rids.size - 1)) (by omega)
    have := rids[rids.size - 1].toNat_lt
    omega
  obtain ⟨last, hspanned⟩ : ∃ last, blocksSpanned rids = last + 1 := by
    have hpos := block_lt_spanned hasc (show 0 < rids.size by omega)
    exact ⟨blocksSpanned rids - 1, by omega⟩
  have hend := endOf_last hasc (show blocksSpanned rids ≤ last + 1 by omega)
  have hspan := hspans last (by rw [blockBound_eq h]; omega)
  rw [run_of_lt h (by omega), hend, hsize, requireSpan] at hspan
  have hstart : startOf rids last % 2 ^ 32 = 0 := by
    split at hspan
    · rename_i hle
      simpa using hle.1
    · simp at hspan
  -- The last run ends at 2^32 and starts at 0 or at 2^32: it is empty or holds all row ids.
  have hle := startOf_le_endOf hasc last
  have hshort := stretch_length_le hasc last
  have hempty : startOf rids last = rids.size := by
    simp only [RowId.blockCapacity] at hshort
    omega
  cases last with
  | zero =>
    rw [startOf] at hempty
    omega
  | succ last =>
    have hback : rids.back? = some rids[rids.size - 1] := by
      rw [Array.back?_eq_getElem?, Array.getElem?_eq_getElem]
    have hin := (lt_endOf_iff hasc last (show rids.size - 1 < rids.size by omega)).1
      (by rw [startOf] at hempty; omega)
    simp only [blocksSpanned, hback] at hspanned
    omega

/-! ## The run of a block -/

section Run

variable (hsmall : rids.size < 2 ^ 32)

include hsmall

theorem run_eq (hblock : block < blocksSpanned rids) :
    index.run block = ⟨startOf rids block, endOf rids block⟩ := by
  have hend := endOf_le rids block
  have hstart := startOf_le_endOf (ofRowIds_eq_ok h).1 block
  rw [run_of_lt h hblock, Nat.mod_eq_of_lt (by omega), Nat.mod_eq_of_lt (by omega)]

/-- The run of a block is the stretch of its row ids. -/
theorem mem_run_iff (block p : Nat) :
    (index.run block).start ≤ p ∧ p < (index.run block).stop ↔
      ∃ rid, rids[p]? = some rid ∧ rid.block = block := by
  have hasc := (ofRowIds_eq_ok h).1
  rcases Nat.lt_or_ge block (blocksSpanned rids) with hlt | hge
  · rw [run_eq h hsmall hlt]
    exact mem_stretch_iff hasc _ _
  · rw [run_of_le h hge]
    constructor
    · intro hin
      exact absurd hin.2 (Nat.not_lt_zero _)
    · intro hex
      obtain ⟨rid, hrid, hblock⟩ := hex
      obtain ⟨hp, rfl⟩ := Array.getElem?_eq_some_iff.1 hrid
      have := block_lt_spanned hasc hp
      omega

theorem run_bounds (block : Nat) :
    (index.run block).start ≤ (index.run block).stop ∧ (index.run block).stop ≤ index.size := by
  rw [size_eq h]
  rcases Nat.lt_or_ge block (blocksSpanned rids) with hlt | hge
  · rw [run_eq h hsmall hlt]
    exact ⟨startOf_le_endOf (ofRowIds_eq_ok h).1 block, endOf_le rids block⟩
  · rw [run_of_le h hge]
    exact ⟨Nat.le_refl _, Nat.zero_le _⟩

theorem requireSpan_run (block : Nat) : index.requireSpan (index.run block) = .ok () :=
  if_pos (run_bounds h hsmall block)

/-- A block is touched if one of the row ids lies in it. -/
theorem touches_iff : index.touches block = true ↔ ∃ rid ∈ rids, rid.block = block := by
  have hempty : index.touches block = true ↔ (index.run block).start < (index.run block).stop := by
    simp [touches, Span.isEmpty]
  rw [hempty]
  constructor
  · intro hlt
    obtain ⟨rid, hrid, hblock⟩ := (mem_run_iff h hsmall _ _).1 ⟨Nat.le_refl _, hlt⟩
    exact ⟨rid, Array.mem_of_getElem? hrid, hblock⟩
  · intro hex
    obtain ⟨rid, hmem, hblock⟩ := hex
    obtain ⟨p, hp⟩ := Array.getElem?_of_mem hmem
    have := (mem_run_iff h hsmall _ _).2 ⟨rid, hp, hblock⟩
    omega

/-! ## Positions -/

/-- Within a run the offsets ascend, so they are searched exactly. -/
theorem lt_firstNotBelow_iff (limit : Nat) (hp : rids[p]? = some rid) (hblock : rid.block = block) :
    p < index.firstNotBelow (index.run block) limit ↔ rid.offset < limit := by
  have hasc := (ofRowIds_eq_ok h).1
  obtain ⟨hlow, hhigh⟩ := (mem_run_iff h hsmall _ _).2 ⟨rid, hp, hblock⟩
  have hmono : ∀ i j, (index.run block).start ≤ i → i ≤ j → j < (index.run block).stop →
      (index.offsets[j]?).any (·.toNat < limit) = true →
      (index.offsets[i]?).any (·.toNat < limit) = true := by
    intro i j hi hij hj hholds
    obtain ⟨a, ha, hab⟩ := (mem_run_iff h hsmall block i).1 ⟨hi, by omega⟩
    obtain ⟨b, hb, hbb⟩ := (mem_run_iff h hsmall block j).1 ⟨by omega, hj⟩
    have hle : a.offset ≤ b.offset := by
      obtain ⟨_, rfl⟩ := Array.getElem?_eq_some_iff.1 ha
      obtain ⟨hjs, rfl⟩ := Array.getElem?_eq_some_iff.1 hb
      have := toNat_add_le hasc hij hjs
      rw [RowId.toNat_eq, RowId.toNat_eq rids[j], hab, hbb] at this
      omega
    rw [getElem?_offsets h, hb] at hholds
    rw [getElem?_offsets h, ha]
    simp only [Option.map_some, Option.any_some, decide_eq_true_eq,
      RowId.toNat_offset_toUInt16] at *
    omega
  have hholds := holds_iff_lt_partitionPoint hmono hlow hhigh
  rw [firstNotBelow, ← hholds, getElem?_offsets h, hp]
  simp only [Option.map_some, Option.any_some, decide_eq_true_eq, RowId.toNat_offset_toUInt16]

/-- A row id is found where it stands in the list. -/
theorem find?_of_getElem? (hp : rids[p]? = some rid) : index.find? rid = .ok (some p) := by
  have hasc := (ofRowIds_eq_ok h).1
  obtain ⟨hlow, hhigh⟩ := (mem_run_iff h hsmall _ _).2 ⟨rid, hp, rfl⟩
  have hself := mt (lt_firstNotBelow_iff h hsmall rid.offset hp rfl).1 (Nat.lt_irrefl _)
  have hle : (index.run rid.block).start ≤ index.firstNotBelow (index.run rid.block) rid.offset :=
    le_partitionPoint _ _ _
  -- The position found is one whose offset is not below, and none before `p` is such.
  have hfound : index.firstNotBelow (index.run rid.block) rid.offset = p := by
    rcases Nat.lt_or_eq_of_le (Nat.le_of_not_lt hself) with hlt | heq
    · obtain ⟨other, hother, hblock⟩ := (mem_run_iff h hsmall rid.block
        (index.firstNotBelow (index.run rid.block) rid.offset)).1 ⟨hle, by omega⟩
      have hnot := mt (lt_firstNotBelow_iff h hsmall rid.offset hother hblock).2
        (Nat.lt_irrefl _)
      obtain ⟨_, rfl⟩ := Array.getElem?_eq_some_iff.1 hother
      obtain ⟨hps, rfl⟩ := Array.getElem?_eq_some_iff.1 hp
      have hroom := toNat_add_le hasc (Nat.le_of_lt hlt) hps
      rw [RowId.toNat_eq, RowId.toNat_eq rids[p], hblock] at hroom
      omega
    · exact heq
  simp [find?, requireSpan_run h hsmall _, hfound, hhigh, getElem?_offsets h, hp]

/-- A row id that is not in the list is not found. -/
theorem find?_of_not_mem (hrid : rid ∉ rids) : index.find? rid = .ok none := by
  simp only [find?, requireSpan_run h hsmall _, ok_bind]
  rw [if_neg]
  · rfl
  · intro hfound
    obtain ⟨hstop, hoffset⟩ := hfound
    have hle : (index.run rid.block).start ≤ index.firstNotBelow (index.run rid.block) rid.offset :=
      le_partitionPoint _ _ _
    obtain ⟨other, hother, hblock⟩ := (mem_run_iff h hsmall _ _).1 ⟨hle, hstop⟩
    rw [getElem?_offsets h, hother] at hoffset
    have heq := congrArg UInt16.toNat (Option.some.inj hoffset)
    rw [RowId.toNat_offset_toUInt16, RowId.toNat_offset_toUInt16] at heq
    rw [RowId.eq_of_block_offset hblock heq] at hother
    exact hrid (Array.mem_of_getElem? hother)

/-- A block has no entries, or its last entry is the row id with the greatest offset. -/
theorem lastOffset?_cases (block : Nat) :
    (index.lastOffset? block = .ok none ∧ ∀ rid ∈ rids, rid.block ≠ block) ∨
      ∃ last ∈ rids, last.block = block ∧ index.lastOffset? block = .ok (some last.offset) ∧
        ∀ rid ∈ rids, rid.block = block → rid.offset ≤ last.offset := by
  by_cases hempty : (index.run block).stop ≤ (index.run block).start
  · refine .inl ⟨?_, ?_⟩
    · simp only [lastOffset?, requireSpan_run h hsmall _, ok_bind, Span.isEmpty, hempty,
        decide_true, if_true, pure_eq_ok]
    · intro rid hrid hblock
      obtain ⟨p, hp⟩ := Array.getElem?_of_mem hrid
      have hin := (mem_run_iff h hsmall block p).2 ⟨rid, hp, hblock⟩
      omega
  · obtain ⟨last, hlast, hblock⟩ := (mem_run_iff h hsmall block
      ((index.run block).stop - 1)).1 ⟨by omega, by omega⟩
    refine .inr ⟨last, Array.mem_of_getElem? hlast, hblock, ?_, ?_⟩
    · simp only [lastOffset?, requireSpan_run h hsmall _, ok_bind, Span.isEmpty, hempty,
        decide_false, Bool.false_eq_true, if_false, getElem?_offsets h, hlast, Option.map_some,
        RowId.toNat_offset_toUInt16, pure_eq_ok]
    · intro rid hrid hin
      obtain ⟨p, hp⟩ := Array.getElem?_of_mem hrid
      have hrun := (mem_run_iff h hsmall block p).2 ⟨rid, hp, hin⟩
      obtain ⟨_, rfl⟩ := Array.getElem?_eq_some_iff.1 hp
      obtain ⟨hpos, rfl⟩ := Array.getElem?_eq_some_iff.1 hlast
      have hroom := toNat_add_le (ofRowIds_eq_ok h).1
        (show p ≤ (index.run block).stop - 1 by omega) hpos
      rw [RowId.toNat_eq, RowId.toNat_eq rids[(index.run block).stop - 1], hin, hblock] at hroom
      omega

/-! ## The list back -/

/-- The entries of a block's run are the row ids of its stretch. -/
theorem rowIdsOf_eq (hblock : block < blocksSpanned rids) :
    index.rowIdsOf block = (rids.extract (startOf rids block) (endOf rids block)).toList := by
  have hasc := (ofRowIds_eq_ok h).1
  have hoffsets : index.offsets = rids.map fun rid => rid.offset.toUInt16 := by
    obtain ⟨_, rfl⟩ := ofRowIds_eq_ok h
    rfl
  rw [rowIdsOf, run_eq h hsmall hblock, hoffsets]
  dsimp only
  rw [← Array.map_extract, Array.toList_map, List.map_map]
  refine (List.map_congr_left ?_).trans (List.map_id _)
  intro rid hrid
  obtain ⟨k, hk⟩ := Array.getElem?_of_mem (Array.mem_toList_iff.1 hrid)
  rw [Array.getElem?_extract] at hk
  split at hk
  · obtain ⟨other, hother, hin⟩ :=
      (mem_stretch_iff hasc block (startOf rids block + k)).1 ⟨by omega, by omega⟩
    obtain rfl : other = rid := Option.some.inj (hother.symm.trans hk)
    rw [Function.comp_apply, ← hin, RowId.shiftLeft_or_offset]
    rfl
  · simp at hk

/-- The stretches of blocks that follow each other are one stretch. -/
theorem flatMap_rowIdsOf {n : Nat} (hn : n ≤ blocksSpanned rids) :
    (List.range n).flatMap index.rowIdsOf = (rids.extract 0 (startOf rids n)).toList := by
  have hasc := (ofRowIds_eq_ok h).1
  induction n with
  | zero => simp [startOf]
  | succ n ih =>
    have hle := startOf_le_endOf hasc n
    rw [List.range_succ, List.flatMap_append, List.flatMap_singleton, ih (by omega),
      rowIdsOf_eq h hsmall hn, ← Array.toList_append, Array.extract_append_extract,
      Nat.zero_min, Nat.max_eq_right hle]
    rfl

/-- The index gives back its list. -/
theorem rowIds_eq : index.rowIds = rids.toList := by
  have hasc := (ofRowIds_eq_ok h).1
  have hall : startOf rids (blocksSpanned rids) = rids.size := by
    cases hspanned : blocksSpanned rids with
    | zero =>
      by_contra hsome
      have hpos : 0 < rids.size := Nat.pos_of_ne_zero fun hzero => hsome hzero.symm
      have := block_lt_spanned hasc hpos
      omega
    | succ last => exact endOf_last hasc (Nat.le_of_eq hspanned)
  rw [rowIds, blockBound_eq h, flatMap_rowIdsOf h hsmall (Nat.le_refl _), hall,
    Array.extract_size]

theorem mem_rowIds_iff : rid ∈ index.rowIds ↔ rid ∈ rids := by
  rw [rowIds_eq h hsmall, Array.mem_toList_iff]

end Run

end Built

end ColumnStore.RowIndex
