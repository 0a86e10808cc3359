import ColumnStore.Proofs.Block

/-!
# What a copy leaves in its target

A copy is taken exactly if both blocks have the rows, both have elements of the width
named, and the target has flags if the source does.  A copy that is taken changes the
first rows and nothing else.  One that is refused for the rows or for a width leaves the
target as it was.  One that is refused for the flags has the values of the first rows
written by then (`copyRows_outcome`).
-/

namespace ColumnStore

namespace Block

variable {source target : Block} {rows width : Nat}

/-- The target after its first rows were taken from the source: the same bytes and the
same nulls in these rows, the bytes and flags of the target past them. -/
structure CopiedFrom (copy source target : Block) (rows width : Nat) : Prop where
  sameShape : copy.SameShape target
  values : copy.data.bytes.take (rows * width) = source.data.bytes.take (rows * width)
  nulls : ∀ i < rows, ∃ null, copy.isNull i = .ok null ∧ source.isNull i = .ok null
  values_past : copy.data.bytes.drop (rows * width) = target.data.bytes.drop (rows * width)
  flags_past : copy.nulls.map (·.bytes.drop rows) = target.nulls.map (·.bytes.drop rows)

/-! ## Ways for a copy to end -/

/-- A copy that is taken. -/
theorem copiedFrom_of_copyable (hs : source.WellFormed) (ht : target.WellFormed)
    (h : Copyable source target rows width)
    (hflags : source.tracksNulls = true → target.tracksNulls = true) :
    ∃ copy, source.copyRows target rows width = (.ok (), copy) ∧
      copy.CopiedFrom source target rows width := by
  obtain ⟨copy, hcopy, hwell, hshape, hstored⟩ := copyRows_of_copyable hs ht h hflags
  have hrows : rows ≤ copy.size := by
    rw [hshape.size_eq]
    exact h.target_rows
  have hfirst : ∀ i < rows, copy.stored width i = source.stored width i := by
    intro i hi
    rw [hstored i, if_pos hi]
  have hpast : ∀ i, rows ≤ i → copy.stored width i = target.stored width i := by
    intro i hi
    rw [hstored i, if_neg (Nat.not_lt.2 hi)]
  have hdrop := drop_eq hwell ht hshape h.target_width hpast
  refine ⟨copy, hcopy, hshape, ?_, ?_, hdrop.1, hdrop.2⟩
  · exact take_data_eq hwell hs (hshape.width_eq.trans h.target_width) h.source_width hrows
      h.source_rows hfirst
  · intro i hi
    have hflag : copy.flag i = source.flag i := congrArg StoredRow.flag (hfirst i hi)
    refine ⟨_, isNull_of_lt hwell (Nat.lt_of_lt_of_le hi hrows), ?_⟩
    rw [hflag]
    exact isNull_of_lt hs (Nat.lt_of_lt_of_le hi h.source_rows)

/-- Where the flags have nowhere to go, the values are copied and the copy is refused. -/
theorem overwritten_of_lost_flags (hs : source.WellFormed) (ht : target.WellFormed)
    (h : Copyable source target rows width)
    (hflags : ¬ (source.tracksNulls = true → target.tracksNulls = true)) :
    ∃ data : Buffer, source.copyRows target rows width =
        (.error (.error (.argument .targetWithoutFlags)), { target with data }) ∧
      data.bytes.take (rows * width) = source.data.bytes.take (rows * width) ∧
      data.bytes.drop (rows * width) = target.data.bytes.drop (rows * width) := by
  obtain ⟨hsflags, htflags⟩ : source.tracksNulls = true ∧ target.tracksNulls = false := by
    simpa using hflags
  have hsource : source.data.Holds source.size width := h.source_width ▸ hs.data
  have htarget : target.data.Holds target.size width := h.target_width ▸ ht.data
  obtain ⟨data, hcopy, hholds, helement⟩ := copyRows_of_lost_flags hs ht h hsflags htflags
  refine ⟨data, hcopy, ?_, ?_⟩
  · apply Buffer.take_bytes_eq hholds hsource h.target_rows h.source_rows
    intro i hi
    rw [helement i, if_pos hi]
  · apply Buffer.drop_bytes_eq hholds htarget
    intro i hi
    rw [helement i, if_neg (Nat.not_lt.2 hi)]

/-! ## The outcome -/

/-- A copy is taken exactly if the blocks fit each other and no flags are lost, and it
copies the first rows then.  Any other is refused with an error.  It leaves the target
as it was, except where only the flags speak against it: there the values of the first
rows are those of the source, and nothing else of the target has changed. -/
theorem copyRows_outcome (hs : source.Made) (ht : target.Made) (rows width : Nat) :
    ((source.copyRows target rows width).1 = .ok () ↔
      Copyable source target rows width ∧
        (source.tracksNulls = true → target.tracksNulls = true)) ∧
    ((source.copyRows target rows width).1 = .ok () →
      (source.copyRows target rows width).2.CopiedFrom source target rows width) ∧
    ((source.copyRows target rows width).1 ≠ .ok () →
      (∃ e, (source.copyRows target rows width).1 = .error (.error e)) ∧
      (¬ Copyable source target rows width →
        (source.copyRows target rows width).2 = target) ∧
      (Copyable source target rows width →
        ∃ data : Buffer, (source.copyRows target rows width).2 = { target with data } ∧
          data.bytes.take (rows * width) = source.data.bytes.take (rows * width) ∧
          data.bytes.drop (rows * width) = target.data.bytes.drop (rows * width))) := by
  have hswell := hs.wellFormed.1
  have htwell := ht.wellFormed.1
  by_cases h : Copyable source target rows width
  · by_cases hflags : source.tracksNulls = true → target.tracksNulls = true
    · obtain ⟨copy, hcopy, hcopied⟩ := copiedFrom_of_copyable hswell htwell h hflags
      rw [hcopy]
      exact ⟨iff_of_true rfl ⟨h, hflags⟩, fun _ => hcopied, fun hne => absurd rfl hne⟩
    · obtain ⟨data, hcopy, hfirst, hpast⟩ :=
        overwritten_of_lost_flags hswell htwell h hflags
      rw [hcopy]
      refine ⟨iff_of_false nofun fun hok => hflags hok.2, nofun, fun _ => ⟨⟨_, rfl⟩, ?_, ?_⟩⟩
      · exact fun hnot => absurd h hnot
      · exact fun _ => ⟨data, rfl, hfirst, hpast⟩
  · obtain ⟨e, hcopy⟩ := copyRows_of_not_copyable h
    rw [hcopy]
    refine ⟨iff_of_false nofun fun hok => h hok.1, nofun, fun _ => ⟨⟨e, rfl⟩, fun _ => rfl, ?_⟩⟩
    exact fun hcopyable => absurd hcopyable h

/-- The values 10 and 20, the second marked null. -/
def pairBlock : Block where
  size := 2
  data := ⟨#[10, 0, 0, 0, 20, 0, 0, 0, 0, 0, 0, 0, 0, 0, 0, 0], 8, 4⟩
  nulls := some ⟨#[0, 1, 0, 0, 0, 0, 0, 0, 0, 0, 0, 0, 0, 0, 0, 0], 2, 1⟩

theorem made_pairBlock : pairBlock.Made := by
  have hvalues : Block.ofValues (#[10, 20] : Array (BitVec (8 * 4))) =
      .ok { pairBlock with nulls := some ⟨Array.replicate 16 0, 2, 1⟩ } := rfl
  have hmarked : Block.markNull { pairBlock with nulls := some ⟨Array.replicate 16 0, 2, 1⟩ }
      1 true = .ok pairBlock := rfl
  exact .markNull (.ofValues hvalues) hmarked

/-- A block of three zeros with flags, and one of two zeros without. -/
def zerosBlock : Block where
  size := 3
  data := ⟨Array.replicate 16 0, 12, 4⟩
  nulls := some ⟨Array.replicate 16 0, 3, 1⟩

def plainBlock : Block where
  size := 2
  data := ⟨Array.replicate 16 0, 8, 4⟩
  nulls := none

theorem made_zerosBlock : zerosBlock.Made := by
  have hzeroed : Block.zeroed 3 4 true = .ok zerosBlock := rfl
  exact .zeroed hzeroed

theorem made_plainBlock : plainBlock.Made := by
  have hzeroed : Block.zeroed 2 4 false = .ok plainBlock := rfl
  exact .zeroed hzeroed

/-- A copy that is taken, one of too many rows, and one whose flags are lost. -/
theorem copyRows_outcome_pair :
    pairBlock.Made ∧ zerosBlock.Made ∧ plainBlock.Made ∧
      (pairBlock.copyRows zerosBlock 2 4).1 = .ok () ∧
      (pairBlock.copyRows zerosBlock 2 4).2.CopiedFrom pairBlock zerosBlock 2 4 ∧
      (pairBlock.copyRows zerosBlock 3 4).1 ≠ .ok () ∧
      (pairBlock.copyRows zerosBlock 3 4).2 = zerosBlock ∧
      (pairBlock.copyRows plainBlock 2 4).1 ≠ .ok () ∧
      ∃ data : Buffer, (pairBlock.copyRows plainBlock 2 4).2 = { plainBlock with data } ∧
        data.bytes.take 8 = #[10, 0, 0, 0, 20, 0, 0, 0] := by
  have htaken := copyRows_outcome made_pairBlock made_zerosBlock 2 4
  have hlong := copyRows_outcome made_pairBlock made_zerosBlock 3 4
  have hlost := copyRows_outcome made_pairBlock made_plainBlock 2 4
  have hfits : Copyable pairBlock zerosBlock 2 4 := ⟨by decide, by decide, rfl, rfl⟩
  have hfitsPlain : Copyable pairBlock plainBlock 2 4 := ⟨by decide, by decide, rfl, rfl⟩
  have hnot : ¬ Copyable pairBlock zerosBlock 3 4 := fun h => absurd h.source_rows (by decide)
  have hok := htaken.1.2 ⟨hfits, fun _ => rfl⟩
  have hrefused : (pairBlock.copyRows zerosBlock 3 4).1 ≠ .ok () := fun h => hnot (hlong.1.1 h).1
  have hrefusedPlain : (pairBlock.copyRows plainBlock 2 4).1 ≠ .ok () :=
    fun h => absurd ((hlost.1.1 h).2 rfl) (by decide)
  obtain ⟨data, hdata, hfirst, _⟩ := (hlost.2.2 hrefusedPlain).2.2 hfitsPlain
  exact ⟨made_pairBlock, made_zerosBlock, made_plainBlock, hok, htaken.2.1 hok, hrefused,
    (hlong.2.2 hrefused).2.1 hnot, hrefusedPlain, data, hdata, hfirst.trans (by decide)⟩

/-- The copy of two rows to a block without flags is refused for the flags, but the
target has 10 and 20 in place of its two zeros. -/
theorem refused_copy_overwrites :
    pairBlock.Made ∧ plainBlock.Made ∧
      (pairBlock.copyRows plainBlock 2 4).1 = .error (.error (.argument .targetWithoutFlags)) ∧
      plainBlock.value? 4 0 = .ok (some 0) ∧ plainBlock.value? 4 1 = .ok (some 0) ∧
      (pairBlock.copyRows plainBlock 2 4).2.value? 4 0 = .ok (some 10) ∧
      (pairBlock.copyRows plainBlock 2 4).2.value? 4 1 = .ok (some 20) ∧
      (pairBlock.copyRows plainBlock 2 4).2.data.bytes ≠ plainBlock.data.bytes := by
  refine ⟨made_pairBlock, made_plainBlock, rfl, rfl, rfl, rfl, rfl, ?_⟩
  decide

end Block

end ColumnStore
