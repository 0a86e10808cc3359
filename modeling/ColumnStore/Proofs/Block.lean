import ColumnStore.Block
import ColumnStore.Proofs.Buffer

/-!
# Blocks as arrays of stored rows

What a block stores for a row is a flag byte and a value; a row shows its value
if its flag is zero.  A block is well formed if its two buffers hold exactly its
rows.  Every block a caller can make is (`Made.wellFormed`), and copying rows
between well-formed blocks is copying stored rows (`copyRows_of_copyable`).
-/

namespace ColumnStore

/-- What a block stores for a row. -/
structure StoredRow (width : Nat) where
  flag : BitVec (8 * 1)
  value : BitVec (8 * width)

/-- What is seen of a stored row: its value, unless its flag is set. -/
def StoredRow.seen {width : Nat} (row : StoredRow width) : Option (BitVec (8 * width)) :=
  if row.flag = 0 then some row.value else none

namespace Block

variable {b source target : Block} {rows width size i : Nat}

/-- The flag byte of a row, zero in a block without flags. -/
def flag (b : Block) (i : Nat) : BitVec (8 * 1) :=
  match b.nulls with
  | none => 0
  | some flags => flags.element 1 i

def stored (b : Block) (width i : Nat) : StoredRow width :=
  ⟨b.flag i, b.data.element width i⟩

/-- Both buffers hold exactly the rows of the block. -/
structure WellFormed (b : Block) : Prop where
  data : b.data.Holds b.size b.data.width
  nulls : ∀ flags, b.nulls = some flags → flags.Holds b.size 1

/-- Two blocks of the same number of rows and element width, with flags both or
neither. -/
structure SameShape (a b : Block) : Prop where
  size_eq : a.size = b.size
  width_eq : a.data.width = b.data.width
  tracksNulls_eq : a.tracksNulls = b.tracksNulls

theorem SameShape.refl (b : Block) : b.SameShape b := ⟨rfl, rfl, rfl⟩

theorem SameShape.trans {a b c : Block} (h : a.SameShape b) (h' : b.SameShape c) :
    a.SameShape c :=
  ⟨h.size_eq.trans h'.size_eq, h.width_eq.trans h'.width_eq,
    h.tracksNulls_eq.trans h'.tracksNulls_eq⟩

/-! ## Reading a row -/

theorem isNull_of_lt (h : b.WellFormed) (hi : i < b.size) :
    b.isNull i = .ok (b.flag i != 0) := by
  cases hnulls : b.nulls with
  | none => simp [isNull, flag, hi, hnulls]
  | some flags => simp [isNull, flag, hi, hnulls, Buffer.read_of_lt (h.nulls flags hnulls) hi]

theorem value?_of_lt (h : b.WellFormed) (hwidth : b.data.width = width) (hi : i < b.size) :
    b.value? width i = .ok (b.stored width i).seen := by
  have hread := Buffer.read_of_lt (hwidth ▸ h.data) hi
  rw [value?, isNull_of_lt h hi, ok_bind, StoredRow.seen, stored]
  by_cases hflag : b.flag i = 0
  · have hset : (b.flag i != 0) = false := by rw [hflag]; rfl
    rw [hset, if_pos hflag, hread]
    rfl
  · have hset : (b.flag i != 0) = true := bne_iff_ne.2 hflag
    rw [hset, if_neg hflag]
    rfl

/-! ## Allocation -/

/-- What a new block is made of. -/
theorem zeroed_eq_ok {tracks : Bool} (h : zeroed size width tracks = .ok b) :
    size ≤ RowId.blockCapacity ∧ b.size = size ∧ Buffer.zeroed size width = .ok b.data ∧
      (tracks = false ∧ b.nulls = none ∨
        tracks = true ∧ ∃ flags, b.nulls = some flags ∧ Buffer.zeroed size 1 = .ok flags) := by
  by_cases hsize : RowId.blockCapacity < size
  · simp [zeroed, hsize] at h
  · refine ⟨Nat.le_of_not_lt hsize, ?_⟩
    simp only [zeroed, hsize, if_false, bind_eq_ok] at h
    obtain ⟨data, hdata, h⟩ := h
    cases tracks with
    | false =>
      obtain rfl : ({ size, data, nulls := none } : Block) = b := by simpa using h
      exact ⟨rfl, hdata, .inl ⟨rfl, rfl⟩⟩
    | true =>
      simp only [if_true, bind_eq_ok, map_eq_ok] at h
      obtain ⟨_, ⟨flags, hflags, rfl⟩, h⟩ := h
      obtain rfl := Except.ok.inj h
      exact ⟨rfl, hdata, .inr ⟨rfl, flags, rfl, hflags⟩⟩

/-- A new block is exactly as asked for. -/
theorem shape_of_zeroed {tracks : Bool} (h : zeroed size width tracks = .ok b) :
    b.size = size ∧ b.data.width = width ∧ b.tracksNulls = tracks := by
  obtain ⟨_, hsize, hdata, hnulls⟩ := zeroed_eq_ok h
  refine ⟨hsize, (Buffer.holds_of_zeroed hdata).width_eq, ?_⟩
  rcases hnulls with ⟨rfl, hnone⟩ | ⟨rfl, flags, hsome, _⟩
  · rw [tracksNulls, hnone, Option.isSome_none]
  · rw [tracksNulls, hsome, Option.isSome_some]

/-- A new block of at most a block's capacity of rows, each of at most a word,
is always served. -/
theorem exists_zeroed (hsize : size ≤ RowId.blockCapacity) (hpos : 0 < width)
    (hword : width ≤ Buffer.wordBytes) (tracks : Bool) :
    ∃ b, zeroed size width tracks = .ok b := by
  have hserved : ∀ w, 0 < w → w ≤ Buffer.wordBytes → ∃ data, Buffer.zeroed size w = .ok data := by
    intro w hw hle
    have hmul := Nat.mul_le_mul hsize hle
    refine ⟨_, Buffer.zeroed_eq_ok.2 ⟨hw, ?_, rfl⟩⟩
    simp only [RowId.blockCapacity, Buffer.wordBytes, allocationLimit] at *
    omega
  obtain ⟨data, hdata⟩ := hserved width hpos hword
  obtain ⟨flags, hflags⟩ := hserved 1 (by decide) (by decide)
  cases tracks with
  | false => exact ⟨_, by simp [zeroed, Nat.not_lt.2 hsize, hdata]; rfl⟩
  | true => exact ⟨_, by simp [zeroed, Nat.not_lt.2 hsize, hdata, hflags]; rfl⟩

theorem wellFormed_of_zeroed {tracks : Bool} (h : zeroed size width tracks = .ok b) :
    b.WellFormed := by
  obtain ⟨_, hsize, hdata, hnulls⟩ := zeroed_eq_ok h
  have hholds := Buffer.holds_of_zeroed hdata
  refine ⟨?_, ?_⟩
  · rw [hsize, hholds.width_eq]
    exact hholds
  · intro flags hflags
    rcases hnulls with ⟨_, hnone⟩ | ⟨_, fresh, hsome, hfresh⟩
    · simp [hnone] at hflags
    · obtain rfl : fresh = flags := by simpa [hsome] using hflags
      rw [hsize]
      exact Buffer.holds_of_zeroed hfresh

theorem WellFormed.withData {data : Buffer} (h : b.WellFormed)
    (hdata : data.Holds b.size data.width) : WellFormed { b with data } :=
  ⟨hdata, h.nulls⟩

theorem WellFormed.withFlags {flags : Buffer} (h : b.WellFormed) (hflags : flags.Holds b.size 1) :
    WellFormed { b with nulls := some flags } := by
  refine ⟨h.data, ?_⟩
  intro _ hsome
  obtain rfl := Option.some.inj hsome
  exact hflags

theorem WellFormed.withoutFlags (h : b.WellFormed) : b.withoutFlags.WellFormed := by
  refine ⟨h.data, ?_⟩
  intro _ hsome
  simp [Block.withoutFlags] at hsome

/-! ## Bytes of stored rows -/

section StoredBytes

variable {b' : Block}

/-- Blocks that store the same first rows have the same first bytes of values. -/
theorem take_data_eq (hb : b.WellFormed) (hb' : b'.WellFormed) (hwidth : b.data.width = width)
    (hwidth' : b'.data.width = width) (hrows : rows ≤ b.size) (hrows' : rows ≤ b'.size)
    (h : ∀ i < rows, b.stored width i = b'.stored width i) :
    b.data.bytes.take (rows * width) = b'.data.bytes.take (rows * width) :=
  Buffer.take_bytes_eq (hwidth ▸ hb.data) (hwidth' ▸ hb'.data) hrows hrows'
    fun i hi => congrArg StoredRow.value (h i hi)

/-- Where both have flags, they have the same first flags. -/
theorem take_flags_eq (hb : b.WellFormed) (hb' : b'.WellFormed) (htracks : b.tracksNulls = true)
    (htracks' : b'.tracksNulls = true) (hrows : rows ≤ b.size) (hrows' : rows ≤ b'.size)
    (h : ∀ i < rows, b.stored width i = b'.stored width i) :
    b.nulls.map (·.bytes.take rows) = b'.nulls.map (·.bytes.take rows) := by
  obtain ⟨flags, hflags⟩ := Option.isSome_iff_exists.1 htracks
  obtain ⟨flags', hflags'⟩ := Option.isSome_iff_exists.1 htracks'
  have hsame : ∀ i < rows, flags.element 1 i = flags'.element 1 i := by
    intro i hi
    have hflag := congrArg StoredRow.flag (h i hi)
    simpa only [stored, flag, hflags, hflags'] using hflag
  have htake := Buffer.take_bytes_eq (hb.nulls flags hflags) (hb'.nulls flags' hflags') hrows hrows'
    hsame
  rw [Nat.mul_one] at htake
  rw [hflags, hflags', Option.map_some, Option.map_some, htake]

/-- A row whose flag is zero is not null. -/
theorem isNull_of_flag_eq_zero (hb : b.WellFormed) (hi : i < b.size)
    (h : b.flag i = 0) : b.isNull i = .ok false := by
  rw [isNull_of_lt hb hi, h]
  rfl

/-- Blocks of one shape that store the same rows from a row on have the same bytes from
there on. -/
theorem drop_eq (hb : b.WellFormed) (hb' : b'.WellFormed) (hshape : b.SameShape b')
    (hwidth : b'.data.width = width) (h : ∀ i, rows ≤ i → b.stored width i = b'.stored width i) :
    b.data.bytes.drop (rows * width) = b'.data.bytes.drop (rows * width) ∧
      b.nulls.map (·.bytes.drop rows) = b'.nulls.map (·.bytes.drop rows) := by
  have hdata : b.data.Holds b'.size width := by
    rw [← hshape.size_eq, ← hwidth, ← hshape.width_eq]
    exact hb.data
  refine ⟨Buffer.drop_bytes_eq hdata (hwidth ▸ hb'.data)
    fun i hi => congrArg StoredRow.value (h i hi), ?_⟩
  have htracks := hshape.tracksNulls_eq
  simp only [tracksNulls] at htracks
  cases hflags : b.nulls with
  | none =>
    rw [hflags, Option.isSome_none, eq_comm, Option.isSome_eq_false_iff, Option.isNone_iff_eq_none]
      at htracks
    rw [htracks]
  | some flags =>
    rw [hflags, Option.isSome_some, eq_comm] at htracks
    obtain ⟨flags', hflags'⟩ := Option.isSome_iff_exists.1 htracks
    have hsame : ∀ i, rows ≤ i → flags.element 1 i = flags'.element 1 i := by
      intro i hi
      have hflag := congrArg StoredRow.flag (h i hi)
      simpa only [stored, flag, hflags, hflags'] using hflag
    have hdrop := Buffer.drop_bytes_eq (hshape.size_eq ▸ hb.nulls flags hflags)
      (hb'.nulls flags' hflags') hsame
    rw [Nat.mul_one] at hdrop
    rw [hflags', Option.map_some, Option.map_some, hdrop]

end StoredBytes

/-! ## Copying rows -/

/-- What is asked of both blocks before anything is written. -/
structure Copyable (source target : Block) (rows width : Nat) : Prop where
  source_rows : rows ≤ source.size
  target_rows : rows ≤ target.size
  source_width : source.data.width = width
  target_width : target.data.width = width

/-- The two checks that a copy starts with. -/
theorem copyable_iff : Copyable source target rows width ↔
    ¬ (source.size < rows ∨ target.size < rows) ∧
      ¬ (source.data.width ≠ width ∨ target.data.width ≠ width) := by
  simp only [not_or, Nat.not_lt, ne_eq, Decidable.not_not]
  exact ⟨fun h => ⟨⟨h.source_rows, h.target_rows⟩, h.source_width, h.target_width⟩,
    fun h => ⟨h.1.1, h.1.2, h.2.1, h.2.2⟩⟩

/-- A copy of blocks that do not fit each other stops before it writes. -/
theorem copyRows_of_not_copyable (h : ¬ Copyable source target rows width) :
    ∃ e, source.copyRows target rows width = (.error (.error e), target) := by
  by_cases hlength : source.size < rows ∨ target.size < rows
  · exact ⟨_, by rw [copyRows, if_pos hlength]⟩
  · by_cases hwidths : source.data.width ≠ width ∨ target.data.width ≠ width
    · exact ⟨_, by rw [copyRows, if_neg hlength, if_pos hwidths]⟩
    · exact absurd (copyable_iff.2 ⟨hlength, hwidths⟩) h

/-- Where the blocks fit each other, the values are copied first. -/
theorem Copyable.copyFront (h : Copyable source target rows width) (hs : source.WellFormed)
    (ht : target.WellFormed) :
    ∃ data, source.data.copyFront target.data (rows * width) = .ok data ∧
      data.Holds target.size width ∧ ∀ i, data.element width i =
        if i < rows then source.data.element width i else target.data.element width i :=
  Buffer.copyFront_of_le (h.source_width ▸ hs.data) (h.target_width ▸ ht.data) h.source_rows
    h.target_rows

/-- Rows are copied between well-formed blocks that fit each other, if the target has
flags whenever the source does.  The target keeps its shape, takes the stored rows of the
source, and keeps its own past them. -/
theorem copyRows_of_copyable (hs : source.WellFormed) (ht : target.WellFormed)
    (h : Copyable source target rows width)
    (hflags : source.tracksNulls = true → target.tracksNulls = true) :
    ∃ b, source.copyRows target rows width = (.ok (), b) ∧ b.WellFormed ∧ b.SameShape target ∧
      ∀ i, b.stored width i =
        if i < rows then source.stored width i else target.stored width i := by
  obtain ⟨data, hcopy, hholds, helement⟩ := h.copyFront hs ht
  have hdata : data.Holds target.size data.width := hholds.width_eq.symm ▸ hholds
  have hwidth : data.width = target.data.width := hholds.width_eq.trans h.target_width.symm
  obtain ⟨hlength, hwidths⟩ := copyable_iff.1 h
  rw [copyRows, if_neg hlength, if_neg hwidths]
  simp only [hcopy]
  cases hsn : source.nulls with
  | none =>
    cases htn : target.nulls with
    | none =>
      have hcopied := ht.withData hdata
      rw [htn] at hcopied
      refine ⟨_, rfl, hcopied, ⟨rfl, hwidth, ?_⟩, ?_⟩
      · simp [tracksNulls, htn]
      · intro i
        simp only [stored, flag, hsn, htn, helement]
        split <;> rfl
    | some flags =>
      obtain ⟨cleared, hclear, hcleared, hzero⟩ :=
        Buffer.clearFront_of_le (ht.nulls flags htn) h.target_rows
      simp only [hclear, copyRows.finish]
      refine ⟨_, rfl, (ht.withData hdata).withFlags hcleared, ⟨rfl, hwidth, ?_⟩, ?_⟩
      · simp [tracksNulls, htn]
      · intro i
        simp only [stored, flag, hsn, htn, helement, hzero]
        split <;> rfl
  | some sourceFlags =>
    cases htn : target.nulls with
    | none =>
      have hnone := hflags (by simp [tracksNulls, hsn])
      simp [tracksNulls, htn] at hnone
    | some flags =>
      obtain ⟨copied, hcopied, hholdsF, helementF⟩ :=
        Buffer.copyFront_of_le (hs.nulls sourceFlags hsn) (ht.nulls flags htn) h.source_rows
          h.target_rows
      rw [Nat.mul_one] at hcopied
      simp only [hcopied, copyRows.finish]
      refine ⟨_, rfl, (ht.withData hdata).withFlags hholdsF, ⟨rfl, hwidth, ?_⟩, ?_⟩
      · simp [tracksNulls, htn]
      · intro i
        simp only [stored, flag, hsn, htn, helement, helementF]
        split <;> rfl

/-- A copy from a block with flags into one without is refused when the values are
copied already: the target has the values of the source then. -/
theorem copyRows_of_lost_flags (hs : source.WellFormed) (ht : target.WellFormed)
    (h : Copyable source target rows width)
    (hsflags : source.tracksNulls = true) (htflags : target.tracksNulls = false) :
    ∃ data : Buffer, source.copyRows target rows width =
        (.error (.error (.argument .targetWithoutFlags)), { target with data }) ∧
      data.Holds target.size width ∧
      ∀ i, data.element width i =
        if i < rows then source.data.element width i else target.data.element width i := by
  obtain ⟨data, hcopy, hholds, helement⟩ := h.copyFront hs ht
  obtain ⟨flags, hsn⟩ := Option.isSome_iff_exists.1 hsflags
  have htn : target.nulls = none := by simpa [tracksNulls] using htflags
  obtain ⟨hlength, hwidths⟩ := copyable_iff.1 h
  refine ⟨data, ?_, hholds, helement⟩
  rw [copyRows, if_neg hlength, if_neg hwidths]
  simp only [hcopy, hsn, htn]

/-- Whatever becomes of a copy, its target stays well formed and keeps its
number of rows. -/
theorem copyRows_wellFormed (hs : source.WellFormed) (ht : target.WellFormed) :
    (source.copyRows target rows width).2.WellFormed ∧
      (source.copyRows target rows width).2.size = target.size := by
  by_cases h : Copyable source target rows width
  · by_cases hflags : source.tracksNulls = true → target.tracksNulls = true
    · obtain ⟨b, hcopy, hwell, hshape, _⟩ := copyRows_of_copyable hs ht h hflags
      rw [hcopy]
      exact ⟨hwell, hshape.size_eq⟩
    · obtain ⟨hsflags, htflags⟩ : source.tracksNulls = true ∧ target.tracksNulls = false := by
        simpa using hflags
      obtain ⟨data, hcopy, hholds, _⟩ := copyRows_of_lost_flags hs ht h hsflags htflags
      rw [hcopy]
      exact ⟨ht.withData (hholds.width_eq.symm ▸ hholds), rfl⟩
  · obtain ⟨e, hcopy⟩ := copyRows_of_not_copyable h
    rw [hcopy]
    exact ⟨ht, rfl⟩

/-! ## Blocks of callers -/

/-- The blocks a caller can make: new ones, those changed by elements or by bytes,
and those that rows were copied to. -/
inductive Made : Block → Prop where
  | zeroed {size width : Nat} {tracks : Bool} {b : Block} :
      Block.zeroed size width tracks = .ok b → Made b
  | ofValues {width : Nat} {values : Array (BitVec (8 * width))} {b : Block} :
      Block.ofValues values = .ok b → Made b
  | writeData {b b' : Block} {width row : Nat} {v : BitVec (8 * width)} :
      Made b → b.writeData row v = .ok b' → Made b'
  | writeFlag {b : Block} {flags flags' : Buffer} {row : Nat} {v : BitVec (8 * 1)} :
      Made b → b.nulls = some flags → flags.write row v = .ok flags' →
        Made { b with nulls := some flags' }
  | markNull {b b' : Block} {row : Nat} {null : Bool} :
      Made b → b.markNull row null = .ok b' → Made b'
  | writeByte {b : Block} {data : Buffer} {i : Nat} {byte : UInt8} :
      Made b → b.data.writeByte i byte = .ok data → Made { b with data }
  | copyRows {source target : Block} {rows width : Nat} :
      Made source → Made target → Made (source.copyRows target rows width).2

/-- A flag that is set or cleared is one byte written to the flags. -/
theorem markNull_eq_ok {b' : Block} {null : Bool} (h : b.markNull i null = .ok b') :
    ∃ flags flags' : Buffer, ∃ v : BitVec (8 * 1), b.nulls = some flags ∧
      flags.write i v = .ok flags' ∧ b' = { b with nulls := some flags' } := by
  cases hnulls : b.nulls with
  | none => simp [markNull, hnulls] at h
  | some flags =>
    by_cases hi : i < b.size
    · simp only [markNull, hnulls, hi, if_true, bind_eq_ok, liftM_fault_eq_ok] at h
      obtain ⟨flags', hwrite, h⟩ := h
      exact ⟨flags, flags', _, rfl, hwrite, (Except.ok.inj h).symm⟩
    · simp [markNull, hnulls, hi] at h

/-- Every block a caller can make is well formed and holds no more rows than a
block can. -/
theorem Made.wellFormed (h : Made b) : b.WellFormed ∧ b.size ≤ RowId.blockCapacity := by
  induction h with
  | zeroed h =>
    have hsize := (zeroed_eq_ok h).2.1
    exact ⟨wellFormed_of_zeroed h, hsize ▸ (zeroed_eq_ok h).1⟩
  | ofValues h =>
    simp only [Block.ofValues, bind_eq_ok] at h
    obtain ⟨fresh, hfresh, data, hdata, h⟩ := h
    obtain rfl := Except.ok.inj h
    obtain ⟨hcapacity, hsize, _, _⟩ := zeroed_eq_ok hfresh
    have hholds := Buffer.holds_of_ofValues hdata
    refine ⟨(wellFormed_of_zeroed hfresh).withData ?_, hsize ▸ hcapacity⟩
    rw [hsize, hholds.width_eq]
    exact hholds
  | writeData _ h ih =>
    simp only [Block.writeData, bind_eq_ok] at h
    obtain ⟨data, hdata, h⟩ := h
    obtain rfl := Except.ok.inj h
    obtain ⟨_, _, rfl⟩ := Buffer.write_eq_ok hdata
    exact ⟨ih.1.withData (ih.1.data.put _ _), ih.2⟩
  | writeFlag _ hflags h ih =>
    obtain ⟨_, _, rfl⟩ := Buffer.write_eq_ok h
    exact ⟨ih.1.withFlags ((ih.1.nulls _ hflags).put _ _), ih.2⟩
  | markNull _ h ih =>
    obtain ⟨flags, flags', v, hflags, hwrite, rfl⟩ := markNull_eq_ok h
    obtain ⟨_, _, rfl⟩ := Buffer.write_eq_ok hwrite
    exact ⟨ih.1.withFlags ((ih.1.nulls _ hflags).put _ _), ih.2⟩
  | writeByte _ h ih =>
    have hdata := ih.1.data.writeByte h
    exact ⟨ih.1.withData (hdata.width_eq.symm ▸ hdata), ih.2⟩
  | copyRows _ _ ihs iht =>
    obtain ⟨hwell, hsize⟩ := copyRows_wellFormed ihs.1 iht.1
    exact ⟨hwell, hsize ▸ iht.2⟩

end Block

end ColumnStore
