import ColumnStore.Buffer
import ColumnStore.Proofs.LittleEndian
import ColumnStore.Proofs.Outcome

/-!
# Buffers as arrays of elements

A buffer is used as an array of elements of one width.  `Holds` says that it
holds so many of them.  From it follow, for every operation, that the operation
succeeds, that its result holds as many elements as before, and what each
element of the result is.

All of it rests on one fact about bytes: an element depends on the bytes of
its own stretch only (`element_congr`).  The other way round, the bytes in use
depend on the elements only (`take_bytes_eq`, `drop_bytes_eq`).
-/

namespace ColumnStore

/-! ## Stretches of bytes -/

namespace Bytes

theorem getElem?_slice (bytes : Bytes) (start stop k : Nat) :
    (bytes.slice start stop)[k]? = if k < stop - start then bytes[start + k]? else none := by
  rw [slice, Array.getElem?_toList, Array.getElem?_extract]
  by_cases hk : start + k < bytes.size
  · have hiff : k < min stop bytes.size - start ↔ k < stop - start := by omega
    simp only [hiff]
  · have hnone : bytes[start + k]? = none := Array.getElem?_eq_none (by omega)
    simp [hnone]

theorem length_slice {bytes : Bytes} {start stop : Nat} (h : stop ≤ bytes.size) :
    (bytes.slice start stop).length = stop - start := by
  rw [slice, Array.length_toList, Array.size_extract, Nat.min_eq_left h]

/-- A stretch depends on its own bytes only. -/
theorem slice_congr {a b : Bytes} {start stop : Nat}
    (h : ∀ k, start ≤ k → k < stop → a[k]? = b[k]?) : a.slice start stop = b.slice start stop := by
  apply List.ext_getElem?
  intro k
  rw [getElem?_slice, getElem?_slice]
  split
  · exact h _ (by omega) (by omega)
  · rfl

/-- What is laid over a stretch is what the stretch holds then. -/
theorem slice_overlay (bytes : Bytes) (start : Nat) (run : List UInt8)
    (h : start + run.length ≤ bytes.size) :
    (bytes.overlay start run).slice start (start + run.length) = run := by
  apply List.ext_getElem?
  intro k
  rw [getElem?_slice, getElem?_overlay]
  by_cases hk : k < run.length
  · have hin : start ≤ start + k ∧ start + k < start + run.length ∧ start + k < bytes.size := by
      omega
    rw [if_pos (by omega), if_pos hin]
    congr 1
    omega
  · rw [if_neg (by omega), List.getElem?_eq_none (by omega)]

/-- A part of what is laid over a byte string is found where it was laid. -/
theorem slice_overlay_within (bytes : Bytes) (run : List UInt8) {start stop : Nat}
    (hstop : stop ≤ run.length) (hrun : run.length ≤ bytes.size) :
    (bytes.overlay 0 run).slice start stop = (run.drop start).take (stop - start) := by
  apply List.ext_getElem?
  intro k
  rw [getElem?_slice, getElem?_overlay, List.getElem?_take, List.getElem?_drop]
  by_cases hk : k < stop - start
  · have hin : 0 ≤ start + k ∧ start + k < 0 + run.length ∧ start + k < bytes.size := by omega
    rw [if_pos hk, if_pos hk, if_pos hin, Nat.sub_zero]
  · rw [if_neg hk, if_neg hk]

end Bytes

/-- Runs of one length, joined: the run at a position is that of the element
there. -/
theorem drop_take_flatMap {α : Type} {f : α → List UInt8} {width : Nat}
    (hf : ∀ a, (f a).length = width) (values : List α) {i : Nat} {a : α}
    (ha : values[i]? = some a) :
    ((values.flatMap f).drop (i * width)).take width = f a := by
  induction values generalizing i with
  | nil => simp at ha
  | cons v values ih =>
    cases i with
    | zero =>
      have hv : v = a := by simpa using ha
      subst hv
      simp [List.take_left' (hf v)]
    | succ i =>
      have hi : values[i]? = some a := by simpa using ha
      have hstep : (i + 1) * width = (f v).length + i * width := by rw [hf, Nat.succ_mul]; omega
      rw [List.flatMap_cons, hstep, List.drop_length_add_append, ih hi]

theorem ColumnType.width_le (st : ColumnType) : st.width ≤ Buffer.wordBytes := by
  cases st <;> decide

namespace Buffer

variable {b source target : Buffer} {n m rows width i : Nat}

/-- A buffer of exactly `n` elements of `width` bytes, all of them in its
storage. -/
structure Holds (b : Buffer) (n width : Nat) : Prop where
  width_eq : b.width = width
  width_pos : 0 < width
  used_eq : b.used = n * width
  used_le : b.used ≤ b.storage.size

theorem Holds.size_eq (h : b.Holds n width) : b.size = n := by
  rw [size, h.used_eq, h.width_eq]
  exact Nat.mul_div_cancel n h.width_pos

/-- The bytes of an element lie in the storage. -/
theorem Holds.stop_le (h : b.Holds n width) (hi : i < n) :
    i * width + width ≤ b.storage.size := by
  have hmul : (i + 1) * width ≤ n * width := Nat.mul_le_mul_right width hi
  have hused := h.used_eq
  have hle := h.used_le
  rw [Nat.succ_mul] at hmul
  omega

/-- Two elements of one width are the same or apart. -/
theorem stop_le_of_lt {i j : Nat} (width : Nat) (h : i < j) : i * width + width ≤ j * width := by
  have hmul : (i + 1) * width ≤ j * width := Nat.mul_le_mul_right width h
  rw [Nat.succ_mul] at hmul
  exact hmul

/-- An element depends on its own bytes only. -/
theorem element_congr {a b : Buffer}
    (h : ∀ k, i * width ≤ k → k < i * width + width → a.storage[k]? = b.storage[k]?) :
    a.element width i = b.element width i := by
  rw [element, element, Bytes.slice_congr h]

/-! ## Allocation -/

/-- The storage is taken in whole words, so it holds what is in use. -/
theorem le_wordsFor (bytes : Nat) : bytes ≤ wordsFor bytes * wordBytes := by
  simp only [wordsFor, wordBytes]
  omega

/-- A buffer is had exactly if its elements have a width and its size is one
that is served. -/
theorem zeroed_eq_ok :
    zeroed n width = .ok b ↔ 0 < width ∧ n * width < allocationLimit ∧
      b = { storage := Array.replicate (wordsFor (n * width) * wordBytes) 0
            used := n * width, width } := by
  by_cases hwidth : width = 0
  · simp [zeroed, hwidth]
  · by_cases hlimit : n * width < allocationLimit
    · have hsize : ¬ largestSize < n * width := by
        simp only [largestSize, allocationLimit] at *
        omega
      simp [zeroed, hwidth, hsize, reserve, hlimit, Nat.pos_of_ne_zero hwidth, eq_comm]
    · by_cases hsize : largestSize < n * width
      · simp [zeroed, hwidth, hsize, hlimit]
      · simp [zeroed, hwidth, hsize, reserve, hlimit]

theorem holds_of_zeroed (h : zeroed n width = .ok b) : b.Holds n width := by
  obtain ⟨hwidth, _, rfl⟩ := zeroed_eq_ok.1 h
  refine ⟨rfl, hwidth, rfl, ?_⟩
  simpa using le_wordsFor (n * width)

/-! ## Bytes laid over a buffer -/

/-- The buffer with a run of bytes laid over it. -/
def overlaid (b : Buffer) (start : Nat) (run : List UInt8) : Buffer :=
  { b with storage := b.storage.overlay start run }

theorem Holds.overlaid (h : b.Holds n width) (start : Nat) (run : List UInt8) :
    (b.overlaid start run).Holds n width := by
  have hsize : (b.overlaid start run).storage.size = b.storage.size :=
    Bytes.size_overlay b.storage start run
  exact ⟨h.width_eq, h.width_pos, h.used_eq, hsize ▸ h.used_le⟩

theorem writeByte_of_lt {byte : UInt8} (hi : i < b.used) :
    b.writeByte i byte = .ok (b.overlaid i [byte]) := if_pos hi

theorem writeByte_eq_ok {b' : Buffer} {byte : UInt8} (h : b.writeByte i byte = .ok b') :
    i < b.used ∧ b' = b.overlaid i [byte] := by
  by_cases hi : i < b.used
  · rw [writeByte_of_lt hi] at h
    exact ⟨hi, (Except.ok.inj h).symm⟩
  · simp [writeByte, hi] at h

theorem toNat_replicate_zero (n : Nat) : LittleEndian.toNat (List.replicate n 0) = 0 := by
  induction n with
  | zero => rfl
  | succ n ih => simp [List.replicate_succ, LittleEndian.toNat, ih]

/-! ## Values -/

section Values

variable {values : Array (BitVec (8 * width))}

theorem ofValues_eq_ok :
    ofValues values = .ok b ↔ ∃ fresh, zeroed values.size width = .ok fresh ∧
      b = { fresh with
            storage := fresh.storage.overlay 0 (values.toList.flatMap LittleEndian.encode) } := by
  rw [ofValues, bind_eq_ok]
  simp only [pure_eq_ok, Except.ok.injEq]
  exact exists_congr fun fresh => and_congr_right fun _ => eq_comm

theorem holds_of_ofValues (h : ofValues values = .ok b) : b.Holds values.size width := by
  obtain ⟨fresh, hfresh, rfl⟩ := ofValues_eq_ok.1 h
  exact (holds_of_zeroed hfresh).overlaid _ _

/-- Values that take up fewer bytes than are ever asked for in vain are served. -/
theorem exists_ofValues (hpos : 0 < width) (hserved : values.size * width < allocationLimit) :
    ∃ b, ofValues values = .ok b :=
  ⟨_, ofValues_eq_ok.2 ⟨_, zeroed_eq_ok.2 ⟨hpos, hserved, rfl⟩, rfl⟩⟩

/-- Values one after the other take up the bytes of all of them. -/
theorem length_flatMap_encode (values : Array (BitVec (8 * width))) :
    (values.toList.flatMap LittleEndian.encode).length = values.size * width := by
  simp [List.length_flatMap, List.map_const', Nat.mul_comm]

/-- The elements of a buffer of values are those values. -/
theorem element_of_ofValues (h : ofValues values = .ok b) {v : BitVec (8 * width)}
    (hv : values[i]? = some v) : b.element width i = v := by
  obtain ⟨fresh, hfresh, rfl⟩ := ofValues_eq_ok.1 h
  have hh := holds_of_zeroed hfresh
  have hi : i < values.size := by
    rw [Array.getElem?_eq_some_iff] at hv
    exact hv.1
  have hlength := length_flatMap_encode values
  have hfits : (values.toList.flatMap LittleEndian.encode).length ≤ fresh.storage.size := by
    rw [hlength, ← hh.used_eq]
    exact hh.used_le
  have hstop : i * width + width ≤ (values.toList.flatMap LittleEndian.encode).length := by
    rw [hlength, ← Nat.succ_mul]
    exact Nat.mul_le_mul_right width hi
  rw [element, Bytes.slice_overlay_within fresh.storage _ hstop hfits, Nat.add_sub_cancel_left,
    drop_take_flatMap LittleEndian.length_encode values.toList (by simpa using hv),
    LittleEndian.decode_encode]

end Values

/-! ## Reading and writing -/

/-- The buffer with the bytes of element `i` replaced. -/
def put (b : Buffer) {width : Nat} (i : Nat) (v : BitVec (8 * width)) : Buffer :=
  { b with storage := b.storage.overlay (i * width) (LittleEndian.encode v) }

theorem read_of_lt (h : b.Holds n width) (hi : i < n) :
    b.read width i = .ok (b.element width i) := by
  simp [read, requireWidth, h.width_eq, h.size_eq, hi]

theorem write_of_lt (h : b.Holds n width) (hi : i < n) (v : BitVec (8 * width)) :
    b.write i v = .ok (b.put i v) := by
  simp [write, requireWidth, h.width_eq, h.size_eq, hi, put]

/-- A write that succeeds is of the buffer's own width and to one of its elements. -/
theorem write_eq_ok {b' : Buffer} {v : BitVec (8 * width)} (h : b.write i v = .ok b') :
    b.width = width ∧ i < b.size ∧ b' = b.put i v := by
  simp only [write, requireWidth, bind_eq_ok] at h
  obtain ⟨_, hwidth, h⟩ := h
  split at hwidth
  · rename_i heq
    split at h
    · rename_i hi
      exact ⟨heq.symm, hi, (Except.ok.inj h).symm⟩
    · simp at h
  · simp at hwidth

theorem Holds.put (h : b.Holds n width) {w : Nat} (i : Nat) (v : BitVec (8 * w)) :
    (b.put i v).Holds n width :=
  h.overlaid _ _

theorem Holds.writeByte {b' : Buffer} {byte : UInt8} (h : b.Holds n width)
    (hb : b.writeByte i byte = .ok b') : b'.Holds n width := by
  obtain ⟨_, rfl⟩ := writeByte_eq_ok hb
  exact h.overlaid i [byte]

/-- A write changes the element it is for and no other. -/
theorem element_put (h : b.Holds n width) (hi : i < n) (v : BitVec (8 * width)) (j : Nat) :
    (b.put i v).element width j = if j = i then v else b.element width j := by
  have hstop := h.stop_le hi
  split
  · rename_i hji
    subst hji
    have hslice := Bytes.slice_overlay b.storage (j * width) (LittleEndian.encode v)
      (by rw [LittleEndian.length_encode]; exact hstop)
    rw [LittleEndian.length_encode] at hslice
    rw [element, put, hslice, LittleEndian.decode_encode]
  · rename_i hji
    apply element_congr
    intro k hlow hhigh
    rw [put, Bytes.getElem?_overlay, LittleEndian.length_encode, if_neg]
    intro hcovers
    obtain ⟨h1, h2, _⟩ := hcovers
    rcases Nat.lt_or_gt_of_ne hji with hlt | hgt
    · have := stop_le_of_lt width hlt
      omega
    · have := stop_le_of_lt width hgt
      omega

/-! ## Copying -/

/-- Copying elements from one buffer to another of the same width succeeds if
both have them, and takes those elements from the source. -/
theorem copyFront_of_le (hs : source.Holds n width) (ht : target.Holds m width)
    (hn : rows ≤ n) (hm : rows ≤ m) :
    ∃ b, source.copyFront target (rows * width) = .ok b ∧ b.Holds m width ∧
      ∀ i, b.element width i =
        if i < rows then source.element width i else target.element width i := by
  have hsource : rows * width ≤ n * width := Nat.mul_le_mul_right width hn
  have htarget : rows * width ≤ m * width := Nat.mul_le_mul_right width hm
  have husedS := hs.used_eq
  have hleS := hs.used_le
  have husedT := ht.used_eq
  have hleT := ht.used_le
  have hsize : (source.storage.extract 0 (rows * width)).size = rows * width := by
    rw [Array.size_extract]
    omega
  refine ⟨_, if_pos ⟨by omega, by omega⟩, ⟨ht.width_eq, ht.width_pos, husedT, ?_⟩, ?_⟩
  · rw [Array.size_append, hsize, Array.size_extract]
    change target.used ≤ _
    omega
  · intro i
    split
    · rename_i hi
      have hstop := stop_le_of_lt width hi
      apply element_congr
      intro k _ hk
      rw [Array.getElem?_append, hsize, if_pos (by omega), Array.getElem?_extract,
        if_pos (by omega), Nat.zero_add]
    · rename_i hi
      have hstart : rows * width ≤ i * width := Nat.mul_le_mul_right width (Nat.le_of_not_lt hi)
      apply element_congr
      intro k hk _
      rw [Array.getElem?_append, hsize, if_neg (by omega), Array.getElem?_extract]
      by_cases hin : k < target.storage.size
      · rw [if_pos (by omega)]
        congr 1
        omega
      · rw [if_neg (by omega), Array.getElem?_eq_none (by omega)]

/-- Clearing the first elements of a buffer of bytes makes them zero. -/
theorem clearFront_of_le (h : target.Holds m 1) (hm : rows ≤ m) :
    ∃ b, target.clearFront rows = .ok b ∧ b.Holds m 1 ∧
      ∀ i, b.element 1 i = if i < rows then 0 else target.element 1 i := by
  have hused := h.used_eq
  have hle := h.used_le
  refine ⟨_, if_pos (by omega), ⟨h.width_eq, h.width_pos, hused, ?_⟩, ?_⟩
  · rw [Array.size_append, Array.size_replicate, Array.size_extract]
    change target.used ≤ _
    omega
  · intro i
    split
    · rename_i hi
      have hslice : Bytes.slice
          (Array.replicate rows 0 ++ target.storage.extract rows target.storage.size)
          (i * 1) (i * 1 + 1) = List.replicate 1 0 := by
        apply List.ext_getElem?
        intro k
        rw [Bytes.getElem?_slice, List.getElem?_replicate, Nat.add_sub_cancel_left]
        by_cases hk : k < 1
        · rw [if_pos hk, if_pos hk, Array.getElem?_append, Array.size_replicate,
            if_pos (by omega), Array.getElem?_replicate, if_pos (by omega)]
        · rw [if_neg hk, if_neg hk]
      rw [element, hslice, LittleEndian.decode, List.take_replicate, toNat_replicate_zero]
      rfl
    · rename_i hi
      apply element_congr
      intro k hk _
      rw [Array.getElem?_append, Array.size_replicate, if_neg (by omega), Array.getElem?_extract]
      by_cases hin : k < target.storage.size
      · rw [if_pos (by omega)]
        congr 1
        omega
      · rw [if_neg (by omega), Array.getElem?_eq_none (by omega)]

/-! ## Bytes in use -/

section BytesInUse

variable {a b : Buffer} {k : Nat}

theorem Holds.size_bytes (h : b.Holds n width) : b.bytes.size = n * width := by
  rw [bytes, Array.size_extract, Nat.sub_zero, Nat.min_eq_left h.used_le, h.used_eq]

theorem getElem?_bytes (h : b.used ≤ b.storage.size) (k : Nat) :
    b.bytes[k]? = if k < b.used then b.storage[k]? else none := by
  rw [bytes, Array.getElem?_extract, Nat.min_eq_left h, Nat.sub_zero, Nat.zero_add]

theorem Holds.getElem?_bytes (h : b.Holds n width) (hk : k < n * width) :
    b.bytes[k]? = b.storage[k]? := by
  have hused := h.used_eq
  rw [Buffer.getElem?_bytes h.used_le, if_pos (by omega)]

/-- Equal elements are made of equal bytes. -/
theorem slice_eq_of_element_eq (ha : a.Holds n width) (hb : b.Holds m width) (hn : i < n)
    (hm : i < m) (h : a.element width i = b.element width i) :
    a.storage.slice (i * width) (i * width + width) =
      b.storage.slice (i * width) (i * width + width) := by
  have hlength : ∀ {c : Buffer} {size : Nat}, c.Holds size width → i < size →
      (c.storage.slice (i * width) (i * width + width)).length = width := by
    intro c size hc hi
    rw [Bytes.length_slice (hc.stop_le hi), Nat.add_sub_cancel_left]
  rw [← LittleEndian.encode_decode (hlength ha hn), ← LittleEndian.encode_decode (hlength hb hm)]
  exact congrArg LittleEndian.encode h

/-- A byte in use depends on the element it belongs to. -/
theorem getElem?_bytes_congr (ha : a.Holds n width) (hb : b.Holds m width) (hn : k < n * width)
    (hm : k < m * width) (h : a.element width (k / width) = b.element width (k / width)) :
    a.bytes[k]? = b.bytes[k]? := by
  have hslice := slice_eq_of_element_eq ha hb (Nat.div_lt_of_lt_mul (Nat.mul_comm n width ▸ hn))
    (Nat.div_lt_of_lt_mul (Nat.mul_comm m width ▸ hm)) h
  have hbyte := congrArg (fun run => run[k % width]?) hslice
  have hin : k % width < k / width * width + width - k / width * width := by
    have hmod := Nat.mod_lt k ha.width_pos
    omega
  simp only [Bytes.getElem?_slice, hin, if_true, Nat.div_add_mod'] at hbyte
  rw [ha.getElem?_bytes hn, hb.getElem?_bytes hm, hbyte]

/-- Buffers with the same first elements have the same first bytes. -/
theorem take_bytes_eq (ha : a.Holds n width) (hb : b.Holds m width) (hn : rows ≤ n)
    (hm : rows ≤ m) (h : ∀ i < rows, a.element width i = b.element width i) :
    a.bytes.take (rows * width) = b.bytes.take (rows * width) := by
  have hmulN : rows * width ≤ n * width := Nat.mul_le_mul_right width hn
  have hmulM : rows * width ≤ m * width := Nat.mul_le_mul_right width hm
  apply Array.ext_getElem?
  intro k
  rw [Array.getElem?_extract, Array.getElem?_extract, ha.size_bytes, hb.size_bytes,
    Nat.min_eq_left hmulN, Nat.min_eq_left hmulM, Nat.sub_zero, Nat.zero_add]
  split
  · rename_i hk
    exact getElem?_bytes_congr ha hb (by omega) (by omega)
      (h _ (Nat.div_lt_of_lt_mul (Nat.mul_comm rows width ▸ hk)))
  · rfl

/-- Buffers with the same elements from a row on have the same bytes from there on. -/
theorem drop_bytes_eq (ha : a.Holds n width) (hb : b.Holds n width)
    (h : ∀ i, rows ≤ i → a.element width i = b.element width i) :
    a.bytes.drop (rows * width) = b.bytes.drop (rows * width) := by
  apply Array.ext_getElem?
  intro k
  rw [Array.getElem?_extract, Array.getElem?_extract, ha.size_bytes, hb.size_bytes]
  split
  · rename_i hk
    apply getElem?_bytes_congr ha hb (by omega) (by omega)
    apply h
    rw [Nat.le_div_iff_mul_le ha.width_pos]
    omega
  · rfl

end BytesInUse

end Buffer

end ColumnStore
