import ColumnStore.Row.Batch
import ColumnStore.Proofs.LittleEndian
import ColumnStore.Proofs.Outcome

/-!
# Rows of a batch

A row that is appended is the batch's last, if its size fits the four bytes of a
length (`row?_append_last`), and the rows before it stay (`row?_append_of_some`).
-/

namespace ColumnStore

/-! ## Stretches of a byte string -/

namespace Bytes

variable {bytes more run : Bytes} {start stop : Nat}

theorem append_list (bytes : Bytes) (l : List UInt8) : bytes ++ l = bytes ++ l.toArray := by
  apply Array.ext'
  simp

theorem stretch?_eq_some_iff :
    bytes.stretch? start stop = some run ↔
      (start ≤ stop ∧ stop ≤ bytes.size) ∧ bytes.extract start stop = run := by
  unfold stretch?
  split
  · rename_i hin
    simp [hin]
  · rename_i hout
    simp [hout]

/-- A stretch stays when bytes are added at the end. -/
theorem stretch?_append (h : bytes.stretch? start stop = some run) :
    stretch? (bytes ++ more) start stop = some run := by
  obtain ⟨⟨hle, hin⟩, hrun⟩ := stretch?_eq_some_iff.1 h
  refine stretch?_eq_some_iff.2 ⟨⟨hle, ?_⟩, ?_⟩
  · rw [Array.size_append]
    omega
  · rw [Array.extract_append, hrun, Nat.sub_eq_zero_of_le hin, Array.extract_zero,
      Array.append_empty]

/-- A run between other bytes is the stretch it takes up. -/
theorem stretch?_middle (before run after : Bytes) :
    stretch? (before ++ run ++ after) before.size (before.size + run.size) = some run := by
  apply stretch?_append
  refine stretch?_eq_some_iff.2 ⟨⟨by omega, Nat.le_of_eq Array.size_append.symm⟩, ?_⟩
  · rw [Array.extract_append, Nat.sub_self, Nat.add_sub_cancel_left, Array.extract_size]
    simp

end Bytes

namespace RowBatch

variable {batch batch' : RowBatch} {row : Bytes}

/-- What a batch is after a row was taken in. -/
theorem append_eq_ok (h : batch.append row = .ok batch') :
    batch' = { batch with
      starts := batch.starts.push batch.data.size
      data := batch.data ++ (LittleEndian.ofNat lengthSize row.size).toArray ++ row } := by
  unfold append at h
  split at h
  · simp at h
  · split at h
    · simp at h
    · rw [← Except.ok.inj h, Bytes.append_list]

/-- A row is taken in exactly if there is room for it. -/
theorem exists_append_iff (batch : RowBatch) (row : Bytes) :
    (∃ after, batch.append row = .ok after) ↔
      batch.size < batch.maxRows ∧ batch.usedBytes + lengthSize + row.size ≤ batch.maxBytes := by
  unfold append
  split
  · rename_i hfull
    simp [Nat.not_lt.2 hfull]
  · rename_i hroom
    split
    · rename_i hlong
      simp [Nat.not_le.2 hlong]
    · rename_i hfits
      simp [Nat.lt_of_not_le hroom, Nat.le_of_not_lt hfits]

theorem size_append (h : batch.append row = .ok batch') : batch'.size = batch.size + 1 := by
  rw [append_eq_ok h]
  exact Array.size_push _

theorem schema_append (h : batch.append row = .ok batch') : batch'.schema = batch.schema := by
  rw [append_eq_ok h]

/-- A row of a batch is the stretch its length gives, behind that length. -/
theorem row?_eq_some_iff {i : Nat} :
    batch.row? i = some row ↔ ∃ start length, batch.starts[i]? = some start ∧
      batch.data.stretch? start (start + lengthSize) = some length ∧
      batch.data.stretch? (start + lengthSize)
        (start + lengthSize + LittleEndian.toNat length.toList) = some row := by
  unfold row?
  simp only [Option.bind_eq_bind, Option.bind_eq_some_iff]
  constructor
  · intro h
    obtain ⟨start, hstart, length, hlength, hrow⟩ := h
    exact ⟨start, length, hstart, hlength, hrow⟩
  · intro h
    obtain ⟨start, length, hstart, hlength, hrow⟩ := h
    exact ⟨start, hstart, length, hlength, hrow⟩

/-- Rows stay when another is appended. -/
theorem row?_append_of_some (h : batch.append row = .ok batch') {i : Nat} {held : Bytes}
    (hi : batch.row? i = some held) : batch'.row? i = some held := by
  obtain ⟨start, length, hstart, hlength, hrow⟩ := row?_eq_some_iff.1 hi
  rw [append_eq_ok h, row?_eq_some_iff]
  refine ⟨start, length, ?_, ?_, ?_⟩
  · have hin := (Array.getElem?_eq_some_iff.1 hstart).1
    rw [Array.getElem?_push, if_neg (Nat.ne_of_lt hin), hstart]
  · exact Bytes.stretch?_append (Bytes.stretch?_append hlength)
  · exact Bytes.stretch?_append (Bytes.stretch?_append hrow)

/-- The row that was appended is the last. -/
theorem row?_append_last (h : batch.append row = .ok batch') (hsize : row.size < 2 ^ 32) :
    batch'.row? batch.size = some row := by
  have hcount : (LittleEndian.ofNat lengthSize row.size).toArray.size = lengthSize := by simp
  have hlength : LittleEndian.toNat (LittleEndian.ofNat lengthSize row.size) = row.size :=
    LittleEndian.toNat_ofNat_of_lt hsize
  rw [append_eq_ok h, row?_eq_some_iff]
  refine ⟨batch.data.size, (LittleEndian.ofNat lengthSize row.size).toArray, ?_, ?_, ?_⟩
  · exact Array.getElem?_push_size
  · have hmiddle := Bytes.stretch?_middle batch.data
      (LittleEndian.ofNat lengthSize row.size).toArray row
    rw [hcount] at hmiddle
    exact hmiddle
  · have hmiddle := Bytes.stretch?_middle
      (batch.data ++ (LittleEndian.ofNat lengthSize row.size).toArray) row #[]
    rw [Array.size_append, hcount, Array.append_empty] at hmiddle
    rw [hlength]
    exact hmiddle

end RowBatch

end ColumnStore
