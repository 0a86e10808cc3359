import ColumnStore.PlainData
import ColumnStore.Proofs.Buffer

/-!
# Buffers seen as bytes and as values of plain types

A buffer is one stretch of bytes that is looked at in three ways: as whole words of
storage, as the bytes in use, and as elements of a plain type.  `LaidOut` says how the first
two fit together, and `ShowsBytes` how the last two do.

Every write lays a run of bytes over the bytes in use: a write of an element lays its
encoding, a write of a byte this byte alone.  So all writes come down to two lemmas on runs.
A run that stays within the bytes in use keeps the layout (`LaidOut.overlaid`), and it changes
the bytes it covers and no other (`LaidOut.overwritten`).
-/

namespace ColumnStore

open PlainData (toBits ofBits)

namespace Buffer

variable {b : Buffer} {width start i : Nat} {run : List UInt8}

/-! ## Layout -/

/-- A buffer as it is kept: elements of some width fill the bytes in use, which lie in the
fewest whole words that hold them.  What is left of the last word is zero. -/
structure LaidOut (b : Buffer) : Prop where
  width_pos : 0 < b.width
  used_eq : b.used = b.size * b.width
  whole_words : wordBytes ∣ b.storage.size
  covered : b.used ≤ b.storage.size
  tight : b.storage.size < b.used + wordBytes
  spare : ∀ k, b.used ≤ k → k < b.storage.size → b.storage[k]? = some 0

theorem LaidOut.holds (h : b.LaidOut) : b.Holds b.size b.width :=
  ⟨rfl, h.width_pos, h.used_eq, h.covered⟩

/-- An element ends within the bytes in use. -/
theorem LaidOut.stop_le_used (h : b.LaidOut) (hi : i < b.size) : (i + 1) * b.width ≤ b.used := by
  rw [h.used_eq]
  exact Nat.mul_le_mul_right b.width hi

theorem wordsFor_lt (bytes : Nat) : wordsFor bytes * wordBytes < bytes + wordBytes := by
  simp only [wordsFor, wordBytes]
  omega

theorem laidOut_of_zeroed {length : Nat} (h : zeroed length width = .ok b) : b.LaidOut := by
  have hholds := holds_of_zeroed h
  have hused : b.used = b.size * b.width := by
    rw [hholds.size_eq, hholds.width_eq]
    exact hholds.used_eq
  obtain ⟨hpos, _, rfl⟩ := zeroed_eq_ok.1 h
  refine ⟨hpos, hused, ?_, hholds.used_le, ?_, ?_⟩
  · rw [Array.size_replicate]
    exact Nat.dvd_mul_left wordBytes _
  · rw [Array.size_replicate]
    exact wordsFor_lt _
  · intro k _ hk
    rw [Array.size_replicate] at hk
    rw [Array.getElem?_replicate, if_pos hk]

/-! ## Bytes laid over a buffer -/

/-- Buffers of one width, with as many bytes in use and as much storage. -/
structure SameShape (a b : Buffer) : Prop where
  width_eq : a.width = b.width
  used_eq : a.used = b.used
  storage_size_eq : a.storage.size = b.storage.size

/-- A buffer after a run of bytes was laid over its bytes in use, and before: the run is
there, and every other byte is as it was. -/
structure Overwritten (after before : Buffer) (start : Nat) (run : List UInt8) : Prop where
  sameShape : after.SameShape before
  within : start + run.length ≤ before.used
  covered : ∀ k, start ≤ k → k < start + run.length → after.bytes[k]? = run[k - start]?
  kept : ∀ k, k < start ∨ start + run.length ≤ k → after.bytes[k]? = before.bytes[k]?

theorem SameShape.refl (b : Buffer) : b.SameShape b := ⟨rfl, rfl, rfl⟩

theorem SameShape.trans {a c : Buffer} (h : a.SameShape b) (h' : b.SameShape c) : a.SameShape c :=
  ⟨h.width_eq.trans h'.width_eq, h.used_eq.trans h'.used_eq,
    h.storage_size_eq.trans h'.storage_size_eq⟩

theorem sameShape_overlaid (b : Buffer) (start : Nat) (run : List UInt8) :
    (b.overlaid start run).SameShape b :=
  ⟨rfl, rfl, Bytes.size_overlay b.storage start run⟩

/-- A run that stays within the bytes in use keeps the layout. -/
theorem LaidOut.overlaid (h : b.LaidOut) (hrun : start + run.length ≤ b.used) :
    (b.overlaid start run).LaidOut := by
  have hsize := (sameShape_overlaid b start run).storage_size_eq
  refine ⟨h.width_pos, h.used_eq, hsize ▸ h.whole_words, hsize ▸ h.covered, hsize ▸ h.tight, ?_⟩
  intro k hused hk
  have hpast : b.used ≤ k := hused
  -- the run ends within the bytes in use, so what lies past them is not covered
  show (b.storage.overlay start run)[k]? = some 0
  rw [Bytes.getElem?_overlay, if_neg (by omega)]
  exact h.spare k hpast (hsize ▸ hk)

/-- Such a run changes the bytes it covers and no other. -/
theorem LaidOut.overwritten (h : b.LaidOut) (hrun : start + run.length ≤ b.used) :
    (b.overlaid start run).Overwritten b start run := by
  have hle := h.covered
  have hbytes : ∀ k, (b.overlaid start run).bytes[k]? =
      if k < b.used then (b.storage.overlay start run)[k]? else none :=
    getElem?_bytes (h.overlaid hrun).covered
  refine ⟨sameShape_overlaid b start run, hrun, ?_, ?_⟩
  · intro k hlow hhigh
    rw [hbytes, if_pos (by omega), Bytes.getElem?_overlay, if_pos (by omega)]
  · intro k hout
    have hnot : ¬ (start ≤ k ∧ k < start + run.length ∧ k < b.storage.size) := by omega
    rw [hbytes, getElem?_bytes hle, Bytes.getElem?_overlay, if_neg hnot]

theorem laidOut_of_ofValues {values : Array (BitVec (8 * width))} (h : ofValues values = .ok b) :
    b.LaidOut := by
  obtain ⟨fresh, hfresh, rfl⟩ := ofValues_eq_ok.1 h
  have hused := (holds_of_zeroed hfresh).used_eq
  have hlength := length_flatMap_encode values
  exact (laidOut_of_zeroed hfresh).overlaid (by omega)

/-- The encoding of an element fits where the element is. -/
theorem LaidOut.stop_encode_le (h : b.LaidOut) (hwidth : width = b.width) (hi : i < b.size)
    (v : BitVec (8 * width)) : i * width + (LittleEndian.encode v).length ≤ b.used := by
  rw [LittleEndian.length_encode, hwidth, ← Nat.succ_mul]
  exact h.stop_le_used hi

/-! ## Views -/

/-- What a buffer shows as values of plain types.  A type of another width is never taken.
One of its own width has as many values as there are elements, and each is made of the bytes
in use that belong to its element. -/
structure ShowsBytes (b : Buffer) : Prop where
  bytes_size : b.bytes.size = b.used
  other_width : ∀ (α : Type) [PlainData α], PlainData.width α ≠ b.width →
    b.viewAs α = .error (.viewWidth b.width (PlainData.width α)) ∧
    (∀ i, b.readAs α i = .error (.viewWidth b.width (PlainData.width α))) ∧
    ∀ i (a : α), b.writeAs i a = .error (.viewWidth b.width (PlainData.width α))
  own_width : ∀ (α : Type) [PlainData α], PlainData.width α = b.width →
    ∃ elements : Array α, b.viewAs α = .ok elements ∧ elements.size = b.size ∧
      ∀ i (hi : i < elements.size), b.readAs α i = .ok elements[i] ∧
        (i + 1) * b.width ≤ b.used ∧
        toBits elements[i] = LittleEndian.decode (PlainData.width α)
          (b.bytes.slice (i * b.width) ((i + 1) * b.width))

/-- An element is what its bytes in use are, the lowest first. -/
theorem LaidOut.element_eq (h : b.LaidOut) (hwidth : width = b.width) (hi : i < b.size) :
    b.element width i =
      LittleEndian.decode width (b.bytes.slice (i * b.width) ((i + 1) * b.width)) := by
  have hstop := h.stop_le_used hi
  -- elements are read from the storage; these bytes of it are all in use
  have hslice : b.storage.slice (i * b.width) ((i + 1) * b.width) =
      b.bytes.slice (i * b.width) ((i + 1) * b.width) := by
    apply Bytes.slice_congr
    intro k _ hk
    rw [getElem?_bytes h.covered, if_pos (by omega)]
  rw [element, hwidth, ← Nat.succ_mul]
  exact congrArg (LittleEndian.decode _) hslice

section Types

variable {α : Type} [PlainData α]

theorem viewAs_of_width (h : PlainData.width α = b.width) :
    b.viewAs α = .ok (Array.ofFn (n := b.size) fun i =>
      ofBits (b.element (PlainData.width α) i)) := by
  rw [viewAs, view, requireWidth, if_pos h, ok_bind, pure_eq_ok, ok_map, Array.map_ofFn]
  rfl

theorem readAs_of_lt (h : PlainData.width α = b.width) (hi : i < b.size) :
    b.readAs α i = .ok (ofBits (b.element (PlainData.width α) i)) := by
  rw [readAs, read, requireWidth, if_pos h, ok_bind, if_pos hi, pure_eq_ok, ok_map]

theorem readAs_of_le (h : PlainData.width α = b.width) (hi : b.size ≤ i) :
    b.readAs α i = .error .outOfBounds := by
  rw [readAs, read, requireWidth, if_pos h, ok_bind, if_neg (Nat.not_lt.2 hi)]
  rfl

theorem readAs_of_ne (h : PlainData.width α ≠ b.width) (i : Nat) :
    b.readAs α i = .error (.viewWidth b.width (PlainData.width α)) := by
  rw [readAs, read, requireWidth, if_neg h]
  rfl

theorem LaidOut.writeAs_of_lt (h : b.LaidOut) (hwidth : PlainData.width α = b.width)
    (hi : i < b.size) (a : α) : b.writeAs i a = .ok (b.put i (toBits a)) :=
  write_of_lt (hwidth ▸ h.holds) hi (toBits a)

theorem LaidOut.showsBytes (h : b.LaidOut) : b.ShowsBytes := by
  refine ⟨h.holds.size_bytes.trans h.used_eq.symm, ?_, ?_⟩
  · intro α _ hne
    refine ⟨?_, readAs_of_ne hne, ?_⟩
    · rw [viewAs, view, requireWidth, if_neg hne]
      rfl
    · intro i a
      rw [writeAs, write, requireWidth, if_neg hne]
      rfl
  · intro α _ hwidth
    refine ⟨_, viewAs_of_width hwidth, Array.size_ofFn, ?_⟩
    intro i hi
    have hlt : i < b.size := by rwa [Array.size_ofFn] at hi
    rw [Array.getElem_ofFn]
    refine ⟨readAs_of_lt hwidth hlt, h.stop_le_used hlt, ?_⟩
    rw [PlainData.toBits_ofBits]
    exact h.element_eq hwidth hlt

/-! ## Elements written -/

/-- A buffer after element `i` was written as a value of some type, and before.  The bytes of
the element are those of the value and all others as they were, no other element has changed,
whatever it is read as, and every type of the width reads the bits that were written. -/
structure ElementReplaced (after before : Buffer) (i : Nat) (a : α) : Prop where
  overwritten : after.Overwritten before (i * before.width) (LittleEndian.encode (toBits a))
  others : ∀ (β : Type) [PlainData β] (j : Nat), j ≠ i → after.readAs β j = before.readAs β j
  same_bits : ∀ (β : Type) [PlainData β], PlainData.width β = before.width →
    ∃ c : β, after.readAs β i = .ok c ∧ (toBits c).toNat = (toBits a).toNat

/-- The elements after one was written, read with the width of another type.  That the two
widths are one is an equation between the types' own, so the bits are compared as numbers. -/
theorem LaidOut.element_put_eq (h : b.LaidOut) {other : Nat} (hother : other = width)
    (hwidth : width = b.width) (hi : i < b.size) (v : BitVec (8 * width)) (j : Nat) :
    ((b.put i v).element other j).toNat =
      if j = i then v.toNat else (b.element other j).toNat := by
  subst hother
  rw [element_put (hwidth ▸ h.holds) hi v j]
  split
  · rfl
  · rfl

theorem LaidOut.elementReplaced (h : b.LaidOut) (hwidth : PlainData.width α = b.width)
    (hi : i < b.size) (a : α) : (b.put i (toBits a)).ElementReplaced b i a := by
  have hrun := h.stop_encode_le hwidth hi (toBits a)
  refine ⟨?_, ?_, ?_⟩
  · rw [← hwidth]
    exact h.overwritten hrun
  · intro β _ j hj
    -- a type of another width and a place past the end are refused before and after alike
    by_cases hβ : PlainData.width β = b.width
    · by_cases hlt : j < b.size
      · have helement := h.element_put_eq (hβ.trans hwidth.symm) hwidth hi (toBits a) j
        rw [if_neg hj] at helement
        rw [readAs_of_lt hβ hlt, readAs_of_lt (b := b.put i (toBits a)) hβ hlt,
          BitVec.eq_of_toNat_eq helement]
      · rw [readAs_of_le hβ (Nat.le_of_not_lt hlt),
          readAs_of_le (b := b.put i (toBits a)) hβ (Nat.le_of_not_lt hlt)]
    · rw [readAs_of_ne hβ, readAs_of_ne (b := b.put i (toBits a)) hβ]
      rfl
  · intro β _ hβ
    have helement := h.element_put_eq (hβ.trans hwidth.symm) hwidth hi (toBits a) i
    rw [if_pos rfl] at helement
    refine ⟨_, readAs_of_lt (b := b.put i (toBits a)) hβ hi, ?_⟩
    rw [PlainData.toBits_ofBits]
    exact helement

/-! ## New buffers -/

theorem exists_zeroed_iff {length : Nat} :
    (∃ b, zeroed length width = .ok b) ↔ 0 < width ∧ length * width < allocationLimit := by
  constructor
  · intro h
    obtain ⟨b, hb⟩ := h
    obtain ⟨hpos, hserved, _⟩ := zeroed_eq_ok.1 hb
    exact ⟨hpos, hserved⟩
  · intro h
    exact ⟨_, zeroed_eq_ok.2 ⟨h.1, h.2, rfl⟩⟩

theorem bytes_of_zeroed {length : Nat} (h : zeroed length width = .ok b) :
    b.bytes = Array.replicate (length * width) 0 := by
  have hle := (holds_of_zeroed h).used_le
  obtain ⟨_, _, rfl⟩ := zeroed_eq_ok.1 h
  rw [bytes, Array.extract_replicate, Nat.sub_zero, Nat.min_eq_left]
  simpa using hle

theorem exists_ofArray_iff {values : Array α} :
    (∃ b, ofArray values = .ok b) ↔ values.size * PlainData.width α < allocationLimit := by
  have hsize : (values.map toBits).size = values.size := Array.size_map
  rw [← hsize]
  constructor
  · intro h
    obtain ⟨b, hb⟩ := h
    obtain ⟨fresh, hfresh, _⟩ := ofValues_eq_ok.1 hb
    exact (exists_zeroed_iff.1 ⟨fresh, hfresh⟩).2
  · intro hserved
    exact exists_ofValues PlainData.width_pos hserved

theorem viewAs_of_ofArray {values : Array α} (h : ofArray values = .ok b) :
    b.viewAs α = .ok values := by
  have hholds := holds_of_ofValues h
  have hsize : b.size = values.size := hholds.size_eq.trans Array.size_map
  rw [viewAs_of_width hholds.width_eq.symm]
  refine congrArg Except.ok (Array.ext (Array.size_ofFn.trans hsize) ?_)
  intro i hi hi'
  have hvalue : (values.map toBits)[i]? = some (toBits values[i]) := by
    rw [Array.getElem?_map, Array.getElem?_eq_getElem hi', Option.map_some]
  rw [Array.getElem_ofFn, element_of_ofValues h hvalue, PlainData.ofBits_toBits]

/-- The bytes of a buffer of values are theirs, one after the other. -/
theorem bytes_of_ofArray {values : Array α} (h : ofArray values = .ok b) :
    b.bytes.toList = values.toList.flatMap fun a => LittleEndian.encode (toBits a) := by
  obtain ⟨fresh, hfresh, rfl⟩ := ofValues_eq_ok.1 h
  have hlength := length_flatMap_encode (values.map toBits)
  have hused := (holds_of_zeroed hfresh).used_eq
  have hle := (holds_of_zeroed hfresh).used_le
  have hslice := Bytes.slice_overlay fresh.storage 0
    ((values.map toBits).toList.flatMap LittleEndian.encode) (by omega)
  rw [Nat.zero_add, hlength, ← hused] at hslice
  show (fresh.storage.overlay 0 _).slice 0 fresh.used = _
  rw [hslice, Array.toList_map, List.flatMap_map]

end Types

end Buffer

end ColumnStore
