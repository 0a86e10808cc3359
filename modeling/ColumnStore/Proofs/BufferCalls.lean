import ColumnStore.Proofs.TypedViews

/-!
# Buffers at work

Buffers are had one after the other, new, filled with values or as clones, and are written to
by elements or by single bytes, in any order.  `step_cases` says what one call does to all of
them, and `run_induction` carries what each call keeps over a run: that all buffers are laid
out (`Reached.laidOut`), that each has its place and its shape (`keepsShapes_run`), and that
one which is not written to is as it was (`getElem?_run`).  So what was shown of one buffer
that is laid out holds of every buffer at any time (`laidOut_and_views_agree`).
-/

namespace ColumnStore

open PlainData (toBits)

/-- A call on the buffers at hand, which are known by their places. -/
inductive BufferCall : Type 1 where
  | zeroed (length width : Nat)
  | ofArray {α : Type} [PlainData α] (values : Array α)
  | clone (place : Nat)
  | write {α : Type} [PlainData α] (place i : Nat) (a : α)
  | writeByte (place i : Nat) (byte : UInt8)

/-- The place of the buffer that a call writes to. -/
def BufferCall.target? : BufferCall → Option Nat
  | @BufferCall.write _ _ place _ _ => some place
  | .writeByte place _ _ => some place
  | _ => none

/-- The buffers at hand, in the order in which they were had. -/
abbrev Buffers := List Buffer

namespace Buffers

/-- The buffer at a place. -/
def held (s : Buffers) (place : Nat) : Except Fault Buffer :=
  match s[place]? with
  | some b => .ok b
  | none => .error .outOfBounds

/-- The buffers with one more, if it is had. -/
def gain (s : Buffers) (b : Outcome Buffer) : Outcome Buffers :=
  return s ++ [← b]

/-- The buffers with the one at a place changed, if it can be. -/
def change (s : Buffers) (place : Nat) (f : Buffer → Except Fault Buffer) : Outcome Buffers := do
  let b ← s.held place
  return s.set place (← f b)

/-- The buffers after a call.  New ones and clones come last, and a write is to the one at its
place. -/
def step (s : Buffers) : BufferCall → Outcome Buffers
  | .zeroed length width => s.gain (Buffer.zeroed length width)
  | @BufferCall.ofArray _ _ values => s.gain (Buffer.ofArray values)
  | .clone place => s.gain (s.held place)
  | @BufferCall.write _ _ place i a => s.change place (·.writeAs i a)
  | .writeByte place i byte => s.change place (·.writeByte i byte)

/-- The buffers after calls one after the other.  One that is refused or breaks off leaves
them as they are. -/
def run (s : Buffers) (calls : List BufferCall) : Buffers :=
  calls.foldl (fun s call => (s.step call).toOption.getD s) s

/-- The buffers that calls lead to, beginning with none. -/
def Reached (s : Buffers) : Prop := ∃ calls, s = run [] calls

/-- Every buffer has its place still, and its shape. -/
def KeepsShapes (after before : Buffers) : Prop :=
  ∀ (place : Nat) (b : Buffer), before[place]? = some b →
    ∃ b', after[place]? = some b' ∧ b'.SameShape b

variable {s s' : Buffers} {place : Nat} {b : Buffer} {call : BufferCall}

theorem held_eq_ok : s.held place = .ok b ↔ s[place]? = some b := by
  unfold held
  cases s[place]? with
  | none => simp
  | some b' => simp

theorem gain_eq_ok {x : Outcome Buffer} : s.gain x = .ok s' ↔ ∃ b, x = .ok b ∧ s ++ [b] = s' := by
  rw [gain, bind_eq_ok]
  simp only [pure_eq_ok, Except.ok.injEq]

/-- One more is had exactly if it can be. -/
theorem exists_gain_iff {x : Except Error Buffer} :
    (∃ s', s.gain (liftM x) = .ok s') ↔ ∃ b, x = .ok b := by
  simp only [gain_eq_ok, liftM_error_eq_ok]
  rw [exists_comm]
  simp only [exists_and_left, exists_eq', and_true]

theorem change_eq_ok {f : Buffer → Except Fault Buffer} :
    s.change place f = .ok s' ↔
      ∃ b, s[place]? = some b ∧ ∃ after, f b = .ok after ∧ s.set place after = s' := by
  rw [change, bind_eq_ok]
  simp only [bind_eq_ok, liftM_fault_eq_ok, held_eq_ok, pure_eq_ok, Except.ok.injEq]

/-- What a call that succeeds does: there is one buffer more, new or a clone, or the one that
is written to is replaced by another of its shape. -/
theorem step_cases (h : s.step call = .ok s') :
    (∃ b, s' = s ++ [b] ∧ (b.LaidOut ∨ b ∈ s)) ∨
      ∃ place b after, call.target? = some place ∧ s[place]? = some b ∧
        s' = s.set place after ∧ after.SameShape b ∧ (b.LaidOut → after.LaidOut) := by
  cases call with
  | zeroed length width =>
    obtain ⟨b, hb, rfl⟩ := gain_eq_ok.1 h
    exact .inl ⟨b, rfl, .inl (Buffer.laidOut_of_zeroed (liftM_error_eq_ok.1 hb))⟩
  | ofArray values =>
    obtain ⟨b, hb, rfl⟩ := gain_eq_ok.1 h
    exact .inl ⟨b, rfl, .inl (Buffer.laidOut_of_ofValues (liftM_error_eq_ok.1 hb))⟩
  | clone place =>
    obtain ⟨b, hb, rfl⟩ := gain_eq_ok.1 h
    have hheld := held_eq_ok.1 (liftM_fault_eq_ok.1 hb)
    exact .inl ⟨b, rfl, .inr (List.mem_of_getElem? hheld)⟩
  | write place i a =>
    obtain ⟨b, hb, after, hwrite, rfl⟩ := change_eq_ok.1 h
    obtain ⟨hwidth, hi, rfl⟩ := Buffer.write_eq_ok hwrite
    refine .inr ⟨place, b, _, rfl, hb, rfl, Buffer.sameShape_overlaid b _ _, ?_⟩
    intro hlaid
    exact hlaid.overlaid (hlaid.stop_encode_le hwidth.symm hi _)
  | writeByte place i byte =>
    obtain ⟨b, hb, after, hwrite, rfl⟩ := change_eq_ok.1 h
    obtain ⟨hi, rfl⟩ := Buffer.writeByte_eq_ok hwrite
    refine .inr ⟨place, b, _, rfl, hb, rfl, Buffer.sameShape_overlaid b _ _, ?_⟩
    intro hlaid
    exact hlaid.overlaid hi

theorem laidOut_step (hs : ∀ b ∈ s, b.LaidOut) (h : s.step call = .ok s') :
    ∀ b ∈ s', b.LaidOut := by
  intro b' hb'
  rcases step_cases h with ⟨b, rfl, hb⟩ | ⟨place, b, after, _, hb, rfl, _, hafter⟩
  · rcases List.mem_append.1 hb' with hold | hnew
    · exact hs b' hold
    · obtain rfl := List.mem_singleton.1 hnew
      exact hb.elim id (hs b')
  · rcases List.mem_or_eq_of_mem_set hb' with hold | rfl
    · exact hs b' hold
    · exact hafter (hs b (List.mem_of_getElem? hb))

theorem KeepsShapes.refl (s : Buffers) : s.KeepsShapes s :=
  fun _ b hb => ⟨b, hb, .refl b⟩

theorem KeepsShapes.trans {s'' : Buffers} (h : s''.KeepsShapes s') (h' : s'.KeepsShapes s) :
    s''.KeepsShapes s := by
  intro place b hb
  obtain ⟨b', hb', hshape⟩ := h' place b hb
  obtain ⟨b'', hb'', hshape'⟩ := h place b' hb'
  exact ⟨b'', hb'', hshape'.trans hshape⟩

theorem keepsShapes_step (h : s.step call = .ok s') : s'.KeepsShapes s := by
  intro place b hb
  rcases step_cases h with ⟨new, rfl, _⟩ | ⟨changed, before, after, _, hbefore, rfl, hshape, _⟩
  · have hlt := (List.getElem?_eq_some_iff.1 hb).1
    exact ⟨b, (List.getElem?_append_left hlt).trans hb, .refl b⟩
  · by_cases hplace : changed = place
    · subst hplace
      obtain rfl := Option.some.inj (hb.symm.trans hbefore)
      exact ⟨after, List.getElem?_set_self (List.getElem?_eq_some_iff.1 hb).1, hshape⟩
    · exact ⟨b, (List.getElem?_set_ne hplace).trans hb, .refl b⟩

/-- A buffer that a call does not write to is as it was. -/
theorem getElem?_step (htarget : call.target? ≠ some place) (h : s.step call = .ok s')
    (hb : s[place]? = some b) : s'[place]? = some b := by
  rcases step_cases h with ⟨new, rfl, _⟩ | ⟨changed, _, _, hchanged, _, rfl, _, _⟩
  · exact (List.getElem?_append_left (List.getElem?_eq_some_iff.1 hb).1).trans hb
  · have hplace : changed ≠ place := by
      intro heq
      exact htarget (hchanged.trans (congrArg some heq))
    exact (List.getElem?_set_ne hplace).trans hb

/-- What holds of the buffers before calls, and is kept by each of these that succeeds, holds
after them. -/
theorem run_induction {P : Buffers → Prop} (hs : P s) (calls : List BufferCall)
    (hstep : ∀ call ∈ calls, ∀ {s s' : Buffers}, P s → s.step call = .ok s' → P s') :
    P (s.run calls) := by
  induction calls generalizing s with
  | nil => exact hs
  | cons call calls ih =>
    have hafter : P ((s.step call).toOption.getD s) := by
      cases hcall : s.step call with
      | ok s' => exact hstep call List.mem_cons_self hs hcall
      | error failure => exact hs
    exact ih hafter fun later hlater => hstep later (List.mem_cons_of_mem call hlater)

theorem Reached.laidOut (h : s.Reached) : ∀ b ∈ s, b.LaidOut := by
  obtain ⟨calls, rfl⟩ := h
  exact run_induction (fun _ hb => absurd hb List.not_mem_nil) calls fun _ _ => laidOut_step

theorem keepsShapes_run (s : Buffers) (calls : List BufferCall) : (s.run calls).KeepsShapes s :=
  run_induction (.refl s) calls fun _ _ _ _ h hcall => (keepsShapes_step hcall).trans h

theorem getElem?_run {calls : List BufferCall} (hb : s[place]? = some b)
    (hcalls : ∀ call ∈ calls, call.target? ≠ some place) : (s.run calls)[place]? = some b :=
  run_induction (P := fun s => s[place]? = some b) hb calls
    fun call hcall _ _ hheld hstep => getElem?_step (hcalls call hcall) hstep hheld

/-! ## The laws of a buffer -/

theorem step_write {α : Type} [PlainData α] (hb : s[place]? = some b) (hlaid : b.LaidOut)
    (hwidth : PlainData.width α = b.width) {i : Nat} (hi : i < b.size) (a : α) :
    s.step (.write place i a) = .ok (s.set place (b.put i (toBits a))) :=
  change_eq_ok.2 ⟨b, hb, _, hlaid.writeAs_of_lt hwidth hi a, rfl⟩

theorem step_writeByte (hb : s[place]? = some b) {i : Nat} (hi : i < b.used) (byte : UInt8) :
    s.step (.writeByte place i byte) = .ok (s.set place (b.overlaid i [byte])) :=
  change_eq_ok.2 ⟨b, hb, _, Buffer.writeByte_of_lt hi, rfl⟩

theorem step_clone (hb : s[place]? = some b) : s.step (.clone place) = .ok (s ++ [b]) :=
  gain_eq_ok.2 ⟨b, liftM_fault_eq_ok.2 (held_eq_ok.2 hb), rfl⟩

/-- Buffers that any calls lead to are laid out, show their bytes, and keep their shapes
whatever is called next.  Each stays as it is but for writes to its own place, so a clone and
what it was taken from go their own ways.  Writing an element as a value of a type of the
buffer's width replaces this element and no other, and writing a byte this byte and no other.
A new buffer is had exactly if its elements have a width and its size is served, which is
said of the ideal allocator of `reserve`.  Whatever serves it, it is of the width and size
asked for, and holds zeros or the values given. -/
theorem Reached.laidOut_and_views_agree (h : s.Reached) :
    (∀ (place : Nat) (b : Buffer), s[place]? = some b →
      b.LaidOut ∧ b.ShowsBytes ∧
      (∀ calls, ∃ later, (s.run calls)[place]? = some later ∧ later.SameShape b) ∧
      (∀ calls, (∀ call ∈ calls, call.target? ≠ some place) →
        (s.run calls)[place]? = some b) ∧
      (∀ (α : Type) [PlainData α] (i : Nat) (a : α), PlainData.width α = b.width → i < b.size →
        ∃ after, s.step (.write place i a) = .ok (s.set place after) ∧
          after.ElementReplaced b i a) ∧
      (∀ (i : Nat) (byte : UInt8), i < b.used →
        ∃ after, s.step (.writeByte place i byte) = .ok (s.set place after) ∧
          after.Overwritten b i [byte]) ∧
      s.step (.clone place) = .ok (s ++ [b])) ∧
    (∀ (length width : Nat),
      ((∃ s', s.step (.zeroed length width) = .ok s') ↔
        0 < width ∧ length * width < allocationLimit) ∧
      ∀ s', s.step (.zeroed length width) = .ok s' → ∃ b, s' = s ++ [b] ∧
        b.width = width ∧ b.size = length ∧ b.bytes = Array.replicate (length * width) 0) ∧
    ∀ (α : Type) [PlainData α] (values : Array α),
      ((∃ s', s.step (.ofArray values) = .ok s') ↔
        values.size * PlainData.width α < allocationLimit) ∧
      ∀ s', s.step (.ofArray values) = .ok s' → ∃ b, s' = s ++ [b] ∧
        b.width = PlainData.width α ∧ b.size = values.size ∧ b.viewAs α = .ok values ∧
        b.bytes.toList = values.toList.flatMap fun a => LittleEndian.encode (toBits a) := by
  refine ⟨?_, ?_, ?_⟩
  · intro place b hb
    have hlaid := h.laidOut b (List.mem_of_getElem? hb)
    refine ⟨hlaid, hlaid.showsBytes, ?_, ?_, ?_, ?_, step_clone hb⟩
    · exact fun calls => keepsShapes_run s calls place b hb
    · exact fun calls hcalls => getElem?_run hb hcalls
    · intro α _ i a hwidth hi
      exact ⟨_, step_write hb hlaid hwidth hi a, hlaid.elementReplaced hwidth hi a⟩
    · intro i byte hi
      exact ⟨_, step_writeByte hb hi byte, hlaid.overwritten hi⟩
  · intro length width
    refine ⟨?_, ?_⟩
    · rw [← Buffer.exists_zeroed_iff]
      exact exists_gain_iff
    · intro s' hs'
      obtain ⟨b, hb, rfl⟩ := gain_eq_ok.1 hs'
      have hnew := liftM_error_eq_ok.1 hb
      have hholds := Buffer.holds_of_zeroed hnew
      exact ⟨b, rfl, hholds.width_eq, hholds.size_eq, Buffer.bytes_of_zeroed hnew⟩
  · intro α _ values
    refine ⟨?_, ?_⟩
    · rw [← Buffer.exists_ofArray_iff]
      exact exists_gain_iff
    · intro s' hs'
      obtain ⟨b, hb, rfl⟩ := gain_eq_ok.1 hs'
      have hnew := liftM_error_eq_ok.1 hb
      have hholds := Buffer.holds_of_ofValues hnew
      exact ⟨b, rfl, hholds.width_eq, hholds.size_eq.trans Array.size_map,
        Buffer.viewAs_of_ofArray hnew, Buffer.bytes_of_ofArray hnew⟩

/-- The words 1 and 2^32 - 1. -/
def wordsBuffer : Buffer :=
  ⟨#[1, 0, 0, 0, 0xFF, 0xFF, 0xFF, 0xFF, 0, 0, 0, 0, 0, 0, 0, 0], 8, 4⟩

/-- A clone of it, with -2 for the first word and the last byte cleared. -/
def editedClone : Buffer :=
  ⟨#[0xFE, 0xFF, 0xFF, 0xFF, 0xFF, 0xFF, 0xFF, 0, 0, 0, 0, 0, 0, 0, 0, 0], 8, 4⟩

theorem reached_words : Reached [wordsBuffer, editedClone] := by
  have hwords : step [] (.ofArray (#[1, 0xFFFFFFFF] : Array UInt32)) = .ok [wordsBuffer] := by
    rw [step, Buffer.ofArray, List.map_toArray]
    rfl
  refine ⟨[.ofArray (#[1, 0xFFFFFFFF] : Array UInt32), .clone 0, .write 1 0 (-2 : Int32),
    .writeByte 1 7 0], ?_⟩
  rw [run, List.foldl_cons, hwords]
  rfl

/-- In the clone the second word is written as -3 and read back as 2^32 - 3. -/
theorem laidOut_and_views_agree_words :
    Reached [wordsBuffer, editedClone] ∧
      ([wordsBuffer, editedClone] : Buffers)[1]? = some editedClone ∧
      (PlainData.width UInt16 ≠ editedClone.width ∧
        editedClone.viewAs UInt16 = .error (.viewWidth 4 2)) ∧
      (PlainData.width Int32 = editedClone.width ∧ 1 < editedClone.size ∧
        ∃ after, step [wordsBuffer, editedClone] (.write 1 1 (-3 : Int32)) =
            .ok [wordsBuffer, after] ∧
          after.readAs UInt32 0 = editedClone.readAs UInt32 0 ∧
          ∃ c : UInt32, after.readAs UInt32 1 = .ok c ∧ (toBits c).toNat = 0xFFFFFFFD) ∧
      ((∀ call ∈ [BufferCall.writeByte 0 0 9], call.target? ≠ some 1) ∧
        (run [wordsBuffer, editedClone] [.writeByte 0 0 9])[1]? = some editedClone) ∧
      (7 < editedClone.used ∧
        ∃ after, step [wordsBuffer, editedClone] (.writeByte 1 7 5) = .ok [wordsBuffer, after] ∧
          after.bytes[7]? = some 5) ∧
      (∃ s', step [wordsBuffer, editedClone] (.zeroed 3 2) = .ok s' ∧
        ∃ b, s' = [wordsBuffer, editedClone, b] ∧ b.bytes = Array.replicate 6 0) ∧
      ∃ s', step [wordsBuffer, editedClone] (.ofArray (#[-1, 5] : Array Int16)) = .ok s' ∧
        ∃ b, s' = [wordsBuffer, editedClone, b] ∧ b.viewAs Int16 = .ok #[-1, 5] ∧
          b.bytes.toList = [0xFF, 0xFF, 5, 0] := by
  obtain ⟨hheld, hzeroed, harray⟩ := reached_words.laidOut_and_views_agree
  obtain ⟨_, hshows, _, hother, hwrite, hbyte, _⟩ := hheld 1 editedClone rfl
  have hviews := (hshows.other_width UInt16 (by decide)).1
  have htargets : ∀ call ∈ [BufferCall.writeByte 0 0 9], call.target? ≠ some 1 := by
    intro call hcall
    obtain rfl := List.mem_singleton.1 hcall
    decide
  refine ⟨reached_words, rfl, ⟨by decide, hviews⟩, ⟨rfl, by decide, ?_⟩,
    ⟨htargets, hother _ htargets⟩, ⟨by decide, ?_⟩, ?_, ?_⟩
  · obtain ⟨after, hstep, hreplaced⟩ := hwrite Int32 1 (-3) rfl (by decide)
    obtain ⟨c, hc, hbits⟩ := hreplaced.same_bits UInt32 rfl
    exact ⟨after, hstep, hreplaced.others UInt32 0 (by decide), c, hc, hbits.trans (by decide)⟩
  · obtain ⟨after, hstep, hover⟩ := hbyte 7 5 (by decide)
    exact ⟨after, hstep, hover.covered 7 (by decide) (by decide)⟩
  · obtain ⟨hiff, hnew⟩ := hzeroed 3 2
    obtain ⟨s', hs'⟩ := hiff.2 (by decide)
    obtain ⟨b, rfl, _, _, hbytes⟩ := hnew s' hs'
    exact ⟨_, hs', b, rfl, hbytes⟩
  · obtain ⟨hiff, hnew⟩ := harray Int16 #[-1, 5]
    obtain ⟨s', hs'⟩ := hiff.2 (by decide)
    obtain ⟨b, rfl, _, _, hview, hbytes⟩ := hnew s' hs'
    exact ⟨_, hs', b, rfl, hview, hbytes⟩

end Buffers

end ColumnStore
