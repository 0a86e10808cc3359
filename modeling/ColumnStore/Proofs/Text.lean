import ColumnStore.Text.Cut
import Mathlib.Data.List.Basic

/-!
# Stretches and words

What cutting a text gives is said without cutting.  The stretches between separators are
those that have no separator in them and give the text when joined (`cut_eq_iff`).  The words
are what is left between blanks: a text spells its words if it consists of them, each
unbroken, with blanks before, between and after (`Spells`, `words_eq_iff`).  Every text
spells some words, and no others.
-/

namespace ColumnStore.Text

variable {isSeparator : Char → Bool} {separator : Char} {text stretch gap word rest : List Char}
  {stretches ws : List (List Char)}

/-! ## Stretches -/

theorem cut_eq_splitOnP (isSeparator : Char → Bool) (text : List Char) :
    cut isSeparator text = text.splitOnP isSeparator := by
  induction text with
  | nil => rfl
  | cons c rest ih =>
    rw [cut, List.splitOnP_cons_eq_if_modifyHead, ih]
    split
    · rfl
    · cases hrest : rest.splitOnP isSeparator with
      | nil => exact absurd hrest (List.splitOnP_ne_nil _ _)
      | cons stretch others => rfl

theorem free_of_mem_cut (h : stretch ∈ cut isSeparator text) :
    ∀ c ∈ stretch, isSeparator c = false := by
  induction text generalizing stretch with
  | nil =>
    obtain rfl := List.mem_singleton.1 h
    simp
  | cons c rest ih =>
    rw [cut] at h
    split at h
    · rcases List.mem_cons.1 h with rfl | hrest
      · simp
      · exact ih hrest
    · rename_i hfree
      split at h
      · obtain rfl := List.mem_singleton.1 h
        simpa using hfree
      · rename_i first others hcut
        rw [hcut] at ih
        rcases List.mem_cons.1 h with rfl | hother
        · intro c' hc'
          rcases List.mem_cons.1 hc' with rfl | hfirst
          · simpa using hfree
          · exact ih List.mem_cons_self c' hfirst
        · exact ih (List.mem_cons_of_mem _ hother)

/-- The text is that of the stretches, joined by the separator, and none of them has it. -/
structure Joined (separator : Char) (stretches : List (List Char)) (text : List Char) :
    Prop where
  nonempty : stretches ≠ []
  free : ∀ stretch ∈ stretches, separator ∉ stretch
  text_eq : text = [separator].intercalate stretches

/-- The stretches of a text are those that join to it. -/
theorem cut_eq_iff : cut (· = separator) text = stretches ↔ Joined separator stretches text := by
  have hsplit : cut (· = separator) text = text.splitOn separator := by
    rw [cut_eq_splitOnP, List.splitOn_eq_splitOnP]
    rfl
  constructor
  · rintro rfl
    refine ⟨cut_ne_nil _ _, ?_, ?_⟩
    · intro stretch hstretch hmem
      simpa using free_of_mem_cut hstretch separator hmem
    · rw [hsplit, List.intercalate_splitOn]
  · rintro ⟨hne, hfree, rfl⟩
    rw [hsplit, List.splitOn_intercalate separator hfree hne]

/-! ## Words -/

/-- The text consists of the words, unbroken and not empty, with blanks around them and at
least one between two. -/
inductive Spells : List Char → List (List Char) → Prop where
  | nil {gap : List Char} (hgap : ∀ c ∈ gap, isBlank c = true) : Spells gap []
  | cons {gap word rest : List Char} {ws : List (List Char)} (hgap : ∀ c ∈ gap, isBlank c = true)
      (hne : word ≠ []) (hword : ∀ c ∈ word, isBlank c = false)
      (hend : ∀ c ∈ rest.head?, isBlank c = true) (hrest : Spells rest ws) :
      Spells (gap ++ word ++ rest) (word :: ws)

theorem words_blank_cons {c : Char} (hc : isBlank c = true) (text : List Char) :
    words (c :: text) = words text := by
  rw [words, cut, if_pos hc]
  rfl

theorem words_gap_append (hgap : ∀ c ∈ gap, isBlank c = true) (text : List Char) :
    words (gap ++ text) = words text := by
  induction gap with
  | nil => rfl
  | cons c gap ih =>
    rw [List.cons_append, words_blank_cons (hgap c List.mem_cons_self)]
    exact ih fun c' hc' => hgap c' (List.mem_cons_of_mem c hc')

/-- A word that ends where the text ends or a blank follows comes first. -/
theorem words_word_append (hne : word ≠ []) (hword : ∀ c ∈ word, isBlank c = false)
    (hend : ∀ c ∈ rest.head?, isBlank c = true) : words (word ++ rest) = word :: words rest := by
  have hkept : ∀ others : List (List Char),
      (word :: others).filter (!·.isEmpty) = word :: others.filter (!·.isEmpty) :=
    fun others => List.filter_cons_of_pos (by simpa using hne)
  cases rest with
  | nil =>
    rw [List.append_nil, words, cut_eq_splitOnP, List.splitOnP_eq_singleton hword, hkept]
    rfl
  | cons c rest =>
    have hc : isBlank c = true := hend c rfl
    rw [words_blank_cons hc, words, words, cut_eq_splitOnP, cut_eq_splitOnP,
      List.splitOnP_append_cons_of_forall_mem hword c hc, hkept]

theorem words_single (hne : word ≠ []) (hword : ∀ c ∈ word, isBlank c = false) :
    words word = [word] := by
  have hend : ∀ c ∈ ([] : List Char).head?, isBlank c = true := by simp
  have hlast := words_word_append hne hword hend
  rwa [List.append_nil] at hlast

theorem words_append_blank {c : Char} (hne : word ≠ []) (hword : ∀ c ∈ word, isBlank c = false)
    (hc : isBlank c = true) (rest : List Char) :
    words (word ++ c :: rest) = word :: words rest := by
  have hend : ∀ c' ∈ (c :: rest).head?, isBlank c' = true := by
    intro c' hc'
    obtain rfl : c = c' := Option.some.inj hc'
    exact hc
  rw [words_word_append hne hword hend, words_blank_cons hc]

theorem Spells.words_eq (h : Spells text ws) : words text = ws := by
  induction h with
  | @nil gap hgap =>
    rw [← List.append_nil gap, words_gap_append hgap]
    rfl
  | cons hgap hne hword hend _ ih =>
    rw [List.append_assoc, words_gap_append hgap, words_word_append hne hword hend, ih]

theorem Spells.blank_cons {c : Char} (hc : isBlank c = true) (h : Spells text ws) :
    Spells (c :: text) ws := by
  cases h with
  | nil hgap => exact .nil (List.forall_mem_cons.2 ⟨hc, hgap⟩)
  | cons hgap hne hword hend hrest =>
    exact .cons (List.forall_mem_cons.2 ⟨hc, hgap⟩) hne hword hend hrest

/-- A character that is not blank lengthens the word behind it, or is a word of its own if a
blank or nothing is behind it. -/
theorem Spells.exists_cons {c : Char} (hc : isBlank c = false) (h : Spells text ws) :
    ∃ ws', Spells (c :: text) ws' := by
  have hnone : ∀ c' ∈ ([] : List Char), isBlank c' = true := by simp
  have hsingle : ∀ c' ∈ [c], isBlank c' = false := by simpa using hc
  cases h with
  | nil hgap =>
    have hend : ∀ c' ∈ text.head?, isBlank c' = true := fun c' hc' =>
      hgap c' (List.mem_of_mem_head? hc')
    exact ⟨_, .cons hnone (List.cons_ne_nil c []) hsingle hend (.nil hgap)⟩
  | @cons gap word rest ws hgap hne hword hend hrest =>
    cases gap with
    | nil =>
      have hlonger : ∀ c' ∈ c :: word, isBlank c' = false := List.forall_mem_cons.2 ⟨hc, hword⟩
      exact ⟨_, .cons hnone (List.cons_ne_nil c word) hlonger hend hrest⟩
    | cons first gap =>
      have hfirst : ∀ c' ∈ (first :: gap ++ word ++ rest).head?, isBlank c' = true := by
        intro c' hc'
        obtain rfl : first = c' := Option.some.inj hc'
        exact hgap first List.mem_cons_self
      exact ⟨_, .cons hnone (List.cons_ne_nil c []) hsingle hfirst
        (.cons hgap hne hword hend hrest)⟩

theorem exists_spells (text : List Char) : ∃ ws, Spells text ws := by
  induction text with
  | nil => exact ⟨[], .nil (by simp)⟩
  | cons c text ih =>
    obtain ⟨ws, h⟩ := ih
    cases hc : isBlank c with
    | true => exact ⟨ws, h.blank_cons hc⟩
    | false => exact h.exists_cons hc

/-- The words of a text are those that it spells. -/
theorem words_eq_iff : words text = ws ↔ Spells text ws := by
  constructor
  · rintro rfl
    obtain ⟨ws, h⟩ := exists_spells text
    rw [h.words_eq]
    exact h
  · exact Spells.words_eq

end ColumnStore.Text
