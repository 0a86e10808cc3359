import ColumnStore.Text.Blank

/-!
# Cutting text

A text is cut at every separator (`cut`); cut at blanks, the stretches that
are not empty are its words (`words`). `trim` drops the blanks at both ends.
Letters are compared without regard to case within ASCII alone.
-/

namespace ColumnStore.Text

/-- The stretches of a text between separators. There is always one more
stretch than there are separators. -/
def cut (isSeparator : Char → Bool) : List Char → List (List Char)
  | [] => [[]]
  | c :: rest =>
    if isSeparator c then
      [] :: cut isSeparator rest
    else
      match cut isSeparator rest with
      | [] => [[c]]
      | stretch :: others => (c :: stretch) :: others

/-- The longest runs of characters that are not blank, in order. -/
def words (text : List Char) : List (List Char) :=
  (cut isBlank text).filter (!·.isEmpty)

/-- A text without the blanks at its start. -/
def dropBlanks (text : List Char) : List Char :=
  text.dropWhile isBlank

/-- A text without the blanks at its two ends. -/
def trim (text : List Char) : List Char :=
  (dropBlanks (dropBlanks text).reverse).reverse

/-- Whether two texts are the same but for the case of ASCII letters. -/
def sameIgnoringCase (a b : String) : Bool :=
  a.toList.map Char.toLower == b.toList.map Char.toLower

theorem cut_ne_nil (isSeparator : Char → Bool) (text : List Char) : cut isSeparator text ≠ [] := by
  cases text with
  | nil => simp [cut]
  | cons c rest =>
    rw [cut]
    split
    · simp
    · split <;> simp

end ColumnStore.Text
