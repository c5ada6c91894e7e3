/-!
# Blanks, lines and words of a text

Which characters separate words and which end a line. Both classes reach beyond ASCII: every line
break is a blank (`isBlank_of_isLineBreak`), but not the other way round, so a line may hold tabs,
no-break spaces and the like.

`lines` cuts a text at its line breaks and `words` at its blanks. A line break at the very end
opens no further line, and no word is empty. Both work on lists of characters (`splitLines`,
`splitWords`), where the laws are stated.
-/

namespace ThreadedForth.Text

/-! ## Blanks and line breaks -/

/-- The characters that separate words: tab to carriage return, the four separator controls and
the space, and the spaces and separators of the later blocks. -/
def isBlank (c : Char) : Bool :=
  let n := c.toNat
  (0x09 ≤ n && n ≤ 0x0D) || (0x1C ≤ n && n ≤ 0x20) || n == 0x85 || n == 0xA0 || n == 0x1680 ||
    (0x2000 ≤ n && n ≤ 0x200A) || n == 0x2028 || n == 0x2029 || n == 0x202F || n == 0x205F ||
    n == 0x3000

/-- The characters that end a line; a carriage return with a line feed after it counts once. -/
def isLineBreak (c : Char) : Bool :=
  let n := c.toNat
  (0x0A ≤ n && n ≤ 0x0D) || (0x1C ≤ n && n ≤ 0x1E) || n == 0x85 || n == 0x2028 || n == 0x2029

/-- The blanks that may stand around a number: all but the four separator controls. -/
def isNumeralBlank (c : Char) : Bool :=
  isBlank c && !(0x1C ≤ c.toNat && c.toNat ≤ 0x1F)

theorem isBlank_of_isNumeralBlank {c : Char} (h : isNumeralBlank c = true) : isBlank c = true :=
  (Bool.and_eq_true_iff.1 h).1

/-- A line break also separates words. -/
theorem isBlank_of_isLineBreak {c : Char} (h : isLineBreak c = true) : isBlank c = true := by
  simp only [isLineBreak, isBlank, Bool.or_eq_true, Bool.and_eq_true, decide_eq_true_eq,
    beq_iff_eq] at h ⊢
  omega

/-! ## Lines and words -/

/-- Puts a character in front of the first piece, opening a piece if there is none. -/
def consFirst (c : Char) : List (List Char) → List (List Char)
  | [] => [[c]]
  | piece :: pieces => (c :: piece) :: pieces

/-- The pieces between the separators, empty ones included: one more than there are separators. -/
def splitOn (sep : Char → Bool) : List Char → List (List Char)
  | [] => [[]]
  | c :: cs => if sep c then [] :: splitOn sep cs else consFirst c (splitOn sep cs)

/-- The words: the non-empty pieces between blanks. -/
def splitWords (cs : List Char) : List (List Char) :=
  (splitOn isBlank cs).filter fun piece => !piece.isEmpty

/-- The lines, without the characters that end them. -/
def splitLines : List Char → List (List Char)
  | [] => []
  | '\r' :: '\n' :: cs => [] :: splitLines cs
  | c :: cs => if isLineBreak c then [] :: splitLines cs else consFirst c (splitLines cs)

/-- The words of a text, in order. -/
def words (text : String) : List String :=
  (splitWords text.toList).map String.ofList

/-- The lines of a text, in order. -/
def lines (text : String) : List String :=
  (splitLines text.toList).map String.ofList

/-- The words in a row, with one space between two of them. -/
def unwords (words : List String) : String :=
  " ".intercalate words

/-- A text with each carriage return, alone or before a line feed, read as one line feed. -/
def unifyNewlines : List Char → List Char
  | [] => []
  | '\r' :: '\n' :: cs => '\n' :: unifyNewlines cs
  | c :: cs => (if c = '\r' then '\n' else c) :: unifyNewlines cs

/-- The lines of a text in which only the line feed ends a line; an unended last line counts. -/
def splitNewlines : List Char → List (List Char)
  | [] => []
  | c :: cs => if c = '\n' then [] :: splitNewlines cs else consFirst c (splitNewlines cs)

/-! ## Small laws -/

theorem splitOn_ne_nil (sep : Char → Bool) (cs : List Char) : splitOn sep cs ≠ [] := by
  cases cs with
  | nil => simp [splitOn]
  | cons c cs =>
    rw [splitOn]
    split
    · simp
    · cases splitOn sep cs <;> simp [consFirst]

/-- A separator ends the pieces before it and starts the pieces after it. -/
theorem splitOn_append_cons (sep : Char → Bool) (a b : List Char) {c : Char} (h : sep c = true) :
    splitOn sep (a ++ c :: b) = splitOn sep a ++ splitOn sep b := by
  induction a with
  | nil => simp [splitOn, h]
  | cons d a ih =>
    rw [List.cons_append, splitOn, splitOn, ih]
    split
    · rfl
    · cases hs : splitOn sep a with
      | nil => exact absurd hs (splitOn_ne_nil sep a)
      | cons piece pieces => rfl

/-- Words on the two sides of a blank are found separately. -/
theorem splitWords_append_cons (a b : List Char) {c : Char} (h : isBlank c = true) :
    splitWords (a ++ c :: b) = splitWords a ++ splitWords b := by
  rw [splitWords, splitOn_append_cons isBlank a b h, List.filter_append]
  rfl

end ThreadedForth.Text
