import ThreadedForth.Proofs.Reading
import ThreadedForth.Proofs.Tokens
import ThreadedForth.Vocabulary

/-!
# Queued line by line

A text is queued line by line, with a mark after each line, and yet its words are those of the whole
text: a line break is a blank, so to cut at line breaks first and at blanks then is to cut at blanks
once (`Text.flatMap_words_lines`). The marks are as many as the lines, the last of them at the end, and
between two of them stand the words of one line (`Input.splitOn_ofRows`).
-/

namespace ThreadedForth

variable {Ext : Type}

namespace Text

/-- Puts characters in front of the first piece, opening a piece if there is none. -/
def appendFirst (front : List Char) : List (List Char) → List (List Char)
  | [] => [front]
  | piece :: pieces => (front ++ piece) :: pieces

theorem appendFirst_consFirst (front : List Char) (c : Char) (pieces : List (List Char)) :
    appendFirst front (consFirst c pieces) = appendFirst (front ++ [c]) pieces := by
  cases pieces with
  | nil => rfl
  | cons piece pieces => simp [appendFirst, consFirst]

theorem flatMap_splitWords_appendFirst_nil (pieces : List (List Char)) :
    (appendFirst [] pieces).flatMap splitWords = pieces.flatMap splitWords := by
  cases pieces with
  | nil => rfl
  | cons piece pieces => rfl

/-- The words of the lines are the words of what the lines make up, with whatever stands before the
first line. -/
theorem flatMap_splitWords_appendFirst (front cs : List Char) :
    (appendFirst front (splitLines cs)).flatMap splitWords = splitWords (front ++ cs) := by
  -- a line break ends the words before it, as any blank does
  have hbreak : ∀ {c : Char} (front cs : List Char), isLineBreak c = true →
      splitWords (front ++ c :: cs) = splitWords front ++ splitWords cs := fun front cs hc =>
    splitWords_append_cons front cs (isBlank_of_isLineBreak hc)
  fun_induction splitLines cs generalizing front with
  | case1 => rw [appendFirst, List.flatMap_singleton, List.append_nil]
  | case2 cs ih =>
    have hlines := ih []
    rw [flatMap_splitWords_appendFirst_nil, List.nil_append] at hlines
    rw [appendFirst, List.flatMap_cons, List.append_nil, hlines, hbreak front _ (by decide)]
    exact congrArg (splitWords front ++ ·) (hbreak [] cs (by decide)).symm
  | case3 c cs _ hc ih =>
    have hlines := ih []
    rw [flatMap_splitWords_appendFirst_nil, List.nil_append] at hlines
    rw [appendFirst, List.flatMap_cons, List.append_nil, hlines, hbreak front cs hc]
  | case4 c cs _ _ ih =>
    rw [appendFirst_consFirst, ih, List.append_assoc, List.singleton_append]

theorem flatMap_words_lines (text : String) : (lines text).flatMap words = words text := by
  have hwords := flatMap_splitWords_appendFirst [] text.toList
  rw [flatMap_splitWords_appendFirst_nil, List.nil_append] at hwords
  rw [words, ← hwords, lines, List.map_flatMap, List.flatMap_map]
  simp only [words, String.toList_ofList]

theorem consFirst_ne_nil (c : Char) (pieces : List (List Char)) : consFirst c pieces ≠ [] := by
  cases pieces <;> exact List.cons_ne_nil _ _

theorem splitLines_ne_nil {cs : List Char} (h : cs ≠ []) : splitLines cs ≠ [] := by
  fun_cases splitLines cs with
  | case1 => exact absurd rfl h
  | case2 cs => exact List.cons_ne_nil _ _
  | case3 c cs => exact List.cons_ne_nil _ _
  | case4 c cs => exact consFirst_ne_nil c _

/-- A text that is not empty has a line. -/
theorem lines_ne_nil {text : String} (h : text ≠ "") : lines text ≠ [] := by
  have hne : text.toList ≠ [] := fun h0 => h (String.toList_eq_nil_iff.1 h0)
  rw [lines, ne_eq, List.map_eq_nil_iff]
  exact splitLines_ne_nil hne

end Text

namespace Input

/-- The words of lines, with a mark after each line. -/
def ofRows (rows : List (List String)) : Input :=
  rows.flatMap fun row => row.map Item.word ++ [.lineEnd]

theorem ofText_eq_ofRows (text : String) :
    ofText text = ofRows ((Text.lines text).map Text.words) := by
  rw [ofText, ofRows, List.flatMap_map]
  rfl

theorem ofRows_cons (row : List String) (rows : List (List String)) :
    ofRows (row :: rows) = row.map Item.word ++ .lineEnd :: ofRows rows := by
  rw [ofRows, List.flatMap_cons, List.append_assoc]
  rfl

theorem lineEnd_not_mem_map_word (row : List String) : Item.lineEnd ∉ row.map Item.word := by
  simp

theorem words_map_word (row : List String) : words (row.map Item.word) = row := by
  induction row with
  | nil => rfl
  | cons token row ih => exact congrArg (token :: ·) ih

theorem words_ofRows (rows : List (List String)) : words (ofRows rows) = rows.flatten := by
  induction rows with
  | nil => rfl
  | cons row rows ih => rw [ofRows_cons, words_append, words_map_word, words, ih, List.flatten_cons]

theorem count_ofRows (rows : List (List String)) : (ofRows rows).count .lineEnd = rows.length := by
  induction rows with
  | nil => rfl
  | cons row rows ih =>
    rw [ofRows_cons, List.count_append, List.count_cons_self, ih,
      List.count_eq_zero.2 (lineEnd_not_mem_map_word row), List.length_cons, Nat.zero_add]

theorem splitOn_ofRows (rows : List (List String)) :
    (ofRows rows).splitOn .lineEnd = rows.map (List.map Item.word) ++ [[]] := by
  induction rows with
  | nil => rfl
  | cons row rows ih =>
    rw [ofRows_cons, List.splitOn_append_cons_self, ih,
      List.splitOn_eq_singleton (lineEnd_not_mem_map_word row)]
    rfl

theorem ofRows_eq_concat {rows : List (List String)} (h : rows ≠ []) :
    ∃ front, ofRows rows = front ++ [.lineEnd] := by
  obtain ⟨before, last, rfl⟩ : ∃ before last, rows = before ++ [last] :=
    ⟨_, _, (List.dropLast_concat_getLast h).symm⟩
  refine ⟨ofRows before ++ last.map Item.word, ?_⟩
  rw [ofRows, List.flatMap_append, List.flatMap_singleton, ← List.append_assoc]
  rfl

/-- The words that a text brings are the words of the whole text. -/
theorem words_ofText (text : String) : words (ofText text) = Text.words text := by
  rw [ofText_eq_ofRows, words_ofRows, ← List.flatMap_def, Text.flatMap_words_lines]

end Input

/-- Whatever is pending, a text adds some pieces behind it. The pending words are then those from before
and the words of the whole text. No added word is empty or has a blank in it, so none is a line feed. If
there is a text, the last piece is a mark; there are as many marks as lines; and to divide the pieces at
the marks gives the words of the lines, one line after the other, and nothing behind the last mark.
Conversely, any words in a row, with a space between two of them, are the words of the text that they
make. -/
theorem queue_line_by_line (m : Machine Ext) (text : String) : ∃ added,
    Action.queue text m = .ok () { m with pending := m.pending ++ added } ∧
    Input.words (m.pending ++ added) = Input.words m.pending ++ Text.words text ∧
    (∀ token, Item.word token ∈ added →
      token ≠ "" ∧ (∀ c ∈ token.toList, Text.isBlank c = false) ∧ token ≠ "\n") ∧
    (text ≠ "" → ∃ front, added = front ++ [.lineEnd]) ∧
    added.count .lineEnd = (Text.lines text).length ∧
    added.splitOn .lineEnd =
      (Text.lines text).map (fun line => (Text.words line).map Item.word) ++ [[]] ∧
    ∀ tokens : List String, (∀ t ∈ tokens, t ≠ "" ∧ ∀ c ∈ t.toList, Text.isBlank c = false) →
      Text.words (Text.unwords tokens) = tokens := by
  refine ⟨Input.ofText text, rfl, ?_, fun token htoken => ?_, fun hne => ?_, ?_, ?_,
    fun tokens => Text.words_unwords⟩
  · rw [Input.words_append, Input.words_ofText]
  · have hword := Input.isWord_of_mem_ofText (Input.mem_words_iff.2 htoken)
    refine ⟨hword.1, hword.2, ?_⟩
    rintro rfl
    exact absurd hword (by decide)
  · rw [Input.ofText_eq_ofRows]
    exact Input.ofRows_eq_concat (by simpa using Text.lines_ne_nil hne)
  · rw [Input.ofText_eq_ofRows, Input.count_ofRows, List.length_map]
  · rw [Input.ofText_eq_ofRows, Input.splitOn_ofRows, List.map_map]
    rfl

/-- A carriage return with its line feed ends one line, and a form feed another; the blank line between
them has a mark of its own. -/
theorem queue_three_lines : ∃ added,
    Action.queue "1 dup\r\n\x0c\t* ." { (Machine.fresh .standard : Machine Empty) with
        pending := [.word "cr"] } =
      .ok () { Machine.fresh .standard with pending := .word "cr" :: added } ∧
    Input.words (.word "cr" :: added) = ["cr", "1", "dup", "*", "."] ∧ added.count .lineEnd = 3 := by
  obtain ⟨added, hrun, hwords, -, -, hcount, -⟩ := queue_line_by_line
    { (Machine.fresh .standard : Machine Empty) with pending := [.word "cr"] } "1 dup\r\n\x0c\t* ."
  refine ⟨added, hrun, hwords.trans (by decide +kernel), hcount.trans (by decide +kernel)⟩

end ThreadedForth
