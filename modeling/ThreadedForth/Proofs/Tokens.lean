import ThreadedForth.Input

/-!
# Words and lines that are read back

Words in a row, with a space between two of them, are cut into the same words (`words_unwords`), and
lines joined by line feeds into the same lines, but for an empty line at the end
(`Input.ofText_intercalate`). What a text brings does not depend on what follows it, after a space or a
line feed, but for a mark at its end (`Input.ofText_append`). Whatever a text is, its words are not
empty and have no blanks (`isWord_of_mem_words`).
-/

namespace ThreadedForth

namespace Text

/-- The text is a single word: it is not empty, and has no blanks. -/
def IsWord (s : String) : Prop :=
  s ≠ "" ∧ ∀ c ∈ s.toList, isBlank c = false

/-- The text is at most one line: it has no line breaks. -/
def IsLine (s : String) : Prop :=
  ∀ c ∈ s.toList, isLineBreak c = false

instance (s : String) : Decidable (IsWord s) :=
  decidable_of_iff (s ≠ "" ∧ s.toList.all (fun c => !isBlank c) = true) <| by
    simp [IsWord]

instance (s : String) : Decidable (IsLine s) :=
  decidable_of_iff (s.toList.all (fun c => !isLineBreak c) = true) <| by
    simp [IsLine]

/-! ## Words -/

theorem splitOn_of_none {sep : Char → Bool} {cs : List Char} (h : ∀ c ∈ cs, sep c = false) :
    splitOn sep cs = [cs] := by
  induction cs with
  | nil => rfl
  | cons c cs ih =>
    have hc : sep c = false := h c List.mem_cons_self
    rw [splitOn, ih fun d hd => h d (List.mem_cons_of_mem c hd), hc]
    rfl

theorem splitWords_of_isWord {s : String} (h : IsWord s) : splitWords s.toList = [s.toList] := by
  have hne : s.toList ≠ [] := fun h0 => h.1 (String.toList_eq_nil_iff.1 h0)
  rw [splitWords, splitOn_of_none h.2]
  simp [hne]

/-- Words in a row are the words of the text that they make. -/
theorem words_unwords {tokens : List String} (h : ∀ t ∈ tokens, IsWord t) :
    words (unwords tokens) = tokens := by
  induction tokens with
  | nil => rfl
  | cons t rest ih =>
    have ht : IsWord t := h t List.mem_cons_self
    have hrest := ih fun u hu => h u (List.mem_cons_of_mem t hu)
    by_cases hne : rest = []
    · subst hne
      rw [unwords, String.intercalate_singleton, words, splitWords_of_isWord ht]
      simp
    · -- the first space divides the first word from the others
      rw [words, unwords] at hrest ⊢
      rw [String.intercalate_cons_of_ne_nil hne, String.toList_append, String.toList_append,
        List.append_assoc]
      show (splitWords (t.toList ++ ' ' :: (" ".intercalate rest).toList)).map String.ofList = _
      rw [splitWords_append_cons _ _ (by decide), splitWords_of_isWord ht, List.map_append, hrest]
      simp

theorem forall_not_sep_of_mem_splitOn {sep : Char → Bool} {cs piece : List Char}
    (h : piece ∈ splitOn sep cs) : ∀ c ∈ piece, sep c = false := by
  induction cs generalizing piece with
  | nil =>
    obtain rfl : piece = [] := by simpa [splitOn] using h
    simp
  | cons d cs ih =>
    rw [splitOn] at h
    split at h
    · rcases List.mem_cons.1 h with rfl | h
      · simp
      · exact ih h
    · next hd =>
      cases hs : splitOn sep cs with
      | nil => exact absurd hs (splitOn_ne_nil sep cs)
      | cons first pieces =>
        rw [hs, consFirst] at h
        rw [hs, List.forall_mem_cons] at ih
        rcases List.mem_cons.1 h with rfl | h
        · exact List.forall_mem_cons.2 ⟨by simpa using hd, ih.1⟩
        · exact ih.2 piece h

/-- The words of a text are words. -/
theorem isWord_of_mem_words {s t : String} (h : t ∈ words s) : IsWord t := by
  obtain ⟨piece, hpiece, rfl⟩ := List.mem_map.1 h
  obtain ⟨hmem, hne⟩ := List.mem_filter.1 hpiece
  refine ⟨fun hempty => ?_, fun c hc => ?_⟩
  · have : piece = [] := by simpa using congrArg String.toList hempty
    simp [this] at hne
  · rw [String.toList_ofList] at hc
    exact forall_not_sep_of_mem_splitOn hmem c hc

/-! ## Lines -/

theorem splitLines_cons {c : Char} (hc : isLineBreak c = false) (cs : List Char) :
    splitLines (c :: cs) = consFirst c (splitLines cs) := by
  have hcr : c ≠ '\r' := by
    rintro rfl
    exact absurd hc (by decide)
  rw [splitLines, hc]
  · rfl
  · intro cs' hcr'
    exact absurd hcr' hcr

theorem splitLines_append_newline {cs : List Char} (h : ∀ c ∈ cs, isLineBreak c = false)
    (rest : List Char) : splitLines (cs ++ '\n' :: rest) = cs :: splitLines rest := by
  induction cs with
  | nil => rfl
  | cons c cs ih =>
    rw [List.cons_append, splitLines_cons (h c List.mem_cons_self),
      ih fun d hd => h d (List.mem_cons_of_mem c hd)]
    rfl

theorem splitLines_of_isLine {cs : List Char} (h : ∀ c ∈ cs, isLineBreak c = false)
    (hne : cs ≠ []) : splitLines cs = [cs] := by
  induction cs with
  | nil => exact absurd rfl hne
  | cons c cs ih =>
    rw [splitLines_cons (h c List.mem_cons_self)]
    cases cs with
    | nil => rfl
    | cons d cs =>
      rw [ih (fun e he => h e (List.mem_cons_of_mem c he)) (List.cons_ne_nil d cs)]
      rfl

theorem lines_of_isLine {s : String} (h : IsLine s) (hne : s ≠ "") : lines s = [s] := by
  rw [lines, splitLines_of_isLine h fun h0 => hne (String.toList_eq_nil_iff.1 h0)]
  simp

theorem lines_append_newline {s : String} (h : IsLine s) (rest : String) :
    lines (s ++ "\n" ++ rest) = s :: lines rest := by
  rw [lines, String.toList_append, String.toList_append, List.append_assoc]
  show (splitLines (s.toList ++ '\n' :: rest.toList)).map String.ofList = _
  rw [splitLines_append_newline h]
  simp [lines]

theorem IsWord.isLine {s : String} (h : IsWord s) : IsLine s := by
  intro c hc
  cases hb : isLineBreak c with
  | false => rfl
  | true => exact absurd (h.2 c hc) (by simp [isBlank_of_isLineBreak hb])

/-- A row of words has no line breaks. -/
theorem isLine_unwords {tokens : List String} (h : ∀ t ∈ tokens, IsWord t) :
    IsLine (unwords tokens) := by
  induction tokens with
  | nil => exact fun c hc => nomatch hc
  | cons t rest ih =>
    have ht : IsLine t := (h t List.mem_cons_self).isLine
    by_cases hne : rest = []
    · subst hne
      rw [unwords, String.intercalate_singleton]
      exact ht
    · have hrest := ih fun u hu => h u (List.mem_cons_of_mem t hu)
      intro c hc
      rw [unwords, String.intercalate_cons_of_ne_nil hne, String.toList_append,
        String.toList_append, List.mem_append, List.mem_append] at hc
      rcases hc with (hc | hc) | hc
      · exact ht c hc
      · obtain rfl : c = ' ' := by simpa using hc
        decide
      · exact hrest c hc

theorem getLast?_ne_of_cons {c d : Char} {cs : List Char}
    (h : d = '\n' → (c :: cs).getLast? ≠ some '\r') : d = '\n' → cs.getLast? ≠ some '\r' := by
  intro hd hcs
  cases cs with
  | nil => cases hcs
  | cons e cs => exact h hd (by simpa using hcs)

/-- A space belongs to the line that it stands in, -/
theorem splitLines_append_space {line : List Char} (h : ∀ c ∈ line, isLineBreak c = false)
    (cs : List Char) : ∃ first more, splitLines (' ' :: cs) = (' ' :: first) :: more ∧
      splitLines (line ++ ' ' :: cs) = (line ++ ' ' :: first) :: more := by
  have hspace : splitLines (' ' :: cs) = consFirst ' ' (splitLines cs) :=
    splitLines_cons (by decide) cs
  obtain ⟨first, more, hfirst⟩ : ∃ first more,
      splitLines (' ' :: cs) = (' ' :: first) :: more := by
    rw [hspace]
    cases splitLines cs with
    | nil => exact ⟨[], [], rfl⟩
    | cons first more => exact ⟨first, more, rfl⟩
  refine ⟨first, more, hfirst, ?_⟩
  induction line with
  | nil => exact hfirst
  | cons c line ih =>
    rw [List.forall_mem_cons] at h
    rw [List.cons_append, splitLines_cons h.1, ih h.2]
    rfl

/-- and what follows it makes no difference to the lines before, as long as it does not turn a carriage
return at the end into a longer line break. -/
theorem exists_last_line (cs : List Char) : ∃ front last, (∀ c ∈ last, isLineBreak c = false) ∧
    (splitLines cs = front ∧ last = [] ∨ splitLines cs = front ++ [last]) ∧
    ∀ d ds, (d = '\n' → cs.getLast? ≠ some '\r') →
      splitLines (cs ++ d :: ds) = front ++ splitLines (last ++ d :: ds) := by
  fun_induction splitLines cs with
  | case1 => exact ⟨[], [], nofun, .inl ⟨rfl, rfl⟩, fun d ds _ => rfl⟩
  | case2 cs ih =>
    obtain ⟨front, last, hlast, hcs, hds⟩ := ih
    refine ⟨[] :: front, last, hlast, ?_, fun d ds hd => ?_⟩
    · simpa using hcs
    · rw [List.cons_append, List.cons_append, splitLines,
        hds d ds (getLast?_ne_of_cons (getLast?_ne_of_cons hd))]
      rfl
  | case3 c cs hcrlf hc ih =>
    obtain ⟨front, last, hlast, hcs, hds⟩ := ih
    refine ⟨[] :: front, last, hlast, ?_, fun d ds hd => ?_⟩
    · simpa using hcs
    · rw [List.cons_append, splitLines, if_pos hc, hds d ds (getLast?_ne_of_cons hd)]
      · rfl
      · intro cs' hcr hlf
        cases cs with
        | nil =>
          cases hlf
          exact hd rfl (by rw [hcr]; rfl)
        | cons e cs =>
          cases hlf
          exact hcrlf cs hcr rfl
  | case4 c cs hcrlf hc ih =>
    obtain ⟨front, last, hlast, hcs, hds⟩ := ih
    have hc : isLineBreak c = false := by simpa using hc
    cases front with
    | nil =>
      refine ⟨[], c :: last, List.forall_mem_cons.2 ⟨hc, hlast⟩, .inr ?_, fun d ds hd => ?_⟩
      · obtain ⟨hcs, rfl⟩ | hcs := hcs
        · rw [hcs]
          rfl
        · rw [hcs]
          rfl
      · rw [List.cons_append, splitLines_cons hc, hds d ds (getLast?_ne_of_cons hd)]
        exact (splitLines_cons hc _).symm
    | cons line front =>
      refine ⟨(c :: line) :: front, last, hlast, ?_, fun d ds hd => ?_⟩
      · obtain ⟨hcs, rfl⟩ | hcs := hcs
        · rw [hcs]
          exact .inl ⟨rfl, rfl⟩
        · rw [hcs]
          exact .inr rfl
      · rw [List.cons_append, splitLines_cons hc, hds d ds (getLast?_ne_of_cons hd)]
        rfl

end Text

namespace Input

theorem mem_words_iff {q : Input} {token : String} : token ∈ words q ↔ .word token ∈ q := by
  induction q with
  | nil => simp [words]
  | cons item q ih =>
    cases item with
    | lineEnd => simpa [words] using ih
    | word t => simp [words, ih]

/-- What a text brings to the pending input are words. -/
theorem isWord_of_mem_ofText {text token : String} (h : token ∈ words (ofText text)) :
    Text.IsWord token := by
  rw [mem_words_iff, ofText, List.mem_flatMap] at h
  obtain ⟨line, _, h⟩ := h
  have hline : token ∈ Text.words line := by simpa [ofLine] using h
  exact Text.isWord_of_mem_words hline

/-- A row of words becomes a line of pending input. -/
theorem ofText_unwords {tokens : List String} (h : ∀ t ∈ tokens, Text.IsWord t)
    (hne : tokens ≠ []) : ofText (Text.unwords tokens) = tokens.map .word ++ [.lineEnd] := by
  have hw := Text.words_unwords h
  have hempty : Text.unwords tokens ≠ "" := by
    intro h0
    rw [h0] at hw
    exact hne hw.symm
  rw [ofText, Text.lines_of_isLine (Text.isLine_unwords h) hempty, List.flatMap_singleton, ofLine,
    hw]

theorem ofText_of_isLine {line : String} (h : Text.IsLine line) (hne : line ≠ "") :
    ofText line = ofLine line := by
  rw [ofText, Text.lines_of_isLine h hne, List.flatMap_singleton]

/-- The pending input of lines that are joined by line feeds: an empty line at the end is none. -/
def ofLines : List String → Input
  | [] => []
  | [line] => ofText line
  | line :: rest => ofLine line ++ ofLines rest

/-- A line takes its words and a mark off the front, unless it is an empty line at the end. -/
theorem ofLines_cons {line : String} (h : Text.IsLine line) (rest : List String) :
    ofLines (line :: rest) = ofLine line ++ ofLines rest ∨
    ofLines (line :: rest) = [] ∧ ofLine line ++ ofLines rest = [.lineEnd] := by
  cases rest with
  | cons next rest => exact .inl rfl
  | nil =>
    by_cases hne : line = ""
    · subst hne
      exact .inr ⟨rfl, rfl⟩
    · refine .inl ?_
      rw [ofLines, ofLines, ofText_of_isLine h hne, List.append_nil]

theorem ofText_intercalate {lines : List String} (h : ∀ line ∈ lines, Text.IsLine line) :
    ofText ("\n".intercalate lines) = ofLines lines := by
  induction lines with
  | nil => rfl
  | cons line rest ih =>
    cases rest with
    | nil => rw [String.intercalate_singleton, ofLines]
    | cons next rest =>
      have hrest := ih fun l hl => h l (List.mem_cons_of_mem line hl)
      rw [String.intercalate_cons_cons, ofText,
        Text.lines_append_newline (h line List.mem_cons_self), List.flatMap_cons, ← ofText, hrest]
      rfl

/-! ## Texts with a space between them -/

theorem ofText_eq_flatMap (text : String) :
    ofText text = (Text.splitLines text.toList).flatMap fun line => ofLine (String.ofList line) := by
  rw [ofText, Text.lines, List.flatMap_map]

/-- The words of the two parts of a line are pending in a row. -/
theorem ofLine_append_space (line cs : List Char) :
    ofLine (String.ofList (line ++ ' ' :: cs)) =
      (Text.words (String.ofList line)).map .word ++ ofLine (String.ofList (' ' :: cs)) := by
  have hspace : Text.splitWords (' ' :: cs) = Text.splitWords cs :=
    Text.splitWords_append_cons [] cs (by decide)
  rw [ofLine, ofLine, Text.words, Text.words, Text.words, String.toList_ofList, String.toList_ofList,
    String.toList_ofList, Text.splitWords_append_cons line cs (by decide), hspace]
  simp

/-- What follows a line after a space goes on in it. -/
theorem ofText_line_append {line : String} (h : Text.IsLine line) (text : String) :
    ofText (line ++ " " ++ text) = (Text.words line).map .word ++ ofText (" " ++ text) := by
  obtain ⟨first, more, hspace, hline⟩ := Text.splitLines_append_space h text.toList
  have hl : (line ++ " " ++ text).toList = line.toList ++ ' ' :: text.toList := by simp
  have hr : (" " ++ text).toList = ' ' :: text.toList := by simp
  rw [ofText_eq_flatMap, ofText_eq_flatMap, hl, hr, hspace, hline, List.flatMap_cons,
    List.flatMap_cons, ofLine_append_space, String.ofList_toList, List.append_assoc]

/-- Whatever follows a text after a space or a line feed, the text brings the same pieces, but for a
mark at its end. -/
theorem ofText_append (text : String) : ∃ front,
    (ofText text = front ∨ ofText text = front ++ [.lineEnd]) ∧
      (∀ more, ofText (text ++ " " ++ more) = front ++ ofText (" " ++ more)) ∧
      (text.toList.getLast? ≠ some '\r' →
        ∀ more, ofText (text ++ "\n" ++ more) = front ++ .lineEnd :: ofText more) := by
  obtain ⟨front, last, hlast, htext, hmore⟩ := Text.exists_last_line text.toList
  refine ⟨front.flatMap (fun line => ofLine (String.ofList line)) ++
    (Text.words (String.ofList last)).map .word, ?_, fun more => ?_, fun hcr more => ?_⟩
  · rw [ofText_eq_flatMap]
    obtain ⟨htext, rfl⟩ | htext := htext
    · rw [htext]
      exact .inl (List.append_nil _).symm
    · rw [htext, List.flatMap_append, List.flatMap_singleton, ofLine, List.append_assoc]
      exact .inr rfl
  · have hline : Text.IsLine (String.ofList last) := by
      rw [Text.IsLine, String.toList_ofList]
      exact hlast
    have hl : (text ++ " " ++ more).toList = text.toList ++ ' ' :: more.toList := by simp
    have hr : (String.ofList last ++ " " ++ more).toList = last ++ ' ' :: more.toList := by simp
    have hlines := ofText_line_append hline more
    rw [ofText_eq_flatMap, hr] at hlines
    rw [ofText_eq_flatMap, hl, hmore _ _ (fun h => absurd h (by decide)), List.flatMap_append, hlines,
      List.append_assoc]
  · have hl : (text ++ "\n" ++ more).toList = text.toList ++ '\n' :: more.toList := by simp
    rw [ofText_eq_flatMap, hl, hmore _ _ fun _ => hcr, Text.splitLines_append_newline hlast,
      List.flatMap_append, List.flatMap_cons, ← ofText_eq_flatMap, ofLine, List.append_assoc,
      List.append_assoc]
    rfl

/-- A word between spaces. -/
theorem ofText_word_append {token : String} (h : Text.IsWord token) (text : String) :
    ofText (" " ++ (token ++ " " ++ text)) = .word token :: ofText (" " ++ text) := by
  have hline : Text.IsLine (" " ++ token) := by
    intro c hc
    rw [String.toList_append, List.mem_append] at hc
    obtain hc | hc := hc
    · obtain rfl : c = ' ' := by simpa using hc
      decide
    · exact h.isLine c hc
  have hwords : Text.words (" " ++ token) = [token] := by
    have hl : (" " ++ token).toList = [] ++ ' ' :: token.toList := by simp
    rw [Text.words, hl, Text.splitWords_append_cons [] _ (by decide), Text.splitWords_of_isWord h]
    simp [Text.splitWords, Text.splitOn]
  rw [← String.append_assoc, ← String.append_assoc, ofText_line_append hline, hwords]
  rfl

end Input

end ThreadedForth
