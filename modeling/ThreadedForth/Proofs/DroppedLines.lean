import ThreadedForth.Proofs.Compilation

/-!
# Lines that comments drop

The comments in the body of a definition all run when the body is complete, at the place after the
semicolon. The first one drops the rest of the line with the semicolon; each further one drops
another whole line. So a definition keeps the words of the later lines exactly if it has at most one
comment, or the lines that the others drop are blank (`definition_keeps_later_lines_iff`).
-/

namespace ThreadedForth

namespace Input

/-- The first so many lines of the input. -/
def takeLines : Nat → Input → Input
  | 0, _ => []
  | _ + 1, [] => []
  | n + 1, .lineEnd :: rest => .lineEnd :: takeLines n rest
  | n + 1, .word token :: rest => .word token :: takeLines (n + 1) rest

theorem skipLines_nil (n : Nat) : skipLines n [] = [] := by
  induction n with
  | zero => rfl
  | succ n ih => exact ih

/-- The first lines and what follows them make up the input. -/
theorem takeLines_append_skipLines (n : Nat) (q : Input) : takeLines n q ++ skipLines n q = q := by
  fun_induction takeLines n q with
  | case1 q => rfl
  | case2 n => exact skipLines_nil (n + 1)
  | case3 n rest ih => rw [skipLines, skipLine, List.cons_append, ih]
  | case4 n token rest ih =>
    rw [skipLines] at ih ⊢
    rw [skipLine, List.cons_append, ih]

/-- After so many lines all words are left exactly if these lines are blank. -/
theorem words_suffix_skipLines_iff (n : Nat) (q : Input) :
    words q <:+ words (skipLines n q) ↔ words (takeLines n q) = [] := by
  have hq : words q = words (takeLines n q) ++ words (skipLines n q) := by
    rw [← words_append, takeLines_append_skipLines]
  constructor
  · intro h
    have hlen := h.length_le
    rw [hq, List.length_append] at hlen
    exact List.eq_nil_of_length_eq_zero (by omega)
  · intro h
    rw [hq, h]
    exact List.suffix_refl _

end Input

namespace Action

variable {Ext : Type} [Extension Ext] {m : Machine Ext} {draft : Draft} {name : String}
  {body : List String} {rest : Input}

/-- Compiling a body and binding a name to it leaves what is pending, without a line for each
comment; this is so even if the word cannot be listed. -/
theorem pending_after_defineWord (depth : Nat) (hm : m.dictionary.OnlyComments) :
    ((defineWord (perform depth) name body).after m).pending =
      Input.skipLines (immediates m.resolve body) m.pending := by
  cases hw : captured m.resolve body with
  | error fault =>
    obtain ⟨log, hrun⟩ := defineWord_of_refused depth name hm hw
    rw [after_of_error hrun]
  | ok words =>
    obtain ⟨log, hc⟩ := compileWords_eq depth body hm
    rw [hw] at hc
    rw [defineWord, after_congr (bind_of_ok hc)]
    show Machine.pending (after (ofExcept (Entry.describe ⟨some name, false, .compiled words⟩) >>= _)
      _) = _
    cases Entry.describe (⟨some name, false, .compiled words⟩ : Word Ext) with
    | ok listing => rfl
    | error fault => rfl

/-- A definition that is complete leaves what follows its semicolon, without a line for each
comment. -/
theorem pending_after_definition (hm : m.dictionary.OnlyComments)
    (h : draft.complete? m.pending = some (name, body, rest)) :
    ((resumeDefinition Machine.performer draft).after m).pending =
      Input.skipLines (immediates m.resolve body) rest := by
  rw [after_congr (resumeDefinition_of_complete h)]
  have hdefine := @pending_after_defineWord Ext _ { m with pending := rest, draft := none } name
    body nestingLimit hm
  obtain ⟨_, _, hx⟩ | hx := after_bind (defineWord Machine.performer name body) (fun _ => pure ())
    { m with pending := rest, draft := none }
  · rw [hx]
    exact hdefine
  · rw [hx]
    exact hdefine

/-- Take a definition that the pending input completes, where comments are the only immediate words.
It leaves all words of the lines after the one with the semicolon exactly if the lines that all its
comments but the first one drop are blank. -/
theorem definition_keeps_later_lines_iff (hm : m.dictionary.OnlyComments)
    (h : draft.complete? m.pending = some (name, body, rest)) :
    Input.words (Input.skipLine rest) <:+
        Input.words ((resumeDefinition Machine.performer draft).after m).pending ↔
      Input.words (Input.takeLines (immediates m.resolve body - 1) (Input.skipLine rest)) = [] := by
  rw [pending_after_definition hm h]
  cases immediates m.resolve body with
  | zero =>
    -- without a comment not even the line with the semicolon is touched
    have hsuffix := Input.words_suffix_of_suffix (Input.skipLine_suffix rest)
    exact iff_of_true hsuffix (by rw [Nat.zero_sub, Input.takeLines, Input.words])
  | succ n => exact Input.words_suffix_skipLines_iff n (Input.skipLine rest)

/-- A machine about to read a definition with two comments. -/
def twoComments : Machine Empty :=
  { Machine.fresh .standard with pending := Input.ofText "w \\ \\ ; 1\n2\n3" }

/-- The second comment drops the line after the one with the semicolon. -/
theorem twoComments_loses_a_line :
    Draft.unnamed.complete? twoComments.pending =
      some ("w", ["\\", "\\"], Input.ofText "1\n2\n3") ∧
    ¬ Input.words (Input.skipLine (Input.ofText "1\n2\n3")) <:+
      Input.words ((resumeDefinition Machine.performer .unnamed).after twoComments).pending := by
  have hm : twoComments.dictionary.OnlyComments := (Machine.native_fresh .standard).onlyComments
  have h : Draft.unnamed.complete? twoComments.pending =
      some ("w", ["\\", "\\"], Input.ofText "1\n2\n3") := by
    decide +kernel
  refine ⟨h, fun hkeeps => ?_⟩
  have hblank := (definition_keeps_later_lines_iff hm h).1 hkeeps
  exact absurd hblank (by decide +kernel)

/-- So the number on that line never reaches the stack. -/
theorem eval_two_comments :
    (Machine.eval ": w \\ \\ ; 1\n2\n3").fault? (Machine.fresh .standard : Machine Empty) = none ∧
      ((Machine.eval ": w \\ \\ ; 1\n2\n3").after
        (Machine.fresh .standard : Machine Empty)).stack = [3] := by
  decide +kernel

end Action

end ThreadedForth
