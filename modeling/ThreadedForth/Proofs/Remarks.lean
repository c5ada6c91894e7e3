import ThreadedForth.Proofs.Continuation
import ThreadedForth.Proofs.Growth
import ThreadedForth.Proofs.Simulation

/-!
# What a comment says makes no difference

A comment at the end of a text goes up to the end of its line, and nothing in it is ever looked at:
not a colon or a semicolon, nor a word that does not exist (`eval_with_comment`). The text before it
may have comments of its own, also in definitions. These may take the rest of the line, the comment
and all, or even lines behind; but whether the comment is there or not, what is dropped ends with the
same line (`Action.drain_remark`).
-/

namespace ThreadedForth

variable {Ext : Type}

namespace Input

/-- A line is dropped with all its words. -/
theorem skipLine_ofLine_append (line : String) (r : Input) : skipLine (ofLine line ++ r) = r := by
  rw [ofLine, List.append_assoc]
  induction Text.words line with
  | nil => rfl
  | cons token tokens ih => exact ih

/-- A comment up to the end of its line, and the text behind that. -/
theorem ofText_remark {c : String} (hc : Text.IsLine c) (q : String) :
    ofText (" " ++ ("\\" ++ " " ++ (c ++ "\n" ++ q))) =
      .word "\\" :: (ofLine (" " ++ c) ++ ofText q) := by
  have hline : Text.IsLine (" " ++ c) := by
    intro x hx
    rw [String.toList_append, List.mem_append] at hx
    obtain hx | hx := hx
    · obtain rfl : x = ' ' := by simpa using hx
      decide
    · exact hc x hx
  have happend : " " ++ (c ++ "\n" ++ q) = " " ++ c ++ "\n" ++ q := by
    simp only [String.append_assoc]
  rw [ofText_word_append (by decide), happend, ofText, Text.lines_append_newline hline,
    List.flatMap_cons, ← ofText]

end Input

namespace Action

variable [Extension Ext]

/-- The rest of a line is dropped, with a comment in front of it or not: by the comment itself, or by
what drops lines anyway. -/
theorem drain_remark {m : Machine Ext} (hm : m.dictionary.Native) (hd : m.draft = none)
    (hcomment : m.dictionary.lookup "\\" = some ⟨some "\\", true, .primitive .comment⟩) (k : Nat)
    (line : String) (r : Input) :
    drain { m with pending := Input.skipLines k (.word "\\" :: (Input.ofLine line ++ r)) } =
      drain { m with pending := Input.skipLines k (.lineEnd :: r) } := by
  cases k with
  | zero =>
    have hresolve : Machine.resolve { m with pending := Input.ofLine line ++ r } "\\" =
        .ok (some ⟨some "\\", true, .primitive .comment⟩) := by
      simp only [Machine.resolve, hcomment]
    have hskip : interpret Machine.performer "\\" { m with pending := Input.ofLine line ++ r } =
        .ok () { m with pending := r } := by
      rw [interpret_of_word hresolve, Machine.performer, run_comment]
      simp only [Input.skipLine_ofLine_append]
    have hturn := @drain_of_some Ext _
      { m with pending := .word "\\" :: (Input.ofLine line ++ r) } _ _ hm hd rfl
    exact (hturn.trans (bind_of_ok hskip)).trans (drain_of_readWord?_eq hm hd rfl)
  | succ k =>
    have hline : Input.skipLine (.word "\\" :: (Input.ofLine line ++ r)) = r :=
      Input.skipLine_ofLine_append line r
    rw [Input.skipLines, Input.skipLines, hline]
    rfl

/-- What was logged before makes no difference to the loop. -/
theorem drain_withLog {m : Machine Ext} (hm : m.dictionary.Native) (hd : m.draft = none)
    (log : List Event) :
    drain.fault? { m with log := log } = drain.fault? m ∧
      ∃ log', drain.after { m with log := log } = { drain.after m with log := log' } := by
  have hproceed := @proceed_withLog Ext _ m hm log
  rwa [fault?_congr (proceed_of_closed hd), after_congr (proceed_of_closed hd),
    fault?_congr (@proceed_of_closed Ext _ { m with log := log } hd),
    after_congr (@proceed_of_closed Ext _ { m with log := log } hd)] at hproceed

end Action

/-- Take a machine `s` after any texts that has nothing pending and no definition open, as a fresh one
is, and a text `p` that returns, leaves no definition open, and leaves `\` the comment that it is; it
does not end in a carriage return, which would be the first half of a line break. Take any comment `c`
without line breaks, and any text `q`. With the comment behind `p` or without it, and `q` on the next
line, the evaluation ends in the same way; it leaves the same stack, output and dictionary, the same
pending input, and the same definition open. -/
theorem eval_with_comment [Extension Ext] {width : CellWidth} {texts : List String}
    {s m : Machine Ext} (hs : s = (Machine.fresh width).afterCalls (texts.map .eval))
    (hpending : s.pending = []) (hdraft : s.draft = none) {p c : String}
    (hp : p.toList.getLast? ≠ some '\r') (hrun : Machine.eval p s = .ok () m)
    (hclosed : m.draft = none)
    (hcomment : m.dictionary.lookup "\\" = some ⟨some "\\", true, .primitive .comment⟩)
    (hc : Text.IsLine c) (q : String) :
    (Machine.eval (p ++ " \\ " ++ c ++ "\n" ++ q)).fault? s =
      (Machine.eval (p ++ "\n" ++ q)).fault? s ∧
    ∃ log, (Machine.eval (p ++ " \\ " ++ c ++ "\n" ++ q)).after s =
      { (Machine.eval (p ++ "\n" ++ q)).after s with log := log } := by
  have hnative : s.dictionary.Native := hs ▸ Machine.native_afterCalls width (texts.map .eval)
  have hnative' : m.dictionary.Native := by
    rw [← Action.after_of_ok hrun]
    exact (Action.keeping_eval p s hnative).native
  obtain ⟨front, hfront, hspace, hnewline⟩ := Input.ofText_append p
  obtain ⟨k, -, hpast⟩ := Action.eval_past_front hnative hpending hdraft hfront hrun hclosed
  have happend : p ++ " \\ " ++ c ++ "\n" ++ q = p ++ " " ++ ("\\" ++ " " ++ (c ++ "\n" ++ q)) := by
    simp only [String.append_assoc]
    rfl
  -- both runs come to the end of `p`, and drop the same lines from there on
  obtain ⟨log, hwith⟩ := hpast (p ++ " \\ " ++ c ++ "\n" ++ q) _
    (by rw [happend, hspace, Input.ofText_remark hc])
  obtain ⟨log', hwithout⟩ := hpast (p ++ "\n" ++ q) _ (hnewline hp q)
  have hremark := @Action.drain_remark Ext _ { m with log := log } hnative' hclosed hcomment k
    (" " ++ c) (Input.ofText q)
  have hsame := hwith.trans hremark
  rw [Action.fault?_congr hsame, Action.after_congr hsame, Action.fault?_congr hwithout,
    Action.after_congr hwithout]
  exact @Action.drain_withLog Ext _ { m with
    pending := Input.skipLines k (.lineEnd :: Input.ofText q), log := log' } hnative' hclosed log

/-- Two definitions with comments of their own. What follows the first one on its line is dropped, and
behind the second one two lines are, of which the text has one. -/
def commented : String :=
  ": square \\ dup\n* ; 7 7\n: w \\ 1 \\ ; 5"

/-- A comment behind it goes with the one line, and the words on the next line with the other, as they
would without the comment. -/
theorem eval_commented_with_comment :
    (Machine.eval (commented ++ " \\ " ++ "bye : ; nope" ++ "\n" ++ "lost 8\n3 square .")).fault?
        (Machine.fresh .standard : Machine Empty) = none ∧
      ((Machine.eval (commented ++ " \\ " ++ "bye : ; nope" ++ "\n" ++ "lost 8\n3 square .")).after
        (Machine.fresh .standard : Machine Empty)).output = "9\n" := by
  obtain ⟨hreturns, hclosed, hcomment⟩ :
      (Machine.eval commented).fault? (Machine.fresh .standard : Machine Empty) = none ∧
      ((Machine.eval commented).after (Machine.fresh .standard : Machine Empty)).draft = none ∧
      ((Machine.eval commented).after (Machine.fresh .standard : Machine Empty)).dictionary.lookup "\\" =
        some ⟨some "\\", true, .primitive .comment⟩ := by
    decide +kernel
  obtain ⟨hfault, houtput⟩ :
      (Machine.eval (commented ++ "\n" ++ "lost 8\n3 square .")).fault?
        (Machine.fresh .standard : Machine Empty) = none ∧
      ((Machine.eval (commented ++ "\n" ++ "lost 8\n3 square .")).after
        (Machine.fresh .standard : Machine Empty)).output = "9\n" := by
    decide +kernel
  obtain ⟨hsame, log, hafter⟩ := @eval_with_comment Empty _ .standard [] (Machine.fresh .standard) _
    rfl rfl rfl commented "bye : ; nope" (by decide) (Action.eq_ok_of_fault? hreturns) hclosed hcomment
    (by decide) "lost 8\n3 square ."
  rw [hsame, hafter]
  exact ⟨hfault, houtput⟩

end ThreadedForth
