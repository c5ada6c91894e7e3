import Mathlib.Data.List.Forall2
import ThreadedForth.Proofs.Growth

/-!
# Defining is all or nothing

To define a word, its tokens are looked at from left to right: a comment drops a line, any other word
is captured, and the first token that stands for nothing ends it. Two lemmas say what a row of known
tokens does in front of others, which makes no difference between the two ends: it adds its words to
those that are captured (`Machine.captured_append`), and its comments to those that run
(`Machine.immediates_append`).

So a definition with an unknown token has no effect but for the lines that the comments in front of it
have dropped. One without has these effects and binds its name (`define_all_or_nothing`).
-/

namespace ThreadedForth

variable {Ext : Type}

namespace Machine

/-- The token stands for a word. -/
def Knows (m : Machine Ext) (token : String) : Prop :=
  ∃ w, m.resolve token = .ok (some w)

instance (m : Machine Ext) (token : String) : Decidable (m.Knows token) :=
  match h : m.resolve token with
  | .ok (some w) => isTrue ⟨w, h⟩
  | .ok none => isFalse fun ⟨_, hw⟩ => nomatch h.symm.trans hw
  | .error _ => isFalse fun ⟨_, hw⟩ => nomatch h.symm.trans hw

/-- Does the token stand for an immediate word? -/
def isImmediate (m : Machine Ext) (token : String) : Bool :=
  match m.resolve token with
  | .ok (some w) => w.immediate
  | _ => false

variable {m : Machine Ext} {front : List String}

theorem isImmediate_of_resolve {token : String} {w : Word Ext}
    (h : m.resolve token = .ok (some w)) : m.isImmediate token = w.immediate := by
  unfold isImmediate
  rw [h]

/-- Known tokens in front of others add the words that they stand for, but for the immediate ones. -/
theorem captured_append (hfront : ∀ t ∈ front, m.Knows t) :
    ∃ words,
      List.Forall₂ (fun t w => m.resolve t = .ok (some w))
        (front.filter fun t => !m.isImmediate t) words ∧
      ∀ rest, captured m.resolve (front ++ rest) =
        (captured m.resolve rest).map fun more => words ++ more := by
  induction front with
  | nil =>
    refine ⟨[], .nil, fun rest => ?_⟩
    rw [List.nil_append]
    cases captured m.resolve rest <;> rfl
  | cons token front ih =>
    obtain ⟨⟨w, hw⟩, hfront⟩ := List.forall_mem_cons.1 hfront
    obtain ⟨words, hwords, hrest⟩ := ih hfront
    cases hi : w.immediate with
    | true =>
      refine ⟨words, ?_, fun rest => ?_⟩
      · rw [List.filter_cons_of_neg (by simp [isImmediate_of_resolve hw, hi])]
        exact hwords
      · rw [List.cons_append, captured, hw]
        simp only [hi, if_true]
        exact hrest rest
    | false =>
      refine ⟨w :: words, ?_, fun rest => ?_⟩
      · rw [List.filter_cons_of_pos (by simp [isImmediate_of_resolve hw, hi])]
        exact .cons hw hwords
      · rw [List.cons_append, captured, hw]
        simp only [hi, Bool.false_eq_true, if_false]
        rw [hrest rest]
        cases captured m.resolve rest <;> rfl

/-- They add their immediate words to those that run. -/
theorem immediates_append (hfront : ∀ t ∈ front, m.Knows t) (rest : List String) :
    immediates m.resolve (front ++ rest) =
      front.countP m.isImmediate + immediates m.resolve rest := by
  induction front with
  | nil => simp
  | cons token front ih =>
    obtain ⟨⟨w, hw⟩, hfront⟩ := List.forall_mem_cons.1 hfront
    rw [List.cons_append, immediates, hw, List.countP_cons, isImmediate_of_resolve hw, ih hfront]
    cases hi : w.immediate with
    | true =>
      simp only [hi, if_true]
      omega
    | false => simp [hi]

/-- A row of known tokens captures all the words that it adds, -/
theorem captured_of_known (hfront : ∀ t ∈ front, m.Knows t) :
    ∃ words,
      List.Forall₂ (fun t w => m.resolve t = .ok (some w))
        (front.filter fun t => !m.isImmediate t) words ∧
      captured m.resolve front = .ok words := by
  obtain ⟨words, hwords, hrest⟩ := captured_append hfront
  have hall := hrest []
  rw [List.append_nil, captured, Except.map, List.append_nil] at hall
  exact ⟨words, hwords, hall⟩

/-- and runs all its immediate words. -/
theorem immediates_of_known (hfront : ∀ t ∈ front, m.Knows t) :
    immediates m.resolve front = front.countP m.isImmediate := by
  have hall := immediates_append hfront []
  rwa [List.append_nil] at hall

/-- An unknown token behind it stops the definition, -/
theorem captured_of_unknown (hfront : ∀ t ∈ front, m.Knows t) {token : String}
    (htoken : m.resolve token = .ok none) (behind : List String) :
    captured m.resolve (front ++ token :: behind) = .error (.unknownWord token) := by
  obtain ⟨words, -, hrest⟩ := captured_append hfront
  rw [hrest, captured, htoken]
  rfl

/-- and lets no further word run. -/
theorem immediates_of_unknown (hfront : ∀ t ∈ front, m.Knows t) {token : String}
    (htoken : m.resolve token = .ok none) (behind : List String) :
    immediates m.resolve (front ++ token :: behind) = front.countP m.isImmediate := by
  rw [immediates_append hfront, immediates, htoken]
  rfl

variable [Extension Ext]

/-- After any texts, the only immediate word is the comment. -/
theorem comment_of_resolve {width : CellWidth} {texts : List String}
    (hm : m = (fresh width).afterCalls (texts.map .eval)) {token : String} {w : Word Ext}
    (h : m.resolve token = .ok (some w)) (hi : w.immediate = true) :
    token = "\\" ∧ w.body = .primitive .comment := by
  have hnative : m.dictionary.Native := hm ▸ native_afterCalls width (texts.map .eval)
  refine ⟨?_, body_of_resolve hnative.onlyComments h hi⟩
  rcases resolve_cases h with hl | ⟨v, -, rfl⟩
  · rw [hm] at hl
    exact comment_afterTexts width texts token w hl hi
  · cases hi

end Machine

/-- Take a machine `s` after any texts, where no word but the comment is immediate, and define a word
of any name by any tokens.

* If a token stands for nothing, and all those before it stand for words, the definition stops at it
  as an unknown word. The dictionary, the stack, the output and the open definition are what they were;
  of the pending input, one line is dropped for each comment among the tokens before.
* If all tokens stand for words, the new word is compiled of those that are not immediate, in order.
  It is bound to its name, and no other name changes its word. The stack, the output and the open
  definition are what they were; one line of the pending input is dropped for each comment. -/
theorem define_all_or_nothing [Extension Ext] {width : CellWidth} {texts : List String}
    {s : Machine Ext} (hs : s = (Machine.fresh width).afterCalls (texts.map .eval)) (name : String) :
    (∀ token w, s.resolve token = .ok (some w) → w.immediate = true →
      token = "\\" ∧ w.body = .primitive .comment) ∧
    (∀ before token behind, (∀ t ∈ before, s.Knows t) → s.resolve token = .ok none →
      ∃ log, Machine.defineWord name (before ++ token :: behind) s =
        .error (.unknownWord token) { s with
          pending := Input.skipLines (before.countP s.isImmediate) s.pending
          log := log }) ∧
    ∀ tokens, (∀ t ∈ tokens, s.Knows t) →
      ∃ words log d,
        List.Forall₂ (fun t w => s.resolve t = .ok (some w))
          (tokens.filter fun t => !s.isImmediate t) words ∧
        Machine.defineWord name tokens s = .ok ⟨some name, false, .compiled words⟩ { s with
          pending := Input.skipLines (tokens.countP s.isImmediate) s.pending
          dictionary := d
          log := log } ∧
        ∀ n, d.lookup n =
          if n = name then some ⟨some name, false, .compiled words⟩ else s.dictionary.lookup n := by
  have hnative : s.dictionary.Native := hs ▸ Machine.native_afterCalls width (texts.map .eval)
  refine ⟨fun token w h hi => Machine.comment_of_resolve hs h hi, ?_, ?_⟩
  · intro before token behind hbefore htoken
    have hcaptured := Machine.captured_of_unknown hbefore htoken behind
    obtain ⟨log, hrun⟩ :=
      Action.defineWord_of_refused nestingLimit name hnative.onlyComments hcaptured
    rw [Machine.immediates_of_unknown hbefore htoken behind] at hrun
    exact ⟨log, hrun⟩
  · intro tokens htokens
    obtain ⟨words, hwords, hcaptured⟩ := Machine.captured_of_known htokens
    obtain ⟨log, hrun⟩ := Action.defineWord_of_captured nestingLimit name hnative hcaptured
    rw [Machine.immediates_of_known htokens] at hrun
    exact ⟨words, log, _, hwords, hrun, Dictionary.lookup_define _ _ _ _⟩

/-- A machine with a word of its own, and with most of a text that failed still pending. -/
def stranded : Machine Empty :=
  (Machine.fresh .standard).afterCalls
    ([": twice dup + ;", "7 frob 1\n2 3\n4 5\n6"].map .eval)

/-- To define the word anew fails at an unknown word behind two comments, which have dropped two lines;
without it, the new word is made of the old one. -/
theorem redefine_stranded :
    (∃ log, Machine.defineWord "twice" ["twice", "\\", "1", "\\", "frob", "+"] stranded =
      .error (.unknownWord "frob") { stranded with
        pending := Input.ofText "4 5\n6", log := log }) ∧
    ∃ w log d, stranded.resolve "twice" = .ok (some w) ∧
      Machine.defineWord "twice" ["\\", "twice", "twice"] stranded =
        .ok ⟨some "twice", false, .compiled [w, w]⟩ { stranded with
          pending := Input.ofText "2 3\n4 5\n6", dictionary := d, log := log } ∧
      d.lookup "+" = stranded.dictionary.lookup "+" := by
  obtain ⟨-, hrefused, hmade⟩ := define_all_or_nothing (s := stranded) rfl "twice"
  obtain ⟨hbefore, hunknown, hall, hnames, htwo, hone⟩ :
      (∀ t ∈ ["twice", "\\", "1", "\\"], stranded.Knows t) ∧
      stranded.resolve "frob" = .ok none ∧
      (∀ t ∈ ["\\", "twice", "twice"], stranded.Knows t) ∧
      (["\\", "twice", "twice"].filter fun t => !stranded.isImmediate t) = ["twice", "twice"] ∧
      Input.skipLines (["twice", "\\", "1", "\\"].countP stranded.isImmediate) stranded.pending =
        Input.ofText "4 5\n6" ∧
      Input.skipLines (["\\", "twice", "twice"].countP stranded.isImmediate) stranded.pending =
        Input.ofText "2 3\n4 5\n6" := by
    decide +kernel
  constructor
  · obtain ⟨log, hrun⟩ := hrefused ["twice", "\\", "1", "\\"] "frob" ["+"] hbefore hunknown
    rw [htwo] at hrun
    exact ⟨log, hrun⟩
  · obtain ⟨words, log, d, hwords, hrun, hother⟩ := hmade ["\\", "twice", "twice"] hall
    rw [hnames] at hwords
    rw [hone] at hrun
    cases hwords with
    | cons hfirst hrest =>
      cases hrest with
      | cons hsecond hrest =>
        cases hrest
        cases hfirst.symm.trans hsecond
        exact ⟨_, log, d, hfirst, hrun, hother "+"⟩

end ThreadedForth
