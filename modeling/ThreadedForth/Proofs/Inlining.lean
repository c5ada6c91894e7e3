import Mathlib.Data.List.Forall2
import ThreadedForth.Proofs.Calls
import ThreadedForth.Proofs.Tokens

/-!
# A word is its body

A word that has just been defined does what the words of its body do when they are typed in instead
(`eval_defined_eq_eval_body`). One side follows the thread of the captured words, the other resolves
the words one by one; both come down to the same contained actions, so they have the same effect and
stop at the same place.
-/

namespace ThreadedForth

variable {Ext : Type}

/-- The token stands for a word that a definition captures and that starts no definition itself. -/
structure Machine.Inlines (m : Machine Ext) (token : String) (w : Word Ext) : Prop where
  resolve : m.resolve token = .ok (some w)
  notImmediate : w.immediate = false
  notDefining : Leaf.primitive .define ∉ w.body.leaves

namespace Machine

instance [DecidableEq Ext] (m : Machine Ext) (token : String) :
    Decidable (∃ w, m.Inlines token w) :=
  match h : m.resolve token with
  | .error _ => isFalse fun ⟨_, hw⟩ => nomatch h.symm.trans hw.resolve
  | .ok none => isFalse fun ⟨_, hw⟩ => nomatch h.symm.trans hw.resolve
  | .ok (some w) =>
    decidable_of_iff (w.immediate = false ∧ Leaf.primitive .define ∉ w.body.leaves) <| by
      constructor
      · rintro ⟨hi, hd⟩
        exact ⟨w, h, hi, hd⟩
      · rintro ⟨w', hw⟩
        cases h.symm.trans hw.resolve
        exact ⟨hw.notImmediate, hw.notDefining⟩

variable {m : Machine Ext} {tokens : List String} {words : List (Word Ext)}

theorem captured_of_inlines (h : List.Forall₂ m.Inlines tokens words) :
    captured m.resolve tokens = .ok words := by
  induction h with
  | nil => rfl
  | cons ht _ ih =>
    rw [captured, ht.resolve, ih]
    simp [ht.notImmediate, Except.map]

/-- The thread of the words starts no definition either. -/
theorem notDefining_of_inlines (h : List.Forall₂ m.Inlines tokens words) :
    Leaf.primitive .define ∉ (Body.compiled words).leaves := by
  rw [Body.leaves_compiled]
  induction h with
  | nil => exact List.not_mem_nil
  | cons ht _ ih =>
    rw [List.flatMap_cons, List.mem_append, not_or]
    exact ⟨ht.notDefining, ih⟩

/-- Words under other names are not affected by a definition. -/
theorem resolve_define {token name : String} (hne : token ≠ name) (immediate : Bool)
    (body : Body Ext) (log : List Event) :
    { m with dictionary := m.dictionary.define name immediate body, log := log }.resolve token =
      m.resolve token := by
  unfold resolve
  rw [Dictionary.lookup_define, if_neg hne]

theorem Inlines.define {token name : String} {w : Word Ext} (h : m.Inlines token w)
    (hne : token ≠ name) (body : Body Ext) (log : List Event) :
    { m with dictionary := m.dictionary.define name false body, log := log }.Inlines token w :=
  ⟨(resolve_define hne false body log).trans h.resolve, h.notImmediate, h.notDefining⟩

end Machine

/-- The tokens before the first semicolon of a line are the body. -/
theorem Input.takeBody_row {tokens : List String} (h : ∀ t ∈ tokens, t ≠ ";") (rest : Input) :
    takeBody (tokens.map .word ++ .word ";" :: rest) = (tokens, some rest) := by
  induction tokens with
  | nil => rfl
  | cons t tokens ih =>
    have ht : t ≠ ";" := h t List.mem_cons_self
    rw [List.map_cons, List.cons_append, takeBody, if_neg ht,
      ih fun u hu => h u (List.mem_cons_of_mem t hu)]

/-- Dropping lines at the end of the last one leaves no word. -/
theorem Input.readWord?_skipLines_lineEnd (n : Nat) :
    readWord? (skipLines n [.lineEnd]) = none := by
  cases n with
  | zero => rfl
  | succ n =>
    have hnil : skipLines n (skipLine [.lineEnd]) = [] := List.suffix_nil.1 (skipLines_suffix n [])
    rw [skipLines, hnil]
    rfl

namespace Action

variable [Extension Ext] {m : Machine Ext} {tokens : List String} {words : List (Word Ext)}

/-- A row of words ends as the thread of the words does, and leaves the same machine but for what
is still pending. -/
theorem drain_row (hm : m.dictionary.Native) (hd : m.draft = none)
    (h : List.Forall₂ m.Inlines tokens words) :
    ∃ rest, drain { m with pending := tokens.map .word ++ [.lineEnd] } =
      endWith (((Body.compiled words).run Machine.performer).fault? m)
        { ((Body.compiled words).run Machine.performer).after m with pending := rest } := by
  induction tokens generalizing m words with
  | nil =>
    cases h
    rw [Body.run_compiled_nil]
    exact ⟨[], drain_of_none hd rfl⟩
  | cons t tokens ih =>
    obtain _ | @⟨_, w, _, words, ht, hrest⟩ := h
    have hrow := @drain_of_some Ext _ { m with pending := (t :: tokens).map .word ++ [.lineEnd] }
      t (tokens.map .word ++ [.lineEnd]) hm hd rfl
    rw [hrow, Body.run_compiled_cons]
    -- the word runs in the middle of the row as it does in the middle of the thread
    obtain ⟨ending, stack, text, hw⟩ :=
      contained_of_resolve hm ht.resolve ht.notImmediate ht.notDefining m
    have hthread := hw m ⟨rfl, rfl, fun _ => rfl⟩
    have hmiddle := hw { m with pending := tokens.map .word ++ [.lineEnd] } ⟨rfl, rfl, fun _ => rfl⟩
    have hresolve : Machine.resolve { m with pending := tokens.map .word ++ [.lineEnd] } t = _ :=
      ht.resolve
    have htyped := (interpret_of_word hresolve).trans hmiddle
    cases ending with
    | some fault =>
      rw [fault?_of_error (bind_of_error hthread), after_of_error (bind_of_error hthread)]
      exact ⟨_, bind_of_error htyped⟩
    | none =>
      rw [fault?_congr (bind_of_ok hthread), after_congr (bind_of_ok hthread)]
      obtain ⟨rest, hrow⟩ := @ih (m.withEffect stack text) words hm hd
        (hrest.imp fun _ _ hu => ⟨hu.resolve, hu.notImmediate, hu.notDefining⟩)
      exact ⟨rest, (bind_of_ok htyped).trans hrow⟩

/-- Nothing but the row is pending if the machine is at rest before. -/
theorem eval_unwords (hd : m.draft = none) (hp : m.pending = [])
    (h : ∀ t ∈ tokens, Text.IsWord t) (hne : tokens ≠ []) :
    Machine.eval (Text.unwords tokens) m =
      drain { m with pending := tokens.map .word ++ [.lineEnd] } := by
  rw [eval_eq_proceed, hp, List.nil_append, Input.ofText_unwords h hne]
  exact proceed_of_closed hd

/-- Typing a row of words in ends as the thread of the words does. -/
theorem eval_row (hm : m.dictionary.Native) (hd : m.draft = none) (hp : m.pending = [])
    (h : ∀ t ∈ tokens, Text.IsWord t) (hin : List.Forall₂ m.Inlines tokens words) :
    ∃ rest, Machine.eval (Text.unwords tokens) m =
      endWith (((Body.compiled words).run Machine.performer).fault? m)
        { ((Body.compiled words).run Machine.performer).after m with pending := rest } := by
  cases tokens with
  | nil =>
    cases hin
    rw [Body.run_compiled_nil, eval_eq_proceed, hp]
    have hclosed := @proceed_of_closed Ext _ { m with pending := [] } hd
    exact ⟨[], hclosed.trans (drain_of_none hd rfl)⟩
  | cons t tokens =>
    rw [eval_unwords hd hp h (List.cons_ne_nil t tokens)]
    exact drain_row hm hd hin

/-- A definition that can be compiled is made on the way. -/
theorem drain_definition {q rest : Input} (hm : m.dictionary.Native) (hd : m.draft = none)
    (hp : m.pending = .word ":" :: q) {colon : Word Ext}
    (hcolon : m.dictionary.lookup ":" = some colon) (hdefine : colon.body = .primitive .define)
    {name : String} (hq : Draft.unnamed.complete? q = some (name, tokens, rest))
    (hc : captured m.resolve tokens = .ok words) :
    ∃ log, drain m = drain { m with
      pending := Input.skipLines (immediates m.resolve tokens) rest
      draft := none
      dictionary := m.dictionary.define name false (.compiled words)
      log := log } := by
  have hread : Input.readWord? m.pending = some (":", q) := by
    rw [hp]
    rfl
  have hresolve : Machine.resolve { m with pending := q } ":" = .ok (some colon) := by
    simp only [Machine.resolve, hcolon]
  have hword := @interpret_of_define Ext _ { m with pending := q } ":" colon hm.onlyComments
    hresolve hdefine
  obtain ⟨log, hrun⟩ := @resumeDefinition_of_captured Ext name { m with pending := q } words _
    .unnamed tokens rest hm hq hc
  exact ⟨log, (drain_of_some hm hd hread).trans (bind_of_ok (hword.trans hrun))⟩

/-- The line of a definition binds the name to the captured words and does nothing else. -/
theorem eval_definition_of_captured (hm : m.dictionary.Native) (hd : m.draft = none)
    (hp : m.pending = []) {colon : Word Ext} (hcolon : m.dictionary.lookup ":" = some colon)
    (hdefine : colon.body = .primitive .define) {name : String} (hname : Text.IsWord name)
    (h : ∀ t ∈ tokens, Text.IsWord t) (hend : ∀ t ∈ tokens, t ≠ ";")
    (hc : captured m.resolve tokens = .ok words) :
    ∃ log, Machine.eval (Text.unwords (":" :: name :: tokens ++ [";"])) m =
      .ok () { m with
        dictionary := m.dictionary.define name false (.compiled words)
        log := log } := by
  have hwords : ∀ t ∈ ":" :: name :: tokens ++ [";"], Text.IsWord t := by
    simp only [List.cons_append, List.mem_cons, List.mem_append, List.not_mem_nil, or_false]
    rintro t (rfl | rfl | ht | rfl)
    · decide
    · exact hname
    · exact h t ht
    · decide
  have hq : Draft.unnamed.complete? ((name :: tokens ++ [";"]).map .word ++ [.lineEnd]) =
      some (name, tokens, [.lineEnd]) := by
    have htake := Input.takeBody_row hend [.lineEnd]
    simp [Draft.complete?, Input.readWord?, Draft.completeNamed?, htake]
  obtain ⟨log, hrun⟩ := @drain_definition Ext _
    { m with pending := (":" :: name :: tokens ++ [";"]).map .word ++ [.lineEnd] } tokens words _ _
    hm hd rfl colon hcolon hdefine name hq hc
  refine ⟨log, ?_⟩
  rw [eval_unwords hd hp hwords (List.cons_ne_nil _ _)]
  refine hrun.trans ((drain_of_none rfl (Input.readWord?_skipLines_lineEnd _)).trans ?_)
  rw [hd, hp]

/-- So it does where the tokens can be typed in as well. -/
theorem eval_definition (hm : m.dictionary.Native) (hd : m.draft = none) (hp : m.pending = [])
    {colon : Word Ext} (hcolon : m.dictionary.lookup ":" = some colon)
    (hdefine : colon.body = .primitive .define) {name : String} (hname : Text.IsWord name)
    (h : ∀ t ∈ tokens, Text.IsWord t) (hend : ∀ t ∈ tokens, t ≠ ";")
    (hin : List.Forall₂ m.Inlines tokens words) :
    ∃ log, Machine.eval (Text.unwords (":" :: name :: tokens ++ [";"])) m =
      .ok () { m with
        dictionary := m.dictionary.define name false (.compiled words)
        log := log } :=
  eval_definition_of_captured hm hd hp hcolon hdefine hname h hend (Machine.captured_of_inlines hin)

end Action

theorem exists_forall₂_of_forall {α β : Type} {R : α → β → Prop} {xs : List α}
    (h : ∀ x ∈ xs, ∃ y, R x y) : ∃ ys, List.Forall₂ R xs ys := by
  induction xs with
  | nil => exact ⟨[], .nil⟩
  | cons x xs ih =>
    obtain ⟨y, hy⟩ := h x List.mem_cons_self
    obtain ⟨ys, hys⟩ := ih fun u hu => h u (List.mem_cons_of_mem x hu)
    exact ⟨y :: ys, .cons hy hys⟩

/-- Take a machine `s` at rest after any texts, with the colon as it was, and a row of tokens, none
of them a semicolon or the name to be defined, which resolve to words that are not immediate and
start no definitions. The definition of the name by these tokens succeeds. After it, to type in the
name or the tokens ends in the same way, and leaves the same stack, output and dictionary. -/
theorem eval_defined_eq_eval_body [Extension Ext] {width : CellWidth} {texts : List String}
    {s : Machine Ext} (hs : s = (Machine.fresh width).afterCalls (texts.map .eval))
    (hd : s.draft = none) (hp : s.pending = []) {colon : Word Ext}
    (hcolon : s.dictionary.lookup ":" = some colon) (hdefine : colon.body = .primitive .define)
    {name : String} (hname : Text.IsWord name) {tokens : List String}
    (htokens : ∀ t ∈ tokens, Text.IsWord t) (hne : ∀ t ∈ tokens, t ≠ ";" ∧ t ≠ name)
    (hinlines : ∀ t ∈ tokens, ∃ w, s.Inlines t w) :
    ∃ s', Machine.eval (Text.unwords (":" :: name :: tokens ++ [";"])) s = .ok () s' ∧
      (Machine.eval name).fault? s' = (Machine.eval (Text.unwords tokens)).fault? s' ∧
      ((Machine.eval name).after s').stack =
        ((Machine.eval (Text.unwords tokens)).after s').stack ∧
      ((Machine.eval name).after s').output =
        ((Machine.eval (Text.unwords tokens)).after s').output ∧
      ((Machine.eval name).after s').dictionary =
        ((Machine.eval (Text.unwords tokens)).after s').dictionary := by
  have hnative : s.dictionary.Native := by
    rw [hs]
    exact Machine.native_afterCalls width _
  have hboth : ∀ t ∈ tokens, ∃ w, s.Inlines t w ∧ t ≠ name := by
    intro t ht
    obtain ⟨w, hw⟩ := hinlines t ht
    exact ⟨w, hw, (hne t ht).2⟩
  obtain ⟨words, hboth⟩ := exists_forall₂_of_forall hboth
  have hin : List.Forall₂ s.Inlines tokens words := hboth.imp fun _ _ h => h.1
  obtain ⟨log, hdefinition⟩ := Action.eval_definition hnative hd hp hcolon hdefine hname htokens
    (fun t ht => (hne t ht).1) hin
  refine ⟨_, hdefinition, ?_⟩
  -- after the definition, both the tokens and the name stand for words that can be typed in
  generalize hs' : { s with
    dictionary := s.dictionary.define name false (.compiled words), log := log } = s'
  have hbody : List.Forall₂ s'.Inlines tokens words := by
    rw [← hs']
    exact hboth.imp fun _ _ h => h.1.define h.2 _ _
  have hword : s'.Inlines name ⟨some name, false, .compiled words⟩ := by
    refine ⟨?_, rfl, Machine.notDefining_of_inlines hin⟩
    rw [← hs', Machine.resolve, Dictionary.lookup_define, if_pos rfl]
  have hnative' : s'.dictionary.Native := by
    rw [← hs']
    exact hnative.define (Machine.native_of_captured hnative (Machine.captured_of_inlines hin) _)
  obtain ⟨rest, hrow⟩ := Action.eval_row hnative' (hs' ▸ hd) (hs' ▸ hp) htokens hbody
  obtain ⟨rest', hname⟩ := Action.eval_row hnative' (hs' ▸ hd) (hs' ▸ hp)
    (List.forall_mem_singleton.2 hname) (.cons hword .nil)
  have hrun : (Body.compiled [⟨some name, false, .compiled words⟩]).run Machine.performer =
      (Body.compiled words).run Machine.performer := by
    rw [Body.run_compiled_cons, Body.run_compiled_nil]
    exact bind_pure _
  rw [hrun, Text.unwords, String.intercalate_singleton] at hname
  rw [Action.fault?_of_endWith hrow, Action.fault?_of_endWith hname, Action.after_of_endWith hrow,
    Action.after_of_endWith hname]
  exact ⟨rfl, rfl, rfl, rfl⟩

/-- A machine with nine on its stack and a word that squares. -/
def nine : Machine Empty :=
  (Machine.fresh .standard).afterCalls ([": square dup * ;", "9"].map .eval)

/-- The product gets another meaning, by a word that uses the product, and fails half way. -/
theorem eval_product_eq_eval_body :
    ∃ s', Machine.eval (Text.unwords (":" :: "*" :: ["square", ".", "0", "/"] ++ [";"])) nine =
        .ok () s' ∧
      (Machine.eval "*").fault? s' =
        (Machine.eval (Text.unwords ["square", ".", "0", "/"])).fault? s' ∧
      ((Machine.eval "*").after s').stack =
        ((Machine.eval (Text.unwords ["square", ".", "0", "/"])).after s').stack ∧
      ((Machine.eval "*").after s').output =
        ((Machine.eval (Text.unwords ["square", ".", "0", "/"])).after s').output ∧
      ((Machine.eval "*").after s').dictionary =
        ((Machine.eval (Text.unwords ["square", ".", "0", "/"])).after s').dictionary := by
  have hcolon : (nine.dictionary.lookup ":").any (fun w => w.body.isDefine) = true := by
    decide +kernel
  obtain ⟨colon, hcolon, hdefine⟩ := (Option.any_eq_true _ _).1 hcolon
  have hs : nine = (Machine.fresh .standard).afterCalls ([": square dup * ;", "9"].map .eval) := rfl
  have hname : Text.IsWord "*" := by decide
  have htokens : ∀ t ∈ ["square", ".", "0", "/"], Text.IsWord t := by decide
  exact eval_defined_eq_eval_body hs (by decide +kernel) (by decide +kernel) hcolon
    (Body.isDefine_iff.1 hdefine) hname htokens (by decide) (by decide +kernel)

end ThreadedForth
