import Mathlib.Data.List.Induction
import ThreadedForth.Proofs.Calls
import ThreadedForth.Proofs.Portions

/-!
# A definition in instalments

The words of a definition can come in as many texts as one likes, cut anywhere: before the name, in
the body, before the semicolon. What is open in between is known from the words that have come so far
(`Draft.ofTokens`), and nothing else changes (`Action.eval_instalment`). The text that brings the
semicolon defines the word as `Machine.defineWord` would have done (`Action.eval_last_instalment`); so
comments in the body find no line to drop but the rest of that text, which is blank.
-/

namespace ThreadedForth

variable {Ext : Type}

/-! ## What is open -/

namespace Draft

/-- What is collected of a definition whose words after the colon are these. -/
def ofWords : List String → Draft
  | [] => .unnamed
  | name :: body => .named name body

/-- The definition that is open after these words, of which the first is the colon. -/
def ofTokens : List String → Option Draft
  | [] => none
  | _ :: tokens => some (ofWords tokens)

variable {tokens body : List String} {name : String} {q : Input}

/-- Of words that end with a semicolon, the later ones do so, and the earlier ones are without it. -/
theorem exists_of_append_eq_concat {front behind : List String} (hne : behind ≠ [])
    (h : front ++ behind = body ++ [";"]) :
    ∃ more, behind = more ++ [";"] ∧ body = front ++ more := by
  obtain ⟨more, hbody, hbehind⟩ | ⟨more, hfront, hbehind⟩ := List.append_eq_append_iff.1 h
  · exact ⟨more, hbehind, hbody⟩
  · obtain ⟨rfl, rfl⟩ | ⟨rest, -, hrest⟩ := List.append_eq_cons_iff.1 hbehind.symm
    · exact ⟨[], rfl, by rw [hfront, List.append_nil, List.append_nil]⟩
    · exact absurd (List.append_eq_nil_iff.1 hrest.symm).2 hne

/-- Up to a semicolon behind the name, all words are collected. -/
theorem ofWords_of_open (h : ";" ∉ (tokens ++ Input.words q).tail) :
    (ofWords tokens).complete? q = none ∧
      (ofWords tokens).extend q = ofWords (tokens ++ Input.words q) := by
  cases tokens with
  | cons name body =>
    have hq : ";" ∉ Input.words q := fun hmem => h (List.mem_append_right body hmem)
    refine ⟨completeNamed?_of_not_mem hq name body, ?_⟩
    rw [ofWords, extend, Input.takeBody_of_not_mem hq]
    rfl
  | nil =>
    rw [ofWords, complete?, extend]
    cases hq : Input.words q with
    | nil =>
      rw [Input.readWord?_of_words_nil hq]
      exact ⟨rfl, rfl⟩
    | cons name body =>
      obtain ⟨rest, hread, rfl⟩ := Input.readWord?_of_words_cons hq
      rw [hq] at h
      have hbody : ";" ∉ Input.words rest := h
      rw [hread]
      refine ⟨completeNamed?_of_not_mem hbody name [], ?_⟩
      exact congrArg (fun taken => named name taken.1) (Input.takeBody_of_not_mem hbody)

/-- The semicolon completes the definition, and nothing is left behind it but marks. -/
theorem ofWords_of_complete (hbody : ";" ∉ body) (hq : Input.words q ≠ [])
    (h : tokens ++ Input.words q = name :: (body ++ [";"])) :
    ∃ rest, (ofWords tokens).complete? q = some (name, body, rest) ∧ Input.words rest = [] := by
  cases tokens with
  | nil =>
    obtain ⟨afterName, hread, hwords⟩ := Input.readWord?_of_words_cons h
    rw [ofWords, complete?, hread]
    exact completeNamed?_of_words_append hbody hwords name []
  | cons first front =>
    obtain ⟨rfl, hrest⟩ := List.cons.inj h
    obtain ⟨more, hmore, rfl⟩ := exists_of_append_eq_concat hq hrest
    exact completeNamed?_of_words_append (fun hmem => hbody (List.mem_append_right front hmem))
      hmore first front

end Draft

/-! ## One text -/

/-- The words of texts, one after the other. -/
def Input.tokensOf (texts : List String) : List String :=
  texts.flatMap fun text => words (ofText text)

theorem Input.tokensOf_append (texts texts' : List String) :
    tokensOf (texts ++ texts') = tokensOf texts ++ tokensOf texts' :=
  List.flatMap_append

theorem Input.tokensOf_singleton (text : String) : tokensOf [text] = words (ofText text) :=
  List.flatMap_singleton _ _

/-- The machine with the definition open that these words have begun. -/
def Machine.holding (s : Machine Ext) (tokens : List String) (log : List Event) : Machine Ext :=
  { s with draft := Draft.ofTokens tokens, log := log }

/-- Nothing is pending on the machine and nothing open, and its colon is the one that starts
definitions. -/
structure Machine.AtColon (s : Machine Ext) : Prop where
  native : s.dictionary.Native
  pending : s.pending = []
  draft : s.draft = none
  colon : s.dictionary.lookup ":" = some ⟨some ":", false, .primitive .define⟩

namespace Action

variable [Extension Ext] {s m : Machine Ext} {tokens behind body : List String} {name text : String}

/-- A text goes on with the definition that earlier ones have begun, or begins one itself. -/
theorem eval_holding (hs : s.AtColon) (log : List Event)
    (h : tokens ++ Input.words (Input.ofText text) = ":" :: behind) :
    ∃ q draft, tokens.tail ++ Input.words q = behind ∧
      Machine.eval text (s.holding tokens log) =
        (resumeDefinition Machine.performer (.ofWords tokens.tail) >>= fun _ => drain)
          { s with pending := q, draft := draft, log := log } := by
  have hqueue : Machine.eval text (s.holding tokens log) =
      proceed { s.holding tokens log with pending := Input.ofText text } := by
    rw [eval_eq_proceed]
    show proceed { s.holding tokens log with pending := s.pending ++ _ } = _
    rw [hs.pending]
    rfl
  cases tokens with
  | cons colon front =>
    obtain ⟨rfl, hbehind⟩ := List.cons.inj h
    exact ⟨_, _, hbehind, hqueue.trans (proceed_of_open rfl)⟩
  | nil =>
    obtain ⟨rest, hread, hbehind⟩ := Input.readWord?_of_words_cons h
    refine ⟨rest, none, hbehind, hqueue.trans ((proceed_of_closed rfl).trans ?_)⟩
    have hturn := @drain_of_some Ext _
      { s.holding [] log with pending := Input.ofText text } _ _ hs.native rfl hread
    have hresolve : Machine.resolve { s.holding [] log with pending := rest } ":" =
        .ok (some ⟨some ":", false, .primitive .define⟩) := by
      simp only [Machine.resolve, Machine.holding, hs.colon]
    exact hturn.trans (bind_congr (interpret_of_define hs.native.onlyComments hresolve rfl))

/-- A text with no words does nothing if nothing is to be gone on with. -/
theorem eval_of_words_nil (hd : m.draft = none) (hpending : Input.words m.pending = [])
    (htext : Input.words (Input.ofText text) = []) :
    Machine.eval text m = .ok () { m with pending := [] } := by
  have hwords : Input.words (m.pending ++ Input.ofText text) = [] := by
    rw [Input.words_append, hpending, htext, List.append_nil]
  have hclosed := @proceed_of_closed Ext _ { m with pending := m.pending ++ Input.ofText text } hd
  have hdrain := @drain_of_none Ext _ { m with pending := m.pending ++ Input.ofText text } hd
    (Input.readWord?_of_words_nil hwords)
  exact (eval_eq_proceed text m).trans (hclosed.trans hdrain)

/-- A text without the semicolon leaves the definition open, and changes nothing else. -/
theorem eval_instalment (hs : s.AtColon) (log : List Event) (hbody : ";" ∉ body)
    (h : tokens ++ Input.words (Input.ofText text) ++ behind = ":" :: name :: (body ++ [";"]))
    (hbehind : behind ≠ []) :
    ∃ log', Machine.eval text (s.holding tokens log) =
      .ok () (s.holding (tokens ++ Input.words (Input.ofText text)) log') := by
  cases hfront : tokens ++ Input.words (Input.ofText text) with
  | nil =>
    obtain ⟨rfl, htext⟩ := List.append_eq_nil_iff.1 hfront
    have hblank := @eval_of_words_nil Ext _ (s.holding [] log) _ rfl
      (congrArg Input.words hs.pending) htext
    refine ⟨log, hblank.trans ?_⟩
    rw [← hs.pending]
    rfl
  | cons colon front =>
    rw [hfront] at h
    obtain ⟨rfl, hname⟩ := List.cons.inj h
    obtain ⟨q, draft, hq, hrun⟩ := eval_holding hs log hfront
    -- the semicolon is still to come, so what has come has none behind the name
    have hopen : ";" ∉ (tokens.tail ++ Input.words q).tail := by
      rw [hq]
      cases front with
      | nil => exact List.not_mem_nil
      | cons first front =>
        obtain ⟨rfl, hrest⟩ := List.cons.inj hname
        obtain ⟨more, -, rfl⟩ := Draft.exists_of_append_eq_concat hbehind hrest
        exact fun hmem => hbody (List.mem_append_left more hmem)
    obtain ⟨hcomplete, hextend⟩ := Draft.ofWords_of_open hopen
    have hresume := @resumeDefinition_of_open Ext { s with pending := q, draft := draft, log := log }
      Machine.performer _ hcomplete
    simp only [hextend, hq, ← hs.pending] at hresume
    exact ⟨_, hrun.trans ((bind_of_ok hresume).trans (drain_of_open rfl))⟩

/-- The text that brings the semicolon defines the word as it would be defined on the machine without
any of this, and leaves nothing pending but marks. -/
theorem eval_last_instalment (hs : s.AtColon) (log : List Event) (hbody : ";" ∉ body)
    (h : tokens ++ Input.words (Input.ofText text) = ":" :: name :: (body ++ [";"]))
    (htext : Input.words (Input.ofText text) ≠ []) :
    (Machine.eval text).fault? (s.holding tokens log) = (Machine.defineWord name body).fault? s ∧
      ((Machine.eval text).after (s.holding tokens log)).Agrees
        ((Machine.defineWord name body).after s) ∧
      Input.words ((Machine.eval text).after (s.holding tokens log)).pending = [] := by
  obtain ⟨q, draft, hq, hrun⟩ := eval_holding hs log h
  have hne : Input.words q ≠ [] := by
    intro hnil
    rw [hnil, List.append_nil] at hq
    cases tokens with
    | nil => cases hq
    | cons colon front =>
      obtain ⟨-, hrest⟩ := List.cons.inj h
      exact htext (List.append_right_eq_self.1 (hrest.trans hq.symm))
  obtain ⟨rest, hcomplete, hmarks⟩ := Draft.ofWords_of_complete hbody hne hq
  have hlines := Input.words_skipLines_of_words_nil hmarks (immediates s.resolve body)
  cases hc : captured s.resolve body with
  | ok words =>
    obtain ⟨log', hresume⟩ := @resumeDefinition_of_captured Ext name
      { s with pending := q, draft := draft, log := log } words _ _ body rest hs.native hcomplete hc
    obtain ⟨log'', hdefine⟩ := defineWord_of_captured nestingLimit name hs.native hc
    have hdrain := @drain_of_none Ext _ { s with
      pending := Input.skipLines (immediates s.resolve body) rest
      draft := none
      dictionary := s.dictionary.define name false (.compiled words)
      log := log' } rfl (Input.readWord?_of_words_nil hlines)
    have heval := hrun.trans ((bind_of_ok hresume).trans hdrain)
    have hdefine : Machine.defineWord name body s = _ := hdefine
    rw [fault?_of_ok heval, after_of_ok heval, fault?_of_ok hdefine, after_of_ok hdefine]
    exact ⟨rfl, ⟨rfl, rfl, rfl, rfl, hs.draft.symm⟩, rfl⟩
  | error fault =>
    obtain ⟨log', hresume⟩ := @resumeDefinition_of_refused Ext name
      { s with pending := q, draft := draft, log := log } fault _ _ body rest hs.native.onlyComments
      hcomplete hc
    obtain ⟨log'', hdefine⟩ := defineWord_of_refused nestingLimit name hs.native.onlyComments hc
    have heval := hrun.trans (bind_of_error hresume)
    have hdefine : Machine.defineWord name body s = _ := hdefine
    rw [fault?_of_error heval, after_of_error heval, fault?_of_error hdefine, after_of_error hdefine]
    exact ⟨rfl, ⟨rfl, rfl, rfl, rfl, hs.draft.symm⟩, hlines⟩

/-! ## All texts -/

theorem draft_after_defineWord (hs : s.AtColon) (name : String) (body : List String) :
    ((Machine.defineWord name body).after s).draft = none := by
  cases hc : captured s.resolve body with
  | ok words =>
    obtain ⟨log, hdefine⟩ := defineWord_of_captured nestingLimit name hs.native hc
    exact (congrArg Machine.draft (after_of_ok hdefine)).trans hs.draft
  | error fault =>
    obtain ⟨log, hdefine⟩ := defineWord_of_refused nestingLimit name hs.native.onlyComments hc
    exact (congrArg Machine.draft (after_of_error hdefine)).trans hs.draft

theorem afterCalls_concat (s : Machine Ext) (texts : List String) (text : String) :
    s.afterCalls ((texts ++ [text]).map .eval) =
      (Machine.eval text).after (s.afterCalls (texts.map .eval)) := by
  rw [Machine.afterCalls, List.map_append, List.foldl_append]
  rfl

/-- As long as the semicolon is to come, the machine holds the definition that has begun. -/
theorem afterCalls_instalments (hs : s.AtColon) (hbody : ";" ∉ body) (hbehind : behind ≠ [])
    {texts : List String}
    (h : Input.tokensOf texts ++ behind = ":" :: name :: (body ++ [";"])) :
    ∃ log, s.afterCalls (texts.map .eval) = s.holding (Input.tokensOf texts) log := by
  induction texts using List.reverseRecOn generalizing behind with
  | nil =>
    refine ⟨s.log, ?_⟩
    show s = { s with draft := none }
    rw [← hs.draft]
  | append_singleton texts text ih =>
    rw [Input.tokensOf_append, Input.tokensOf_singleton] at h ⊢
    obtain ⟨log, hbefore⟩ := ih (List.append_ne_nil_of_right_ne_nil _ hbehind)
      ((List.append_assoc _ _ _).symm.trans h)
    obtain ⟨log', heval⟩ := eval_instalment hs log hbody h hbehind
    exact ⟨log', by rw [afterCalls_concat, hbefore, after_of_ok heval]⟩

/-- Once the semicolon has come, the word is defined, and blank texts make no difference to it. -/
theorem afterCalls_all_instalments (hs : s.AtColon) (hbody : ";" ∉ body) {texts : List String}
    (h : Input.tokensOf texts = ":" :: name :: (body ++ [";"])) :
    (s.afterCalls (texts.map .eval)).Agrees ((Machine.defineWord name body).after s) ∧
      Input.words (s.afterCalls (texts.map .eval)).pending = [] := by
  induction texts using List.reverseRecOn with
  | nil => cases h
  | append_singleton texts text ih =>
    rw [Input.tokensOf_append, Input.tokensOf_singleton] at h
    rw [afterCalls_concat]
    by_cases htext : Input.words (Input.ofText text) = []
    · rw [htext, List.append_nil] at h
      obtain ⟨hagrees, hpending⟩ := ih h
      have hclosed := hagrees.draft.trans (draft_after_defineWord hs name body)
      rw [after_of_ok (eval_of_words_nil hclosed hpending htext)]
      exact ⟨⟨hagrees.width, hagrees.stack, hagrees.output, hagrees.dictionary, hagrees.draft⟩, rfl⟩
    · obtain ⟨log, hbefore⟩ := afterCalls_instalments hs hbody htext h
      rw [hbefore]
      exact (eval_last_instalment hs log hbody h htext).2

end Action

/-- Take a machine `s` after any texts that has nothing pending and no definition open, and whose `:` is
the one that starts definitions. Any name and any body without a semicolon, between that colon and a
semicolon, are spread in order over texts with any blank lines, blank texts among them. What `text`
does, one of these, depends on whether words are still to come. If so, it returns, and the machine is
`s` but for the definition that is open once the colon has come. The text with the semicolon ends as
`Machine.defineWord` does on `s`, with the same fault or none, and leaves the same stack, output and
dictionary, and no definition open. Blank texts after that change nothing any more. -/
theorem eval_definition_in_instalments [Extension Ext] {width : CellWidth} {earlier : List String}
    {s m : Machine Ext} (hs : s = (Machine.fresh width).afterCalls (earlier.map .eval))
    (hpending : s.pending = []) (hdraft : s.draft = none)
    (hcolon : s.dictionary.lookup ":" = some ⟨some ":", false, .primitive .define⟩)
    {name : String} {body : List String} (hbody : ";" ∉ body) {before after : List String}
    {text : String}
    (htokens : Input.tokensOf (before ++ text :: after) = ":" :: name :: (body ++ [";"]))
    (hm : m = s.afterCalls (before.map .eval)) :
    (Input.tokensOf after ≠ [] → ∃ log, Machine.eval text m =
      .ok () { s with draft := Draft.ofTokens (Input.tokensOf (before ++ [text])), log := log }) ∧
    (Input.tokensOf after = [] → Input.tokensOf [text] ≠ [] →
      (Machine.eval text).fault? m = (Machine.defineWord name body).fault? s ∧
      ((Machine.eval text).after m).Agrees ((Machine.defineWord name body).after s) ∧
      ((Machine.eval text).after m).draft = none) ∧
    (Input.tokensOf after = [] → Input.tokensOf [text] = [] →
      m.Agrees ((Machine.defineWord name body).after s) ∧
      Machine.eval text m = .ok () { m with pending := [] }) := by
  have hs' : s.AtColon := ⟨hs ▸ Machine.native_afterCalls width _, hpending, hdraft, hcolon⟩
  rw [List.append_cons, Input.tokensOf_append] at htokens
  refine ⟨fun hafter => ?_, fun hafter htext => ?_, fun hafter htext => ?_⟩
  · rw [Input.tokensOf_append, Input.tokensOf_singleton] at htokens ⊢
    obtain ⟨log, hbefore⟩ := Action.afterCalls_instalments hs' hbody
      (List.append_ne_nil_of_right_ne_nil _ hafter) ((List.append_assoc _ _ _).symm.trans htokens)
    rw [hm, hbefore]
    exact Action.eval_instalment hs' log hbody htokens hafter
  · rw [hafter, List.append_nil, Input.tokensOf_append] at htokens
    obtain ⟨log, hbefore⟩ := Action.afterCalls_instalments hs' hbody htext htokens
    rw [Input.tokensOf_singleton] at htokens htext
    obtain ⟨hfault, hagrees, -⟩ := Action.eval_last_instalment hs' log hbody htokens htext
    rw [hm, hbefore]
    have hclosed := hagrees.draft.trans (Action.draft_after_defineWord hs' name body)
    exact ⟨hfault, hagrees, hclosed⟩
  · rw [hafter, List.append_nil, Input.tokensOf_append, htext, List.append_nil] at htokens
    rw [Input.tokensOf_singleton] at htext
    obtain ⟨hagrees, hblank⟩ := Action.afterCalls_all_instalments hs' hbody htokens
    rw [← hm] at hagrees hblank
    have hclosed := hagrees.draft.trans (Action.draft_after_defineWord hs' name body)
    exact ⟨hagrees, Action.eval_of_words_nil hclosed hblank htext⟩

/-- A word with the name of the semicolon, and with comments in its body. -/
theorem eval_semicolon_in_instalments :
    (∃ log, Machine.eval "\\ *"
        ((Machine.fresh .standard : Machine Empty).afterCalls
          ([" \n:", ";\n\n\\ dup", ""].map .eval)) =
      .ok () { (Machine.fresh .standard : Machine Empty) with
        draft := some (.named ";" ["\\", "dup", "\\", "*"]), log := log }) ∧
    ((Machine.eval "\n;\n").after
        ((Machine.fresh .standard : Machine Empty).afterCalls
          ([" \n:", ";\n\n\\ dup", "", "\\ *"].map .eval))).Agrees
      ((Machine.defineWord ";" ["\\", "dup", "\\", "*"]).after (Machine.fresh .standard)) := by
  constructor
  · exact (@eval_definition_in_instalments Empty _ .standard [] (Machine.fresh .standard) _ rfl rfl
      rfl rfl ";" ["\\", "dup", "\\", "*"] (by decide) _ ["\n;\n"] "\\ *" (by decide +kernel)
      rfl).1 (by decide +kernel)
  · exact ((@eval_definition_in_instalments Empty _ .standard [] (Machine.fresh .standard) _ rfl rfl
      rfl rfl ";" ["\\", "dup", "\\", "*"] (by decide) _ [] "\n;\n" (by decide +kernel)
      rfl).2.1 rfl (by decide +kernel)).2.1

end ThreadedForth
