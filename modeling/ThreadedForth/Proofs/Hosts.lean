import ThreadedForth.Proofs.Files
import ThreadedForth.Proofs.Portions

/-!
# The two hosts agree

A program can be run as a file or typed in line by line. The file is interpreted as a whole, and the
end of its text is the end of the input; the dialogue interprets each line, and the end of the script
is the end of the input. Where nothing in the program fails, both come to the same, and the same exit
code (`dialogue_agrees_with_run`); what a definition without its end is reported with differs in the
place only.

That the lines do what the whole text does is shown in `ThreadedForth.Proofs.Portions`; what is left
is how each host goes on from there.
-/

namespace ThreadedForth

variable {Ext : Type}

/-- What is written at the end of a dialogue over a program that ends so. -/
def Dialogue.closingReport : Option Fault → String
  | some (.malformedDefinition message) => "Error: " ++ message ++ "\n"
  | _ => ""

/-- The exit code of a program that ends so, if nothing in it fails. -/
def Dialogue.closingCode : Option Fault → Int
  | some (.malformedDefinition _) => 1
  | _ => 0

namespace Action

/-! ## The end of the input -/

theorem conclude_of_closed {m : Machine Ext} (h : m.draft = none) : conclude m = .ok 0 m := by
  rw [conclude, finish_of_closed h]

/-- A definition that is open is reported. -/
theorem conclude_of_open {m : Machine Ext} {draft : Draft} (h : m.draft = some draft) :
    conclude m = .ok 1 { m with
      output := m.output ++ Dialogue.closingReport (finish.fault? m), draft := none } := by
  obtain ⟨message, hrun⟩ := finish_of_open h
  rw [conclude, fault?_of_error hrun, hrun]
  rfl

theorem showPrompt_silent {m : Machine Ext} {console : Console}
    (hechoes : console.echoes = false) :
    showPrompt console m = .ok (console.prompt m) m := by
  rw [showPrompt_eq, hechoes]
  rfl

variable [Extension Ext]

/-! ## A dialogue without failures -/

variable {m n : Machine Ext} {lines : List String}

theorem respond_line (line : String) :
    respond Machine.performer (.line line) m =
      match Machine.eval line m with
      | .ok _ m' => .ok none m'
      | .error fault m' => recover fault m' :=
  rfl

/-- After a line that returns, the dialogue goes on. -/
theorem converse_cons {console : Console} (hechoes : console.echoes = false) {line : String}
    {rest : List Keyed} {d : Dialogue} (hline : Machine.eval line m = .ok () n) {n' : Machine Ext}
    (hrest : converse Machine.performer console rest n = .ok d n') :
    converse Machine.performer console (.line line :: rest) m =
      .ok { d with prompts := console.prompt m :: d.prompts } n' := by
  have hrespond : respond Machine.performer (.line line) m = .ok none n := by
    rw [respond_line, hline]
  rw [converse, bind_of_ok (showPrompt_silent hechoes)]
  exact (bind_of_ok hrespond).trans (bind_of_ok hrest)

/-- If all lines return, the end of the input comes next. -/
theorem converse_of_ok {console : Console} (hechoes : console.echoes = false)
    (h : lines.forM Machine.eval m = .ok () n) {code : Int} {n' : Machine Ext}
    (hend : conclude n = .ok code n') :
    ∃ d, converse Machine.performer console (lines.map .line) m = .ok d n' ∧ d.code = code := by
  induction lines generalizing m with
  | nil =>
    cases h
    refine ⟨⟨code, [console.prompt n], 0⟩, ?_, rfl⟩
    rw [List.map_nil, converse, bind_of_ok (showPrompt_silent hechoes)]
    exact bind_of_ok hend
  | cons line lines ih =>
    obtain ⟨_, m₁, hline, hrest⟩ := bind_eq_ok_iff.1 h
    obtain ⟨d, hd, hcode⟩ := ih hrest
    exact ⟨_, converse_cons hechoes hline hd, hcode⟩

/-- If a line asks to leave, the dialogue ends with that. -/
theorem converse_of_bye {console : Console} (hechoes : console.echoes = false) {code : Int}
    (h : lines.forM Machine.eval m = .error (.bye code) n) :
    ∃ d, converse Machine.performer console (lines.map .line) m = .ok d n ∧ d.code = code := by
  induction lines generalizing m with
  | nil => cases h
  | cons line lines ih =>
    have hforM : (line :: lines).forM Machine.eval m =
        (Machine.eval line >>= fun _ => lines.forM Machine.eval) m := rfl
    rw [hforM] at h
    cases hline : Machine.eval line m with
    | ok _ m₁ =>
      rw [bind_of_ok hline] at h
      obtain ⟨d, hd, hcode⟩ := ih h
      exact ⟨_, converse_cons hechoes hline hd, hcode⟩
    | error fault m₁ =>
      rw [bind_of_error hline] at h
      cases h
      have hrespond : respond Machine.performer (.line line) m = .ok (some code) n := by
        rw [respond_line, hline]
        rfl
      refine ⟨⟨code, [console.prompt m], (lines.map Keyed.line).length⟩, ?_, rfl⟩
      rw [List.map_cons, converse, bind_of_ok (showPrompt_silent hechoes)]
      exact bind_of_ok hrespond

/-- If the lines do what a text does, and fail at most by asking to leave, the dialogue over them does
what the text does as a complete program. -/
theorem converse_of_agree {console : Console} (hechoes : console.echoes = false) {text : String}
    (h : Agree (Machine.eval text m) (lines.forM Machine.eval m))
    (hbye : ∀ fault, (Machine.eval text).fault? m = some fault → fault = .bye 0) :
    ∃ d m', converse Machine.performer console (lines.map .line) m = .ok d m' ∧
      m'.stack = ((Machine.execute text).after m).stack ∧
      m'.dictionary = ((Machine.execute text).after m).dictionary ∧
      m'.output = ((Machine.execute text).after m).output ++
        Dialogue.closingReport ((Machine.execute text).fault? m) ∧
      d.code = Dialogue.closingCode ((Machine.execute text).fault? m) := by
  rw [execute_eq]
  generalize htext : Machine.eval text m = a at h
  generalize hlines : lines.forM Machine.eval m = b at h
  cases h with
  | @returned a b _ _ hagrees =>
    rw [after_congr (bind_of_ok htext), fault?_congr (bind_of_ok htext)]
    cases hd : a.draft with
    | none =>
      have hend := conclude_of_closed (hagrees.draft.symm.trans hd)
      obtain ⟨d, hd', hcode⟩ := converse_of_ok hechoes hlines hend
      rw [after_of_ok (finish_of_closed hd), fault?_of_ok (finish_of_closed hd)]
      exact ⟨d, b, hd', hagrees.stack.symm, hagrees.dictionary.symm,
        hagrees.output.symm.trans (String.append_empty).symm, hcode⟩
    | some draft =>
      have hend := conclude_of_open (hagrees.draft.symm.trans hd)
      obtain ⟨d, hd', hcode⟩ := converse_of_ok hechoes hlines hend
      obtain ⟨message, hrun⟩ := finish_of_open hd
      rw [← finish_congr hagrees.draft, ← hagrees.output] at hd'
      rw [after_of_error hrun]
      refine ⟨d, _, hd', hagrees.stack.symm, hagrees.dictionary.symm, rfl, ?_⟩
      rw [hcode, fault?_of_error hrun]
      rfl
  | @stopped fault a b hagrees =>
    obtain rfl := hbye fault (fault?_of_error htext)
    obtain ⟨d, hd', hcode⟩ := converse_of_bye hechoes hlines
    rw [after_of_error (bind_of_error htext), fault?_of_error (bind_of_error htext)]
    exact ⟨d, b, hd', hagrees.stack.symm, hagrees.dictionary.symm,
      hagrees.output.symm.trans (String.append_empty).symm, hcode⟩

end Action

/-! ## A run of one file -/

namespace CommandLine

/-- The exit code of a run of one file is that of the ending of its text. -/
theorem exit_of_run {arguments : List String} {options : Options}
    (hoptions : Options.parse arguments = .ok options) {file : String}
    (hfiles : options.files = [file]) (hinteractive : options.interactive = false)
    {source : String → Except FileFault String} {text : String} (hsource : source file = .ok text)
    (prompt : Option String) (input : String) :
    (run arguments source prompt input).exit =
      (((Machine.execute text).fault? machine).map Ending.ofFault |>.getD (.exit 0)).code := by
  obtain ⟨log, hrunFiles⟩ : ∃ log, runFiles source options.files machine =
      ((([text].forM Machine.execute).fault? machine).map Ending.ofFault,
        { ([text].forM Machine.execute).after machine with log := log }) := by
    rw [hfiles]
    exact runFiles_eq_forM (.cons hsource .nil) native_machine machine.log
  have hsingle : ([text].forM Machine.execute).fault? machine =
      (Machine.execute text).fault? machine :=
    Action.fault?_discard (Machine.execute text) machine
  rw [run_of_files hoptions (hfiles ▸ List.cons_ne_nil _ _) hinteractive hrunFiles, hsingle]

/-- If nothing in a program fails, it returns, asks to leave without a code of its own, or ends in a
definition. -/
theorem ending_of_execute {text : String}
    (hends : ∀ fault, (Machine.execute text).fault? machine = some fault →
      (∃ code, fault = .bye code) ∨ ∃ message, fault = .malformedDefinition message) :
    ((Machine.execute text).fault? machine = none ∨
      (Machine.execute text).fault? machine = some (.bye 0) ∨
      ∃ message, (Machine.execute text).fault? machine = some (.malformedDefinition message)) ∧
    ∀ fault, (Machine.eval text).fault? machine = some fault → fault = .bye 0 := by
  have hsettles := Action.settles_eval (@Machine.sound_fresh Empty .standard []) text
  have hbye : ∀ fault, (Machine.eval text).fault? machine = some fault → fault = .bye 0 := by
    intro fault hfault
    have hexpected := hsettles.expected hfault
    have hexecute : (Machine.execute text).fault? machine = some fault := by
      rw [Action.execute_eq, Action.fault?_bind, hfault, Option.some_or]
    obtain ⟨code, rfl⟩ | ⟨message, rfl⟩ := hends fault hexecute
    · cases hexpected
      rfl
    · exact absurd rfl (hexpected.ne_malformed message)
  refine ⟨?_, hbye⟩
  rw [Action.execute_eq, Action.fault?_bind]
  cases heval : (Machine.eval text).fault? machine with
  | some fault => exact .inr (.inl (congrArg some (hbye fault heval)))
  | none =>
    rw [Option.none_or]
    generalize (Machine.eval text).after machine = m
    cases hd : m.draft with
    | none => exact .inl (Action.fault?_of_ok (Action.finish_of_closed hd))
    | some draft =>
      obtain ⟨message, hrun⟩ := Action.finish_of_open hd
      exact .inr (.inr ⟨message, Action.fault?_of_error hrun⟩)

theorem eval_agrees_with_lines {lines : List String} (hlines : ∀ line ∈ lines, Text.IsLine line)
    (hbodies : ∀ body,
      { machine with pending := Input.ofText ("\n".intercalate lines) }.Collects body →
        ":" ∉ body ∧ body.count "\\" ≤ 1) :
    Action.Agree (Machine.eval ("\n".intercalate lines) machine)
      (lines.forM Machine.eval machine) := by
  have hstraight : machine.dictionary.Straight := Dictionary.straight_builtin
  have hpending : machine.pending = [] := rfl
  have hqueued : ∀ q, { machine with pending := q } = machine.ahead q machine.log := fun q => rfl
  rw [Input.ofText_intercalate hlines, hqueued] at hbodies
  have hagree := Action.proceed_lines hlines hpending hstraight hbodies
  rw [Action.eval_eq_proceed, hpending, List.nil_append, Input.ofText_intercalate hlines, hqueued]
  exact hagree

end CommandLine

/-- Take a program of any number of lines, with none of the bodies that its run collects having a
colon or a second comment in it, that does not fail: as the text of a complete program on a fresh
machine it returns, or asks to leave, or is malformed only in that its last definition has no end. A
dialogue over its lines, without a greeting, on a fresh machine returns. It leaves the same stack and
dictionary, and the same output, to which the malformed definition adds its report. Its exit code is
that of a run of a file with the text of the program: one for a malformed definition, and zero
otherwise. -/
theorem dialogue_agrees_with_run {lines : List String} (hlines : ∀ line ∈ lines, Text.IsLine line)
    {text : String} (htext : text = "\n".intercalate lines)
    (hbodies : ∀ body, { CommandLine.machine with pending := Input.ofText text }.Collects body →
      ":" ∉ body ∧ body.count "\\" ≤ 1)
    (hends : ∀ fault, (Machine.execute text).fault? CommandLine.machine = some fault →
      (∃ code, fault = .bye code) ∨ ∃ message, fault = .malformedDefinition message)
    {arguments : List String} {options : CommandLine.Options}
    (hoptions : CommandLine.Options.parse arguments = .ok options) {file : String}
    (hfiles : options.files = [file]) (hinteractive : options.interactive = false)
    {source : String → Except CommandLine.FileFault String} (hsource : source file = .ok text)
    (prompt : Option String) (input ready : String) :
    ∃ d m', Action.dialogue Machine.performer ⟨false, ready, false⟩ (lines.map .line)
        CommandLine.machine = .ok d m' ∧
      m'.stack = ((Machine.execute text).after CommandLine.machine).stack ∧
      m'.dictionary = ((Machine.execute text).after CommandLine.machine).dictionary ∧
      m'.output = ((Machine.execute text).after CommandLine.machine).output ++
        Dialogue.closingReport ((Machine.execute text).fault? CommandLine.machine) ∧
      d.code = Dialogue.closingCode ((Machine.execute text).fault? CommandLine.machine) ∧
      (CommandLine.run arguments source prompt input).exit = .ok d.code := by
  obtain ⟨hending, hbye⟩ := CommandLine.ending_of_execute hends
  have hagree := CommandLine.eval_agrees_with_lines hlines (htext ▸ hbodies)
  rw [← htext] at hagree
  obtain ⟨d, m', hd, hstack, hdictionary, houtput, hcode⟩ :=
    @Action.converse_of_agree _ _ _ _ ⟨false, ready, false⟩ rfl _ hagree hbye
  refine ⟨d, m', hd, hstack, hdictionary, houtput, hcode, ?_⟩
  rw [CommandLine.exit_of_run hoptions hfiles hinteractive hsource, hcode]
  obtain hnone | hleave | ⟨message, hmalformed⟩ := hending
  · rw [hnone]
    rfl
  · rw [hleave]
    rfl
  · rw [hmalformed]
    rfl

/-- A definition over two lines with a comment, a use of it, and another definition that stays
open. -/
def unended : List String :=
  [": square \\ dup", "* ; 7 7", "3 square .", ": w 1"]

/-- Typed in or run as a file, the program ends with the code for a malformed definition. -/
theorem dialogue_unended :
    ∃ d m', Action.dialogue Machine.performer ⟨false, "ok> ", false⟩ (unended.map .line)
        CommandLine.machine = .ok d m' ∧
      m'.output = "9\nError: Definition of 'w' is missing ';'\n" ∧ d.code = 1 ∧
      (CommandLine.run ["program"] (fun _ => .ok ("\n".intercalate unended)) none "").exit =
        .ok 1 := by
  have hcollected : Machine.collected 10 { CommandLine.machine with
      pending := Input.ofText ("\n".intercalate unended) } = some [["\\", "dup", "*"]] := by
    decide +kernel
  have hbodies : ∀ body ∈ [["\\", "dup", "*"]], ":" ∉ body ∧ body.count "\\" ≤ 1 := by decide
  have hfault : (Machine.execute ("\n".intercalate unended)).fault? CommandLine.machine =
      some (.malformedDefinition "Definition of 'w' is missing ';'") := by
    decide +kernel
  have hprinted : ((Machine.execute ("\n".intercalate unended)).after
      CommandLine.machine).output = "9\n" := by
    decide +kernel
  have hends : ∀ fault, (Machine.execute ("\n".intercalate unended)).fault? CommandLine.machine =
      some fault → (∃ code, fault = .bye code) ∨ ∃ message, fault = .malformedDefinition message := by
    intro fault h
    rw [hfault] at h
    cases h
    exact .inr ⟨_, rfl⟩
  have hoptions : CommandLine.Options.parse ["program"] = .ok ⟨["program"], false, false, false⟩ := by
    rfl
  obtain ⟨d, m', hd, _, _, houtput, hcode, hexit⟩ := @dialogue_agrees_with_run unended (by decide) _
    rfl (fun body h => hbodies body (h.mem_collected hcollected)) hends _ _ hoptions "program" rfl rfl
    (fun _ => .ok ("\n".intercalate unended)) rfl none "" "ok> "
  rw [hfault] at houtput hcode
  rw [hprinted] at houtput
  rw [hcode] at hexit
  exact ⟨d, m', hd, houtput, hcode, hexit⟩

end ThreadedForth
