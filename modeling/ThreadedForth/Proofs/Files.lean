import ThreadedForth.CommandLine.Run
import ThreadedForth.Proofs.Conversation
import ThreadedForth.Proofs.Simulation

/-!
# Files in a row

A run of files is the run of their programs in a row, on one machine, up to the first that fails
(`CommandLine.runFiles_eq_forM`). Two things make it so:

* A program that returns has used up its input, and has no open definition
  (`Action.drained_of_execute`). So the next one starts with nothing but the stack, the dictionary and
  the output of those before it.
* The host logs each file before it runs it, and what is logged makes no difference to what a program
  does (`Action.execute_relogged`).

A file after the one that fails is not even looked at: the run is the same if it does not exist.
-/

namespace ThreadedForth

variable {Ext : Type}

namespace Action

/-- Whether the input may end depends on the open definition only. -/
theorem finish_congr {m n : Machine Ext} (h : m.draft = n.draft) :
    finish.fault? m = finish.fault? n := by
  rw [fault?, fault?, finish, get_bind, get_bind, h]
  rcases n.draft with _ | _ | ⟨name, body⟩ <;> rfl

/-- The two results are the same but for what is logged. -/
inductive Relogged :
    EStateM.Result Fault (Machine Ext) Unit → EStateM.Result Fault (Machine Ext) Unit → Prop
  | returned {m : Machine Ext} {log : List Event} :
      Relogged (.ok () m) (.ok () { m with log := log })
  | stopped {fault : Fault} {m : Machine Ext} {log : List Event} :
      Relogged (.error fault m) (.error fault { m with log := log })

theorem relogged_of_halves {a : Action Ext Unit} {m n : Machine Ext} {log : List Event}
    (hfault : a.fault? n = a.fault? m) (hafter : a.after n = { a.after m with log := log }) :
    Relogged (a m) (a n) := by
  cases h : a m with
  | ok _ m' =>
    rw [fault?_of_ok h] at hfault
    rw [after_of_ok h] at hafter
    rw [eq_ok_of_fault? hfault, hafter]
    exact .returned
  | error fault m' =>
    rw [fault?_of_error h] at hfault
    rw [after_of_error h] at hafter
    rw [eq_error_of_fault? hfault, hafter]
    exact .stopped

variable [Extension Ext]

/-! ## A program -/

theorem execute_eq (text : String) :
    (Machine.execute text : Action Ext Unit) = (Machine.eval text >>= fun _ => finish) :=
  rfl

/-- A program that returns leaves nothing behind for the next one to read. -/
theorem drained_of_execute {text : String} {m m' : Machine Ext}
    (h : Machine.execute text m = .ok () m') : m'.pending = [] ∧ m'.draft = none := by
  rw [execute_eq] at h
  obtain ⟨_, m₁, heval, hfinish⟩ := bind_eq_ok_iff.1 h
  cases hd : m₁.draft with
  | none =>
    rw [finish_of_closed hd] at hfinish
    cases hfinish
    rcases open_or_drained_of_eval heval with hopen | hdrained
    · rw [Machine.isDefining, hd] at hopen
      cases hopen
    · exact ⟨hdrained, hd⟩
  | some draft =>
    obtain ⟨message, hrun⟩ := finish_of_open hd
    rw [hrun] at hfinish
    cases hfinish

/-- What is logged before makes no difference to what a program does. -/
theorem execute_relogged {m : Machine Ext} (hm : m.dictionary.Native) (text : String)
    (log : List Event) :
    Relogged (Machine.execute text m) (Machine.execute text { m with log := log }) := by
  obtain ⟨hfault, log', hafter⟩ := eval_withLog hm text log
  have heval := relogged_of_halves hfault hafter
  rw [execute_eq]
  generalize h : Machine.eval text m = a at heval
  generalize h' : Machine.eval text { m with log := log } = b at heval
  cases heval with
  | @returned m₁ log₁ =>
    have hdropped : finish.after { m₁ with log := log₁ } = { finish.after m₁ with log := log₁ } := by
      rw [finish_after, finish_after]
    rw [bind_of_ok h, bind_of_ok h']
    exact relogged_of_halves (finish_congr rfl) hdropped
  | stopped =>
    rw [bind_of_error h, bind_of_error h']
    exact .stopped

/-- A program that can be read returns, and the machine is ready for the next one; or it asks to leave,
or fails with something that can be reported. -/
theorem execute_cases {width : CellWidth} (hwidth : width.bits ≤ CellWidth.widestWritable)
    {m : Machine Ext} (hm : m.Ready width) {text : String}
    (htext : ∀ t ∈ Input.words (Input.ofText text), Number.Readable t) :
    (∃ m', Machine.execute text m = .ok () m' ∧ m'.Ready width) ∨
    ∃ fault m', Machine.execute text m = .error fault m' ∧
      (fault = .bye 0 ∨ fault.isRecoverable = true) := by
  rw [execute_eq]
  rcases eval_cases hwidth hm htext with ⟨m', heval, hready⟩ | ⟨fault, m', heval, hfault, -⟩
  · cases hd : m'.draft with
    | none => exact .inl ⟨m', (bind_of_ok heval).trans (finish_of_closed hd), hready⟩
    | some draft =>
      obtain ⟨message, hrun⟩ := finish_of_open hd
      exact .inr ⟨_, _, (bind_of_ok heval).trans hrun, .inr rfl⟩
  · exact .inr ⟨fault, m', bind_of_error heval, hfault⟩

/-- So do programs in a row. -/
theorem fault_of_forM_execute {width : CellWidth} (hwidth : width.bits ≤ CellWidth.widestWritable)
    {texts : List String}
    (htexts : ∀ text ∈ texts, ∀ t ∈ Input.words (Input.ofText text), Number.Readable t)
    {m : Machine Ext} (hm : m.Ready width) {fault : Fault}
    (h : (texts.forM Machine.execute).fault? m = some fault) :
    fault = .bye 0 ∨ fault.isRecoverable = true := by
  induction texts generalizing m with
  | nil => cases h
  | cons text texts ih =>
    rw [List.forall_mem_cons] at htexts
    rcases execute_cases hwidth hm htexts.1 with ⟨m', hrun, hready⟩ | ⟨fault', m', hrun, hfault⟩
    · rw [fault?_congr (forM_cons_of_ok hrun)] at h
      exact ih htexts.2 hready h
    · rw [fault?_of_error (forM_cons_of_error hrun)] at h
      cases h
      exact hfault

end Action

namespace CommandLine

theorem Ending.ofFault_of_isRecoverable {fault : Fault} (h : fault.isRecoverable = true) :
    Ending.ofFault fault = .failed fault := by
  cases fault with
  | bye code => cases h
  | _ => simp only [Ending.ofFault, h, if_true]

theorem native_machine : machine.dictionary.Native :=
  Machine.native_fresh .standard

/-! ## File after file -/

section RunFiles

variable {source source' : String → Except FileFault String} {file text : String}
  {files before rest : List String} {m m' : Machine Empty}

theorem runFiles_cons_of_ok (hsource : source file = .ok text)
    (h : Machine.execute text { m with log := .running file :: m.log } = .ok () m') :
    runFiles source (file :: files) m = runFiles source files m' := by
  simp only [runFiles, hsource, h]

theorem runFiles_cons_of_error (hsource : source file = .ok text) {fault : Fault}
    (h : Machine.execute text { m with log := .running file :: m.log } = .error fault m') :
    runFiles source (file :: files) m = (some (.ofFault fault), m') := by
  simp only [runFiles, hsource, h]

/-- Files whose texts are known are programs in a row, but for what is logged. -/
theorem runFiles_eq_forM {texts : List String}
    (hsource : List.Forall₂ (fun file text => source file = .ok text) files texts)
    (hm : m.dictionary.Native) (log : List Event) :
    ∃ log', runFiles source files { m with log := log } =
      (((texts.forM Machine.execute).fault? m).map Ending.ofFault,
        { (texts.forM Machine.execute).after m with log := log' }) := by
  induction hsource generalizing m log with
  | nil => exact ⟨log, rfl⟩
  | @cons file text files texts hfile _ ih =>
    have hkeeps := (Call.execute text).keeping m hm
    have hlogged := Action.execute_relogged hm text (.running file :: log)
    generalize hrun : Machine.execute text m = a at hlogged
    generalize hrun' : Machine.execute text { m with log := .running file :: log } = b at hlogged
    cases hlogged with
    | @returned m₁ log₁ =>
      have hafter : (Call.execute text).run.after m = m₁ := Action.after_of_ok hrun
      rw [hafter] at hkeeps
      obtain ⟨log', hrest⟩ := ih hkeeps.native log₁
      refine ⟨log', ?_⟩
      rw [runFiles_cons_of_ok hfile hrun', hrest,
        Action.fault?_congr (Action.forM_cons_of_ok hrun),
        Action.after_congr (Action.forM_cons_of_ok hrun)]
    | @stopped fault m₁ log₁ =>
      refine ⟨log₁, ?_⟩
      rw [runFiles_cons_of_error hfile hrun',
        Action.fault?_of_error (Action.forM_cons_of_error hrun),
        Action.after_of_error (Action.forM_cons_of_error hrun)]
      rfl

/-- Where files have all gone well, nothing is left for the next one to read. -/
theorem drained_of_runFiles (hm : m.pending = [] ∧ m.draft = none)
    (h : runFiles source files m = (none, m')) : m'.pending = [] ∧ m'.draft = none := by
  induction files generalizing m with
  | nil =>
    cases h
    exact hm
  | cons file files ih =>
    cases hfile : source file with
    | error fault =>
      unfold runFiles at h
      simp only [hfile] at h
      cases h
    | ok text =>
      cases hrun : Machine.execute text { m with log := .running file :: m.log } with
      | ok _ m₁ =>
        rw [runFiles_cons_of_ok hfile hrun] at h
        exact ih (Action.drained_of_execute hrun) h
      | error fault m₁ =>
        rw [runFiles_cons_of_error hfile hrun] at h
        cases h

/-- The files behind others are run if those have all gone well. -/
theorem runFiles_append (source : String → Except FileFault String) (before rest : List String)
    (m : Machine Empty) :
    runFiles source (before ++ rest) m =
      match runFiles source before m with
      | (none, m') => runFiles source rest m'
      | (some ending, m') => (some ending, m') := by
  induction before generalizing m with
  | nil => rfl
  | cons file before ih =>
    cases hfile : source file with
    | error fault =>
      rw [List.cons_append]
      unfold runFiles
      simp only [hfile]
    | ok text =>
      cases hrun : Machine.execute text { m with log := .running file :: m.log } with
      | ok _ m₁ =>
        rw [List.cons_append, runFiles_cons_of_ok hfile hrun, runFiles_cons_of_ok hfile hrun]
        exact ih m₁
      | error fault m₁ =>
        rw [List.cons_append, runFiles_cons_of_error hfile hrun, runFiles_cons_of_error hfile hrun]

/-- Nothing depends on other files. -/
theorem runFiles_congr (h : ∀ file ∈ files, source' file = source file) (m : Machine Empty) :
    runFiles source' files m = runFiles source files m := by
  induction files generalizing m with
  | nil => rfl
  | cons file files ih =>
    rw [List.forall_mem_cons] at h
    unfold runFiles
    simp only [h.1, ih h.2]

theorem runFiles_of_stopped {ending : Ending} (h : runFiles source before m = (some ending, m'))
    (hsource : ∀ file ∈ before, source' file = source file) (rest : List String) :
    runFiles source' (before ++ rest) m = (some ending, m') := by
  rw [runFiles_append, runFiles_congr hsource, h]

end RunFiles

/-! ## A run of files -/

section Runs

variable {arguments : List String} {options : Options}

/-- Without a dialogue, what is seen of a run is what the files leave. -/
theorem run_of_files (hoptions : Options.parse arguments = .ok options) (hfiles : options.files ≠ [])
    (hinteractive : options.interactive = false) {source : String → Except FileFault String}
    {stopped : Option Ending} {m : Machine Empty}
    (h : runFiles source options.files machine = (stopped, m)) (prompt : Option String)
    (input : String) :
    run arguments source prompt input =
      ⟨(stopped.getD (.exit 0)).code, m.output,
        logText options m.log ++ (stopped.getD (.exit 0)).errorText⟩ := by
  have hdialogue : options.wantsDialogue = false := by
    unfold Options.wantsDialogue
    rw [hinteractive, Bool.false_or, List.isEmpty_eq_false_iff]
    exact hfiles
  rw [run, hoptions]
  simp only [carryOut, h, hdialogue]
  cases stopped with
  | none => rfl
  | some ending => rfl

/-- Unless it is asked for, nothing of the log is shown. -/
theorem logText_quiet (files : List String) (interactive : Bool) (log : List Event) :
    logText ⟨files, interactive, false, false⟩ log = "" := by
  have hshows : ∀ level, Options.shows ⟨files, interactive, false, false⟩ level = false := by
    intro level
    cases level <;> rfl
  unfold logText
  simp [hshows]

end Runs

/-- Take a command line that names some files and sets no flag. All of the files can be read, and there
is no numeral of more than `Number.maxDigits` digits in them. Then the run is that of the programs in
a row, on one machine:

* The machine that the files leave is the one that the programs leave in a row, but for its log, and
  the run ends with the fault that they end with.
* Whenever the files so far have gone well, nothing is pending and no definition is open, and the rest
  of the files starts from there.
* Once a file has stopped the run, the files behind it have no part in it: whatever they hold, and
  also if they are missing, the run is the same.
* The output is all that the programs have written, including the one that failed.
* If one of them failed, the exit code is one, and its message is all that stands in the error output.
  Otherwise, the code is zero, and nothing stands there. -/
theorem run_files_in_order {arguments files : List String}
    (hoptions : Options.parse arguments = .ok ⟨files, false, false, false⟩) (hfiles : files ≠ [])
    {source : String → Except FileFault String} {texts : List String}
    (hsource : List.Forall₂ (fun file text => source file = .ok text) files texts)
    (hreadable : ∀ text ∈ texts, ∀ t ∈ Input.words (Input.ofText text), Number.Readable t)
    (prompt : Option String) (input : String) :
    (∃ log, runFiles source files machine =
      (((texts.forM Machine.execute).fault? machine).map Ending.ofFault,
        { (texts.forM Machine.execute).after machine with log := log })) ∧
    (∀ before rest m, files = before ++ rest → runFiles source before machine = (none, m) →
      m.pending = [] ∧ m.draft = none ∧
        runFiles source files machine = runFiles source rest m) ∧
    (∀ before rest ending m, files = before ++ rest →
      runFiles source before machine = (some ending, m) →
      ∀ source', (∀ file ∈ before, source' file = source file) →
        runFiles source' files machine = (some ending, m) ∧
        run arguments source' prompt input = run arguments source prompt input) ∧
    (run arguments source prompt input).output =
      ((texts.forM Machine.execute).after machine).output ∧
    (∀ fault, (texts.forM Machine.execute).fault? machine = some fault → fault.isRecoverable →
      (run arguments source prompt input).exit = .ok 1 ∧
      (run arguments source prompt input).errors = "Error: " ++ fault.message ++ "\n") ∧
    ((∀ fault, (texts.forM Machine.execute).fault? machine = some fault → ¬fault.isRecoverable) →
      (run arguments source prompt input).exit = .ok 0 ∧
      (run arguments source prompt input).errors = "") := by
  obtain ⟨log, hrunFiles⟩ : ∃ log, runFiles source files machine =
      (((texts.forM Machine.execute).fault? machine).map Ending.ofFault,
        { (texts.forM Machine.execute).after machine with log := log }) :=
    runFiles_eq_forM hsource native_machine machine.log
  have hfault := @Action.fault_of_forM_execute Empty _ .standard (by decide) _ hreadable machine
    (Machine.ready_fresh .standard)
  have hrun := run_of_files hoptions hfiles rfl hrunFiles prompt input
  simp only [logText_quiet, String.empty_append] at hrun
  refine ⟨⟨log, hrunFiles⟩, ?_, ?_, ?_, ?_, ?_⟩
  · rintro before rest m rfl hbefore
    obtain ⟨hpending, hdraft⟩ := drained_of_runFiles ⟨rfl, rfl⟩ hbefore
    refine ⟨hpending, hdraft, ?_⟩
    rw [runFiles_append, hbefore]
  · rintro before rest ending m rfl hbefore source' hsame
    have hstopped := runFiles_of_stopped hbefore (fun _ _ => rfl) rest
    have hstopped' := runFiles_of_stopped hbefore hsame rest
    refine ⟨hstopped', ?_⟩
    rw [run_of_files hoptions hfiles rfl hstopped' prompt input,
      run_of_files hoptions hfiles rfl hstopped prompt input]
  · rw [hrun]
  · intro fault hstops hreport
    rw [hrun, hstops, Option.map_some, Ending.ofFault_of_isRecoverable hreport]
    exact ⟨rfl, rfl⟩
  · intro hnone
    rw [hrun]
    cases hstops : (texts.forM Machine.execute).fault? machine with
    | none => exact ⟨rfl, rfl⟩
    | some fault =>
      rcases hfault hstops with rfl | hreport
      · exact ⟨rfl, rfl⟩
      · exact absurd hreport (hnone fault hstops)

/-- Three files: a definition and a use of it; another use, and then an unknown word in front of a
definition that stays open; and a third use. -/
def shelf : String → Except FileFault String
  | "first" => .ok ": two 1 1 + ; two ."
  | "second" => .ok "two . frob : three"
  | "third" => .ok "two ."
  | name => .error (.missing name)

/-- The shelf without its third file. -/
def shortShelf (name : String) : Except FileFault String :=
  if name = "third" then .error (.missing name) else shelf name

/-- The run stops at the unknown word, and does not look for the third file. -/
theorem run_shelf :
    run ["first", "second", "third"] shelf none "" =
      ⟨.ok 1, "2\n2\n", "Error: Unknown word 'frob'\n"⟩ ∧
    run ["first", "second", "third"] shortShelf none "" =
      run ["first", "second", "third"] shelf none "" := by
  have hsource : List.Forall₂ (fun file text => shelf file = .ok text)
      ["first", "second", "third"] [": two 1 1 + ; two .", "two . frob : three", "two ."] :=
    .cons rfl (.cons rfl (.cons rfl .nil))
  obtain ⟨-, -, hstop, houtput, hfailed, -⟩ := @run_files_in_order ["first", "second", "third"] _ rfl
    (List.cons_ne_nil _ _) _ _ hsource (by decide +kernel) none ""
  constructor
  · have hends : ([": two 1 1 + ; two .", "two . frob : three", "two ."].forM
          Machine.execute).fault? machine = some (.unknownWord "frob") ∧
        (([": two 1 1 + ; two .", "two . frob : three", "two ."].forM
          Machine.execute).after machine).output = "2\n2\n" := by
      decide +kernel
    obtain ⟨hexit, herrors⟩ := hfailed _ hends.1 rfl
    rw [hends.2] at houtput
    generalize run ["first", "second", "third"] shelf none "" = r at hexit herrors houtput
    obtain ⟨exit, output, errors⟩ := r
    cases hexit
    cases houtput
    cases herrors
    rfl
  · have hsecond : (runFiles shelf ["first", "second"] machine).1.isSome = true := by
      decide +kernel
    generalize hbefore : runFiles shelf ["first", "second"] machine = result at hsecond
    obtain ⟨_ | ending, m⟩ := result
    · cases hsecond
    · exact (hstop ["first", "second"] ["third"] ending m rfl hbefore shortShelf (by decide)).2

end CommandLine

end ThreadedForth
