import ThreadedForth.Dialogue
import ThreadedForth.Proofs.Endings

/-!
# A dialogue survives its input

Whatever lines and interrupts come from the keyboard, a dialogue goes on to the end of the script or
to a request to leave, and ends with an exit code (`dialogue_steady`). Only a numeral with too many
digits is beyond it, and cells so wide that they cannot be written.

The argument goes round by round. At a prompt nothing is pending and the machine is sound
(`Machine.Ready`). A round ends in one of three ways: the line is interpreted and nothing is left
pending; something fails, and input and open definition are dropped; or a word asks to leave
(`Action.respond_cases`).
-/

namespace ThreadedForth

variable {Ext : Type}

/-! ## What is asked of a dialogue -/

/-- The token is no numeral with more digits than can be read. -/
def Number.Readable (token : String) : Prop :=
  ∀ numeral, Numeral.ofString? token = some numeral → numeral.digits.length ≤ maxDigits

instance (token : String) : Decidable (Number.Readable token) :=
  decidable_of_iff (∀ numeral ∈ Number.Numeral.ofString? token,
    numeral.digits.length ≤ Number.maxDigits) Iff.rfl

/-- Every word of the line can be read. -/
def Keyed.Readable : Keyed → Prop
  | .line text => ∀ t ∈ Input.words (Input.ofText text), Number.Readable t
  | .interrupt => True

instance : (keyed : Keyed) → Decidable keyed.Readable
  | .line text => inferInstanceAs (Decidable (∀ t ∈ Input.words (Input.ofText text), _))
  | .interrupt => inferInstanceAs (Decidable True)

/-- The machines at the prompts of a dialogue, in order. -/
def Action.prompted (perform : Performer Ext) (console : Console) :
    List Keyed → Machine Ext → List (Machine Ext)
  | [], m => [m]
  | keyed :: rest, m =>
    match respond perform keyed ((showPrompt console).after m) with
    | .ok none m' => m :: prompted perform console rest m'
    | _ => [m]

/-- How a dialogue has to go that was prompted for at these machines. -/
structure Dialogue.Steady [Extension Ext] (console : Console) (script : List Keyed)
    (stops : List (Machine Ext)) (d : Dialogue) : Prop where
  code : d.code = 0 ∨ d.code = 1
  /-- The prompt tells whether a definition is open. -/
  prompts : d.prompts = stops.map fun m => if m.isDefining then "...> " else console.ready
  /-- Nothing of an earlier line is left to be interpreted. -/
  pending : ∀ m ∈ stops, m.pending = []
  /-- After a failure or an interrupt there is another prompt, and no open definition at it. -/
  afresh : ∀ i m keyed fault, stops[i]? = some m → script[i]? = some keyed →
    (Action.take Machine.performer keyed).fault? ((Action.showPrompt console).after m) = some fault →
    fault ≠ .bye 0 → ∃ m', stops[i + 1]? = some m' ∧ m'.isDefining = false
  /-- It ends with the code for a failure exactly if the script does within a definition. -/
  failed_iff : d.code = 1 ↔ ∃ m, stops[script.length]? = some m ∧ m.isDefining = true
  /-- It ends with the script, or earlier by a word that asks to leave. -/
  ends : stops.length = script.length + 1 ∧ d.unread = 0 ∨
    stops.length + d.unread = script.length ∧ d.code = 0 ∧
      ∃ m text, stops.getLast? = some m ∧ script[stops.length - 1]? = some (.line text) ∧
        (Machine.eval text).fault? ((Action.showPrompt console).after m) = some (.bye 0)

/-! ## A round -/

/-- A machine at a prompt: nothing is pending, and all that it has collected can be read. -/
structure Machine.Ready (width : CellWidth) (m : Machine Ext) : Prop where
  pending : m.pending = []
  sound : ∃ tokens, m.Sound width tokens ∧ ∀ t ∈ tokens, Number.Readable t

namespace Machine.Ready

variable {width : CellWidth} {m : Machine Ext}

theorem withOutput (h : m.Ready width) (output : String) :
    { m with output := output }.Ready width := by
  obtain ⟨tokens, hm, htokens⟩ := h.sound
  exact ⟨h.pending, tokens, hm.withOutput output, htokens⟩

end Machine.Ready

theorem Machine.ready_fresh (width : CellWidth) : (fresh width : Machine Ext).Ready width :=
  ⟨rfl, [], sound_fresh width [], nofun⟩

/-- Without its input and its open definition, a sound machine is ready. -/
theorem Machine.Sound.ready_reset {width : CellWidth} {tokens : List String} {m : Machine Ext}
    (h : m.Sound width tokens) (output : String) :
    { m with output := output, pending := [], draft := none }.Ready width :=
  ⟨rfl, [], ⟨h.width_eq, h.dictionary, h.stack, List.nil_subset _, nofun⟩, nofun⟩

namespace Action

theorem showPrompt_eq (console : Console) (m : Machine Ext) :
    showPrompt console m = .ok (console.prompt m) { m with
      output := if console.echoes then m.output ++ console.prompt m else m.output } := by
  rw [showPrompt, get_bind]
  cases console.echoes <;> rfl

theorem greet_eq (console : Console) (m : Machine Ext) :
    greet console m = .ok () { m with
      output := if console.greets then m.output ++ Console.greeting else m.output } := by
  rw [greet]
  cases console.greets <;> rfl

/-- A failure that can be reported is, and everything that was to be interpreted is dropped. -/
theorem recover_of_isRecoverable {fault : Fault} (h : fault.isRecoverable = true)
    (m : Machine Ext) :
    recover fault m = .ok none { m with
      output := m.output ++ ("Error: " ++ fault.message ++ "\n"), pending := [], draft := none } := by
  cases fault with
  | interpretation | unknownWord | malformedDefinition | stackUnderflow | divisionByZero => rfl
  | _ => cases h

variable [Extension Ext] {width : CellWidth} {m : Machine Ext}

/-- A fault of a text that can be read is the request to leave, or can be reported. -/
theorem bye_or_isRecoverable {tokens : List String} {fault : Fault}
    (hwidth : width.bits ≤ CellWidth.widestWritable) (hfault : fault.Expected width tokens)
    (htokens : ∀ t ∈ tokens, Number.Readable t) :
    fault = .bye 0 ∨ fault.isRecoverable = true := by
  rcases hfault.classified hwidth with ⟨_, _, rfl⟩ | ⟨_, _, _, rfl⟩ | rfl | rfl |
    ⟨token, htoken, numeral, hnumeral, hlong, _⟩
  · exact .inr rfl
  · exact .inr rfl
  · exact .inr rfl
  · exact .inl rfl
  · exact absurd (htokens token htoken numeral hnumeral) (Nat.not_le_of_lt hlong)

/-- A text that can be read is interpreted, and leaves a machine that is ready for the next one; or a
word of it asks to leave, or something fails that can be reported. Then a machine that drops its input
and its open definition is ready. -/
theorem eval_cases (hwidth : width.bits ≤ CellWidth.widestWritable) (hm : m.Ready width)
    {text : String} (htext : ∀ t ∈ Input.words (Input.ofText text), Number.Readable t) :
    (∃ m', Machine.eval text m = .ok () m' ∧ m'.Ready width) ∨
    ∃ fault m', Machine.eval text m = .error fault m' ∧
      (fault = .bye 0 ∨ fault.isRecoverable = true) ∧
      ∀ output, { m' with output := output, pending := [], draft := none }.Ready width := by
  obtain ⟨tokens, hsound, htokens⟩ := hm.sound
  have hsettles := settles_eval hsound text
  have hall : ∀ t ∈ tokens ++ Input.words (Input.ofText text), Number.Readable t := fun t ht =>
    (List.mem_append.1 ht).elim (htokens t) (htext t)
  have hm' := hsettles.sound
  cases hrun : Machine.eval text m with
  | ok _ m' =>
    rw [after_of_ok hrun] at hm'
    have hpending := (open_or_drained_of_eval hrun).elim hm'.orderly.waiting id
    exact .inl ⟨m', rfl, hpending, _, hm', hall⟩
  | error fault m' =>
    rw [after_of_error hrun] at hm'
    have hexpected := hsettles.expected (fault?_of_error hrun)
    exact .inr ⟨fault, m', rfl, bye_or_isRecoverable hwidth hexpected hall, hm'.ready_reset⟩

/-- A round ends at a machine that is ready for the next one, without an open definition if
something failed; or else the line asked to leave. -/
theorem respond_cases (hwidth : width.bits ≤ CellWidth.widestWritable) (hm : m.Ready width)
    {keyed : Keyed} (hkeyed : keyed.Readable) :
    (∃ m', respond Machine.performer keyed m = .ok none m' ∧ m'.Ready width ∧
      ((take Machine.performer keyed).fault? m ≠ none → m'.isDefining = false)) ∨
    ∃ m' text, respond Machine.performer keyed m = .ok (some 0) m' ∧ keyed = .line text ∧
      (Machine.eval text).fault? m = some (.bye 0) := by
  cases keyed with
  | interrupt =>
    obtain ⟨tokens, hsound, -⟩ := hm.sound
    exact .inl ⟨_, rfl, hsound.ready_reset _, fun _ => rfl⟩
  | line text =>
    have htake : take Machine.performer (.line text) m = Machine.eval text m := rfl
    rcases eval_cases hwidth hm hkeyed with ⟨m', hrun, hready⟩ | ⟨fault, m', hrun, hfault, hreset⟩
    · refine .inl ⟨m', ?_, hready, fun hfault => ?_⟩
      · rw [respond, htake, hrun]
      · exact absurd (fault?_of_ok (htake.trans hrun)) hfault
    · have hrespond : respond Machine.performer (.line text) m = recover fault m' := by
        rw [respond, htake, hrun]
      rcases hfault with rfl | hreport
      · exact .inr ⟨m', text, hrespond, rfl, fault?_of_error hrun⟩
      · exact .inl ⟨_, hrespond.trans (recover_of_isRecoverable hreport m'), hreset _,
          fun _ => rfl⟩

end Action

/-! ## Round after round -/

namespace Dialogue

variable [Extension Ext] {console : Console} {m : Machine Ext}

/-- The script is at its end. -/
theorem steady_nil (hm : m.pending = []) :
    Steady console [] [m] ⟨if m.isDefining then 1 else 0, [console.prompt m], 0⟩ where
  code := by cases m.isDefining <;> simp
  prompts := rfl
  pending := by simpa using hm
  afresh := by simp
  failed_iff := by simp
  ends := .inl ⟨rfl, rfl⟩

/-- A word of the first line asks to leave. -/
theorem steady_leave (hm : m.pending = []) {text : String}
    (hbye : (Machine.eval text).fault? ((Action.showPrompt console).after m) = some (.bye 0))
    (rest : List Keyed) :
    Steady console (.line text :: rest) [m] ⟨0, [console.prompt m], rest.length⟩ where
  code := .inl rfl
  prompts := rfl
  pending := by simpa using hm
  afresh := by
    intro i m₁ keyed fault hstop hkeyed hfault hne
    cases i with
    | zero =>
      cases hstop
      cases hkeyed
      have hsame : some (Fault.bye 0) = some fault := hbye.symm.trans hfault
      exact absurd (Option.some.inj hsame).symm hne
    | succ i => cases hstop
  failed_iff := by simp
  ends := .inr ⟨Nat.add_comm _ _, rfl, m, text, rfl, rfl, hbye⟩

/-- A round goes before the others. -/
theorem Steady.cons {d : Dialogue} {rest : List Keyed} {stops : List (Machine Ext)}
    (h : d.Steady console rest stops) (hm : m.pending = []) {m' : Machine Ext}
    (hnext : stops[0]? = some m') {keyed : Keyed}
    (hfault : (Action.take Machine.performer keyed).fault? ((Action.showPrompt console).after m) ≠
      none → m'.isDefining = false) :
    Steady console (keyed :: rest) (m :: stops)
      { d with prompts := console.prompt m :: d.prompts } where
  code := h.code
  prompts := by
    rw [h.prompts]
    rfl
  pending := List.forall_mem_cons.2 ⟨hm, h.pending⟩
  afresh := by
    intro i m₁ keyed' fault hstop hkeyed hfault' hne
    cases i with
    | zero =>
      cases hstop
      cases hkeyed
      exact ⟨m', hnext, hfault (by simp [hfault'])⟩
    | succ i => exact h.afresh i m₁ keyed' fault hstop hkeyed hfault' hne
  failed_iff := h.failed_iff
  ends := by
    rcases h.ends with ⟨hlength, hunread⟩ | ⟨hlength, hcode, m₁, text, hlast, htext, hbye⟩
    · exact .inl ⟨congrArg (· + 1) hlength, hunread⟩
    · obtain ⟨first, others, rfl⟩ : ∃ first others, stops = first :: others := by
        cases stops with
        | nil => cases hlast
        | cons first others => exact ⟨first, others, rfl⟩
      refine .inr ⟨?_, hcode, m₁, text, hlast, htext, hbye⟩
      rw [List.length_cons, Nat.add_right_comm, hlength]
      rfl

end Dialogue

namespace Action

theorem conclude_eq (m : Machine Ext) :
    ∃ m', conclude m = .ok (if m.isDefining then 1 else 0) m' := by
  cases hd : m.draft with
  | none =>
    refine ⟨m, ?_⟩
    rw [conclude, finish_of_closed hd, Machine.isDefining, hd]
    rfl
  | some draft =>
    obtain ⟨message, hrun⟩ := finish_of_open hd
    rw [conclude, hrun, Machine.isDefining, hd]
    exact ⟨_, rfl⟩

theorem prompted_head (perform : Performer Ext) (console : Console) (script : List Keyed)
    (m : Machine Ext) :
    (prompted perform console script m)[0]? = some m := by
  cases script with
  | nil => rfl
  | cons keyed rest =>
    rw [prompted]
    split <;> rfl

variable [Extension Ext] {width : CellWidth} {console : Console}

/-- From a machine that is ready, prompting and answering comes to an end, and goes as it has to. -/
theorem converse_steady (hwidth : width.bits ≤ CellWidth.widestWritable) {script : List Keyed}
    (hscript : ∀ keyed ∈ script, keyed.Readable) {m : Machine Ext} (hm : m.Ready width) :
    ∃ d m', converse Machine.performer console script m = .ok d m' ∧
      d.Steady console script (prompted Machine.performer console script m) := by
  induction script generalizing m with
  | nil =>
    have hshow := showPrompt_eq console m
    obtain ⟨m', hend⟩ := conclude_eq ((showPrompt console).after m)
    rw [after_of_ok hshow] at hend
    refine ⟨_, m', ?_, Dialogue.steady_nil hm.pending⟩
    rw [converse, bind_of_ok hshow]
    exact bind_of_ok hend
  | cons keyed rest ih =>
    have hshow := showPrompt_eq console m
    have hshown : ((showPrompt console).after m).Ready width := by
      rw [after_of_ok hshow]
      exact hm.withOutput _
    rw [List.forall_mem_cons] at hscript
    rw [converse, bind_of_ok hshow, ← after_of_ok hshow, prompted]
    rcases respond_cases hwidth hshown hscript.1 with
      ⟨m₁, hrespond, hready, hfault⟩ | ⟨m₁, text, hrespond, rfl, hbye⟩
    · obtain ⟨d, m', hrest, hsteady⟩ := ih hscript.2 hready
      rw [bind_of_ok hrespond, hrespond]
      refine ⟨_, m', bind_of_ok hrest, ?_⟩
      exact hsteady.cons hm.pending (prompted_head _ _ _ _) hfault
    · rw [bind_of_ok hrespond, hrespond]
      exact ⟨_, m₁, rfl, Dialogue.steady_leave hm.pending hbye rest⟩

end Action

/-- Take a fresh machine with cells of at most `CellWidth.widestWritable` bits, and any script of
lines and interrupts without a numeral of more than `Number.maxDigits` digits. The dialogue returns:
it stops with no fault, and its exit code is zero or one. At every prompt nothing is pending, and the
prompt tells whether a definition is open. After an interrupt, or a line that failed, there is another
prompt, and no definition is open then. The code is one exactly if the script ends while a definition
is open. Some of the script is unread only if a line asked to leave, and then the code is zero. -/
theorem dialogue_steady [Extension Ext] {width : CellWidth}
    (hwidth : width.bits ≤ CellWidth.widestWritable) (console : Console) {script : List Keyed}
    (hscript : ∀ keyed ∈ script, keyed.Readable) :
    ∃ d m', Action.dialogue Machine.performer console script (Machine.fresh width : Machine Ext) =
        .ok d m' ∧
      d.Steady console script (Action.prompted Machine.performer console script
        ((Action.greet console).after (Machine.fresh width : Machine Ext))) := by
  have hgreet := Action.greet_eq console (Machine.fresh width : Machine Ext)
  have hready : ((Action.greet console).after (Machine.fresh width : Machine Ext)).Ready width := by
    rw [Action.after_of_ok hgreet]
    exact (Machine.ready_fresh width).withOutput _
  rw [Action.dialogue, Action.bind_of_ok hgreet, ← Action.after_of_ok hgreet]
  exact Action.converse_steady hwidth hscript hready

/-- A terminal with the usual prompt. -/
def terminal : Console :=
  ⟨true, Console.standardPrompt, false⟩

/-- A line that fails, an interrupt within a definition, and the wish to leave before the end. -/
def interrupted : List Keyed :=
  [.line "1 frob 2", .line ": square dup", .interrupt, .line "2 bye 3", .line "4"]

/-- It starts afresh after the failure and after the interrupt, and leaves one line unread. -/
theorem dialogue_interrupted :
    ∃ m', Action.dialogue Machine.performer terminal interrupted
        (Machine.fresh .standard : Machine Empty) =
      .ok ⟨0, ["ok> ", "ok> ", "...> ", "ok> "], 1⟩ m' := by
  obtain ⟨d, m', hrun, hsteady⟩ :=
    @dialogue_steady Empty _ .standard (by decide) terminal interrupted (by decide +kernel)
  generalize hstops : Action.prompted Machine.performer terminal interrupted
    ((Action.greet terminal).after (Machine.fresh .standard : Machine Empty)) = stops at hsteady
  have hprompts : d.prompts = ["ok> ", "ok> ", "...> ", "ok> "] := by
    rw [hsteady.prompts, ← hstops]
    decide +kernel
  have hlength : stops.length = 4 := by
    rw [← hstops]
    decide +kernel
  -- four prompts for five items: a word has asked to leave
  rcases hsteady.ends with ⟨hall, _⟩ | ⟨hleft, hcode, _⟩
  · cases hlength.symm.trans hall
  · have hunread : d.unread = 1 := by
      rw [hlength] at hleft
      exact Nat.add_left_cancel hleft
    obtain ⟨code, prompts, unread⟩ := d
    cases hcode
    cases hprompts
    cases hunread
    exact ⟨m', hrun⟩

end ThreadedForth
