import ThreadedForth.Proofs.Invariants

/-!
# How an evaluation ends

Interpreting a text comes to an end after no more turns than there are pieces pending, however many
more it would be allowed (`evalWithin_eq_eval`). It returns, or stops with one of a few faults: an
unknown word, a stack that is too short, a division by zero, the request to leave, or a numeral with
too many digits, which then is one of the words at hand (`eval_ends_classified`). That a definition
is malformed is never found by interpreting, but only by declaring the end of the input.
-/

namespace ThreadedForth

variable {Ext : Type}

namespace Fault.Expected

variable {width : CellWidth} {tokens : List String} {fault : Fault}

/-- In cells that can all be written, no number is too long to be written. -/
theorem classified (h : fault.Expected width tokens)
    (hwidth : width.bits ≤ CellWidth.widestWritable) :
    (∃ token ∈ tokens, fault = .unknownWord token) ∨
    (∃ word required available, fault = .stackUnderflow word required available) ∨
    fault = .divisionByZero ∨ fault = .bye 0 ∨
    ∃ token ∈ tokens, ∃ numeral, Number.Numeral.ofString? token = some numeral ∧
      Number.maxDigits < numeral.digits.length ∧
      fault = .numeralTooLong numeral.digits.length := by
  cases h with
  | unknownWord ht => exact .inl ⟨_, ht, rfl⟩
  | stackUnderflow => exact .inr (.inl ⟨_, _, _, rfl⟩)
  | divisionByZero => exact .inr (.inr (.inl rfl))
  | bye => exact .inr (.inr (.inr (.inl rfl)))
  | numeralTooLong ht hn hlong => exact .inr (.inr (.inr (.inr ⟨_, ht, _, hn, hlong, rfl⟩)))
  | numberTooLong hwide => omega

theorem ne_malformed (h : fault.Expected width tokens) (message : String) :
    fault ≠ .malformedDefinition message := by
  cases h <;> nofun

end Fault.Expected

theorem Number.Loose.read_ne_malformed (text message : String) :
    read text ≠ .error (.malformedDefinition message) := by
  unfold read
  grind

/-- Data without an integer value are no malformed definition. -/
theorem Number.Datum.toInt_ne_malformed (datum : Datum) (message : String) :
    datum.toInt ≠ .error (.malformedDefinition message) := by
  cases datum with
  | fraction negative magnitude =>
    simp only [toInt]
    cases Binary64.truncate magnitude <;> simp
  | text s => exact Loose.read_ne_malformed s message
  | _ => nofun

namespace Action

variable {width : CellWidth} {tokens : List String} {m : Machine Ext} {message : String}

theorem push_ne_malformed (values : List Number.Datum) :
    (push values).fault? m ≠ some (.malformedDefinition message) := by
  induction values generalizing m with
  | nil => nofun
  | cons datum rest ih =>
    cases hv : datum.toInt with
    | error fault =>
      rw [fault?_of_error (push_of_error hv rest)]
      rintro ⟨⟩
      exact datum.toInt_ne_malformed message hv
    | ok v =>
      rw [fault?_congr (push_of_ok hv rest)]
      exact ih

theorem copyWord_ne_malformed (new old : String) :
    (copyWord new old).fault? m ≠ some (.malformedDefinition message) := by
  rw [fault?, copyWord, get_bind]
  cases m.dictionary.lookup old with
  | none => rintro ⟨⟩
  | some w => rintro ⟨⟩

theorem pop_ne_malformed : pop.fault? m ≠ some (.malformedDefinition message) := by
  rw [fault?, pop]
  cases m.stack with
  | nil => rintro ⟨⟩
  | cons v stack => rintro ⟨⟩

/-- The end of the input is refused exactly if a definition is open. -/
theorem finish_malformed_iff :
    (∃ message, finish.fault? m = some (.malformedDefinition message)) ↔ m.isDefining = true := by
  cases hd : m.draft with
  | none =>
    rw [fault?_of_ok (finish_of_closed hd), Machine.isDefining, hd]
    simp
  | some draft =>
    obtain ⟨message, hrun⟩ := finish_of_open hd
    rw [fault?_of_error hrun, Machine.isDefining, hd]
    simp

section Running

variable [Extension Ext]

/-- A complete program is refused exactly if interpreting it leaves a definition open. -/
theorem execute_malformed_iff (hm : m.Sound width tokens) (text : String) :
    (∃ message, (Machine.execute text).fault? m = some (.malformedDefinition message)) ↔
      (Machine.eval text).fault? m = none ∧ ((Machine.eval text).after m).isDefining = true := by
  cases hrun : Machine.eval text m with
  | ok _ m' =>
    have hexecute : Machine.execute text m = finish m' := bind_of_ok hrun
    rw [fault?_congr hexecute, finish_malformed_iff, fault?_of_ok hrun, after_of_ok hrun]
    simp
  | error fault m' =>
    have hexecute : Machine.execute text m = .error fault m' := bind_of_error hrun
    have hexpected := (settles_eval hm text).expected (fault?_of_error hrun)
    rw [fault?_of_error hexecute, fault?_of_error hrun]
    constructor
    · rintro ⟨message, ⟨⟩⟩
      exact absurd rfl (hexpected.ne_malformed message)
    · rintro ⟨⟨⟩, _⟩

/-! ## Turns -/

/-- Interprets a text, with another reserve of turns beyond one for each pending piece. -/
def evalWithin (reserve : Nat) (text : String) : Action Ext Unit := do
  queue text
  if let some draft := (← get).draft then
    resumeDefinition Machine.performer draft
  interpretPending Machine.performer ((← get).pending.length + 1 + reserve)

/-- The reserve is not needed. -/
theorem evalWithin_eq_eval (hm : m.dictionary.Native) (reserve : Nat) (text : String) :
    evalWithin reserve text m = Machine.eval text m := by
  have hloop : ∀ m' : Machine Ext, m'.dictionary.Native →
      interpretPending Machine.performer (m'.pending.length + 1 + reserve) m' = drain m' := by
    intro m' hm'
    rw [drain]
    exact interpretPending_budget hm' (by omega) (by omega)
  rw [eval_eq_proceed]
  have hqueue : (queue text : Action Ext Unit) m =
      .ok () { m with pending := m.pending ++ Input.ofText text } := rfl
  rw [evalWithin, bind_of_ok hqueue]
  generalize hqueued : { m with pending := m.pending ++ Input.ofText text } = queued
  have hnative : queued.dictionary.Native := by
    rw [← hqueued]
    exact hm
  cases hd : queued.draft with
  | none =>
    rw [get_bind, hd, proceed_of_closed hd]
    exact hloop queued hnative
  | some draft =>
    have hevo := evolving_resumeDefinition draft queued hnative
    rw [get_bind, hd, proceed_of_open hd]
    cases hr : resumeDefinition Machine.performer draft queued with
    | error fault m' =>
      rw [bind_of_error hr]
      exact bind_of_error hr
    | ok _ m' =>
      rw [after_of_ok hr] at hevo
      rw [bind_of_ok hr]
      exact (bind_of_ok hr).trans (hloop m' hevo.native)

end Running

end Action

/-- Only the calls that declare the end of the input find a malformed definition. -/
theorem Call.eq_of_malformed [Extension Ext] {call : Call} {width : CellWidth}
    {tokens : List String} {m : Machine Ext} (hm : m.Sound width tokens) {message : String}
    (h : call.run.fault? m = some (.malformedDefinition message)) :
    call = .finish ∨ ∃ program, call = .execute program := by
  cases call with
  | finish => exact .inl rfl
  | execute program => exact .inr ⟨program, rfl⟩
  | eval text => exact absurd rfl (((Action.settles_eval hm text).expected h).ne_malformed message)
  | resetInput => cases h
  | push values => exact absurd h (Action.push_ne_malformed values)
  | pop =>
    rw [run, Action.fault?_discard] at h
    exact absurd h Action.pop_ne_malformed
  | defineWord name body =>
    rw [run, Action.fault?_discard] at h
    have hdefine := Action.settles_defineWord_of_any hm name body
    exact absurd rfl ((hdefine.expected h).ne_malformed message)
  | copyWord new old =>
    rw [run, Action.fault?_discard] at h
    exact absurd h (Action.copyWord_ne_malformed new old)

/-- Take a fresh machine with cells of at most `CellWidth.widestWritable` bits, after any calls, and
any text. Interpreting the text takes no more turns than there are pieces pending. It returns, or it
stops with an unknown word, a stack that is too short, a division by zero, the request to leave, or
a numeral with too many digits that is among the words pending, collected or new. A malformed
definition is found by `finish` and `execute` only, and by these exactly if a definition is open at
the end. -/
theorem eval_ends_classified [Extension Ext] {width : CellWidth}
    (hwidth : width.bits ≤ CellWidth.widestWritable) {calls : List Call} {m : Machine Ext}
    (hm : m = (Machine.fresh width).afterCalls calls) (text : String) :
    (∀ reserve, Action.evalWithin reserve text m = Machine.eval text m) ∧
    ((Machine.eval text).fault? m = none ∨
      ∃ fault, (Machine.eval text).fault? m = some fault ∧
        ((∃ token ∈ m.tokens ++ Input.words (Input.ofText text), fault = .unknownWord token) ∨
          (∃ word required available, fault = .stackUnderflow word required available) ∨
          fault = .divisionByZero ∨ fault = .bye 0 ∨
          ∃ token ∈ m.tokens ++ Input.words (Input.ofText text), ∃ numeral,
            Number.Numeral.ofString? token = some numeral ∧
            Number.maxDigits < numeral.digits.length ∧
            fault = .numeralTooLong numeral.digits.length)) ∧
    (∀ call message, (Call.run call).fault? m = some (.malformedDefinition message) →
      call = .finish ∨ ∃ program, call = .execute program) ∧
    ((∃ message, Action.finish.fault? m = some (.malformedDefinition message)) ↔
      m.isDefining = true) ∧
    ((∃ message, (Machine.execute text).fault? m = some (.malformedDefinition message)) ↔
      (Machine.eval text).fault? m = none ∧ ((Machine.eval text).after m).isDefining = true) := by
  obtain ⟨tokens, hsound⟩ := @Machine.sound_afterCalls Ext _ width calls
  rw [← hm] at hsound
  refine ⟨fun reserve => Action.evalWithin_eq_eval hsound.native reserve text, ?_,
    fun call message => Call.eq_of_malformed hsound, Action.finish_malformed_iff,
    Action.execute_malformed_iff hsound text⟩
  cases hfault : (Machine.eval text).fault? m with
  | none => exact .inl rfl
  | some fault =>
    have hexpected := (Action.settles_eval hsound.own text).expected hfault
    exact .inr ⟨fault, rfl, hexpected.classified hwidth⟩

/-- A machine with an open definition and a number on its stack. -/
def unfinished : Machine Empty :=
  (Machine.fresh .standard).afterCalls [.eval ": w 1 +", .push [.integer 3]]

/-- It can be completed and used, until a zero divides, in as many turns as there are pieces; as a
complete program it is malformed. -/
theorem unfinished_ends_classified :
    (Machine.eval "; w 0 /").fault? unfinished = some .divisionByZero ∧
      Action.evalWithin 0 "; w 0 /" unfinished = Machine.eval "; w 0 /" unfinished ∧
      ∃ message, (Machine.execute "dup").fault? unfinished =
        some (.malformedDefinition message) := by
  have hwidth : CellWidth.standard.bits ≤ CellWidth.widestWritable := by decide
  have hm : unfinished = (Machine.fresh .standard).afterCalls
      [.eval ": w 1 +", .push [.integer 3]] := rfl
  obtain ⟨hturns, _⟩ := eval_ends_classified hwidth hm "; w 0 /"
  obtain ⟨_, _, _, _, hexecute⟩ := eval_ends_classified hwidth hm "dup"
  exact ⟨by decide +kernel, hturns 0, hexecute.2 (by decide +kernel)⟩

end ThreadedForth
