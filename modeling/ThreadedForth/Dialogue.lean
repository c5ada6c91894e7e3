import ThreadedForth.Interpreter

/-!
# The dialogue

A dialogue prompts for lines and interprets them one by one. A failing line is reported, what is
left of it is dropped, and the dialogue goes on; so does an interrupt. It ends with the input, or
when a word asks to leave. What comes from the keyboard is a script here, so that a whole dialogue
is one action.
-/

namespace ThreadedForth

variable {Ext : Type}

/-- What comes from the keyboard. -/
inductive Keyed where
  | line (text : String)
  | interrupt
deriving DecidableEq, Repr

/-- How a dialogue shows itself. -/
structure Console where
  /-- Is there a greeting? -/
  greets : Bool
  /-- The prompt while no definition is open. -/
  ready : String
  /-- Are the prompts part of the output? -/
  echoes : Bool
deriving DecidableEq, Repr

namespace Console

/-- The usual prompt. -/
def standardPrompt : String := "ok> "

/-- The prompt while a definition is open. -/
def continuePrompt : String := "...> "

def greeting : String :=
  "TinyForth - a tiny threaded Forth\nType 'bye' to exit, '.D' to list words\n"

/-- What an interrupt is answered with. -/
def interruptHint : String := "\n(Ctrl+C) Type 'bye' to exit\n"

/-- The prompt that a machine is due. -/
def prompt (console : Console) (m : Machine Ext) : String :=
  if m.isDefining then continuePrompt else console.ready

end Console

/-- How a dialogue went. -/
structure Dialogue where
  /-- The exit code: the one asked for, or zero, or one if the input ended within a definition. -/
  code : Int
  /-- The prompts, in order. -/
  prompts : List String
  /-- The number of lines that were not asked for. -/
  unread : Nat
deriving DecidableEq, Repr

namespace Action

/-- Writes the greeting, if there is one. -/
def greet (console : Console) : Action Ext Unit :=
  if console.greets then write Console.greeting else pure ()

/-- Shows the prompt that is due. -/
def showPrompt (console : Console) : Action Ext String := do
  let prompt := console.prompt (← get)
  if console.echoes then write prompt
  return prompt

/-- Reports a fault that is no reason to end the dialogue. -/
def report (fault : Fault) : Action Ext Unit :=
  write ("Error: " ++ fault.message ++ "\n")

/-- What a fault means for the dialogue: an exit code, a report, or its end by the same fault. -/
def recover : Fault → Action Ext (Option Int)
  | .bye code => return some code
  | .interrupted => do
    write Console.interruptHint
    resetInput
    return none
  | fault =>
    if fault.isRecoverable then do
      report fault
      resetInput
      return none
    else throw fault

/-- Takes what was keyed. -/
def take (perform : Performer Ext) : Keyed → Action Ext Unit
  | .line text => eval perform text
  | .interrupt => throw .interrupted

/-- Answers to what was keyed, with an exit code if the dialogue is to end. -/
def respond (perform : Performer Ext) (keyed : Keyed) : Action Ext (Option Int) := fun m =>
  match take perform keyed m with
  | .ok _ m' => .ok none m'
  | .error fault m' => recover fault m'

/-- Ends the dialogue at the end of the input. -/
def conclude : Action Ext Int := fun m =>
  match finish m with
  | .ok _ m' => .ok 0 m'
  | .error fault m' => (do report fault; return 1 : Action Ext Int) m'

/-- Prompts and answers until the end of the script or the wish to leave. -/
def converse (perform : Performer Ext) (console : Console) : List Keyed → Action Ext Dialogue
  | [] => do
    let prompt ← showPrompt console
    return ⟨← conclude, [prompt], 0⟩
  | keyed :: rest => do
    let prompt ← showPrompt console
    match ← respond perform keyed with
    | some code => return ⟨code, [prompt], rest.length⟩
    | none =>
      let dialogue ← converse perform console rest
      return { dialogue with prompts := prompt :: dialogue.prompts }

/-- A dialogue from its greeting to its end. -/
def dialogue (perform : Performer Ext) (console : Console) (script : List Keyed) :
    Action Ext Dialogue := do
  greet console
  converse perform console script

end Action

end ThreadedForth
