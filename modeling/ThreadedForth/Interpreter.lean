import ThreadedForth.Vocabulary

/-!
# The interpreter

`Action.eval` queues a text and interprets the pending words one by one, each as it is resolved at
that moment. A definition that the text leaves open suspends it; the next text goes on with the
definition. `Action.finish` declares that no more text comes.

The actions take the performer of primitives as an argument, so that words of a host can use them
too; `Machine.eval` and its like are what a program outside uses.
-/

namespace ThreadedForth

variable {Ext : Type}

namespace Action

/-- Runs the word that a token stands for. -/
def interpret (perform : Performer Ext) (token : String) : Action Ext Unit := do
  match ← ofExcept ((← get).resolve token) with
  | none =>
    note (.unknownWord token)
    throw (.unknownWord token)
  | some w => w.body.run perform

/-- Interprets pending words until none is left or a definition is open. The budget bounds the
number of words. -/
def interpretPending (perform : Performer Ext) : (budget : Nat) → Action Ext Unit
  | 0 => throw .exhausted
  | budget + 1 => do
    if (← get).isDefining then return
    match ← readWord with
    | none => return
    | some token =>
      interpret perform token
      interpretPending perform budget

/-- The number of words that a host may queue while a text is being interpreted. -/
def refillLimit : Nat := 1000000

/-- Queues a text, goes on with the open definition if there is one, and interprets the rest. Each
pending piece is one word at most, so without a host's words the budget is never used up. -/
def eval (perform : Performer Ext) (text : String) : Action Ext Unit := do
  queue text
  if let some draft := (← get).draft then
    resumeDefinition perform draft
  interpretPending perform ((← get).pending.length + 1 + refillLimit)

/-- Declares the end of the input; an open definition is dropped, and malformed. -/
def finish : Action Ext Unit := do
  match (← get).draft with
  | none => return
  | some draft =>
    modify fun m => { m with draft := none }
    match draft with
    | .unnamed => throw .missingName
    | .named name _ => throw (.missingEnd name)

/-- Interprets a complete program. -/
def execute (perform : Performer Ext) (text : String) : Action Ext Unit := do
  eval perform text
  finish

/-- Drops the pending input and the open definition. -/
def resetInput : Action Ext Unit :=
  modify fun m => { m with pending := [], draft := none }

end Action

namespace Machine

/-- How the primitives of a machine run. -/
def performer [Extension Ext] : Performer Ext := perform nestingLimit

/-- Interprets a portion of a program. -/
def eval [Extension Ext] (text : String) : Action Ext Unit := Action.eval performer text

/-- Interprets a complete program. -/
def execute [Extension Ext] (text : String) : Action Ext Unit := Action.execute performer text

/-- Compiles a word and binds it to a name. -/
def defineWord [Extension Ext] (name : String) (tokens : List String) : Action Ext (Word Ext) :=
  Action.defineWord performer name tokens

end Machine

end ThreadedForth
