import ThreadedForth.Dialogue

/-!
# Sessions

A session is a list of commands to one interpreter. A fault ends the command it arises in, not the
session. Commands are data; so a host can make words of them: the extension words of a session are
scripts, lists of commands that run on the same machine when the word does.
-/

namespace ThreadedForth

mutual

/-- What a host asks an interpreter to do. -/
inductive Command where
  | eval (text : String)
  | execute (text : String)
  | finish
  | resetInput
  | push (values : List Number.Datum)
  | pop
  | peek
  /-- Asks for the stack in brackets. -/
  | stackText
  /-- Holds a dialogue over a script of lines, with a prompt of its own if one is given. -/
  | dialogue (script : List Keyed) (greets : Bool) (prompt : Option String)
  /-- Compiles a word and binds it to a name. -/
  | defineWord (name : String) (tokens : List String)
  /-- Binds a name to a body made from a plan. -/
  | define (name : String) (plan : BodyPlan) (immediate : Bool)
  | copyWord (new old : String)
  | lookup (name : String)
  | contains (name : String)
  | dump
  | resolve (token : String)
  | interpret (token : String)
  | literal (token : String)
  | wrap (value : Int)
  /-- Asks for the least and the greatest number of a cell. -/
  | limits
  | queue (text : String)
  | readWord
  | skipLine
  | require (word : String) (count : Int)
  | popCells (word : String) (count : Int)
  | write (text : String)
  | raise (fault : Fault)

/-- How the body of a word is made. -/
inductive BodyPlan where
  /-- A number, which need not fit a cell. -/
  | literal (v : Int)
  /-- The words captured from a list of tokens. -/
  | compiled (tokens : List String)
  /-- A word of the host. -/
  | script (commands : List Command)

end

/-- Commands in a row. -/
abbrev Script := List Command

/-- A word as it is shown, with its listing. -/
structure ShownWord where
  word : Word Script
  listing : String

/-- What a command answers with. -/
inductive Reply where
  | nothing
  | cell (v : Option Int)
  | cells (vs : List Int)
  | text (s : String)
  | texts (ss : List String)
  | token (t : Option String)
  | truth (b : Bool)
  | word (w : Option ShownWord)
  | dialogue (d : Dialogue)

namespace Action

/-- Shows a word; that can fail, if its listing does. -/
def showWord (w : Word Script) : Action Script Reply := do
  return .word (some ⟨w, ← ofExcept w.describe⟩)

/-- Shows a word if there is one. -/
def showWord? : Option (Word Script) → Action Script Reply
  | some w => showWord w
  | none => return .word none

/-- Makes a body. -/
def makeBody (perform : Performer Script) : BodyPlan → Action Script (Body Script)
  | .literal v => return .literal v
  | .compiled tokens => return .compiled (← compileWords perform tokens)
  | .script commands => return .primitive (.extension commands)

/-- Runs a command that answers with nothing. -/
def silently (action : Action Script Unit) : Action Script Reply := do
  action
  return .nothing

/-- Runs a command, given how the primitives run. -/
def obey (perform : Performer Script) : Command → Action Script Reply
  | .eval text => silently (eval perform text)
  | .execute text => silently (execute perform text)
  | .finish => silently finish
  | .resetInput => silently resetInput
  | .push values => silently (push values)
  | .pop => return .cell (← pop)
  | .peek => return .cell (← get).stack.head?
  | .stackText => return .text (← ofExcept (← get).stackText)
  | .dialogue script greets prompt =>
    let console := ⟨greets, prompt.getD Console.standardPrompt, false⟩
    return .dialogue (← dialogue perform console script)
  | .defineWord name tokens => do showWord (← defineWord perform name tokens)
  | .define name plan immediate => do
    showWord (← define name immediate (← makeBody perform plan))
  | .copyWord new old => do showWord (← copyWord new old)
  | .lookup name => do showWord? ((← get).dictionary.lookup name)
  | .contains name => return .truth ((← get).dictionary.contains name)
  | .dump => return .texts (← ofExcept (← get).dictionary.dump)
  | .resolve token => do showWord? (← ofExcept ((← get).resolve token))
  | .interpret token => silently (interpret perform token)
  | .literal token => return .cell (← ofExcept ((← get).width.literal? token))
  | .wrap value => return .cell (some ((← get).width.wrap value))
  | .limits => do
    let width := (← get).width
    return .cells [width.least, width.greatest]
  | .queue text => silently (queue text)
  | .readWord => return .token (← readWord)
  | .skipLine => silently skipLine
  | .require word count => silently (require word count)
  | .popCells word count => return .cells (← popCells word count)
  | .write text => silently (write text)
  | .raise fault => throw fault.ofReport

/-- Runs commands in order, up to the first that stops with a fault. -/
def obeyAll (perform : Performer Script) : Script → Action Script Unit
  | [] => pure ()
  | command :: rest => do
    let _ ← obey perform command
    obeyAll perform rest

end Action

/-- An extension word of a session obeys its script. -/
instance : Extension Script where
  run := Action.obeyAll

namespace Session

/-- What is seen after a command. -/
structure Step where
  reply : Except Fault Reply
  /-- The stack, bottom first. -/
  stack : List Int
  /-- What the command wrote. -/
  written : String
  defining : Bool
  pending : List String
  words : Nat

/-- The machine as it is seen after a command. -/
def Step.ofMachine (m : Machine Script) (reply : Except Fault Reply) : Step where
  reply := reply
  stack := m.stack.reverse
  written := m.output
  defining := m.isDefining
  pending := Input.words m.pending
  words := m.dictionary.size

/-- Runs commands one after the other, whether they fail or not. -/
def runFrom (m : Machine Script) : List Command → List Step
  | [] => []
  | command :: rest =>
    match Action.obey Machine.performer command { m with output := "" } with
    | .ok reply m' => .ofMachine m' (.ok reply) :: runFrom m' rest
    | .error fault m' => .ofMachine m' (.error fault) :: runFrom m' rest

/-- Runs a session on a fresh interpreter with cells of so many bits. -/
def run (bits : Int) (commands : List Command) : Except Fault (List Step) := do
  return runFrom (Machine.fresh (← CellWidth.ofInt bits)) commands

end Session

end ThreadedForth
