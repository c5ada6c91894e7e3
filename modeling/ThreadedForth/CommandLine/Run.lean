import ThreadedForth.CommandLine.Folder
import ThreadedForth.CommandLine.Options
import ThreadedForth.Dialogue

/-!
# Running from the command line

The files are run in order on one machine, each as a complete program. The first that fails ends
the run, and so does a word that asks to leave. Without files, or if it is asked for, a dialogue
follows.
-/

namespace ThreadedForth.CommandLine

/-- Why a run breaks off without an exit code. -/
inductive Failure where
  | fault (cause : Fault)
  | file (cause : FileFault)
deriving DecidableEq, Repr

def Failure.message : Failure → String
  | .fault cause => cause.message
  | .file cause => cause.message

/-- How a run ends. -/
inductive Ending where
  | exit (code : Int)
  /-- A program failed; the run exits with code one. -/
  | failed (fault : Fault)
  | broken (failure : Failure)
deriving DecidableEq, Repr

/-- The ending that a fault of a program makes. -/
def Ending.ofFault : Fault → Ending
  | .bye code => .exit code
  | fault => if fault.isRecoverable then .failed fault else .broken (.fault fault)

/-- The machine of a run: standard cells, no words of a host. -/
def machine : Machine Empty := Machine.fresh .standard

/-- Runs the files in order; the texts come from `source`. No ending means that all went well. -/
def runFiles (source : String → Except FileFault String) :
    List String → Machine Empty → Option Ending × Machine Empty
  | [], m => (none, m)
  | file :: rest, m =>
    let m := { m with log := .running file :: m.log }
    match source file with
    | .error fault => (some (.broken (.file fault)), m)
    | .ok text =>
      match Machine.execute text m with
      | .ok _ m' => runFiles source rest m'
      | .error fault m' => (some (.ofFault fault), m')

/-- Does a dialogue follow the files? -/
def Options.wantsDialogue (options : Options) : Bool :=
  options.interactive || options.files.isEmpty

/-- The console of a run. -/
def console (prompt : Option String) : Console :=
  ⟨true, prompt.getD Console.standardPrompt, true⟩

/-- The lines of the standard input. -/
def keyed (input : String) : List Keyed :=
  (Text.splitNewlines (Text.unifyNewlines input.toList)).map fun line => .line (String.ofList line)

/-- Runs the files, and then the dialogue if one is wanted. -/
def carryOut (options : Options) (source : String → Except FileFault String)
    (prompt : Option String) (input : String) : Ending × Machine Empty :=
  match runFiles source options.files machine with
  | (some ending, m) => (ending, m)
  | (none, m) =>
    if options.wantsDialogue then
      match Action.dialogue Machine.performer (console prompt) (keyed input) m with
      | .ok dialogue m' => (.exit dialogue.code, m')
      | .error fault m' => (.broken (.fault fault), m')
    else (.exit 0, m)

/-- Is an event of this level shown? -/
def Options.shows (options : Options) : Level → Bool
  | .debug => options.debug
  | .info => options.debug || options.verbose

/-- The lines of a log, oldest first. -/
def logText (options : Options) (log : List Event) : String :=
  String.join ((log.reverse.filter fun event => options.shows event.level).map Event.line)

/-- What is seen of a run from outside. -/
structure Run where
  /-- The exit code, unless the run broke off. -/
  exit : Except Failure Int
  output : String
  errors : String
deriving Repr

/-- What an ending writes to the error output. -/
def Ending.errorText : Ending → String
  | .failed fault => "Error: " ++ fault.message ++ "\n"
  | _ => ""

/-- The exit code of an ending. -/
def Ending.code : Ending → Except Failure Int
  | .exit code => .ok code
  | .failed _ => .ok 1
  | .broken failure => .error failure

/-- Runs a command line. -/
def run (arguments : List String) (source : String → Except FileFault String)
    (prompt : Option String) (input : String) : Run :=
  match Options.parse arguments with
  | .error .help => ⟨.ok 0, help, ""⟩
  | .error (.refused refusal) => ⟨.ok 2, "", complaint refusal⟩
  | .ok options =>
    let (ending, m) := carryOut options source prompt input
    ⟨ending.code, m.output, logText options m.log ++ ending.errorText⟩

end ThreadedForth.CommandLine
