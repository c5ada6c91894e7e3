import ThreadedForth.CommandLine.Run

/-!
# The command line program

Reads the files and the keyboard, and writes what the machine has written. Everything else is done
by the library.
-/

namespace ThreadedForth.CommandLine

/-- The name of the variable with the prompt. -/
def promptVariable : String := "TINYFORTH_PROMPT"

/-- Reads a file. -/
def readSource (path : String) : IO (Except FileFault String) := do
  try
    return decode (← IO.FS.readBinFile path)
  catch
    | .noFileOrDirectory .. => return .error (.missing path)
    | .inappropriateType .. => return .error (.isFolder path)
    | _ => return .error (.missing path)

/-- Writes what a machine has written and logged, and clears it. -/
def flushMachine (options : Options) (m : Machine Empty) : IO (Machine Empty) := do
  let out ← IO.getStdout
  out.putStr m.output
  out.flush
  (← IO.getStderr).putStr (logText options m.log)
  return { m with output := "", log := [] }

/-- Writes how a run ended, and gives the code to exit with. -/
def exitWith (ending : Ending) : IO UInt32 := do
  let err ← IO.getStderr
  err.putStr ending.errorText
  match ending.code with
  | .ok code => return (code.emod 256).toNat.toUInt32
  | .error failure =>
    err.putStrLn failure.message
    return 1

/-- Prompts and answers until the input ends or a word asks to leave. -/
partial def converse (options : Options) (shown : Console) (m : Machine Empty) : IO UInt32 := do
  match Action.showPrompt shown m with
  | .error fault _ => exitWith (.broken (.fault fault))
  | .ok _ m =>
    let m ← flushMachine options m
    let line ← (← IO.getStdin).getLine
    if line.isEmpty then
      match Action.conclude m with
      | .error fault _ => exitWith (.broken (.fault fault))
      | .ok code m =>
        let _ ← flushMachine options m
        exitWith (.exit code)
    else
      let text := if line.endsWith "\n" then (line.dropEnd 1).toString else line
      match Action.respond Machine.performer (.line text) m with
      | .error fault m =>
        let _ ← flushMachine options m
        exitWith (.broken (.fault fault))
      | .ok none m => converse options shown m
      | .ok (some code) m =>
        let _ ← flushMachine options m
        exitWith (.exit code)

/-- Carries out a command line that has been understood. -/
def runOptions (options : Options) : IO UInt32 := do
  let sources ← options.files.mapM fun path => return (path, ← readSource path)
  let source := fun path => (sources.lookup path).getD (.error (.missing path))
  let (ending, m) := runFiles source options.files machine
  let m ← flushMachine options m
  match ending with
  | some ending => exitWith ending
  | none =>
    if options.wantsDialogue then
      let shown := console (← IO.getEnv promptVariable)
      match Action.greet shown m with
      | .error fault _ => exitWith (.broken (.fault fault))
      | .ok _ m => converse options shown m
    else exitWith (.exit 0)

end ThreadedForth.CommandLine

open ThreadedForth.CommandLine in
def main (arguments : List String) : IO UInt32 := do
  match Options.parse arguments with
  | .error .help =>
    (← IO.getStdout).putStr help
    return 0
  | .error (.refused refusal) =>
    (← IO.getStderr).putStr (complaint refusal)
    return 2
  | .ok options => runOptions options
