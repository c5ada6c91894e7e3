import ThreadedForth.Number

/-!
# Options of the command line

Arguments are flags or files. A flag has a short or a long name; a long name may be cut as far as it
stays unique, and short ones may share a hyphen. A double hyphen ends the flags. The files stand
together: once a flag has followed them, further ones are not accepted.

Which of several complaints is made follows from the order of the work: first all arguments are
told apart, then the flags take effect one by one, and what was not recognised is named at the end.
-/

namespace ThreadedForth.CommandLine

/-- A choice of the command line. -/
inductive Flag where
  | help
  | interactive
  | verbose
  | debug
deriving DecidableEq, Repr

/-- The names of the flags, in the order in which they are listed. -/
def flagNames : List (String × Flag) :=
  [("-h", .help), ("--help", .help), ("-i", .interactive), ("--interactive", .interactive),
   ("-v", .verbose), ("--verbose", .verbose), ("--debug", .debug)]

namespace Flag

/-- The flag of a name. -/
def ofName? (name : String) : Option Flag :=
  (flagNames.find? (·.1 == name)).map (·.2)

/-- All names of a flag. -/
def title (f : Flag) : String :=
  "/".intercalate ((flagNames.filter (·.2 == f)).map (·.1))

end Flag

/-- Why a command line is refused. -/
inductive Refusal where
  /-- An argument that several names start with. -/
  | ambiguous (argument : String) (names : List String)
  /-- A value attached to a flag that takes none. -/
  | ignoredValue (flag : Flag) (value : String)
  | unrecognized (arguments : List String)
deriving DecidableEq, Repr

def Refusal.message : Refusal → String
  | .ambiguous argument names =>
    "ambiguous option: " ++ argument ++ " could match " ++ ", ".intercalate names
  | .ignoredValue flag value =>
    "argument " ++ flag.title ++ ": ignored explicit argument " ++ Text.quoted value
  | .unrecognized arguments => "unrecognized arguments: " ++ " ".intercalate arguments

/-! ## Telling arguments apart -/

/-- An argument, by what it looks like. -/
inductive Argument where
  | file (name : String)
  /-- A flag by its short name, with what was attached to it. -/
  | short (flag : Flag) (attached : Option (List Char))
  /-- A flag by its long name, with what was attached to it. -/
  | long (flag : Flag) (attached : Option (List Char))
  /-- A flag that does not exist. -/
  | unknown (text : String)
deriving DecidableEq, Repr

/-- The text before the first equals sign, and the text after it if there is one. -/
def splitValue : List Char → List Char × Option (List Char)
  | [] => ([], none)
  | c :: cs =>
    if c = '=' then ([], some cs)
    else
      let (name, value) := splitValue cs
      (c :: name, value)

/-- A number after a hyphen: digits, or a fraction with digits after its point. A line feed may
stand at the end. -/
def isNegativeNumber : List Char → Bool
  | '-' :: cs =>
    let isDigit := fun c => (Text.digitValue? c).isSome
    let body := if cs.getLast? = some '\n' then cs.dropLast else cs
    match body.dropWhile isDigit with
    | [] => !body.isEmpty
    | '.' :: fraction => !fraction.isEmpty && fraction.all isDigit
    | _ => false
  | _ => false

/-- Is it a long name, one after two hyphens? -/
def isLongName (name : List Char) : Bool :=
  ['-', '-'].isPrefixOf name

/-- A flag by one of its names. -/
def Argument.ofFlag (flag : Flag) (name : List Char) (attached : Option (List Char)) : Argument :=
  if isLongName name then .long flag attached else .short flag attached

/-- The flags that an argument with a hyphen may stand for: a long one by the start of its name, a
short one by the character after the hyphen. -/
def candidates (cs : List Char) : List (String × Argument) :=
  if isLongName cs then
    let (start, value) := splitValue cs
    (flagNames.filter fun (name, _) => start.isPrefixOf name.toList).map fun (name, flag) =>
      (name, .long flag value)
  else
    (flagNames.filter fun (name, _) => name.toList == cs.take 2).map fun (name, flag) =>
      (name, .short flag (some (cs.drop 2)))

/-- What an argument is, before any double hyphen. -/
def classify (argument : String) : Except Refusal Argument :=
  let cs := argument.toList
  if cs.head? ≠ some '-' then .ok (.file argument)
  else match Flag.ofName? argument with
    | some flag => .ok (.ofFlag flag cs none)
    | none =>
      if cs.length = 1 then .ok (.file argument)
      else
        let (name, value) := splitValue cs
        match value, Flag.ofName? (String.ofList name) with
        | some value, some flag => .ok (.ofFlag flag name (some value))
        | _, _ =>
          match candidates cs with
          | [] =>
            if isNegativeNumber cs || cs.contains ' ' then .ok (.file argument)
            else .ok (.unknown argument)
          | [(_, found)] => .ok found
          | several => .error (.ambiguous argument (several.map (·.1)))

/-- What the arguments are: behind the double hyphen, and itself, files only. -/
def classifyAll : List String → Except Refusal (List Argument)
  | [] => .ok []
  | argument :: rest =>
    if argument = "--" then .ok ((argument :: rest).map .file)
    else do
      let first ← classify argument
      return first :: (← classifyAll rest)

/-! ## Taking effect -/

/-- The flags of a short name and of the characters attached to it. -/
def cluster (flag : Flag) : List Char → Except Refusal (List Flag)
  | [] => .ok [flag]
  | c :: cs =>
    match Flag.ofName? (String.ofList ['-', c]) with
    | some next => (cluster next cs).map (flag :: ·)
    | none => .error (.ignoredValue flag (String.ofList (c :: cs)))

/-- The flags that an argument sets. -/
def Argument.flags : Argument → Except Refusal (List Flag)
  | .file _ | .unknown _ => .ok []
  | .short flag none | .long flag none => .ok [flag]
  | .short flag (some (c :: cs)) => cluster flag (c :: cs)
  | .short flag (some []) => .error (.ignoredValue flag "")
  | .long flag (some value) => .error (.ignoredValue flag (String.ofList value))

/-- The choices that a command line makes. -/
structure Options where
  files : List String
  interactive : Bool
  verbose : Bool
  debug : Bool
deriving DecidableEq, Repr

/-- Why a command line is not carried out. -/
inductive Stop where
  | help
  | refused (refusal : Refusal)
deriving DecidableEq, Repr

/-- The choices so far. -/
structure Progress where
  options : Options
  /-- Has a flag followed the files? -/
  filesClosed : Bool
  /-- What was not recognised. -/
  leftovers : List String

namespace Progress

def start : Progress := ⟨⟨[], false, false, false⟩, false, []⟩

/-- Sets a flag; a call for help ends the work. -/
def set (p : Progress) : Flag → Except Stop Progress
  | .help => .error .help
  | .interactive => .ok { p with options := { p.options with interactive := true } }
  | .verbose => .ok { p with options := { p.options with verbose := true } }
  | .debug => .ok { p with options := { p.options with debug := true } }

/-- Closes the list of files if it has begun. -/
def closeFiles (p : Progress) : Progress :=
  { p with filesClosed := p.filesClosed || !p.options.files.isEmpty }

/-- Adds a file, or a leftover if the files are closed. -/
def addFile (p : Progress) (name : String) : Progress :=
  if p.filesClosed then { p with leftovers := p.leftovers ++ [name] }
  else { p with options := { p.options with files := p.options.files ++ [name] } }

/-- Takes one argument. -/
def take (p : Progress) : Argument → Except Stop Progress
  | .file name => .ok (p.addFile name)
  | .unknown text => .ok { p.closeFiles with leftovers := p.leftovers ++ [text] }
  | argument =>
    match argument.flags with
    | .ok flags => flags.foldlM set p.closeFiles
    | .error refusal => .error (.refused refusal)

end Progress

/-- The choices of a command line; of the files the double hyphen is none. -/
def Options.parse (arguments : List String) : Except Stop Options :=
  match classifyAll arguments with
  | .error refusal => .error (.refused refusal)
  | .ok classified => do
    let p ← classified.foldlM Progress.take Progress.start
    if p.leftovers.isEmpty then
      return { p.options with files := p.options.files.erase "--" }
    else .error (.refused (.unrecognized p.leftovers))

/-! ## Texts -/

def usage : String := "usage: main.py [-h] [-i] [-v] [--debug] [FILE ...]\n"

def help : String :=
  usage ++
  "\nA tiny threaded Forth interpreter\n\n" ++
  "positional arguments:\n" ++
  "  FILE               Forth source files to run in order\n\n" ++
  "options:\n" ++
  "  -h, --help         show this help message and exit\n" ++
  "  -i, --interactive  start the REPL after running the files\n" ++
  "  -v, --verbose      print status messages\n" ++
  "  --debug            print debug messages\n"

/-- What is written when a command line is refused. -/
def complaint (refusal : Refusal) : String :=
  usage ++ "main.py: error: " ++ refusal.message ++ "\n"

end ThreadedForth.CommandLine
