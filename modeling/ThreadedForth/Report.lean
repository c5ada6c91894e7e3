import ThreadedForth.Text.Shown

/-!
# What is reported: faults and events

A fault is everything that can stop a run, by cause. The first five are failures of the program that
is being interpreted: a prompt reports them and goes on (`Fault.isRecoverable`). The request to
leave, an interrupt, the end of the input and the limits of number conversion are not among them.
`Fault.message` is the one place where the wording stands.

An event is what an interpreter does out of sight of the program, told to whoever keeps a log of it.
It has a level, the part that it comes from, and a text; a log shows one line for each.
-/

namespace ThreadedForth

/-! ## Faults -/

/-- Data that has no integer value, by shape. -/
inductive NonNumber where
  | null
  | list
  | record
deriving DecidableEq, Repr

/-- Why a run stopped. -/
inductive Fault where
  /-- A failure with a wording of its own. -/
  | interpretation (message : String)
  /-- A token that is neither a word of the dictionary nor a literal. -/
  | unknownWord (token : String)
  /-- A definition without its name or its end. -/
  | malformedDefinition (message : String)
  /-- A word that needs more cells than the stack holds. -/
  | stackUnderflow (word : String) (required available : Int)
  | divisionByZero
  /-- The request to leave, with an exit code. -/
  | bye (code : Int)
  /-- A numeral with this many digits, more than can be read. -/
  | numeralTooLong (digits : Nat)
  /-- A number with more digits than can be written. -/
  | numberTooLong
  /-- A text that is no numeral. -/
  | notNumeral (text : String)
  /-- Data that is no number. -/
  | notNumber (shape : NonNumber)
  /-- A number without bounds where an integer is needed. -/
  | infiniteNumber
  /-- The result of no calculation where an integer is needed. -/
  | undefinedNumber
  /-- A word without a name at this place of a listing. -/
  | namelessPart (position : Nat)
  /-- A cell of so few bits. -/
  | cellTooNarrow (bits : Int)
  /-- An interrupt from the keyboard. -/
  | interrupted
  /-- The end of the input where a line is needed. -/
  | endOfInput
  /-- Extension words that nest too deep, or that queue input without end. -/
  | exhausted
deriving DecidableEq, Repr

namespace Fault

/-- A definition ended before its name. -/
def missingName : Fault :=
  .malformedDefinition "Definition is missing a name"

/-- The definition of a word ended before its semicolon. -/
def missingEnd (name : String) : Fault :=
  .malformedDefinition ("Definition of '" ++ name ++ "' is missing ';'")

/-- Is it a failure that a prompt reports before it goes on? -/
def isRecoverable : Fault → Bool
  | .interpretation _ | .unknownWord _ | .malformedDefinition _ | .stackUnderflow .. |
    .divisionByZero => true
  | _ => false

/-- The wording of the limit on digits, around what is known of the number. -/
def digitLimit (known : String) : String :=
  "Exceeds the limit (" ++ Number.maxDigits.repr ++ " digits) for integer string conversion" ++
    known ++ "; use sys.set_int_max_str_digits() to increase the limit"

/-- How the shape of data that is no number is named. -/
def shapeName : NonNumber → String
  | .null => "NoneType"
  | .list => "list"
  | .record => "dict"

/-- The text shown for a fault. -/
def message : Fault → String
  | .interpretation message => message
  | .unknownWord token => "Unknown word '" ++ token ++ "'"
  | .malformedDefinition message => message
  | .stackUnderflow word required available =>
    "Stack underflow in '" ++ word ++ "': needs " ++ Number.decimal required ++ ", has " ++
      Number.decimal available
  | .divisionByZero => "Division by zero"
  | .bye code => "BYE " ++ Number.decimal code
  | .numeralTooLong digits => digitLimit (": value has " ++ digits.repr ++ " digits")
  | .numberTooLong => digitLimit ""
  | .notNumeral text =>
    "invalid literal for int() with base 10: " ++ String.ofList ((Text.quoted text).toList.take 200)
  | .notNumber shape =>
    "int() argument must be a string, a bytes-like object or a real number, not '" ++
      shapeName shape ++ "'"
  | .infiniteNumber => "cannot convert float infinity to integer"
  | .undefinedNumber => "cannot convert float NaN to integer"
  | .namelessPart position =>
    "sequence item " ++ position.repr ++ ": expected str instance, NoneType found"
  | .cellTooNarrow bits => "cell_bits must be at least 2, got " ++ Number.decimal bits
  | .interrupted => ""
  | .endOfInput => ""
  | .exhausted => "maximum recursion depth exceeded"

/-- A fault whose numbers cannot be written is one of writing. -/
def ofReport : Fault → Fault
  | .stackUnderflow word required available =>
    if Number.isWritable required && Number.isWritable available then
      .stackUnderflow word required available
    else .numberTooLong
  | .bye code => if Number.isWritable code then .bye code else .numberTooLong
  | fault => fault

end Fault

/-! ## Events -/

/-- How much a log has to tell to show an event. -/
inductive Level where
  | debug
  | info
deriving DecidableEq, Repr

/-- Something that happened. -/
inductive Event where
  /-- A name was bound to a copy of the word of an old name. -/
  | copied (new old : String)
  /-- The built-in vocabulary is complete. -/
  | registered (count : Nat)
  /-- The input ended right after the start of a definition. -/
  | awaitingName
  /-- The input ended within the definition of a word. -/
  | awaitingEnd (name : String)
  /-- A definition is complete. -/
  | defined (listing : String)
  /-- A definition holds an unknown word. -/
  | unknownInBody (token : String)
  /-- The input holds an unknown word. -/
  | unknownWord (token : String)
  /-- A file is about to be run. -/
  | running (file : String)
deriving DecidableEq, Repr

namespace Event

def level : Event → Level
  | .running _ => .info
  | _ => .debug

/-- The part that tells of the event. -/
def source : Event → String
  | .copied .. => "tinyforth.dictionary"
  | .registered _ | .unknownWord _ => "tinyforth.repl"
  | .awaitingName | .awaitingEnd _ | .defined _ | .unknownInBody _ => "tinyforth.compiler"
  | .running _ => "root"

def text : Event → String
  | .copied new old => "alias " ++ new ++ " -> " ++ old
  | .registered count => "registered " ++ count.repr ++ " words"
  | .awaitingName => "definition waiting for a name"
  | .awaitingEnd name => "definition of " ++ name ++ " waiting for ;"
  | .defined listing => "defined " ++ listing
  | .unknownInBody token => "unknown word " ++ Text.quoted token ++ " while compiling"
  | .unknownWord token => "unknown word " ++ Text.quoted token
  | .running file => "running " ++ file

/-- The line of an event in a log. -/
def line (e : Event) : String :=
  let level := match e.level with
    | .debug => "DEBUG"
    | .info => "INFO"
  level ++ ":" ++ e.source ++ ":" ++ e.text ++ "\n"

end Event

end ThreadedForth
