import ThreadedForth.Threading

/-!
# Definitions and the built-in vocabulary

A definition is a name and the words up to a semicolon. Its words are collected first, over as many
lines and as many portions of input as it takes; only then are they compiled, from left to right: an
immediate word runs, any other is captured as it stands in the dictionary at that moment. If the
input ends before the semicolon, the definition stays open as a `Draft`.

`Action.step` gives each primitive its action. Two of them may run other words: a definition runs
the immediate words of its body, and a word of the host runs what it pleases. How those nested words
run is a parameter of `step`; `perform` ties the knot down to a given depth of nesting. Programs
without extension words and without immediate compiled words never nest at all.

A fresh machine knows seventeen primitives by name, and eight further names that are copies of some
of them. A copy has the usual sign of an operation, its origin a plain name.
-/

namespace ThreadedForth

variable {Ext : Type}

/-! ## Definitions -/

namespace Action

/-- The words that a definition captures, running the immediate ones on the way. -/
def compileWords (perform : Performer Ext) : List String → Action Ext (List (Word Ext))
  | [] => pure []
  | token :: rest => do
    match ← ofExcept ((← get).resolve token) with
    | none =>
      note (.unknownInBody token)
      throw (.unknownWord token)
    | some w =>
      if w.immediate then
        w.body.run perform
        compileWords perform rest
      else
        return w :: (← compileWords perform rest)

/-- Binds a name in the dictionary. -/
def define (name : String) (immediate : Bool) (body : Body Ext) : Action Ext (Word Ext) := do
  modify fun m => { m with dictionary := m.dictionary.define name immediate body }
  return ⟨some name, immediate, body⟩

/-- Binds a new name to a copy of the word of an old one. -/
def copyWord (new old : String) : Action Ext (Word Ext) := do
  match (← get).dictionary.lookup old with
  | some w =>
    let w ← define new w.immediate w.body
    note (.copied new old)
    return w
  | none => throw (.unknownWord old)

/-- Compiles the words of a body and binds the name to the result. -/
def defineWord (perform : Performer Ext) (name : String) (tokens : List String) :
    Action Ext (Word Ext) := do
  let words ← compileWords perform tokens
  let w ← define name false (.compiled words)
  let listing ← ofExcept w.describe
  note (.defined listing)
  return w

/-- Goes on with the body of a definition, of which some words have been collected. -/
def collectBody (perform : Performer Ext) (name : String) (body : List String) :
    Action Ext Unit := do
  let m ← get
  match Input.takeBody m.pending with
  | (more, none) =>
    set { m with pending := [], draft := some (.named name (body ++ more)) }
    note (.awaitingEnd name)
  | (more, some rest) =>
    set { m with pending := rest, draft := none }
    let _ ← defineWord perform name (body ++ more)

/-- Goes on with an open definition as far as the pending input reaches. -/
def resumeDefinition (perform : Performer Ext) : Draft → Action Ext Unit
  | .named name body => collectBody perform name body
  | .unnamed => do
    match ← readWord with
    | none =>
      modify fun m => { m with draft := some .unnamed }
      note .awaitingName
    | some name => collectBody perform name []

end Action

/-! ## What the primitives do -/

/-- How the extension words of a host run, given how the primitives do. -/
class Extension (Ext : Type) where
  run : Performer Ext → Ext → Action Ext Unit

/-- No host, no words of its own. -/
instance : Extension Empty where
  run _ e := nomatch e

namespace Action

/-- Takes two cells and pushes the result of an operation on them, wrapped; the lower cell is the
left operand. -/
def binary (word : String) (op : Int → Int → Int) : Action Ext Unit := do
  let m ← get
  rearrange word 2 fun
    | b :: a :: stack => some (m.width.wrap (op a b) :: stack)
    | _ => none

/-- Divides, toward zero. A zero divisor stays on the stack. -/
def divide : Action Ext Unit := do
  match (← get).stack with
  | 0 :: _ :: _ => throw .divisionByZero
  | _ => binary "/" Int.tdiv

/-- Takes the top of the stack and writes it on a line; it is gone even if it cannot be written. -/
def printTop : Action Ext Unit := do
  match (← get).stack with
  | v :: stack =>
    modify fun m => { m with stack := stack }
    write ((← ofExcept (Number.write v)) ++ "\n")
  | [] => throw (.stackUnderflow "." 1 0)

/-- Writes the stack on a line. -/
def printStack : Action Ext Unit := do
  write ((← ofExcept (← get).stackText) ++ "\n")

/-- Writes the listing of the dictionary, or nothing of it. -/
def listWords : Action Ext Unit := do
  let lines ← ofExcept (← get).dictionary.dump
  write (String.join (lines.map (· ++ "\n")))

/-- The action of a primitive, given how nested words run. -/
def step [Extension Ext] (nested : Performer Ext) : Performer Ext
  | .dup => rearrange "dup" 1 fun
    | a :: stack => some (a :: a :: stack)
    | _ => none
  | .dupNonzero => rearrange "?dup" 1 fun
    | a :: stack => some (if a = 0 then a :: stack else a :: a :: stack)
    | _ => none
  | .drop => rearrange "drop" 1 fun
    | _ :: stack => some stack
    | _ => none
  | .swap => rearrange "swap" 2 fun
    | b :: a :: stack => some (a :: b :: stack)
    | _ => none
  | .over => rearrange "over" 2 fun
    | b :: a :: stack => some (a :: b :: a :: stack)
    | _ => none
  | .rot => rearrange "rot" 3 fun
    | c :: b :: a :: stack => some (a :: c :: b :: stack)
    | _ => none
  | .print => printTop
  | .printStack => printStack
  | .add => binary "+" (· + ·)
  | .subtract => binary "-" (· - ·)
  | .multiply => binary "*" (· * ·)
  | .divide => divide
  | .define => resumeDefinition nested .unnamed
  | .comment => skipLine
  | .listWords => listWords
  | .newline => write "\n"
  | .bye => throw (.bye 0)
  | .extension e => Extension.run nested e

end Action

/-- Runs a primitive, with at most so many levels of nested words. -/
def perform [Extension Ext] : (depth : Nat) → Performer Ext
  | 0 => Action.step fun _ => throw .exhausted
  | depth + 1 => Action.step (perform depth)

/-- The depth of nesting that is enough for every program in use. -/
def nestingLimit : Nat := 1000

/-! ## The words of a fresh machine -/

/-- The primitives by name, in the order in which they are registered. The comment is immediate. -/
def primitives : List (String × Bool × Primitive Ext) :=
  [("dup", false, .dup), ("q_dup", false, .dupNonzero), ("drop", false, .drop),
   ("swap", false, .swap), ("over", false, .over), ("rot", false, .rot), ("dot", false, .print),
   ("dot_s", false, .printStack), ("plus", false, .add), ("subtract", false, .subtract),
   ("mult", false, .multiply), ("divide", false, .divide), (":", false, .define),
   ("\\", true, .comment), ("dot_d", false, .listWords), ("cr", false, .newline),
   ("bye", false, .bye)]

/-- The copies, new name first, in the order in which they are registered. -/
def copies : List (String × String) :=
  [("?dup", "q_dup"), (".", "dot"), (".S", "dot_s"), ("+", "plus"), ("-", "subtract"),
   ("*", "mult"), ("/", "divide"), (".D", "dot_d")]

namespace Dictionary

/-- The built-in words. -/
def builtin : Dictionary Ext :=
  let base := primitives.foldl
    (fun d (name, immediate, p) => d.define name immediate (.primitive p)) empty
  copies.foldl (fun d (new, old) => (d.copy new old).toOption.getD d) base

end Dictionary

namespace Machine

/-- A machine that has run nothing yet. -/
def fresh (width : CellWidth) : Machine Ext where
  width := width
  stack := []
  dictionary := Dictionary.builtin
  pending := []
  draft := none
  output := ""
  log := .registered (Dictionary.builtin : Dictionary Ext).size ::
    (copies.map fun (new, old) => .copied new old).reverse

end Machine

end ThreadedForth
