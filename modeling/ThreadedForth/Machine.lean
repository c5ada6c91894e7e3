import ThreadedForth.Cell
import ThreadedForth.Dictionary
import ThreadedForth.Input

/-!
# The machine

The state of an interpreter, and the actions on it. An action returns a value or stops with a
fault; either way the machine is left as it stands at that moment, so the effects before a fault are
kept.
-/

namespace ThreadedForth

/-- A definition that waits for more input. -/
inductive Draft where
  | unnamed
  | named (name : String) (body : List String)
deriving DecidableEq, Repr

/-- The state of an interpreter. -/
structure Machine (Ext : Type) where
  width : CellWidth
  /-- The cells, top first. -/
  stack : List Int
  dictionary : Dictionary Ext
  pending : Input
  /-- The definition that is open, if any. -/
  draft : Option Draft
  /-- Everything written so far. -/
  output : String
  /-- The events so far, the last one first. -/
  log : List Event

/-- What changes a machine, and may stop with a fault. -/
abbrev Action (Ext : Type) := EStateM Fault (Machine Ext)

variable {Ext : Type}

namespace Machine

/-- Is a definition open? -/
def isDefining (m : Machine Ext) : Bool := m.draft.isSome

/-- The word that a token stands for: one of the dictionary, or else a literal. -/
def resolve (m : Machine Ext) (token : String) : Except Fault (Option (Word Ext)) :=
  match m.dictionary.lookup token with
  | some w => .ok (some w)
  | none => (m.width.literal? token).map (Option.map Entry.ofLiteral)

/-- The cells in brackets, bottom first. -/
def stackText (m : Machine Ext) : Except Fault String := do
  let cells ← m.stack.reverse.mapM Number.write
  return "[" ++ ", ".intercalate cells ++ "]"

end Machine

namespace Action

/-- The value of a computation that may fail, as an action. -/
def ofExcept {α : Type} : Except Fault α → Action Ext α
  | .ok a => pure a
  | .error fault => throw fault

/-! ## Output and log -/

def write (text : String) : Action Ext Unit :=
  modify fun m => { m with output := m.output ++ text }

def note (event : Event) : Action Ext Unit :=
  modify fun m => { m with log := event :: m.log }

/-! ## Pending input -/

/-- Appends the words of a text to the pending input. -/
def queue (text : String) : Action Ext Unit :=
  modify fun m => { m with pending := m.pending ++ Input.ofText text }

/-- Takes the next pending word; without one, nothing stays pending. -/
def readWord : Action Ext (Option String) := fun m =>
  match Input.readWord? m.pending with
  | some (token, rest) => .ok (some token) { m with pending := rest }
  | none => .ok none { m with pending := [] }

/-- Drops the pending words through the end of their line. -/
def skipLine : Action Ext Unit :=
  modify fun m => { m with pending := Input.skipLine m.pending }

/-! ## The stack -/

def pushCell (v : Int) : Action Ext Unit :=
  modify fun m => { m with stack := v :: m.stack }

/-- Changes the stack by a function that is undefined where cells are missing. -/
def rearrange (word : String) (arity : Nat) (f : List Int → Option (List Int)) :
    Action Ext Unit := fun m =>
  match f m.stack with
  | some stack => .ok () { m with stack := stack }
  | none => .error (.stackUnderflow word arity m.stack.length) m

/-- Stops unless the stack holds so many cells. -/
def require (word : String) (count : Int) : Action Ext Unit := fun m =>
  if (m.stack.length : Int) < count then
    .error (Fault.ofReport (.stackUnderflow word count m.stack.length)) m
  else .ok () m

/-- The number of cells that a request for `count` takes from a stack: that many if it is positive,
otherwise all but the lowest `-count`. -/
def cellsTaken (count : Int) (depth : Nat) : Nat :=
  if 0 < count then count.toNat else depth - count.natAbs

/-- Takes cells from the stack, the lowest first. -/
def popCells (word : String) (count : Int) : Action Ext (List Int) := do
  require word count
  let m ← get
  let taken := cellsTaken count m.stack.length
  set { m with stack := m.stack.drop taken }
  return (m.stack.take taken).reverse

/-- Pushes the integer value of each datum, wrapped into a cell, until one has none. -/
def push : List Number.Datum → Action Ext Unit
  | [] => pure ()
  | datum :: rest => do
    let v ← ofExcept datum.toInt
    let m ← get
    pushCell (m.width.wrap v)
    push rest

/-- Takes the top of the stack, if there is one. -/
def pop : Action Ext (Option Int) := fun m =>
  match m.stack with
  | v :: stack => .ok (some v) { m with stack := stack }
  | [] => .ok none m

end Action

end ThreadedForth
