import ThreadedForth.Number

/-!
# Words

A word is an entry with a body: a primitive, a literal, or the words that a definition captured,
held by value. A captured word is shown in a listing by its name, a literal by its number.

The primitives are built in, apart from `Primitive.extension`: a host may bring words of its own,
one for each member of the type `Ext`. A language without such words has `Ext := Empty`.
-/

namespace ThreadedForth

/-- What the built-in words do, and the words of a host. -/
inductive Primitive (Ext : Type) where
  | dup
  /-- Copies the top of the stack unless it is zero. -/
  | dupNonzero
  | drop
  | swap
  | over
  | rot
  /-- Takes the top of the stack and writes it. -/
  | print
  /-- Writes the whole stack. -/
  | printStack
  | add
  | subtract
  | multiply
  | divide
  /-- Starts a definition. -/
  | define
  /-- Drops the rest of the line. -/
  | comment
  /-- Writes a listing of the dictionary. -/
  | listWords
  | newline
  | bye
  | extension (e : Ext)
deriving DecidableEq, Repr

/-- A body with the name that it is known by, if any, and the flag of words that run while a
definition is being compiled. -/
structure Entry (β : Type) where
  name : Option String
  immediate : Bool
  body : β
deriving DecidableEq, Repr

/-- What runs when a word runs. -/
inductive Body (Ext : Type) where
  | primitive (p : Primitive Ext)
  | literal (v : Int)
  | compiled (words : List (Entry (Body Ext)))
deriving Repr

/-- A word: an entry whose body can be run. -/
abbrev Word (Ext : Type) := Entry (Body Ext)

variable {Ext : Type}

namespace Body

mutual

/-- Are the bodies equal? -/
def decEq [DecidableEq Ext] : (a b : Body Ext) → Decidable (a = b)
  | .primitive p, .primitive q => decidable_of_iff (p = q) (by simp)
  | .literal u, .literal v => decidable_of_iff (u = v) (by simp)
  | .compiled us, .compiled vs =>
    @decidable_of_iff _ (us = vs) (by simp) (decEqWords us vs)
  | .primitive _, .literal _ | .primitive _, .compiled _ | .literal _, .primitive _
  | .literal _, .compiled _ | .compiled _, .primitive _ | .compiled _, .literal _ => isFalse nofun

/-- Are the threads equal, word by word? -/
def decEqWords [DecidableEq Ext] : (us vs : List (Entry (Body Ext))) → Decidable (us = vs)
  | [], [] => isTrue rfl
  | [], _ :: _ | _ :: _, [] => isFalse nofun
  | ⟨name, immediate, body⟩ :: us, ⟨name', immediate', body'⟩ :: vs =>
    have := decEq body body'
    have := decEqWords us vs
    decidable_of_iff (name = name' ∧ immediate = immediate' ∧ body = body' ∧ us = vs)
      (by simp [and_assoc])

end

instance [DecidableEq Ext] : DecidableEq (Body Ext) := decEq

end Body

namespace Entry

/-- The nameless word that pushes a number. -/
def ofLiteral (v : Int) : Word Ext := ⟨none, false, .literal v⟩

/-- What stands for a captured word in a listing. -/
def spelling (w : Word Ext) : Except Fault (Option String) :=
  match w.body with
  | .literal v => (Number.write v).map some
  | _ => .ok w.name

/-- The parts in a row, with one space between two of them; each has to have a name. -/
def joinParts (parts : List (Option String)) : Except Fault String :=
  match parts.findIdx? Option.isNone with
  | some position => .error (.namelessPart position)
  | none => .ok (Text.unwords (parts.filterMap id))

/-- The listing of a word without its flag. -/
def listing (w : Word Ext) : Except Fault String :=
  match w.body with
  | .primitive _ => .ok (w.name.getD "None" ++ " <primitive>")
  | .literal v => Number.write v
  | .compiled words => do
    let spellings ← words.mapM spelling
    joinParts (some ":" :: w.name :: spellings ++ [some ";"])

/-- The listing of a word: for a compiled one the text of its definition. -/
def describe (w : Word Ext) : Except Fault String := do
  let text ← w.listing
  return if w.immediate then text ++ " immediate" else text

end Entry

end ThreadedForth
