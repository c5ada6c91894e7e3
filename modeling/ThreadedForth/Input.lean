import ThreadedForth.Text.Split

/-!
# Pending input

Text that waits to be interpreted is a queue of words, with a mark at the end of each line. Reading
a word skips the marks; a comment drops everything through the next one.
-/

namespace ThreadedForth

/-- A piece of pending input. -/
inductive Item where
  | word (token : String)
  | lineEnd
deriving DecidableEq, Repr

/-- Pending input, the next piece first. -/
abbrev Input := List Item

namespace Input

/-- The words of one line and the mark of its end. -/
def ofLine (line : String) : Input :=
  (Text.words line).map Item.word ++ [.lineEnd]

/-- The words of a text, line by line. -/
def ofText (text : String) : Input :=
  (Text.lines text).flatMap ofLine

/-- The words that are pending, without the marks. -/
def words : Input → List String
  | [] => []
  | .lineEnd :: rest => words rest
  | .word token :: rest => token :: words rest

/-- The next word, and the input after it. -/
def readWord? : Input → Option (String × Input)
  | [] => none
  | .lineEnd :: rest => readWord? rest
  | .word token :: rest => some (token, rest)

/-- The input after the current line. -/
def skipLine : Input → Input
  | [] => []
  | .lineEnd :: rest => rest
  | .word _ :: rest => skipLine rest

/-- The words before the next semicolon, and the input after it; none if there is no semicolon. -/
def takeBody : Input → List String × Option Input
  | [] => ([], none)
  | .lineEnd :: rest => takeBody rest
  | .word token :: rest =>
    if token = ";" then ([], some rest)
    else
      let (body, after) := takeBody rest
      (token :: body, after)

end Input

end ThreadedForth
