import ThreadedForth.Text.Shown
import ThreadedForth.Text.Split

/-!
# Files

A folder of files as data. A path leads from the folder through names, dots and slashes to a file or
to a folder; only files can be read, and only as UTF-8 text.
-/

namespace ThreadedForth.CommandLine

/-- Why a file cannot be read. -/
inductive FileFault where
  | missing (path : String)
  | isFolder (path : String)
  /-- The path goes on behind a file. -/
  | isFile (path : String)
  | nameTooLong (path : String)
  /-- The path holds the null character. -/
  | nullCharacter
  /-- The bytes are not UTF-8. -/
  | notText
deriving DecidableEq, Repr

def FileFault.message : FileFault → String
  | .missing path => "[Errno 2] No such file or directory: " ++ Text.quoted path
  | .isFolder path => "[Errno 21] Is a directory: " ++ Text.quoted path
  | .isFile path => "[Errno 20] Not a directory: " ++ Text.quoted path
  | .nameTooLong path => "[Errno 36] File name too long: " ++ Text.quoted path
  | .nullCharacter => "embedded null byte"
  | .notText => ""

/-- The text of a file: strict UTF-8, with each line break a line feed. -/
def decode (bytes : ByteArray) : Except FileFault String :=
  match String.fromUTF8? bytes with
  | some text => .ok (String.ofList (Text.unifyNewlines text.toList))
  | none => .error .notText

/-- Files by name. -/
abbrev Folder := List (String × ByteArray)

namespace Folder

/-- Where a path has led to. -/
inductive Place where
  | here
  /-- Some folder outside. -/
  | outside
  | file (bytes : ByteArray)

/-- The longest name of a file, in bytes. -/
def maxNameSize : Nat := 255

/-- The length of a path that is too long, in bytes. -/
def maxPathSize : Nat := 4096

/-- The file of a name in a folder. Outside of the folder, no names are known. -/
def enter (folder : Folder) (path : String) (name : String) : Place → Except FileFault Place
  | .here =>
    match folder.find? (·.1 == name) with
    | some (_, bytes) => .ok (.file bytes)
    | none => .error (.missing path)
  | _ => .error (.missing path)

/-- Follows one part of a path. Behind a file there is nothing, whatever the part. -/
def follow (folder : Folder) (path : String) (part : String) : Place → Except FileFault Place
  | .file _ => .error (.isFile path)
  | place =>
    if part = "" || part = "." then .ok place
    else if part = ".." then .ok .outside
    else if maxNameSize < part.utf8ByteSize then .error (.nameTooLong path)
    else folder.enter path part place

/-- The bytes of the file that a path leads to. -/
def readBytes (folder : Folder) (path : String) : Except FileFault ByteArray := do
  let cs := path.toList
  if cs.contains '\x00' then throw .nullCharacter
  if cs.isEmpty then throw (.missing path)
  if maxPathSize ≤ path.utf8ByteSize then throw (.nameTooLong path)
  let parts := (Text.splitOn (· == '/') cs).map String.ofList
  let start := if cs.head? = some '/' then Place.outside else .here
  match ← parts.foldlM (fun place part => follow folder path part place) start with
  | .file bytes => return bytes
  | _ => throw (.isFolder path)

/-- The text of the file that a path leads to. -/
def read (folder : Folder) (path : String) : Except FileFault String :=
  (folder.readBytes path).bind decode

end Folder

end ThreadedForth.CommandLine
