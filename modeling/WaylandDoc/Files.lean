import WaylandDoc.Text.Bytes

/-!
# Files

What reading a path gives: bytes, or the error of the system. `Directory.read` is reading in a
working directory that holds files and no directories.
-/

namespace WaylandDoc

/-- An error of the system with its number. -/
structure FileError where
  reason : String
  number : Nat
  deriving DecidableEq, Repr

namespace FileError

def notFound : FileError := ⟨"No such file or directory", 2⟩

def notADirectory : FileError := ⟨"Not a directory", 20⟩

def isADirectory : FileError := ⟨"Is a directory", 21⟩

def message (e : FileError) : String := s!"{e.reason} (os error {e.number})"

end FileError

/-- Files by their names. -/
abbrev Directory := List (String × Bytes)

namespace Directory

/-- Steps of a path that stay among directories. -/
def isStep (part : String) : Bool := part == "" || part == "." || part == ".."

/-- Follows the parts of a path that starts in the directory. -/
def follow (d : Directory) : List String → Except FileError Bytes
  | [] => .error .isADirectory
  | part :: parts =>
    if part = "" ∨ part = "." then follow d parts
    else if part = ".." then
      .error (if parts.all isStep then .isADirectory else .notFound)
    else
      match d.lookup part with
      | none => .error .notFound
      | some contents => if parts.isEmpty then .ok contents else .error .notADirectory

def read (d : Directory) (path : String) : Except FileError Bytes :=
  let parts := path.splitOn "/"
  if parts.head? = some "" then
    .error (if parts.all isStep then .isADirectory else .notFound)
  else d.follow parts

end Directory

end WaylandDoc
