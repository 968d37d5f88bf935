/-!
# Reading files

What the commands need of a file system. `Files m` is a view of one in which reading takes place in
the monad `m`, so the commands can run on the real one as well as on a tree in memory.
-/

namespace RaiseScript

/-- What a path leads to. -/
inductive EntryKind where
  | file
  | directory
deriving DecidableEq, Repr

/-- Why a file cannot be read. -/
inductive ReadError where
  | missing
  | notDirectory
  | isDirectory
  | nameTooLong
  | notText
  | other (text : String)
deriving DecidableEq, Repr

/-- The wording of a failed read. -/
def ReadError.message : ReadError → String
  | .missing => "No such file or directory (os error 2)"
  | .notDirectory => "Not a directory (os error 20)"
  | .isDirectory => "Is a directory (os error 21)"
  | .nameTooLong => "File name too long (os error 36)"
  | .notText => "stream did not contain valid UTF-8"
  | .other text => text

/-- A view of a file system. -/
structure Files (m : Type → Type) where
  /-- The text of a file. -/
  read : String → m (Except ReadError String)
  /-- What a path leads to, if anything. -/
  kind? : String → m (Option EntryKind)
  /-- The names in a directory, in any order. -/
  names : String → m (List String)

end RaiseScript
