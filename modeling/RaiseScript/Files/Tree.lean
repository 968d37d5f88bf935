import RaiseScript.Files.Basic
import RaiseScript.Files.Path

/-!
# File trees in memory

A `Tree` is a list of files with the names on the way to them. It is the working directory: paths
are followed from its root. What lies outside of it is not known and holds nothing.
-/

namespace RaiseScript

/-- Files by the names that lead to them. -/
abbrev Tree := List (List String × ByteArray)

namespace Tree

/-- What the names lead to. A directory is there if a file is inside it. -/
def entry? (t : Tree) (names : List String) : Option EntryKind :=
  if names.isEmpty then some .directory
  else if t.any (·.1 == names) then some .file
  else if t.any fun (path, _) => names.isPrefixOf path then some .directory
  else none

/-- Follows segments from a place in the tree, or from outside of it. -/
def follow (t : Tree) : Option (List String) → List String → Except ReadError (Option (List String))
  | place, [] => .ok place
  | none, s :: rest =>
    if s == "" || s == "." || s == ".." then follow t none rest else .error .missing
  | some names, s :: rest =>
    if t.entry? names == some .file then .error .notDirectory
    else if s == "" || s == "." then follow t (some names) rest
    else if s == ".." then
      follow t (if names.isEmpty then none else some names.dropLast) rest
    else if 255 < s.utf8ByteSize then .error .nameTooLong
    else
      match t.entry? (names ++ [s]) with
      | none => .error .missing
      | some _ => follow t (some (names ++ [s])) rest

/-- The place that a path leads to. -/
def locate (t : Tree) (path : String) : Except ReadError (Option (List String)) :=
  if path == "" then .error .missing
  else follow t (if Path.isAbsolute path then none else some []) (Path.segments path)

/-- The text of a file. -/
def read (t : Tree) (path : String) : Except ReadError String := do
  match ← t.locate path with
  | none => throw .isDirectory
  | some names =>
    match t.lookup names with
    | none => throw .isDirectory
    | some bytes =>
      match String.fromUTF8? bytes with
      | none => throw .notText
      | some text => return text

/-- What a path leads to. -/
def kind? (t : Tree) (path : String) : Option EntryKind :=
  match t.locate path with
  | .error _ => none
  | .ok none => some .directory
  | .ok (some names) => t.entry? names

/-- The names in a directory. -/
def names (t : Tree) (path : String) : List String :=
  match t.locate path with
  | .ok (some here) =>
    (t.filterMap fun (path, _) =>
      if here.isPrefixOf path then (path.drop here.length).head? else none).eraseDups
  | _ => []

/-- The tree as a file system. -/
def files (t : Tree) : Files Id where
  read := t.read
  kind? := t.kind?
  names := t.names

end Tree

end RaiseScript
