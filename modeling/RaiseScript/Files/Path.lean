/-!
# Paths

A path is a text of segments between slashes. Empty segments and single dots stand for nothing,
except a dot at the very start. The functions below work on the text, so that what a path looked
like is kept where it is shown again.
-/

namespace RaiseScript.Path

/-- Cuts a text at every occurrence of a character. -/
def cutAt (mark : Char) : List Char → List (List Char)
  | [] => [[]]
  | c :: cs =>
    match cutAt mark cs with
    | [] => [[c]]
    | first :: rest => if c == mark then [] :: first :: rest else (c :: first) :: rest

/-- The segments of a path. -/
def segments (path : String) : List String :=
  (cutAt '/' path.toList).map String.ofList

/-- Whether a path starts at the root. -/
def isAbsolute (path : String) : Bool :=
  path.toList.head? == some '/'

/-- Drops the segments at the end that stand for nothing. The segments come last one first, and the
one at the start of the path stays. -/
def dropEmpty : List String → List String
  | [] => []
  | [s] => [s]
  | s :: rest => if s == "" || s == "." then dropEmpty rest else s :: rest

/-- The path without its last segment; the root and the empty path have no parent. -/
def parent? (path : String) : Option String :=
  match dropEmpty (segments path).reverse with
  | [] => none
  | [s] => if s == "" then none else some ""
  | _ :: rest =>
    let rest := dropEmpty rest
    some (if rest == [""] then "/" else "/".intercalate rest.reverse)

/-- The name at the end of a path, empty if the path ends otherwise. -/
def fileName (path : String) : String :=
  match dropEmpty (segments path).reverse with
  | [] => ""
  | s :: _ => if s == "." || s == ".." then "" else s

/-- A path inside a directory. -/
def join (dir path : String) : String :=
  if dir == "" then path
  else if dir.toList.getLast? == some '/' then dir ++ path
  else dir ++ "/" ++ path

/-- A name before and after its last dot. A dot at the start of the name does not count. -/
def splitName (name : String) : String × Option String :=
  let cs := name.toList.reverse
  let after := cs.takeWhile (· != '.')
  match cs.drop after.length with
  | [] => (name, none)
  | [_] => (name, none)
  | _ :: before => (String.ofList before.reverse, some (String.ofList after.reverse))

/-- The name without what follows its last dot. -/
def stem (name : String) : String :=
  (splitName name).1

/-- What follows the last dot of a name. -/
def extension? (name : String) : Option String :=
  (splitName name).2

end RaiseScript.Path
