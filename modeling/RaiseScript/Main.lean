import RaiseScript.Command.Run

/-!
# The program

The commands on the real file system: files are read where the paths lead, and the outcome goes to
the standard streams and the exit code.
-/

namespace RaiseScript

/-- What a failed read of the system means. -/
def readErrorOf (e : IO.Error) : ReadError :=
  match e with
  | .noFileOrDirectory _ _ _ => .missing
  | .inappropriateType _ code _ =>
    if code == 20 then .notDirectory
    else if code == 21 then .isDirectory
    else .other (toString e)
  | _ => .other (toString e)

/-- The text of a file. -/
def readFile (path : String) : IO (Except ReadError String) := do
  try
    let bytes ← IO.FS.readBinFile path
    match String.fromUTF8? bytes with
    | some text => return .ok text
    | none => return .error .notText
  catch e => return .error (readErrorOf e)

/-- What a path leads to. -/
def kindOf (path : String) : IO (Option EntryKind) := do
  let place ← IO.FS.realPath path
  if ← place.isDir then return some .directory
  else if ← place.pathExists then return some .file
  else return none

/-- The names in a directory, none if it cannot be listed. -/
def namesIn (path : String) : IO (List String) := do
  try
    let entries ← (← IO.FS.realPath path).readDir
    return entries.toList.map (·.fileName)
  catch _ => return []

/-- The file system of the machine. -/
def systemFiles : Files IO where
  read := readFile
  kind? := kindOf
  names := namesIn

end RaiseScript

/-- Runs the command line. -/
def main (args : List String) : IO UInt32 := do
  let outcome ← RaiseScript.runCommand RaiseScript.systemFiles args
  IO.print outcome.out
  IO.eprint outcome.err
  return outcome.code.toUInt32
