import RaiseScript.Command.Arguments
import RaiseScript.Conformance

/-!
# Commands

What each command reads, does and writes. `runCommand` gives an `Outcome`: the exit code and the
texts for standard output and standard error.
-/

namespace RaiseScript

/-- What a command leaves behind. -/
structure Outcome where
  code : Nat
  out : String
  err : String
deriving DecidableEq, Repr

namespace Outcome

/-- Success with some output. -/
def success (out : String) : Outcome :=
  ⟨0, out, ""⟩

/-- Failure with a message. -/
def failure (err : String) : Outcome :=
  ⟨1, "", err⟩

end Outcome

/-- The format that the flags ask for. -/
def Flags.writes (f : Flags) : Format :=
  f.format.getD .text

/-- An error message as it is reported. -/
def errorText (f : Flags) (message : String) : String :=
  if f.quiet then ""
  else
    match f.writes with
    | .text => message ++ "\n"
    | .json => (Json.object [("error", .string message)]).compact ++ "\n"

/-- A diagnostic on one line: where, what kind, which rule, and why. -/
def Diagnostic.brief (d : Diagnostic) : String :=
  let rule := match d.rule with
    | some rule => "[" ++ rule ++ "]"
    | none => ""
  d.file ++ ":" ++ toString d.line ++ ": " ++ d.kind.name ++ rule ++ ": " ++ d.message

/-- A diagnostic as it is reported. -/
def diagnosticText (f : Flags) (d : Diagnostic) : String :=
  match f.writes with
  | .json => d.toJson.pretty ++ "\n"
  | .text => if f.quiet then "" else d.brief ++ "\n"

variable {m : Type → Type} [Monad m]

/-- Why there is nothing to work on. -/
inductive InputError where
  | unreadable (path : String) (e : ReadError)
  | unconfigured (e : ConfigError)

/-- The wording of a missing input. -/
def InputError.message : InputError → String
  | .unreadable path e => "error reading file '" ++ path ++ "': " ++ e.message
  | .unconfigured e => e.message

/-- The text of a program and its options. -/
def loadInput (fs : Files m) (path : String) (f : Flags) : m (Except InputError (String × Options)) := do
  match ← fs.read path with
  | .error e => return .error (.unreadable path e)
  | .ok source =>
    match ← (loadOptions fs path f.tempPrefix).run with
    | .error e => return .error (.unconfigured e)
    | .ok options => return .ok (source, options)

/-- The lowered text of a program. -/
def lowerOutcome (f : Flags) (name source : String) (o : Options) : Outcome :=
  match transpile source name o with
  | .error d => .failure (diagnosticText f d)
  | .ok t =>
    match f.writes with
    | .text => .success t.code
    | .json =>
      .success ((Json.object [("file", .string name), ("lowered", .whole t.lowered),
        ("code", .string t.code)]).pretty ++ "\n")

/-- The complaints about a program. -/
def checkOutcome (f : Flags) (path name source : String) (o : Options) : Outcome :=
  let complaints := match check source name o with
    | .ok ds => ds
    | .error d => [d]
  let code := if complaints.isEmpty then 0 else 1
  match f.writes with
  | .json =>
    ⟨code, (Json.object [("diagnostics", .array (complaints.map Diagnostic.toJson)),
      ("file", .string name)]).pretty ++ "\n", ""⟩
  | .text =>
    let out := if complaints.isEmpty && !f.quiet then "ok: " ++ path ++ "\n" else ""
    ⟨code, out, String.join (complaints.map fun d => d.brief ++ "\n")⟩

/-- What a program prints, if it comes to its end. -/
def runOutcome (f : Flags) (name source : String) (o : Options) : Outcome :=
  match transpile source name o with
  | .error d => .failure (diagnosticText f d)
  | .ok t =>
    match runProgram {} t.program with
    | .error e => .failure (errorText f ("runtime error: " ++ e.message))
    | .ok printed =>
      match f.writes with
      | .text => .success (String.join (printed.map (· ++ "\n")))
      | .json => .success ((Json.object [("output", .array (printed.map .string))]).pretty ++ "\n")

/-- The report on a suite. -/
def testOutcome (fs : Files m) (suite : String) : m Outcome := do
  if (← fs.kind? suite).isNone then
    return .failure ("error: conformance suite directory not found: " ++ suite ++ "\n")
  else
    let report ← conformance fs suite
    return ⟨if report.failed == 0 then 0 else 1, report.render, ""⟩

/-- Runs a command. -/
def invoke (fs : Files m) (verb : Verb) (path : String) (f : Flags) : m Outcome := do
  if verb = .test then testOutcome fs path
  else
    match ← loadInput fs path f with
    | .error e => return .failure (errorText f e.message)
    | .ok (source, options) =>
      let name := Path.fileName path
      match verb with
      | .lower => return lowerOutcome f name source options
      | .check => return checkOutcome f path name source options
      | _ => return runOutcome f name source options

/-- What is shown when it is asked for, or when the arguments make no sense. -/
def usageText : String :=
  "Usage: tryexpr [--output text|json] [--quiet] [--verbose] [--temp-prefix TEXT] COMMAND\n\n" ++
  "Commands:\n" ++
  "  lower FILE   lower try expressions and print standard source\n" ++
  "  check FILE   report every structural violation without lowering\n" ++
  "  run FILE     lower a file and evaluate the result\n" ++
  "  test [DIR]   run a conformance suite\n"

/-- Runs a whole command line. -/
def runCommand (fs : Files m) (args : List String) : m Outcome :=
  match parseArguments args with
  | .version => return .success "tryexpr 0.1.0\n"
  | .help => return .success usageText
  | .usage => return ⟨2, "", usageText⟩
  | .invoke verb path flags => invoke fs verb path flags

end RaiseScript
