import RaiseScript.Config
import RaiseScript.Diagnostic.Record
import RaiseScript.Json.Printer
import RaiseScript.Json.Reader
import RaiseScript.Machine.Session
import RaiseScript.Report
import RaiseScript.Transpile

/-!
# Conformance suites

A suite is a directory of programs with what is expected of them. Under `positive` stand programs
with their lowered text and, if they are to be run, with what they print. Under `negative`, in a
directory for each stage, stand programs with the complaint that is made about them. `conformance`
checks all of them in the order of their names.
-/

namespace RaiseScript

/-- Why a program of a suite does not conform. -/
inductive Mismatch where
  | noExpectation (path : String)
  | noExpectedError (path : String)
  | unreadable (path : String) (e : ReadError)
  | notJson (path : String)
  | unconfigured (e : ConfigError)
  | diagnosed (d : Diagnostic)
  | textDiffers (expected got : String)
  | unparsed (d : Diagnostic)
  | notRun (e : RunError)
  | accepted (stage : Nat)
  | errorDiffers (expected got : Json)

/-- The first line at which two texts differ, counted from 1. -/
def firstDifference (expected got : List String) : Nat :=
  match expected, got with
  | e :: es, g :: gs => if e == g then firstDifference es gs + 1 else 1
  | _, _ => 1

/-- The wording of a mismatch. -/
def Mismatch.message : Mismatch → String
  | .noExpectation path => "missing expected file: " ++ path
  | .noExpectedError path => "missing expected-error file: " ++ path
  | .unreadable path e => "cannot read " ++ path ++ ": " ++ e.message
  | .notJson path => "invalid JSON in " ++ path ++ ": not a single JSON value"
  | .unconfigured e => e.message
  | .diagnosed d => "unexpected diagnostic (pass " ++ toString d.stage ++ "): " ++ d.message
  | .textDiffers expected got =>
    let expected := unified expected
    let got := unified got
    "first difference at line " ++ toString (firstDifference (lines expected) (lines got)) ++
      "\n--- expected\n" ++ expected ++ "\n+++ got\n" ++ got
  | .unparsed d => "lowered source does not parse: " ++ d.display
  | .notRun e => "evaluation failed: " ++ e.message
  | .accepted stage =>
    "expected pass " ++ toString stage ++ " diagnostic but transpilation succeeded"
  | .errorDiffers expected got =>
    "error mismatch:\n--- expected\n" ++ expected.pretty ++ "\n+++ got\n" ++ got.pretty

variable {m : Type → Type} [Monad m]

/-- The text of a file of the suite. -/
def readFixture (fs : Files m) (path : String) : ExceptT Mismatch m String := do
  match ← fs.read path with
  | .ok text => return text
  | .error e => throw (.unreadable path e)

/-- The options for a program of the suite. -/
def fixtureOptions (fs : Files m) (path : String) : ExceptT Mismatch m Options := do
  match ← (loadOptions fs path none).run with
  | .ok options => return options
  | .error e => throw (.unconfigured e)

/-- The lowered text of a program, if it is as expected. -/
def checkLowered (fs : Files m) (dir name : String) : ExceptT Mismatch m String := do
  let path := Path.join dir name
  let expectedPath := Path.join dir (Path.stem name ++ ".expected.js")
  if (← fs.kind? expectedPath).isNone then throw (.noExpectation expectedPath)
  let source ← readFixture fs path
  let expected ← readFixture fs expectedPath
  let options ← fixtureOptions fs path
  match transpile source name options with
  | .error d => throw (.diagnosed d)
  | .ok t =>
    if unified t.code == unified expected then return t.code
    else throw (.textDiffers expected t.code)

/-- Checks what a lowered program prints. -/
def checkOutput (fs : Files m) (path name code : String) : ExceptT Mismatch m Unit := do
  let expected ← readFixture fs path
  match parse code name with
  | .error d => throw (.unparsed d)
  | .ok p =>
    match runProgram {} p with
    | .error e => throw (.notRun e)
    | .ok printed =>
      let got := "\n".intercalate printed
      if unified got == unified expected then return ()
      else throw (.textDiffers expected got)

/-- Checks the first complaint about a program. -/
def checkRejected (fs : Files m) (dir name : String) (stage : Nat) : ExceptT Mismatch m Unit := do
  let path := Path.join dir name
  let expectedPath := Path.join dir (Path.stem name ++ ".expected-error.json")
  if (← fs.kind? expectedPath).isNone then throw (.noExpectedError expectedPath)
  match Json.read? (← readFixture fs expectedPath) with
  | none => throw (.notJson expectedPath)
  | some expected =>
    let source ← readFixture fs path
    let options ← fixtureOptions fs path
    match transpile source name options with
    | .ok _ => throw (.accepted stage)
    | .error d =>
      if d.toJson.same expected then return ()
      else throw (.errorDiffers expected d.toJson)

/-- The programs in a directory, in order. -/
def programsIn (fs : Files m) (dir : String) : m (List String) := do
  let names ← fs.names dir
  let isProgram (name : String) : Bool :=
    Path.extension? name == some "js" && !".expected.js".toList.isSuffixOf name.toList
  return (names.filter isProgram).mergeSort fun a b => a ≤ b

/-- The failure of a check. -/
def failureOf {α : Type} : Except Mismatch α → Option String
  | .ok _ => none
  | .error e => some e.message

/-- The points of a program that is to be accepted. -/
def acceptedPoints (fs : Files m) (dir name : String) : m Report := do
  let stem := Path.stem name
  let lowered ← (checkLowered fs dir name).run
  let first : Point := ⟨.lowered, stem, failureOf lowered⟩
  match lowered with
  | .error _ => return [first]
  | .ok code =>
    let outputPath := Path.join dir (stem ++ ".expected-output.txt")
    if (← fs.kind? outputPath).isNone then return [first]
    else
      let printed ← (checkOutput fs outputPath name code).run
      return [first, ⟨.output, stem, failureOf printed⟩]

/-- The point of a program that a stage is to reject. -/
def rejectedPoint (fs : Files m) (dir : String) (stage : Nat) (name : String) : m Point := do
  let checked ← (checkRejected fs dir name stage).run
  return ⟨.rejected stage, Path.stem name, failureOf checked⟩

/-- Checks a whole suite. -/
def conformance (fs : Files m) (suite : String) : m Report := do
  let positive := Path.join suite "positive"
  let accepted ← (← programsIn fs positive).mapM (acceptedPoints fs positive)
  let rejected ← (List.range 5).mapM fun stage => do
    let dir := Path.join suite ("negative/pass" ++ toString stage)
    (← programsIn fs dir).mapM (rejectedPoint fs dir stage)
  return accepted.flatten ++ rejected.flatten

end RaiseScript
