import RaiseScript.Lowering.Program
import RaiseScript.Parse.Grammar
import RaiseScript.Syntax.Printer
import RaiseScript.Options

/-!
# From source text to source text

The stages in order: read, attribute raises, check, lower, write. `analyze` stops after the checks
and gives all complaints, `transpile` goes to the end or gives the first complaint, and `fragment`
does the same for a single expression.
-/

namespace RaiseScript

/-- The program with its notes and the complaints about it. -/
def analyze (source file : String) (o : Options) : Except Diagnostic (Program × List Diagnostic) := do
  let p ← parse source file
  return validate file o.maxErrors (annotate p).1

/-- The complaints about a program. -/
def check (source file : String) (o : Options) : Except Diagnostic (List Diagnostic) := do
  return (← analyze source file o).2

/-- A lowered program, its text and how many try expressions it had. -/
structure Transpiled where
  program : Program
  code : String
  lowered : Nat

/-- All stages, up to the first complaint. -/
def transpile (source file : String) (o : Options) : Except Diagnostic Transpiled := do
  let (p, complaints) ← analyze source file o
  if let first :: _ := complaints then throw first
  let (lowered, progress) ← (lowerProgram o.tempPrefix p).mapError (Breach.diagnostic file)
  let code ← emit lowered file
  return ⟨lowered, code, progress.lowered⟩

/-- The statements to put in front of an expression, and what to put in its place. -/
def fragment (source file : String) (o : Options) : Except Diagnostic (String × String) := do
  let e ← parseExpr source file
  let p := (annotate [.expr e .none]).1
  let (p, complaints) := validate file 1 p
  if let first :: _ := complaints then throw first
  let names := Names.forProgram o.tempPrefix p
  let e := match p with
    | [.expr e _] => e
    | _ => .undefined
  let (hoisted, _) ← (lowerFragment names e).mapError (Breach.diagnostic file)
  let before ← emit hoisted.before file
  let text ← emitExpr hoisted.value file
  return (before, text)

end RaiseScript
