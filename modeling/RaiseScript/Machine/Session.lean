import RaiseScript.Machine.Eval
import RaiseScript.Diagnostic

/-!
# Running programs

A machine starts with three names: `console` with its `log`, `String` and `Error`. `Machine.run`
runs a program in the outermost scope and gives the machine back, so that another program can go on
where the first one ended.
-/

namespace RaiseScript

/-- Why a program did not come to its end. -/
inductive RunError where
  | unparsed (d : Diagnostic)
  | uncaught (text : String)
  | failed (f : Failure)
deriving DecidableEq, Repr

/-- The wording of a failure. -/
def Failure.message : Failure → String
  | .unlowered construct => "unlowered " ++ construct.name ++ " reached the evaluator"
  | .unsupported feature => "unsupported: " ++ feature.name
  | .stepLimit limit => "step limit of " ++ toString limit ++ " exceeded"
  | .endless => "value contains itself"
  | .exhausted => "evaluation bound too small"

/-- The wording of an error. -/
def RunError.message : RunError → String
  | .unparsed d => d.display
  | .uncaught text => "uncaught exception: " ++ text
  | .failed f => f.message

namespace Machine

/-- The outermost scope. -/
def globals : Env := ⟨[⟨0, true⟩], none⟩

/-- A machine that has run nothing yet. -/
def start : Machine where
  scopes := #[[
    ("console", ⟨.object 0, false⟩),
    ("String", ⟨.native 1 .string, false⟩),
    ("Error", ⟨.native 2 .error, false⟩)]]
  heap := ⟨#[], #[[("log", .native 0 .log)]]⟩
  slots := #[]
  nextId := 3
  this := .undefined
  depth := 0
  steps := 0
  output := #[]
  mistakes := 0
  misses := 0

/-- What an exit means for a whole program. -/
def ending (heap : Heap) : Exit → RunError
  | .thrown v =>
    match heap.text? heap.depthBound v with
    | some text => .uncaught text
    | none => .failed .endless
  | .returned _ => .failed (.unsupported .strayReturn)
  | .broke => .failed (.unsupported .strayJump)
  | .continued => .failed (.unsupported .strayJump)
  | .failed f => .failed f

/-- The engine for a program that starts at the given depth of calls. -/
def engine (limits : Limits) (direct : Bool) (depth : Nat) : Engine :=
  ⟨limits.maxSteps, direct, callAt limits direct (limits.maxDepth - depth)⟩

/-- The statements of a program, run in the outermost scope. -/
def body (limits : Limits) (direct : Bool) (depth : Nat) (p : Program) : Run Unit := do
  declareFunctions globals p
  execAll (engine limits direct depth) globals p

/-- Runs a program. -/
def run (limits : Limits) (direct : Bool) (p : Program) (m : Machine) : Except RunError Unit × Machine :=
  match body limits direct m.depth p m with
  | .ok _ m => (.ok (), m)
  | .error e m => (.error (ending m.heap e), m)

end Machine

/-- Runs a program on a new machine and gives the lines it prints. -/
def runProgram (limits : Limits) (p : Program) : Except RunError (List String) :=
  match Machine.start.run limits false p with
  | (.ok _, m) => .ok m.output.toList
  | (.error e, _) => .error e

end RaiseScript
