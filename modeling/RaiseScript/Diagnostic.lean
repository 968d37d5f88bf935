import RaiseScript.Span

/-!
# Diagnostics

What is reported about a program that is refused: which stage refused it, why, and where. The
stages are numbered 0 (reading), 1 (attributing raises), 2 (checking), 3 (lowering), 4 (writing).
-/

namespace RaiseScript

/-- What kind of trouble a diagnostic reports. An internal breach is a defect of this library and
never a fault of the program. -/
inductive DiagnosticKind where
  | lex
  | syntactic
  | structural
  | internal
deriving DecidableEq, Repr

/-- The name of a kind in reports. -/
def DiagnosticKind.name : DiagnosticKind → String
  | .lex => "lex"
  | .syntactic => "syntax"
  | .structural => "structural_violation"
  | .internal => "internal_invariant"

/-- All kinds, for reading a name back. -/
def DiagnosticKind.all : List DiagnosticKind :=
  [.lex, .syntactic, .structural, .internal]

/-- The kind with the given name. -/
def DiagnosticKind.ofName? (name : String) : Option DiagnosticKind :=
  all.find? (·.name == name)

/-- A report on a refused program. -/
structure Diagnostic where
  stage : Nat
  kind : DiagnosticKind
  rule : Option String
  file : String
  line : Nat
  span : Span
  message : String
deriving DecidableEq, Repr

namespace Diagnostic

/-- A diagnostic whose line is that of its span. -/
def located (stage : Nat) (kind : DiagnosticKind) (rule : Option String)
    (file : String) (span : Span) (message : String) : Diagnostic :=
  ⟨stage, kind, rule, file, span.line, span, message⟩

/-- A breach of an invariant between two stages. -/
def breach (stage : Nat) (file : String) (span : Span) (message : String) : Diagnostic :=
  .located stage .internal none file span message

/-- Whether the report is about this library and not about the program. -/
def isInternal (d : Diagnostic) : Bool :=
  d.kind == .internal

/-- File, line and message on one line. -/
def display (d : Diagnostic) : String :=
  d.file ++ ":" ++ toString d.line ++ ": " ++ d.message

end Diagnostic

end RaiseScript
