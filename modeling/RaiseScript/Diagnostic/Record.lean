import RaiseScript.Diagnostic
import RaiseScript.Json.Basic

/-!
# Diagnostics as JSON

`Diagnostic.toJson` writes all fields of a diagnostic, `Diagnostic.toBriefJson` leaves out a missing
rule, and `Diagnostic.ofJson?` reads both. A span is written without its line.
-/

namespace RaiseScript

/-- A natural number that fits into the given number of bits. -/
def Json.word? (bits : Nat) : Json → Option Nat
  | .whole n => if 0 ≤ n ∧ n.toNat < 1 <<< bits then some n.toNat else none
  | _ => none

/-- A string. -/
def Json.string? : Json → Option String
  | .string s => some s
  | _ => none

/-- The two ends of a span. -/
def Span.toJson (s : Span) : Json :=
  .object [("end", .whole s.stop), ("start", .whole s.start)]

/-- A span from its two ends, named or in order. -/
def Span.ofJson? : Json → Option Span
  | .object fields => do
    let start ← Json.word? 32 (← fields.lookup "start")
    let stop ← Json.word? 32 (← fields.lookup "end")
    return ⟨start, stop, 0⟩
  | .array [start, stop] => do return ⟨← start.word? 32, ← stop.word? 32, 0⟩
  | _ => none

namespace DiagnosticKind

/-- A kind by its name, which may also be the only field of an object. -/
def ofJson? : Json → Option DiagnosticKind
  | .string name => ofName? name
  | .object [(name, .null)] => ofName? name
  | _ => none

end DiagnosticKind

namespace Diagnostic

/-- The rule of a diagnostic, which may be missing. -/
def ruleOfJson? : Json → Option (Option String)
  | .null => some none
  | .string s => some (some s)
  | _ => none

/-- The fields of a diagnostic in ascending order of their names; the rule as given. -/
def record (d : Diagnostic) (rule : List (String × Json)) : Json :=
  .object ([("file", .string d.file), ("kind", .string d.kind.name), ("line", .whole d.line),
    ("message", .string d.message), ("pass", .whole d.stage)] ++ rule ++ [("span", d.span.toJson)])

/-- A diagnostic with all its fields. -/
def toJson (d : Diagnostic) : Json :=
  d.record [("rule", (d.rule.map Json.string).getD .null)]

/-- A diagnostic without a rule that is missing. -/
def toBriefJson (d : Diagnostic) : Json :=
  d.record (d.rule.toList.map fun r => ("rule", .string r))

/-- A diagnostic from its parts. -/
def ofParts? (stage kind rule file line span message : Json) : Option Diagnostic := do
  return { stage := ← stage.word? 8
           kind := ← DiagnosticKind.ofJson? kind
           rule := ← ruleOfJson? rule
           file := ← file.string?
           line := ← line.word? 32
           span := ← Span.ofJson? span
           message := ← message.string? }

/-- A diagnostic from its named fields, or from all of them in order. Fields that are not known do
not matter. -/
def ofJson? : Json → Option Diagnostic
  | .object fields => do
    ofParts? (← fields.lookup "pass") (← fields.lookup "kind") ((fields.lookup "rule").getD .null)
      (← fields.lookup "file") (← fields.lookup "line") (← fields.lookup "span")
      (← fields.lookup "message")
  | .array [stage, kind, rule, file, line, span, message] =>
    ofParts? stage kind rule file line span message
  | _ => none

end Diagnostic

end RaiseScript
