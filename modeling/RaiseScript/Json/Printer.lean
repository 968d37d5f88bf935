import RaiseScript.Json.Basic
import RaiseScript.Text.Hex

/-!
# Writing JSON

`Json.compact` writes a value on one line without blanks. `Json.pretty` puts every item and field
on a line of its own, indented by two blanks for each level.
-/

namespace RaiseScript.Json

/-- One character inside a JSON string. -/
def escapeChar (c : Char) : String :=
  match c with
  | '"' => "\\\""
  | '\\' => "\\\\"
  | '\n' => "\\n"
  | '\r' => "\\r"
  | '\t' => "\\t"
  | '\x08' => "\\b"
  | '\x0c' => "\\f"
  | c =>
    if c < ' ' then
      let digits := hexDigits c.toNat
      "\\u" ++ String.ofList (List.replicate (4 - digits.length) '0') ++ digits
    else c.toString

/-- A JSON string literal. -/
def quote (s : String) : String :=
  "\"" ++ String.join (s.toList.map escapeChar) ++ "\""

/-- Numbers that are not kept as whole ones: exponents always have a sign, and a tie goes to the
even digit. -/
def realForm : PointedForm := ⟨-5, "+", .even⟩

/-- A number with a point or an exponent; what is not finite has no spelling and becomes `null`. -/
def realText (x : Float) : String :=
  if x.isFinite then realForm.text x else "null"

mutual

/-- The value on one line. -/
def compact : Json → String
  | .null => "null"
  | .bool b => if b then "true" else "false"
  | .whole n => toString n
  | .real x => realText x
  | .string s => quote s
  | .array items => "[" ++ ",".intercalate (compactItems items) ++ "]"
  | .object fields => "\x7b" ++ ",".intercalate (compactFields fields) ++ "\x7d"

/-- The items of an array. -/
def compactItems : List Json → List String
  | [] => []
  | j :: js => compact j :: compactItems js

/-- The fields of an object. -/
def compactFields : List (String × Json) → List String
  | [] => []
  | (k, j) :: rest => (quote k ++ ":" ++ compact j) :: compactFields rest

end

/-- A line break and the indentation of a level. -/
def newline (depth : Nat) : String :=
  "\n" ++ String.ofList (List.replicate (2 * depth) ' ')

/-- Items between brackets, one on a line. -/
def spread (opening closing : String) (depth : Nat) (items : List String) : String :=
  if items.isEmpty then opening ++ closing
  else
    opening ++ newline (depth + 1) ++ ("," ++ newline (depth + 1)).intercalate items
      ++ newline depth ++ closing

mutual

/-- The value at a level of indentation. -/
def prettyAt (depth : Nat) : Json → String
  | .array items => spread "[" "]" depth (prettyItems (depth + 1) items)
  | .object fields => spread "\x7b" "\x7d" depth (prettyFields (depth + 1) fields)
  | j => compact j

/-- The items of an array. -/
def prettyItems (depth : Nat) : List Json → List String
  | [] => []
  | j :: js => prettyAt depth j :: prettyItems depth js

/-- The fields of an object. -/
def prettyFields (depth : Nat) : List (String × Json) → List String
  | [] => []
  | (k, j) :: rest => (quote k ++ ": " ++ prettyAt depth j) :: prettyFields depth rest

end

/-- The value with one item or field on a line. -/
def pretty (j : Json) : String :=
  prettyAt 0 j

end RaiseScript.Json
