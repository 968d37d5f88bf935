import RaiseScript.Number.Reading

/-!
# Lines

`lines` cuts a text into its lines. A line ends with a newline, or with a carriage return and a
newline; the last one may lack its ending. `unified` forgets how lines end and what blank text
follows the last one.
-/

namespace RaiseScript

/-- A line without the carriage return before its newline. The characters come last one first. -/
def closeLine : List Char → String
  | '\r' :: cs => String.ofList cs.reverse
  | cs => String.ofList cs.reverse

/-- The lines of a text, the characters of the current one given last one first. -/
def linesFrom (current : List Char) : List Char → List String
  | [] => if current.isEmpty then [] else [String.ofList current.reverse]
  | '\n' :: cs => closeLine current :: linesFrom [] cs
  | c :: cs => linesFrom (c :: current) cs

/-- The lines of a text, without their endings. -/
def lines (s : String) : List String :=
  linesFrom [] s.toList

/-- The text with plain newlines only. -/
def plainNewlines : List Char → List Char
  | '\r' :: '\n' :: cs => '\n' :: plainNewlines cs
  | c :: cs => c :: plainNewlines cs
  | [] => []

/-- The text up to its last character that is not blank. -/
def trimEnd (cs : List Char) : List Char :=
  (cs.reverse.dropWhile isBlank).reverse

/-- The text with plain newlines and nothing blank at its end. -/
def unified (s : String) : String :=
  String.ofList (trimEnd (plainNewlines s.toList))

end RaiseScript
