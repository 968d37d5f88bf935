import RaiseScript.Number.Decimal
import RaiseScript.Text.Blank

/-!
# Numbers in text

`readNumber?` reads a text that is a number as a whole: an optional sign, and then the name of a
value that is not finite, or digits with an optional point and an optional exponent. `numberOf` is
the number a text counts as: blanks at both ends do not matter, and a text without anything else is
zero.
-/

namespace RaiseScript

/-- The exponent of a number, after the `e`. -/
def readExponent? (cs : List Char) : Option Int :=
  let (sign, ds) : Int × List Char := match cs with
    | '+' :: ds => (1, ds)
    | '-' :: ds => (-1, ds)
    | ds => (1, ds)
  if ds.isEmpty || !ds.all Char.isDigit then none else some (sign * Decimal.valueOf ds)

/-- What follows the digits of a number: nothing or an exponent. -/
def readScale? : List Char → Option Int
  | [] => some 0
  | 'e' :: cs => readExponent? cs
  | 'E' :: cs => readExponent? cs
  | _ => none

/-- Digits with an optional point, at least one digit in all, and the text after them. -/
def readDigits? (cs : List Char) : Option (Decimal × List Char) :=
  let whole := cs.takeWhile Char.isDigit
  let (fraction, rest) := match cs.dropWhile Char.isDigit with
    | '.' :: after => (after.takeWhile Char.isDigit, after.dropWhile Char.isDigit)
    | rest => ([], rest)
  if whole.isEmpty && fraction.isEmpty then none else some (.ofDigits whole fraction, rest)

/-- A number without its sign. -/
def readUnsigned? (negative : Bool) (cs : List Char) : Option Float :=
  let word := String.ofList (cs.map Char.toLower)
  if word == "inf" || word == "infinity" then some (floatOfBits negative infinityBits)
  else if word == "nan" then some (0 / 0)
  else do
    let (d, rest) ← readDigits? cs
    let scale ← readScale? rest
    return Decimal.toFloat negative ⟨d.digits, d.exponent + scale⟩

/-- A text that is a number as a whole. -/
def readNumber? : List Char → Option Float
  | '+' :: cs => readUnsigned? false cs
  | '-' :: cs => readUnsigned? true cs
  | cs => readUnsigned? false cs

/-- The text without the blanks at its ends. -/
def trimBlanks (cs : List Char) : List Char :=
  ((cs.dropWhile isBlank).reverse.dropWhile isBlank).reverse

/-- The number a text counts as; not a number if it is none. -/
def numberOf (s : String) : Float :=
  match trimBlanks s.toList with
  | [] => 0
  | cs => (readNumber? cs).getD (0 / 0)

end RaiseScript
