import RaiseScript.Number.Decimal

/-!
# Number notation

How numbers are written. `plain` is positional without an exponent, `numberText` is the form that
programs print and the form of literals in generated code. A `PointedForm` is a notation that
always shows a point or an exponent; `literalText` is the one in which messages name a number token.
-/

namespace RaiseScript

namespace Decimal

/-- The digit characters of the significant digits. -/
def digitChars (d : Decimal) : List Char :=
  Nat.toDigits 10 d.digits

/-- The exponent of the leading digit. -/
def leading (d : Decimal) : Int :=
  d.exponent + (d.digitChars.length : Int) - 1

/-- Positional notation: the point stands after, inside or before the digits. -/
def positional (d : Decimal) : String :=
  let cs := d.digitChars
  if 0 ≤ d.exponent then String.ofList (cs ++ List.replicate d.exponent.toNat '0')
  else
    let places := (-d.exponent).toNat
    if places < cs.length then
      String.ofList (cs.take (cs.length - places) ++ '.' :: cs.drop (cs.length - places))
    else String.ofList ('0' :: '.' :: (List.replicate (places - cs.length) '0' ++ cs))

/-- Scientific notation: one digit, the point if more follow, the exponent after `e`. `plus` is the
mark in front of an exponent that is not negative. -/
def scientific (plus : String) (d : Decimal) : String :=
  let mantissa := match d.digitChars with
    | [] => ""
    | [c] => c.toString
    | c :: cs => String.ofList (c :: '.' :: cs)
  mantissa ++ (if 0 ≤ d.leading then "e" ++ plus else "e") ++ toString d.leading

end Decimal

/-- Positional notation of a finite number; negative zero keeps its sign. -/
def plain (x : Float) : String :=
  let digits := (Decimal.shortest .up (.ofFloat x)).positional
  if signBit x then "-" ++ digits else digits

/-- Whether a finite number is whole. -/
def isWhole (x : Float) : Bool :=
  x.isFinite && (Dyadic.ofFloat x).isWhole

/-- A whole number as a 64-bit integer, clamped if it does not fit. -/
def clamped (negative : Bool) (n : Nat) : Int :=
  if negative then -(min n 0x8000000000000000 : Nat) else (min n 0x7FFFFFFFFFFFFFFF : Nat)

/-- A number as programs print it. Whole numbers below 10^21 are written as 64-bit integers, which
clamps those that do not fit and drops the sign of zero. -/
def numberText (x : Float) : String :=
  if infinityBits < magnitudeBits x then "NaN"
  else if magnitudeBits x = infinityBits then (if signBit x then "-Infinity" else "Infinity")
  else if (Dyadic.ofFloat x).isWhole && (Dyadic.ofFloat x).whole < 1000000000000000000000 then
    toString (clamped (signBit x) (Dyadic.ofFloat x).whole)
  else plain x

/-- A notation that always shows a point or an exponent. Leading digits at the exponents from
`least` to 15 are written positionally. -/
structure PointedForm where
  least : Int
  /-- The mark in front of an exponent that is not negative. -/
  plus : String
  tie : Decimal.Tie

/-- A finite number in such a notation. -/
def PointedForm.text (form : PointedForm) (x : Float) : String :=
  let d := Decimal.shortest form.tie (.ofFloat x)
  let text :=
    if x == 0 then "0.0"
    else if form.least ≤ d.leading ∧ d.leading ≤ 15 then
      if 0 ≤ d.exponent then d.positional ++ ".0" else d.positional
    else d.scientific form.plus
  if signBit x then "-" ++ text else text

/-- Numbers in messages: exponents have no plus sign, and a tie goes up. -/
def literalForm : PointedForm := ⟨-4, "", .up⟩

/-- A number as messages show it. -/
def literalText (x : Float) : String :=
  if x.isNaN then "NaN"
  else if x.isInf then (if 0 < x then "inf" else "-inf")
  else literalForm.text x

end RaiseScript
