import RaiseScript.Number.Dyadic

/-!
# Decimals

A `Decimal` is a natural number times a power of ten. `Decimal.toFloat` reads it as the nearest
binary64 number. `Decimal.shortest` is the other direction: of the decimals that read back as a
given number it takes one with the fewest digits, and of those the closest. Two can be equally
close, as 1125899906842624.2 and 1125899906842624.3 are to the number halfway between them; a `Tie`
says which is taken then.
-/

namespace RaiseScript

/-- The magnitude `digits * 10 ^ exponent`. -/
structure Decimal where
  digits : Nat
  exponent : Int
deriving DecidableEq, Repr

namespace Decimal

/-! ## Reading -/

/-- The bits of the binary64 number nearest to the decimal. Exponents far outside the range of
binary64 are answered without computing the power. -/
def toBits (d : Decimal) : Nat :=
  if d.digits = 0 then 0
  else if 310 ≤ d.exponent then infinityBits
  else if d.exponent + ((d.digits.log2 : Int) + 1) < -1100 then 0
  else nearestBits (d.digits * Nat.pow 10 d.exponent.toNat) (Nat.pow 10 (-d.exponent).toNat)

/-- The nearest number with the given sign. -/
def toFloat (negative : Bool) (d : Decimal) : Float :=
  floatOfBits negative d.toBits

/-- The value of a run of decimal digits. -/
def valueOf (cs : List Char) : Nat :=
  cs.foldl (fun n c => 10 * n + (c.toNat - '0'.toNat)) 0

/-- The decimal written as digits before and after a point. -/
def ofDigits (whole fraction : List Char) : Decimal :=
  ⟨valueOf (whole ++ fraction), -(fraction.length : Int)⟩

/-! ## The shortest decimal that reads back -/

/-- Which of two equally close neighbours is taken: the upper one or the even one. -/
inductive Tie where
  | up
  | even
deriving DecidableEq, Repr

/-- Whether a tie between `n` and `n + 1` goes to `n`. -/
def Tie.staysAt : Tie → Nat → Bool
  | .up, _ => false
  | .even, n => n % 2 == 0

/-- Compares `a * 10 ^ i` with `n * 2 ^ j`. -/
def compareScaled (a : Nat) (i : Int) (n : Nat) (j : Int) : Ordering :=
  compare ((a * Nat.pow 10 i.toNat) <<< (-j).toNat) ((n * Nat.pow 10 (-i).toNat) <<< j.toNat)

/-- Whether the decimal lies among the reals that round to `x`: between the midpoints to its
neighbours, the midpoints included when the mantissa is even. -/
def readsBack (x : Dyadic) (d : Decimal) : Bool :=
  let low := if x.narrowBelow then 4 * x.mantissa - 1 else 4 * x.mantissa - 2
  let high := 4 * x.mantissa + 2
  let inclusive := x.mantissa % 2 == 0
  let fromLow := compareScaled d.digits d.exponent low (x.exponent - 2)
  let fromHigh := compareScaled d.digits d.exponent high (x.exponent - 2)
  (fromLow == .gt || (inclusive && fromLow == .eq)) && (fromHigh == .lt || (inclusive && fromHigh == .eq))

/-- The number of digits before the point of a positive magnitude: the power of ten just above it,
or one more. -/
def magnitude (x : Dyadic) : Int :=
  let guess := ((x.mantissa.log2 : Int) + x.exponent) * 30103 / 100000 + 1
  if compareScaled 1 guess x.mantissa x.exponent == .gt then guess else guess + 1

/-- The neighbours of `x` on the grid `10 ^ place`, kept if they read back; of two the closer. -/
def onGrid? (tie : Tie) (x : Dyadic) (place : Int) : Option Decimal :=
  let num := (x.mantissa * Nat.pow 10 (-place).toNat) <<< x.exponent.toNat
  let den := Nat.pow 10 place.toNat <<< (-x.exponent).toNat
  let below : Decimal := ⟨num / den, place⟩
  let above : Decimal := ⟨num / den + 1, place⟩
  match readsBack x below, readsBack x above with
  | true, true =>
    let twice := 2 * (num % den)
    some (if twice < den ∨ (twice = den ∧ tie.staysAt below.digits) then below else above)
  | true, false => some below
  | false, true => some above
  | false, false => none

/-- All digits of the magnitude. -/
def exact (x : Dyadic) : Decimal :=
  if 0 ≤ x.exponent then ⟨x.mantissa <<< x.exponent.toNat, 0⟩
  else ⟨x.mantissa * Nat.pow 5 (-x.exponent).toNat, x.exponent⟩

/-- Moves trailing zeros of the digits into the exponent, at most `fuel` of them. -/
def strip : Nat → Decimal → Decimal
  | 0, d => d
  | fuel + 1, d =>
    if d.digits ≠ 0 ∧ d.digits % 10 = 0 then strip fuel ⟨d.digits / 10, d.exponent + 1⟩ else d

/-- The shortest decimal that reads back as `x`, without trailing zeros. -/
def shortest (tie : Tie) (x : Dyadic) : Decimal :=
  if x.mantissa = 0 then ⟨0, 0⟩
  else
    let top := magnitude x
    let found := (List.range 17).findSome? fun n : Nat => onGrid? tie x (top - n - 1)
    strip 20 (found.getD (exact x))

end Decimal

end RaiseScript
