/-!
# Finite numbers as integers times powers of two

A finite binary64 number is a sign and a natural number times a power of two. `Dyadic.ofBits`
reads the magnitude off the bits, and `nearestBits` goes back: it gives the bits of the binary64
number closest to a quotient of natural numbers, a tie going to the even mantissa.
-/

namespace RaiseScript

/-- The magnitude `mantissa * 2 ^ exponent` of a finite binary64 number. -/
structure Dyadic where
  mantissa : Nat
  exponent : Int
  /-- Whether the next number below is only half as far away as the next number above. -/
  narrowBelow : Bool
deriving DecidableEq, Repr

/-- The bits of positive infinity, the least that stand for no finite magnitude. -/
def infinityBits : Nat := 0x7FF0000000000000

/-- Whether the sign bit is set. -/
def signBit (x : Float) : Bool :=
  x.toBits >>> 63 == 1

/-- The bits without the sign bit. -/
def magnitudeBits (x : Float) : Nat :=
  x.toBits.toNat % 0x8000000000000000

namespace Dyadic

/-- The magnitude that the bits of a finite number stand for; the sign bit is ignored. -/
def ofBits (bits : UInt64) : Dyadic :=
  let biased := ((bits >>> 52) &&& 0x7FF).toNat
  let fraction := (bits &&& 0xFFFFFFFFFFFFF).toNat
  if biased = 0 then ⟨fraction, -1074, false⟩
  else ⟨0x10000000000000 + fraction, (biased : Int) - 1075, fraction = 0 && 1 < biased⟩

/-- The magnitude of a finite number. -/
def ofFloat (x : Float) : Dyadic :=
  ofBits x.toBits

/-- Whether the magnitude is a whole number. -/
def isWhole (d : Dyadic) : Bool :=
  0 ≤ d.exponent || d.mantissa % (1 <<< (-d.exponent).toNat) = 0

/-- The magnitude without what is behind the point. -/
def whole (d : Dyadic) : Nat :=
  d.mantissa <<< d.exponent.toNat >>> (-d.exponent).toNat

end Dyadic

/-- The quotient of two natural numbers rounded to the nearest whole number, a tie going to the
even one. -/
def roundQuotient (num den : Nat) : Nat :=
  let floor := num / den
  let twice := 2 * (num % den)
  if twice < den ∨ (twice = den ∧ floor % 2 = 0) then floor else floor + 1

/-- The exponent of the last place that a binary64 number near `num / den` keeps. -/
def lastPlace (num den : Nat) : Int :=
  let guess := (num.log2 : Int) - den.log2 - 52
  let place := if num <<< (-guess).toNat < den <<< (guess.toNat + 52) then guess - 1 else guess
  max place (-1074)

/-- The bits of the binary64 number nearest to `num / den`, infinity if the quotient is too large.
The mantissa carries into the exponent by plain addition. -/
def nearestBits (num den : Nat) : Nat :=
  if num = 0 then 0
  else
    let place := lastPlace num den
    let mantissa := roundQuotient (num <<< (-place).toNat) (den <<< place.toNat)
    min ((place + 1074).toNat <<< 52 + mantissa) infinityBits

/-- The number with the given magnitude bits and sign. -/
def floatOfBits (negative : Bool) (bits : Nat) : Float :=
  Float.ofBits (UInt64.ofNat (if negative then 0x8000000000000000 + bits else bits))

/-- The remainder of a division that truncates. It has the sign of the dividend, and it is exact:
both magnitudes are brought to the same power of two first. -/
def remainder (x y : Float) : Float :=
  if x.isNaN || y.isNaN || x.isInf || y == 0 then 0 / 0
  else if y.isInf then x
  else
    let a := Dyadic.ofFloat x
    let b := Dyadic.ofFloat y
    let place := min a.exponent b.exponent
    let rest := (a.mantissa <<< (a.exponent - place).toNat) % (b.mantissa <<< (b.exponent - place).toNat)
    floatOfBits (signBit x) (nearestBits (rest <<< place.toNat) (1 <<< (-place).toNat))

end RaiseScript
