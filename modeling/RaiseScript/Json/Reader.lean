import RaiseScript.Fields
import RaiseScript.Json.Basic
import RaiseScript.Text.Hex

/-!
# Reading JSON

`Json.read?` reads a text that holds one JSON value and nothing else. Of two fields with one name
the later counts, and fields come out in ascending order of their names. Values nested more than
127 levels deep are refused, and so are numbers too large for binary64.
-/

namespace RaiseScript.Json

/-- The blanks between the parts of a value. -/
def skipBlanks (cs : List Char) : List Char :=
  cs.dropWhile fun c => c == ' ' || c == '\n' || c == '\t' || c == '\r'

/-! ## Strings -/

/-- What a one-letter escape stands for. -/
def shortEscape? (c : Char) : Option Char :=
  match c with
  | '"' => some '"'
  | '\\' => some '\\'
  | '/' => some '/'
  | 'b' => some '\x08'
  | 'f' => some '\x0c'
  | 'n' => some '\n'
  | 'r' => some '\r'
  | 't' => some '\t'
  | _ => none

/-- The character of a code point written as one or two 16-bit units, and the text after it. -/
def unicodeEscape? (cs : List Char) : Option (Char × List Char) :=
  match cs with
  | a :: b :: c :: d :: rest => do
    let high ← hexNumber? [a, b, c, d]
    if 0xDC00 ≤ high ∧ high ≤ 0xDFFF then none
    else if 0xD800 ≤ high ∧ high ≤ 0xDBFF then
      match rest with
      | '\\' :: 'u' :: a :: b :: c :: d :: rest => do
        let low ← hexNumber? [a, b, c, d]
        if 0xDC00 ≤ low ∧ low ≤ 0xDFFF then
          some (Char.ofNat (0x10000 + (high - 0xD800) * 0x400 + (low - 0xDC00)), rest)
        else none
      | _ => none
    else some (Char.ofNat high, rest)
  | _ => none

/-- The content of a string literal after its opening quote, and the text after the closing one. -/
def stringBody : Nat → List Char → List Char → Option (String × List Char)
  | 0, _, _ => none
  | fuel + 1, acc, cs =>
    match cs with
    | [] => none
    | '"' :: rest => some (String.ofList acc.reverse, rest)
    | '\\' :: 'u' :: rest =>
      match unicodeEscape? rest with
      | some (c, rest) => stringBody fuel (c :: acc) rest
      | none => none
    | '\\' :: e :: rest =>
      match shortEscape? e with
      | some c => stringBody fuel (c :: acc) rest
      | none => none
    | c :: rest => if c < ' ' ∨ c = '\\' then none else stringBody fuel (c :: acc) rest

/-! ## Numbers -/

/-- The digits of an exponent as a number, and the text after it. -/
def exponent? (cs : List Char) : Option (Int × List Char) :=
  let digits (rest : List Char) (sign : Int) : Option (Int × List Char) :=
    let ds := rest.takeWhile Char.isDigit
    if ds.isEmpty then none else some (sign * Decimal.valueOf ds, rest.dropWhile Char.isDigit)
  match cs with
  | '+' :: rest => digits rest 1
  | '-' :: rest => digits rest (-1)
  | rest => digits rest 1

/-- Appends digits to a number as long as the value fits in 64 bits, and gives the digits that are
left over from the first one that does not fit. -/
def gather (n : Nat) : List Char → Nat × List Char
  | [] => (n, [])
  | c :: cs =>
    let m := 10 * n + (c.toNat - '0'.toNat)
    if m < 0x10000000000000000 then gather m cs else (n, c :: cs)

/-- The binary64 number nearest to a power of ten. -/
def powerOfTen (e : Nat) : Float :=
  Decimal.toFloat false ⟨1, e⟩

/-- Multiplies a number by a power of ten, or divides it by one, and refuses a result that is too
large. A power that is too large to divide by is divided by in steps. -/
def scale? (x : Float) (e : Int) : Option Float :=
  if e < -308 then
    if x == 0 then some x else scale? (x / powerOfTen 308) (e + 308)
  else if e < 0 then some (x / powerOfTen e.natAbs)
  else if e ≤ 308 then
    let y := x * powerOfTen e.natAbs
    if y.isInf then none else some y
  else if x == 0 then some x
  else none
termination_by (-e).toNat

/-- The decimal that digits before and after a point stand for, as far as they fit in 64 bits. A
digit left over before the point counts as a zero, one left over after it not at all. -/
def gathered (whole fraction : List Char) : Decimal :=
  let (n, zeros) := gather 0 whole
  let (n, rest) := gather n fraction
  ⟨n, (zeros.length : Int) - ((fraction.length : Int) - rest.length)⟩

/-- A number that is not kept as a whole one. It is rounded twice: the digits are rounded to a
binary64 number, and that number is then scaled by a rounded power of ten. -/
def real? (negative : Bool) (d : Decimal) : Option Json :=
  (scale? (ofWhole d.digits) d.exponent).map fun x => .real (if negative then -x else x)

/-- A number without point and exponent: a whole number if it fits in 64 bits. -/
def wholeOrReal? (negative : Bool) (digits : List Char) : Option Json :=
  let n := Decimal.valueOf digits
  if negative ∧ 0 < n ∧ n ≤ 0x8000000000000000 then some (.whole (-n))
  else if ¬negative ∧ n < 0x10000000000000000 then some (.whole n)
  else real? negative (gathered digits [])

/-- A number after its sign, and the text after it. -/
def numberBody (negative : Bool) (cs : List Char) : Option (Json × List Char) := do
  let whole := cs.takeWhile Char.isDigit
  let rest := cs.dropWhile Char.isDigit
  if whole.isEmpty ∨ (whole.head? = some '0' ∧ 1 < whole.length) then none
  let (fraction, rest) ← match rest with
    | '.' :: after =>
      let ds := after.takeWhile Char.isDigit
      if ds.isEmpty then none else some (some ds, after.dropWhile Char.isDigit)
    | _ => some (none, rest)
  let (power, rest) ← match rest with
    | 'e' :: after | 'E' :: after => (exponent? after).map fun (e, r) => (some e, r)
    | _ => some (none, rest)
  match fraction, power with
  | none, none => return (← wholeOrReal? negative whole, rest)
  | _, _ =>
    let d := gathered whole (fraction.getD [])
    return (← real? negative ⟨d.digits, d.exponent + power.getD 0⟩, rest)

/-! ## Values -/

/-- Removes a word that the text starts with. -/
def after? (word : String) (cs : List Char) : Option (List Char) :=
  if word.toList.isPrefixOf cs then some (cs.drop word.length) else none

mutual

/-- A value and the text after it. `depth` is how many levels may still be opened. -/
def value : Nat → Nat → List Char → Option (Json × List Char)
  | 0, _, _ => none
  | fuel + 1, depth, cs =>
    match skipBlanks cs with
    | 'n' :: rest => (after? "ull" rest).map fun r => (.null, r)
    | 't' :: rest => (after? "rue" rest).map fun r => (.bool true, r)
    | 'f' :: rest => (after? "alse" rest).map fun r => (.bool false, r)
    | '"' :: rest => (stringBody (rest.length + 1) [] rest).map fun (s, r) => (.string s, r)
    | '-' :: rest => numberBody true rest
    | '[' :: rest =>
      match depth with
      | 0 => none
      | depth + 1 =>
        match skipBlanks rest with
        | ']' :: r => some (.array [], r)
        | _ => (items fuel depth rest).map fun (js, r) => (.array js, r)
    | '\x7b' :: rest =>
      match depth with
      | 0 => none
      | depth + 1 =>
        match skipBlanks rest with
        | '\x7d' :: r => some (.object [], r)
        | _ => (fields fuel depth [] rest).map fun (fs, r) => (.object fs, r)
    | rest => numberBody false rest

/-- The items of an array up to its closing bracket. -/
def items : Nat → Nat → List Char → Option (List Json × List Char)
  | 0, _, _ => none
  | fuel + 1, depth, cs =>
    match value fuel depth cs with
    | none => none
    | some (j, rest) =>
      match skipBlanks rest with
      | ',' :: rest => (items fuel depth rest).map fun (js, r) => (j :: js, r)
      | ']' :: rest => some ([j], rest)
      | _ => none

/-- The fields of an object up to its closing brace, put among those read before. -/
def fields : Nat → Nat → List (String × Json) → List Char →
    Option (List (String × Json) × List Char)
  | 0, _, _, _ => none
  | fuel + 1, depth, before, cs =>
    match skipBlanks cs with
    | '"' :: rest =>
      match stringBody (rest.length + 1) [] rest with
      | none => none
      | some (name, rest) =>
        match skipBlanks rest with
        | ':' :: rest =>
          match value fuel depth rest with
          | none => none
          | some (j, rest) =>
            let now := Fields.insert name j before
            match skipBlanks rest with
            | ',' :: rest => fields fuel depth now rest
            | '\x7d' :: rest => some (now, rest)
            | _ => none
        | _ => none
    | _ => none

end

/-- The value that the text holds, if it holds one and nothing else. -/
def read? (text : String) : Option Json :=
  let cs := text.toList
  match value (2 * cs.length + 2) 127 cs with
  | some (j, rest) => if (skipBlanks rest).isEmpty then some j else none
  | none => none

end RaiseScript.Json
