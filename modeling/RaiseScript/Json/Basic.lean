import RaiseScript.Number.Notation

/-!
# JSON values

A `Json` value keeps the fields of an object as a list, in the order in which they are written.
`Json.same` compares two values as data: the order of fields does not count, and a number is the
binary64 number it stands for, however it is spelled.
-/

namespace RaiseScript

/-- A JSON value. Whole numbers that fit in 64 bits are kept exactly. -/
inductive Json where
  | null
  | bool (b : Bool)
  | whole (n : Int)
  | real (x : Float)
  | string (s : String)
  | array (items : List Json)
  | object (fields : List (String × Json))
deriving Repr, Inhabited

namespace Json

/-- The binary64 number nearest to a whole number. -/
def ofWhole (n : Int) : Float :=
  floatOfBits (n < 0) (nearestBits n.natAbs 1)

/-- The value of a number. -/
def number? : Json → Option Float
  | .whole n => some (ofWhole n)
  | .real x => some x
  | _ => none

/-- The value of the first field with the given name. -/
def field? (name : String) : Json → Option Json
  | .object fields => fields.lookup name
  | _ => none

mutual

/-- Equality of values as data. -/
def same : Json → Json → Bool
  | .null, .null => true
  | .bool a, .bool b => a == b
  | .whole a, .whole b => ofWhole a == ofWhole b
  | .whole a, .real y => ofWhole a == y
  | .real x, .whole b => x == ofWhole b
  | .real x, .real y => x == y
  | .string a, .string b => a == b
  | .array as, .array bs => sameItems as bs
  | .object as, .object bs => as.length == bs.length && sameFields as bs
  | _, _ => false

/-- Item by item equality. -/
def sameItems : List Json → List Json → Bool
  | [], [] => true
  | a :: as, b :: bs => same a b && sameItems as bs
  | _, _ => false

/-- Whether every field has an equal field of the same name in `bs`. -/
def sameFields : List (String × Json) → List (String × Json) → Bool
  | [], _ => true
  | (k, a) :: as, bs => (match bs.lookup k with | some b => same a b | none => false) && sameFields as bs

end

end Json

end RaiseScript
