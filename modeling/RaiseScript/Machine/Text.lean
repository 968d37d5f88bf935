import RaiseScript.Machine.Value
import RaiseScript.Number.Notation
import RaiseScript.Number.Reading

/-!
# Values as truth values, numbers and text

The conversions follow addresses into the heap. A value that contains itself has no text and no
number, so they take a bound on how deep they go. The number of arrays and objects in the heap, and
one more, is enough for every value that does not contain itself (`Heap.depthBound`).
-/

namespace RaiseScript

namespace Value

/-- The kind of a value, as programs name it. -/
def typeName : Value → String
  | .undefined => "undefined"
  | .null => "object"
  | .array _ => "object"
  | .object _ => "object"
  | .bool _ => "boolean"
  | .number _ => "number"
  | .string _ => "string"
  | .closure _ _ _ _ => "function"
  | .native _ _ => "function"

/-- Whether a value counts as true. -/
def truthy : Value → Bool
  | .undefined => false
  | .null => false
  | .bool b => b
  | .number x => !(x == 0) && !x.isNaN
  | .string s => !s.isEmpty
  | _ => true

/-- Whether a value is one of the two that stand for nothing. -/
def isNullish : Value → Bool
  | .undefined => true
  | .null => true
  | _ => false

/-- The number a value counts as when it is not an array. -/
def ownNumber : Value → Float
  | .null => 0
  | .bool b => if b then 1 else 0
  | .number x => x
  | .string s => numberOf s
  | _ => 0 / 0

/-- Equality that never converts. Arrays, objects and functions equal only themselves, and a value
that is not a number equals nothing. -/
def strictlyEquals : Value → Value → Bool
  | .undefined, .undefined => true
  | .null, .null => true
  | .bool a, .bool b => a == b
  | .number x, .number y => x == y
  | .string s, .string t => s == t
  | .array a, .array b => a == b
  | .object a, .object b => a == b
  | .closure a _ _ _, .closure b _ _ _ => a == b
  | .native a _, .native b _ => a == b
  | _, _ => false

/-- Whether a value is a number, a string or a truth value. -/
def isPlain : Value → Bool
  | .number _ => true
  | .string _ => true
  | .bool _ => true
  | _ => false

/-- Equality that compares plain values of different kinds as numbers, and takes the two values
that stand for nothing as equal. -/
def looselyEquals (a b : Value) : Bool :=
  if a.isNullish || b.isNullish then a.isNullish && b.isNullish
  else if a.isPlain && b.isPlain && a.typeName != b.typeName then a.ownNumber == b.ownNumber
  else a.strictlyEquals b

/-- How a function prints. -/
def functionText : Option String → String
  | some name => "[Function: " ++ name ++ "]"
  | none => "[Function (anonymous)]"

/-- The text of a value that has no parts. -/
def ownText : Value → String
  | .undefined => "undefined"
  | .null => "null"
  | .bool b => if b then "true" else "false"
  | .number x => numberText x
  | .string s => s
  | .closure _ f _ _ => functionText f.name
  | .native _ kind => functionText (some kind.name)
  | _ => ""

end Value

namespace Heap

/-- A depth that only values which contain themselves exceed. -/
def depthBound (h : Heap) : Nat :=
  h.size + 1

/-- The number a value counts as. An array with one item counts as that item. -/
def number? (h : Heap) : Nat → Value → Option Float
  | 0, _ => none
  | depth + 1, .array address =>
    match (h.items address).toList with
    | [] => some 0
    | [only] => h.number? depth only
    | _ => some (0 / 0)
  | _ + 1, v => some v.ownNumber

/-- The text that a value turns into when it is joined with text. Items are set apart by commas, and
an object with a name and a message, such as an error, shows both. -/
def text? (h : Heap) : Nat → Value → Option String
  | 0, _ => none
  | depth + 1, .array address => do
    let parts ← (h.items address).toList.mapM fun v =>
      if v.isNullish then some "" else h.text? depth v
    return ",".intercalate parts
  | depth + 1, .object address =>
    match (h.fields address).lookup "name", (h.fields address).lookup "message" with
    | some name, some message => do
      return (← h.text? depth name) ++ ": " ++ (← h.text? depth message)
    | _, _ => some "[object Object]"
  | _ + 1, v => some v.ownText

/-- How a value prints inside another one: strings in quotes, items in brackets, fields in
braces. -/
def nested? (h : Heap) : Nat → Value → Option String
  | 0, _ => none
  | _ + 1, .string s => some ("'" ++ s ++ "'")
  | depth + 1, .array address => do
    let parts ← (h.items address).toList.mapM (h.nested? depth)
    return if parts.isEmpty then "[]" else "[ " ++ ", ".intercalate parts ++ " ]"
  | depth + 1, .object address => do
    let parts ← (h.fields address).mapM fun (name, v) => do
      return name ++ ": " ++ (← h.nested? depth v)
    return if parts.isEmpty then "\x7b\x7d" else "\x7b " ++ ", ".intercalate parts ++ " \x7d"
  | _ + 1, v => some v.ownText

/-- How a value prints: as inside another one, but a string stands for itself. -/
def shown? (h : Heap) (depth : Nat) : Value → Option String
  | .string s => some s
  | v => h.nested? depth v

end Heap

end RaiseScript
