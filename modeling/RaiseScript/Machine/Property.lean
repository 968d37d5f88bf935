import RaiseScript.Machine.State

/-!
# Properties and operators

Reading and writing properties by name and by computed key, and the operators on values.
-/

namespace RaiseScript

/-! ## Properties -/

/-- The position that a number stands for: it is whole, not negative and below `bound`. -/
def position? (x : Float) (bound : Nat) : Option Nat :=
  if 0 ≤ x && isWhole x then
    let d := Dyadic.ofFloat x
    let n := (d.mantissa <<< d.exponent.toNat) >>> (-d.exponent).toNat
    if n < bound then some n else none
  else none

/-- Positions in texts and arrays are below this bound. -/
def positionBound : Nat := 0x10000000000000000

/-- The number of things counted. -/
def countValue (n : Nat) : Value :=
  .number (floatOfBits false (nearestBits n 1))

/-- The value of a property. Built-in functions that are properties are new values at every read. -/
def getProperty (object : Value) (name : String) : Run Value := do
  match object with
  | .undefined | .null => mistake (.readOfNothing object.ownText name)
  | .object address => return ((← get).heap.fields address).lookup name |>.getD .undefined
  | .array address =>
    if name == "length" then return countValue ((← get).heap.items address).size
    else if name == "push" then newNative .push
    else return .undefined
  | .string s => if name == "length" then return countValue s.length else return .undefined
  | .closure _ _ _ _ | .native _ _ =>
    if name == "call" then newNative .call else return .undefined
  | _ => return .undefined

/-- The value under a computed key. -/
def getIndex (object key : Value) : Run Value := do
  match object, key with
  | .array address, .number x =>
    let items := (← get).heap.items address
    return ((position? x items.size).bind (items[·]?)).getD .undefined
  | .string s, .number x =>
    return match (position? x positionBound).bind (s.toList[·]?) with
      | some c => .string c.toString
      | none => .undefined
  | _, _ => do getProperty object (← toText key)

/-- Items with the one at a position replaced; positions that are missing before it are filled. -/
def setItem (items : Array Value) (i : Nat) (v : Value) : Array Value :=
  if i < items.size then items.setIfInBounds i v
  else (items ++ Array.replicate (i - items.size) Value.undefined).push v

/-- Writes a value under a key. Values without properties ignore it. -/
def setIndex (object key v : Value) : Run Unit := do
  match object, key with
  | .object address, key =>
    let name ← toText key
    modify fun m => { m with heap := { m.heap with
      objects := m.heap.objects.modify address (Fields.insert name v) } }
  | .array address, .number x =>
    match position? x positionBound with
    | none => return ()
    | some i =>
      modify fun m => { m with heap := { m.heap with
        arrays := m.heap.arrays.modify address (setItem · i v) } }
  | .undefined, key | .null, key => misuseOf (.writeToNothing object.ownText <$> toText key)
  | _, _ => return ()

/-! ## Operators -/

/-- The value of a unary operator. -/
def applyUnary (op : UnaryOp) (v : Value) : Run Value :=
  match op with
  | .not => return .bool !v.truthy
  | .negate => do return .number (-(← toNumber v))
  | .typeName => return .string v.typeName

/-- Whether adding the value joins text. -/
def Value.joins : Value → Bool
  | .string _ => true
  | .array _ => true
  | .object _ => true
  | _ => false

/-- An operator on numbers. -/
def onNumbers {α : Type} (f : Float → Float → α) (a b : Value) : Run α := do
  let x ← toNumber a
  let y ← toNumber b
  return f x y

/-- Compares two strings by their characters and everything else by number. -/
def compareWith (texts : String → String → Bool) (numbers : Float → Float → Bool) (a b : Value) :
    Run Value := do
  match a, b with
  | .string s, .string t => return .bool (texts s t)
  | _, _ => return .bool (← onNumbers numbers a b)

/-- The value of a binary operator. -/
def applyBinary (op : BinaryOp) (a b : Value) : Run Value :=
  match op with
  | .add =>
    if a.joins || b.joins then do
      let s ← toText a
      let t ← toText b
      return .string (s ++ t)
    else .number <$> onNumbers (· + ·) a b
  | .subtract => .number <$> onNumbers (· - ·) a b
  | .multiply => .number <$> onNumbers (· * ·) a b
  | .divide => .number <$> onNumbers (· / ·) a b
  | .remainder => .number <$> onNumbers remainder a b
  | .equal => return .bool (a.looselyEquals b)
  | .notEqual => return .bool !(a.looselyEquals b)
  | .strictEqual => return .bool (a.strictlyEquals b)
  | .strictNotEqual => return .bool !(a.strictlyEquals b)
  | .less => compareWith (fun s t => s < t) (fun x y => x < y) a b
  | .lessEqual => compareWith (fun s t => !(t < s)) (fun x y => x ≤ y) a b
  | .greater => compareWith (fun s t => t < s) (fun x y => y < x) a b
  | .greaterEqual => compareWith (fun s t => !(s < t)) (fun x y => y ≤ x) a b

/-- Whether the left operand decides the value of a logical operator. -/
def LogicalOp.decides (op : LogicalOp) (left : Value) : Bool :=
  match op with
  | .and => !left.truthy
  | .or => left.truthy
  | .nullish => !left.isNullish

end RaiseScript
