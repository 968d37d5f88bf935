import RaiseScript.Machine.Text

/-!
# Running code on a machine

`Run α` is code that changes a machine and either gives a value or ends in an `Exit`. A thrown value
can be caught by the program, `returned`, `broke` and `continued` end at the function or the loop
they belong to, and a `Failure` ends the whole run and cannot be caught.

What a program may do wrong itself (`Misuse`) is thrown as an object with a name and a message.
-/

namespace RaiseScript

/-- What the machine does not run. -/
inductive Feature where
  | yield
  | generators
  | strayReturn
  | strayJump
deriving DecidableEq, Repr

/-- The name of a feature in messages. -/
def Feature.name : Feature → String
  | .yield => "yield"
  | .generators => "generator functions"
  | .strayReturn => "return outside of a function"
  | .strayJump => "break or continue outside of a loop"

/-- Why a run is given up. -/
inductive Failure where
  | unlowered (construct : Extension)
  | unsupported (feature : Feature)
  | stepLimit (limit : Nat)
  /-- A value that contains itself was turned into text or a number. -/
  | endless
  /-- The bound on nested calls or on rounds of a loop was too small. -/
  | exhausted
deriving DecidableEq, Repr

/-- How code ends other than by giving a value. -/
inductive Exit where
  | thrown (v : Value)
  | returned (v : Value)
  | broke
  | continued
  | failed (f : Failure)

/-- Code that runs on a machine. -/
abbrev Run := EStateM Exit Machine

/-- Gives up the run. -/
def fail {α : Type} (f : Failure) : Run α :=
  throw (.failed f)

/-- Runs `x` and gives how it ended. -/
def outcome {α : Type} (x : Run α) : Run (Except Exit α) := fun m =>
  match x m with
  | .ok a m => .ok (.ok a) m
  | .error e m => .ok (.error e) m

/-- Ends as told. -/
def conclude {α : Type} : Except Exit α → Run α
  | .ok a => return a
  | .error e => throw e

/-- Counts a step and gives up when there are too many. -/
def tick (maxSteps : Nat) : Run Unit := do
  modify fun m => { m with steps := m.steps + 1 }
  if maxSteps < (← get).steps then fail (.stepLimit maxSteps)

/-! ## Making things -/

/-- A new array. -/
def newArray (items : Array Value) : Run Value := modifyGet fun m =>
  (.array m.heap.arrays.size, { m with heap := { m.heap with arrays := m.heap.arrays.push items } })

/-- A new object. -/
def newObject (fields : Fields Value) : Run Value := modifyGet fun m =>
  (.object m.heap.objects.size,
    { m with heap := { m.heap with objects := m.heap.objects.push fields } })

/-- A new identity for a function value. -/
def newId : Run Nat := modifyGet fun m =>
  (m.nextId, { m with nextId := m.nextId + 1 })

/-- A function value that sees the given scopes. -/
def newClosure (f : Func) (env : Env) : Run Value := do
  return .closure (← newId) f env (← get).this

/-- A built-in function as a value of its own. -/
def newNative (kind : Native) : Run Value := do
  return .native (← newId) kind

/-- A new scope inside the given ones. -/
def newScope (env : Env) (isBody : Bool) : Run Env := modifyGet fun m =>
  ({ env with chain := ⟨m.scopes.size, isBody⟩ :: env.chain },
    { m with scopes := m.scopes.push [] })

/-- A new slot that holds nothing yet. -/
def newSlot : Run Nat := modifyGet fun m =>
  (m.slots.size, { m with slots := m.slots.push .undefined })

/-! ## What programs do wrong -/

/-- A mistake of the program that it can catch. -/
inductive Misuse where
  | unbound (name : String)
  | constantAssigned
  | badTarget
  | readOfNothing (object property : String)
  | writeToNothing (object property : String)
  | notCallable (shown : String)
  | pushOnto (type : String)
  | tooDeep
deriving DecidableEq, Repr

/-- The name of the error that is thrown. -/
def Misuse.name : Misuse → String
  | .unbound _ => "ReferenceError"
  | .badTarget => "SyntaxError"
  | .tooDeep => "RangeError"
  | _ => "TypeError"

/-- The message of the error that is thrown. -/
def Misuse.message : Misuse → String
  | .unbound name => name ++ " is not defined"
  | .constantAssigned => "Assignment to constant variable."
  | .badTarget => "Invalid left-hand side in assignment"
  | .readOfNothing object property =>
    "Cannot read properties of " ++ object ++ " (reading '" ++ property ++ "')"
  | .writeToNothing object property =>
    "Cannot set properties of " ++ object ++ " (setting '" ++ property ++ "')"
  | .notCallable shown => shown ++ " is not a function"
  | .pushOnto type => "push called on " ++ type
  | .tooDeep => "Maximum call stack size exceeded"

/-- An object that describes an error. -/
def newError (name message : String) : Run Value :=
  newObject [("message", .string message), ("name", .string name)]

/-- Finds out what the program did wrong and throws the error for it. -/
def misuseOf {α : Type} (e : Run Misuse) : Run α := do
  let e ← e
  throw (.thrown (← newError e.name e.message))

/-- Throws the error for a misuse. -/
def misuse {α : Type} (e : Misuse) : Run α :=
  misuseOf (return e)

/-- Throws the error for a misuse that counts as a mistake. -/
def mistakeOf {α : Type} (e : Run Misuse) : Run α := do
  modify fun m => { m with mistakes := m.mistakes + 1 }
  misuseOf e

/-- Throws the error for a mistake. -/
def mistake {α : Type} (e : Misuse) : Run α :=
  mistakeOf (return e)

/-- Notes a method that is not there although it is to be called, with a try expression to run
before the call. What comes of it is for the call to say. -/
def noteMethod (waits : Bool) (f : Value) : Run Unit :=
  if waits && f.isNullish then modify fun m => { m with misses := m.misses + 1 } else return ()

/-! ## Conversions -/

/-- Runs a conversion of a value. -/
def convert {α : Type} (f : Heap → Nat → Value → Option α) (v : Value) : Run α := do
  let heap := (← get).heap
  match f heap heap.depthBound v with
  | some a => return a
  | none => fail .endless

/-- The number a value counts as. -/
def toNumber (v : Value) : Run Float := convert Heap.number? v

/-- The text a value turns into. -/
def toText (v : Value) : Run String := convert Heap.text? v

/-- How a value prints. -/
def toShown (v : Value) : Run String := convert Heap.shown? v

/-! ## Names -/

/-- Binds a name in the innermost scope. -/
def declareHere (env : Env) (name : String) (v : Value) (isMutable : Bool) : Run Unit :=
  match env.chain with
  | [] => return ()
  | link :: _ => modify fun m => m.declare link.scope name ⟨v, isMutable⟩

/-- Binds a name in the scope of the running function. Without a value it leaves a name alone that
can be seen from there. -/
def declareInBody (env : Env) (name : String) (v : Option Value) : Run Unit := do
  let chain := bodyChain env.chain
  if v.isSome || ((← get).lookup? name chain).isNone then
    declareHere ⟨chain, none⟩ name (v.getD .undefined) true

/-- The value of a name. -/
def readName (env : Env) (name : String) : Run Value := do
  match (← get).lookup? name env.chain with
  | some v => return v
  | none => mistake (.unbound name)

/-- Gives a bound name a new value. -/
def assignName (env : Env) (name : String) (v : Value) : Run Unit := do
  match (← get).find? name env.chain with
  | none => misuse (.unbound name)
  | some (scope, b) =>
    if b.isMutable then modify fun m => m.declare scope name ⟨v, true⟩
    else misuse .constantAssigned

end RaiseScript
