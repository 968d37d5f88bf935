import RaiseScript.Fields
import RaiseScript.Syntax.Basic

/-!
# Values and the memory they live in

Numbers, strings and the like are values in themselves; arrays and objects are addresses into a
`Heap`, so several places can share one. A closure is a function with the scopes it was made in, and
both closures and built-in functions have an identity by which they are compared.

A `Machine` is all that a running program can change: its scopes, its heap, what it has printed,
the receiver of the current call, and the counts of steps and of calls in progress. It also counts
what the program did wrong, which nothing that runs looks at.
-/

namespace RaiseScript

/-- One scope on the way outward, and whether it is the scope of a whole function. -/
structure Link where
  scope : Nat
  isBody : Bool
deriving DecidableEq, Repr, Inhabited

/-- Where code runs: the scopes it sees, innermost first, and the slot of the try expression around
it when try expressions are run in place. -/
structure Env where
  chain : List Link
  slot : Option Nat
deriving DecidableEq, Repr, Inhabited

/-- The built-in functions. -/
inductive Native where
  | log
  | string
  | error
  | call
  | push
deriving DecidableEq, Repr

/-- The name under which a built-in function prints. -/
def Native.name : Native → String
  | .log => "log"
  | .string => "String"
  | .error => "Error"
  | .call => "call"
  | .push => "push"

/-- A value. -/
inductive Value where
  | undefined
  | null
  | bool (b : Bool)
  | number (x : Float)
  | string (s : String)
  | array (address : Nat)
  | object (address : Nat)
  | closure (id : Nat) (func : Func) (env : Env) (this : Value)
  | native (id : Nat) (kind : Native)
deriving Inhabited

/-- What a name is bound to. -/
structure Binding where
  value : Value
  isMutable : Bool
deriving Inhabited

/-- The bindings of one scope; each name occurs once. -/
abbrev Scope := List (String × Binding)

/-- Replaces the binding of a name or adds one. -/
def Scope.bind (name : String) (b : Binding) : Scope → Scope
  | [] => [(name, b)]
  | (k, c) :: rest => if k == name then (k, b) :: rest else (k, c) :: Scope.bind name b rest

/-- Arrays and objects by address. -/
structure Heap where
  arrays : Array (Array Value)
  objects : Array (Fields Value)
deriving Inhabited

namespace Heap

/-- The items of an array. -/
def items (h : Heap) (address : Nat) : Array Value :=
  h.arrays.getD address #[]

/-- The fields of an object. -/
def fields (h : Heap) (address : Nat) : Fields Value :=
  h.objects.getD address []

/-- How many arrays and objects there are. -/
def size (h : Heap) : Nat :=
  h.arrays.size + h.objects.size

end Heap

/-- The state of a running program. -/
structure Machine where
  scopes : Array Scope
  heap : Heap
  /-- The values stored by the try expressions that run in place. -/
  slots : Array Value
  /-- The next identity of a function value. -/
  nextId : Nat
  /-- The receiver of the current call. -/
  this : Value
  /-- Calls in progress. -/
  depth : Nat
  /-- Statements and rounds of loops so far. -/
  steps : Nat
  /-- The lines printed so far. -/
  output : Array String
  /-- Mistakes so far : names that were read and not bound, properties that were read of nothing,
  and calls of what is no function. -/
  mistakes : Nat
  /-- Methods so far that were undefined or null when looked up, for a call that had to wait for a
  try expression among its arguments. -/
  misses : Nat
deriving Inhabited

namespace Machine

/-- The binding that a name has in the given scopes, and the scope that holds it. -/
def find? (m : Machine) (name : String) : List Link → Option (Nat × Binding)
  | [] => none
  | link :: outer =>
    match (m.scopes.getD link.scope []).lookup name with
    | some b => some (link.scope, b)
    | none => m.find? name outer

/-- The value of a name. -/
def lookup? (m : Machine) (name : String) (chain : List Link) : Option Value :=
  (m.find? name chain).map (·.2.value)

/-- Binds a name in one scope. -/
def declare (m : Machine) (scope : Nat) (name : String) (b : Binding) : Machine :=
  { m with scopes := m.scopes.modify scope (Scope.bind name b) }

end Machine

/-- The scopes from the one of the running function outward. -/
def bodyChain (chain : List Link) : List Link :=
  chain.dropWhile (!·.isBody)

end RaiseScript
