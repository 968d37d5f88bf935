import RaiseScript.Machine.Property
import RaiseScript.Syntax.Visit

/-!
# Evaluating expressions and running statements

`evalExpr` and `execStmt` follow the tree. What a call does is not theirs to say: they get it with
the `Engine`, and `callAt` ties the knot by recursion on the number of calls that may still be
nested. Loops run `rounds`, bounded by the steps that are left, since every round takes one.

Programs with try expressions can be run in two ways. A standard engine refuses them, as lowering
should have removed them. An engine that runs them `direct` gives each a slot in the machine:
`raise` stores into the slot of the try expression around it and goes on, the finally block starts
by binding its parameter to what is stored, and the stored value is the value of the expression.
-/

namespace RaiseScript

/-- How far a run may go. -/
structure Limits where
  /-- Statements and rounds of loops. -/
  maxSteps : Nat := 1000000
  /-- Calls inside one another. -/
  maxDepth : Nat := 200
deriving DecidableEq, Repr

/-- What evaluation is given from outside. -/
structure Engine where
  maxSteps : Nat
  /-- Whether try expressions run in place. -/
  direct : Bool
  /-- Calls a function with a receiver and arguments. -/
  call : Value → Value → List Value → Run Value

/-! ## Control -/

/-- Repeats `round` while it says so, at most `fuel` times. -/
def rounds (round : Run Bool) : Nat → Run Unit
  | 0 => fail .exhausted
  | fuel + 1 => do if ← round then rounds round fuel

/-- Whether a loop goes on after its body ended so. -/
def goesOn : Except Exit Unit → Run Bool
  | .ok () => return true
  | .error .continued => return true
  | .error .broke => return false
  | .error e => throw e

/-- Ends normally where a switch is left. -/
def leaveSwitch : Except Exit Unit → Run Unit
  | .error .broke => return ()
  | r => conclude r

/-- Hands a thrown value to a handler. -/
def catching (first : Except Exit Unit) (handler : Value → Run Unit) : Run (Except Exit Unit) :=
  match first with
  | .error (.thrown v) => outcome (handler v)
  | r => return r

/-- Runs the finalizer and then ends as before, unless the finalizer ends otherwise. Nothing runs
after a failure. -/
def finishing (result : Except Exit Unit) (finalizer : Run Unit) : Run Unit :=
  match result with
  | .error (.failed f) => fail f
  | r => do
    finalizer
    conclude r

/-- Functions are bound in the whole list of statements that declares them. -/
def declareFunctions (env : Env) : List Stmt → Run Unit
  | [] => return ()
  | .func f :: rest => do
    if let some name := f.name then
      declareHere env name (← newClosure f env) true
    declareFunctions env rest
  | _ :: rest => declareFunctions env rest

/-- Binds a name the way its declaration asks for. -/
def bindDeclared (env : Env) (kind : BindingKind) (name : String) (v : Option Value) : Run Unit :=
  match kind with
  | .functionWide => declareInBody env name v
  | .mutable => declareHere env name (v.getD .undefined) true
  | .constant => declareHere env name (v.getD .undefined) false

/-- Binds the parameter of a clause, if it has one. -/
def bindParam (env : Env) (param : Option String) (v : Value) : Run Unit :=
  match param with
  | none => return ()
  | some name => declareHere env name v true

/-- What a slot holds. -/
def readSlot (slot : Nat) : Run Value := do
  return (← get).slots.getD slot .undefined

/-- Stores into the slot of the try expression around the code. -/
def storeRaised (env : Env) (v : Value) : Run Unit :=
  match env.slot with
  | none => fail (.unlowered .raise)
  | some slot => modify fun m => { m with slots := m.slots.setIfInBounds slot v }

/-! ## The tree -/

mutual

/-- The value of an expression. -/
def evalExpr (k : Engine) (env : Env) : Expr → Run Value
  | .number x => return .number x
  | .string s => return .string s
  | .bool b => return .bool b
  | .null => return .null
  | .undefined => return .undefined
  | .this => do return (← get).this
  | .ident name => readName env name
  | .array items => do newArray (← evalExprs k env items).toArray
  | .unary .typeName (.ident name) => do
    return .string (((← get).lookup? name env.chain).elim "undefined" Value.typeName)
  | .unary op arg => do applyUnary op (← evalExpr k env arg)
  | .binary op a b => do
    let x ← evalExpr k env a
    let y ← evalExpr k env b
    applyBinary op x y
  | .logical op a b => do
    let x ← evalExpr k env a
    if op.decides x then return x else evalExpr k env b
  | .assign (.ident name) value => do
    let v ← evalExpr k env value
    assignName env name v
    return v
  | .assign (.member object property) value => do
    let o ← evalExpr k env object
    let v ← evalExpr k env value
    setIndex o (.string property) v
    return v
  | .assign (.index object key) value => do
    let o ← evalExpr k env object
    let i ← evalExpr k env key
    let v ← evalExpr k env value
    setIndex o i v
    return v
  | .assign _ _ => misuse .badTarget
  | .member object property => do getProperty (← evalExpr k env object) property
  | .index object key => do
    let o ← evalExpr k env object
    let i ← evalExpr k env key
    getIndex o i
  | .call (.member object property) args => do
    let this ← evalExpr k env object
    let f ← getProperty this property
    noteMethod (args.any Expr.hasAttempt) f
    k.call f this (← evalExprs k env args)
  | .call (.index object key) args => do
    let this ← evalExpr k env object
    let i ← evalExpr k env key
    let f ← getIndex this i
    noteMethod (args.any Expr.hasAttempt) f
    k.call f this (← evalExprs k env args)
  | .call callee args => do
    let f ← evalExpr k env callee
    k.call f .undefined (← evalExprs k env args)
  | .await arg => evalExpr k env arg
  | .yield _ _ => fail (.unsupported .yield)
  | .func f => newClosure f env
  | .attempt ⟨_, body, catchParam, catchBody, finallyParam, finallyBody, _, _, _⟩ => do
    if k.direct then
      let slot ← newSlot
      let env := { env with slot := some slot }
      let first ← outcome do
        let inner ← newScope env false
        declareFunctions inner body
        execAll k inner body
      let second ← catching first fun thrown => do
        let inner ← newScope env false
        bindParam inner catchParam thrown
        declareFunctions inner catchBody
        execAll k inner catchBody
      finishing second (execFinally k env (finallyParam.map (·, slot)) finallyBody)
      readSlot slot
    else fail (.unlowered .attempt)

/-- The values of expressions from left to right. -/
def evalExprs (k : Engine) (env : Env) : List Expr → Run (List Value)
  | [] => return []
  | e :: es => do
    let v ← evalExpr k env e
    return v :: (← evalExprs k env es)

/-- Runs a statement. -/
def execStmt (k : Engine) (env : Env) (s : Stmt) : Run Unit := do
  tick k.maxSteps
  match s with
  | .declare kind decls _ => execDecls k env kind decls
  | .expr value _ => do
    let _ ← evalExpr k env value
  | .block body _ => do
    let inner ← newScope env false
    declareFunctions inner body
    execAll k inner body
  | .branch test yes none _ => do
    if (← evalExpr k env test).truthy then execStmt k env yes
  | .branch test yes (some no) _ => do
    if (← evalExpr k env test).truthy then execStmt k env yes else execStmt k env no
  | .loop test body _ => do
    let fuel := k.maxSteps + 1 - (← get).steps
    let round : Run Bool := do
      tick k.maxSteps
      if (← evalExpr k env test).truthy then goesOn (← outcome (execStmt k env body))
      else return false
    rounds round fuel
  | .switch subject cases _ => do
    let v ← evalExpr k env subject
    let inner ← newScope env false
    let chosen ← chooseCase k inner v cases
    match chosen <|> cases.findIdx? (·.test.isNone) with
    | none => return ()
    | some i => leaveSwitch (← outcome (execCases k inner i cases))
  | .jump .leave _ => throw .broke
  | .jump .again _ => throw .continued
  | .ret none _ => throw (.returned .undefined)
  | .ret (some arg) _ => do throw (.returned (← evalExpr k env arg))
  | .throw arg _ => do throw (.thrown (← evalExpr k env arg))
  | .guarded body handler finalizer _ => do
    let first ← outcome do
      let inner ← newScope env false
      declareFunctions inner body
      execAll k inner body
    let second ← execHandler k env first handler
    finishing second (execFinally k env none finalizer)
  | .func _ => return ()
  | .raise _ value _ => do
    if k.direct then storeRaised env (← evalExpr k env value)
    else fail (.unlowered .raise)

/-- Runs the declarators of a declaration. -/
def execDecls (k : Engine) (env : Env) (kind : BindingKind) : List Declarator → Run Unit
  | [] => return ()
  | ⟨name, none⟩ :: ds => do
    bindDeclared env kind name none
    execDecls k env kind ds
  | ⟨name, some init⟩ :: ds => do
    bindDeclared env kind name (some (← evalExpr k env init))
    execDecls k env kind ds

/-- The position of the first case whose test equals the value. -/
def chooseCase (k : Engine) (env : Env) (v : Value) : List Case → Run (Option Nat)
  | [] => return none
  | ⟨none, _⟩ :: cs => do return (← chooseCase k env v cs).map (· + 1)
  | ⟨some test, _⟩ :: cs => do
    if (← evalExpr k env test).strictlyEquals v then return some 0
    else return (← chooseCase k env v cs).map (· + 1)

/-- Runs the bodies of the cases from a position on. -/
def execCases (k : Engine) (env : Env) : Nat → List Case → Run Unit
  | _, [] => return ()
  | skip + 1, _ :: cs => execCases k env skip cs
  | 0, ⟨_, body⟩ :: cs => do
    declareFunctions env body
    execAll k env body
    execCases k env 0 cs

/-- Runs the handler of a try statement when a value was thrown. -/
def execHandler (k : Engine) (env : Env) (first : Except Exit Unit) :
    Option Handler → Run (Except Exit Unit)
  | none => return first
  | some ⟨param, body⟩ =>
    catching first fun thrown => do
      let inner ← newScope env false
      bindParam inner param thrown
      declareFunctions inner body
      execAll k inner body

/-- Runs a finally block. Its parameter is bound to what a slot holds. -/
def execFinally (k : Engine) (env : Env) (param : Option (String × Nat)) :
    Option (List Stmt) → Run Unit
  | none => return ()
  | some body => do
    let inner ← newScope env false
    declareFunctions inner body
    if let some (name, slot) := param then
      declareHere inner name (← readSlot slot) true
    execAll k inner body

/-- Runs statements one after the other. -/
def execAll (k : Engine) (env : Env) : List Stmt → Run Unit
  | [] => return ()
  | s :: ss => do
    execStmt k env s
    execAll k env ss

end

/-! ## Calls -/

/-- Runs the body of a function. Without a `return` its value is undefined. -/
def runBody (k : Engine) (env : Env) (body : FuncBody) : Run Value := do
  let result ← outcome (match body with
    | .block body => do
      declareFunctions env body
      execAll k env body
      return .undefined
    | .expr value => evalExpr k env value)
  match result with
  | .error (.returned v) => return v
  | .error .broke => return .undefined
  | .error .continued => return .undefined
  | r => conclude r

/-- Binds parameters to arguments; missing arguments are undefined. -/
def bindParams (env : Env) : List String → List Value → Run Unit
  | [], _ => return ()
  | p :: ps, [] => do
    declareHere env p .undefined true
    bindParams env ps []
  | p :: ps, v :: vs => do
    declareHere env p v true
    bindParams env ps vs

/-- Runs `body` as a call of the function: in a scope of its own, with its own receiver, one call
deeper. -/
def enter (maxDepth : Nat) (f : Func) (env : Env) (this : Value) (args : List Value)
    (body : Env → FuncBody → Run Value) : Run Value := do
  if f.form == .generator then fail (.unsupported .generators)
  else if maxDepth ≤ (← get).depth then misuse .tooDeep
  else
    let env ← newScope ⟨env.chain, none⟩ true
    bindParams env f.params args
    let outer := (← get).this
    modify fun m => { m with this, depth := m.depth + 1 }
    let result ← outcome (body env f.body)
    modify fun m => { m with this := outer, depth := m.depth - 1 }
    conclude result

/-- What is called in the end when the built-in `call` is called: its receiver, with the first
argument as the receiver and the rest as arguments, and so on. -/
def resolveCall : Value → Value → List Value → Value × Value × List Value
  | .native _ .call, f, this :: args => resolveCall f this args
  | .native _ .call, .native _ .call, [] => (.undefined, .undefined, [])
  | .native _ .call, f, [] => (f, .undefined, [])
  | f, this, args => (f, this, args)

/-- Calls a built-in function. -/
def callNative (kind : Native) (this : Value) (args : List Value) : Run Value := do
  match kind with
  | .log =>
    let parts ← args.mapM toShown
    modify fun m => { m with output := m.output.push (" ".intercalate parts) }
    return .undefined
  | .string =>
    match args with
    | [] => return .string ""
    | v :: _ => return .string (← toText v)
  | .error =>
    match args with
    | [] => newError "Error" ""
    | v :: _ => newError "Error" (← toText v)
  | .push =>
    match this with
    | .array address =>
      modify fun m => { m with heap := { m.heap with
        arrays := m.heap.arrays.modify address (· ++ args) } }
      return countValue ((← get).heap.items address).size
    | other => misuse (.pushOnto other.typeName)
  | .call => return .undefined

/-- Calls a function value; `body` runs the bodies of closures. -/
def callWithBody (maxDepth : Nat) (body : Env → FuncBody → Run Value) (f this : Value)
    (args : List Value) : Run Value := do
  match resolveCall f this args with
  | (.closure _ g env captured, this, args) =>
    enter maxDepth g env (if g.form == .arrow then captured else this) args body
  | (.native _ kind, this, args) => callNative kind this args
  | (other, _, _) => mistakeOf (.notCallable <$> toShown other)

/-- Calls a function value with at most `fuel` calls inside one another. -/
def callAt (limits : Limits) (direct : Bool) : Nat → Value → Value → List Value → Run Value
  | 0 => callWithBody limits.maxDepth fun _ _ => fail .exhausted
  | fuel + 1 =>
    callWithBody limits.maxDepth (runBody ⟨limits.maxSteps, direct, callAt limits direct fuel⟩)

end RaiseScript
