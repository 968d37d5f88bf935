import RaiseScript.Lowering.Node

/-!
# Lowering expressions and statements

Where statements can stand in front of an expression, its try expressions are hoisted: the
statements that have to run first are returned with the expression (`Hoisted`). Operands that come
before a hoisted try expression are put into temporaries first (`settle`), unless nothing that runs
later can change them (`Surroundings.isInert`), so the order of evaluation is kept. Elsewhere, in
the body of an arrow function and in the test of a case, a try expression becomes a function that is
called on the spot (`LoweredAttempt.wrapped`).

`lowerExpr` takes a flag that says which of the two applies. The clauses of a try expression are
lowered before the expression itself.
-/

namespace RaiseScript

/-- What is known about the code around an expression. -/
structure Surroundings where
  /-- Names that may be bound anew. -/
  rebindable : List String
  /-- Properties that may be written, or nothing if all may be. -/
  written : Option (List String)
  /-- Whether code that is not seen may change anything. -/
  isOpen : Bool

/-- What lowering has done so far. -/
structure Progress where
  names : Names
  lowered : Nat

/-- Lowering hands out names, counts, and stops at a breach. -/
abbrev Lower := StateT Progress (Except (Breach × Span))

/-- An expression and the statements that run before it. -/
structure Hoisted where
  before : List Stmt
  value : Expr

/-- A name for a temporary. -/
def freshName (role : String) : Lower String := do
  let p ← get
  let (name, names) := p.names.fresh role
  set { p with names }
  return name

/-! ## Operands -/

/-- Whether the property keeps its value for the whole run, as far as writes by name go. -/
def Surroundings.isStable (s : Surroundings) (property : String) : Bool :=
  !s.isOpen && s.written.any fun props => !props.contains property

/-- Whether the expression has the same value after code that runs later, and is free of effects. -/
def Surroundings.isInert (s : Surroundings) (names : Names) : Expr → Bool
  | .number _ => true
  | .string _ => true
  | .bool _ => true
  | .null => true
  | .undefined => true
  | .this => true
  | .func _ => true
  | .ident name => names.isIssued name || !(s.isOpen || s.rebindable.contains name)
  | _ => false

/-- Puts the value of an expression into a temporary, unless it is inert. -/
def spill (s : Surroundings) (h : Hoisted) : Lower Hoisted := do
  if s.isInert (← get).names h.value then return h
  else
    let name ← freshName "spill"
    return ⟨h.before ++ [.declare .constant [⟨name, some h.value⟩] .none], .ident name⟩

/-- An operand, spilled if a try expression `follows` it. -/
def settle (s : Surroundings) (follows : Bool) (h : Hoisted) : Lower Hoisted :=
  if follows then spill s h else return h

/-! ## Shapes of the result -/

/-- One statement that stands for a list of them. -/
def asBranch (span : Span) : List Stmt → Stmt
  | [s] => s
  | ss => .block ss span

/-- The condition under which the right operand of a logical operator is evaluated. -/
def LogicalOp.guard (op : LogicalOp) (left : Expr) : Expr :=
  match op with
  | .and => left
  | .or => .unary .not left
  | .nullish => .binary .equal left .null

/-- A logical operator whose right operand needs statements in front of it. -/
def shortCircuit (op : LogicalOp) (name : String) (left right : Hoisted) : Hoisted :=
  ⟨left.before ++
    [.declare .mutable [⟨name, some left.value⟩] .none,
      .branch (op.guard (.ident name))
        (.block (right.before ++ [.expr (.assign (.ident name) right.value) .none]) .none) none .none],
    .ident name⟩

/-- A loop whose test needs statements in front of it. -/
def testedInside (test : Hoisted) (body : Stmt) (span : Span) : Stmt :=
  .loop (.bool true)
    (.block (test.before ++
      [.branch (.unary .not test.value) (.jump .leave span) none span, body]) span) span

/-- A call of `callee` with the given receiver. -/
def callWith (callee receiver : Expr) (args : List Expr) : Expr :=
  .call (.member callee "call") (receiver :: args)

/-- A function called on the spot that runs the try statement and returns what it stored. It
awaits or yields when the statement does. -/
def LoweredAttempt.wrapped (l : LoweredAttempt) (span : Span) : Expr :=
  let needs := suspension [l.statement]
  let body := FuncBody.block [l.declaration, l.statement, .ret (some l.reference) span]
  if needs.yields then
    .yield (some (callWith (.func ⟨none, [], body, needs.awaits, .generator, span⟩) .this [])) true
  else
    let call := Expr.call (.func ⟨none, [], body, needs.awaits, .arrow, span⟩) []
    if needs.awaits then .await call else call

/-! ## The walk -/

mutual

/-- An expression without try expressions. With `hoists` they move in front of it, otherwise they
are wrapped and nothing moves. -/
def lowerExpr (s : Surroundings) (hoists : Bool) : Expr → Lower Hoisted
  | .array items => do
    let (before, items) ← lowerOperands s hoists items
    return ⟨before, .array items⟩
  | .unary op arg => do
    let arg ← lowerExpr s hoists arg
    return ⟨arg.before, .unary op arg.value⟩
  | .binary op a b => do
    let a ← settle s (hoists && b.hasAttempt) (← lowerExpr s hoists a)
    let b ← lowerExpr s hoists b
    return ⟨a.before ++ b.before, .binary op a.value b.value⟩
  | .logical op a b => do
    let left ← lowerExpr s hoists a
    if hoists && b.hasAttempt then
      let name ← freshName "cond"
      return shortCircuit op name left (← lowerExpr s hoists b)
    else
      let right ← lowerExpr s hoists b
      return ⟨left.before ++ right.before, .logical op left.value right.value⟩
  | .assign (.ident name) value => do
    let value ← lowerExpr s hoists value
    return ⟨value.before, .assign (.ident name) value.value⟩
  | .assign (.member object property) value => do
    let object ← settle s (hoists && value.hasAttempt) (← lowerExpr s hoists object)
    let value ← lowerExpr s hoists value
    return ⟨object.before ++ value.before, .assign (.member object.value property) value.value⟩
  | .assign (.index object key) value => do
    let object ←
      settle s (hoists && (key.hasAttempt || value.hasAttempt)) (← lowerExpr s hoists object)
    let key ← settle s (hoists && value.hasAttempt) (← lowerExpr s hoists key)
    let value ← lowerExpr s hoists value
    return ⟨object.before ++ key.before ++ value.before,
      .assign (.index object.value key.value) value.value⟩
  | .assign target value => do
    let target ← settle s (hoists && value.hasAttempt) (← lowerExpr s hoists target)
    let value ← lowerExpr s hoists value
    return ⟨target.before ++ value.before, .assign target.value value.value⟩
  | .member object property => do
    let object ← lowerExpr s hoists object
    return ⟨object.before, .member object.value property⟩
  | .index object key => do
    let object ← settle s (hoists && key.hasAttempt) (← lowerExpr s hoists object)
    let key ← lowerExpr s hoists key
    return ⟨object.before ++ key.before, .index object.value key.value⟩
  | .call (.member object property) args => do
    let follows := hoists && args.any Expr.hasAttempt
    let object ← settle s follows (← lowerExpr s hoists object)
    if follows && !s.isStable property then
      let callee ← spill s ⟨object.before, .member object.value property⟩
      let (before, args) ← lowerOperands s hoists args
      return ⟨callee.before ++ before, callWith callee.value object.value args⟩
    else
      let (before, args) ← lowerOperands s hoists args
      return ⟨object.before ++ before, .call (.member object.value property) args⟩
  | .call (.index object key) args => do
    let follows := hoists && args.any Expr.hasAttempt
    let object ← settle s (follows || hoists && key.hasAttempt) (← lowerExpr s hoists object)
    let key ← lowerExpr s hoists key
    if follows then
      let callee ← spill s ⟨object.before ++ key.before, .index object.value key.value⟩
      let (before, args) ← lowerOperands s hoists args
      return ⟨callee.before ++ before, callWith callee.value object.value args⟩
    else
      let (before, args) ← lowerOperands s hoists args
      return ⟨object.before ++ key.before ++ before, .call (.index object.value key.value) args⟩
  | .call callee args => do
    let callee ← settle s (hoists && args.any Expr.hasAttempt) (← lowerExpr s hoists callee)
    let (before, args) ← lowerOperands s hoists args
    return ⟨callee.before ++ before, .call callee.value args⟩
  | .await arg => do
    let arg ← lowerExpr s hoists arg
    return ⟨arg.before, .await arg.value⟩
  | .yield (some arg) delegate => do
    let arg ← lowerExpr s hoists arg
    return ⟨arg.before, .yield (some arg.value) delegate⟩
  | .func f => do return ⟨[], .func (← lowerFunc s f)⟩
  | .attempt ⟨id, body, catchParam, catchBody, finallyParam, finallyBody, span, raises, verdict⟩ => do
    let body ← lowerStmts s body
    let catchBody ← lowerStmts s catchBody
    let finallyBody ← lowerBlock s finallyBody
    let p ← get
    let (lowered, names) ← lowerNode
      ⟨id, body, catchParam, catchBody, finallyParam, finallyBody, span, raises, verdict⟩ p.names
    set (Progress.mk names (p.lowered + 1))
    if hoists then return ⟨[lowered.declaration, lowered.statement], lowered.reference⟩
    else return ⟨[], lowered.wrapped span⟩
  | e => return ⟨[], e⟩

/-- Operands from left to right. All but the last one with a try expression are settled before the
next one. -/
def lowerOperands (s : Surroundings) (hoists : Bool) : List Expr → Lower (List Stmt × List Expr)
  | [] => return ([], [])
  | e :: es => do
    let first ← settle s (hoists && es.any Expr.hasAttempt) (← lowerExpr s hoists e)
    let (before, rest) ← lowerOperands s hoists es
    return (first.before ++ before, first.value :: rest)

/-- A function with a lowered body. Nothing can stand in front of an expression body. -/
def lowerFunc (s : Surroundings) : Func → Lower Func
  | ⟨name, params, .block body, isAsync, form, span⟩ => do
    return ⟨name, params, .block (← lowerStmts s body), isAsync, form, span⟩
  | ⟨name, params, .expr value, isAsync, form, span⟩ => do
    return ⟨name, params, .expr (← lowerExpr s false value).value, isAsync, form, span⟩

/-- A statement with what has to run before it. -/
def lowerStmt (s : Surroundings) : Stmt → Lower (List Stmt)
  | .declare kind decls span => lowerDecls s kind span [] decls
  | .expr value span => do
    let value ← lowerExpr s true value
    return value.before ++ [.expr value.value span]
  | .block body span => do return [.block (← lowerStmts s body) span]
  | .branch test yes none span => do
    let test ← lowerExpr s true test
    let yes' ← lowerStmt s yes
    return test.before ++ [.branch test.value (asBranch yes.span yes') none span]
  | .branch test yes (some no) span => do
    let test ← lowerExpr s true test
    let yes' ← lowerStmt s yes
    let no' ← lowerStmt s no
    return test.before ++
      [.branch test.value (asBranch yes.span yes') (some (asBranch no.span no')) span]
  | .loop test body span => do
    let hoisted ← lowerExpr s true test
    let body' := asBranch body.span (← lowerStmt s body)
    if test.hasAttempt then return [testedInside hoisted body' span]
    else return [.loop hoisted.value body' span]
  | .switch subject cases span => do
    let subject ← lowerExpr s true subject
    return subject.before ++ [.switch subject.value (← lowerCases s cases) span]
  | .jump kind span => return [.jump kind span]
  | .ret none span => return [.ret none span]
  | .ret (some arg) span => do
    let arg ← lowerExpr s true arg
    return arg.before ++ [.ret (some arg.value) span]
  | .throw arg span => do
    let arg ← lowerExpr s true arg
    return arg.before ++ [.throw arg.value span]
  | .guarded body handler finalizer span => do
    let body ← lowerStmts s body
    let handler ← lowerHandler s handler
    let finalizer ← lowerBlock s finalizer
    return [.guarded body handler finalizer span]
  | .func f => do return [.func (← lowerFunc s f)]
  | .raise id value span => do
    let value ← lowerExpr s true value
    return value.before ++ [.raise id value.value span]

/-- A declaration, split in front of every initial value that has a try expression. The declarators
in `ready` are done and not yet written. -/
def lowerDecls (s : Surroundings) (kind : BindingKind) (span : Span) (ready : List Declarator) :
    List Declarator → Lower (List Stmt)
  | [] => return [.declare kind ready span]
  | ⟨name, none⟩ :: ds => lowerDecls s kind span (ready ++ [⟨name, none⟩]) ds
  | ⟨name, some init⟩ :: ds => do
    let hoisted ← lowerExpr s true init
    let next := Declarator.mk name (some hoisted.value)
    if init.hasAttempt then
      let earlier := if ready.isEmpty then [] else [Stmt.declare kind ready span]
      return earlier ++ hoisted.before ++ (← lowerDecls s kind span [next] ds)
    else lowerDecls s kind span (ready ++ [next]) ds

/-- The cases of a switch. Nothing can stand in front of a test. -/
def lowerCases (s : Surroundings) : List Case → Lower (List Case)
  | [] => return []
  | ⟨none, body⟩ :: cs => do
    let body ← lowerStmts s body
    return ⟨none, body⟩ :: (← lowerCases s cs)
  | ⟨some test, body⟩ :: cs => do
    let test ← lowerExpr s false test
    let body ← lowerStmts s body
    return ⟨some test.value, body⟩ :: (← lowerCases s cs)

/-- A catch clause. -/
def lowerHandler (s : Surroundings) : Option Handler → Lower (Option Handler)
  | none => return none
  | some ⟨param, body⟩ => do return some ⟨param, ← lowerStmts s body⟩

/-- A finally block. -/
def lowerBlock (s : Surroundings) : Option (List Stmt) → Lower (Option (List Stmt))
  | none => return none
  | some body => do return some (← lowerStmts s body)

/-- Statements one after the other. -/
def lowerStmts (s : Surroundings) : List Stmt → Lower (List Stmt)
  | [] => return []
  | st :: ss => do
    let first ← lowerStmt s st
    return first ++ (← lowerStmts s ss)

end

end RaiseScript
