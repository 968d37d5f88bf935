import RaiseScript.Syntax.Basic

/-!
# Walking a tree

`walk` lists the nodes of a tree in the order in which a walk meets them: a node before its
parts, the parts in source order. A `Reach` says whether the walk enters functions and try
expressions or stops in front of what is inside them. The queries that lowering asks are read off
this list: `Expr.hasAttempt`, `suspension`, `identifiers`, `reassigned` and `assignedProperties`.
-/

namespace RaiseScript

/-- A node that a walk meets. -/
inductive Visit where
  | stmt (s : Stmt)
  | expr (e : Expr)
  | func (f : Func)
  | attempt (t : TryExpr)

/-- Which nodes a walk enters. -/
structure Reach where
  functions : Bool
  attempts : Bool
deriving DecidableEq, Repr

namespace Reach

/-- The whole tree. -/
def all : Reach := ⟨true, true⟩

/-- What runs when the tree itself runs. -/
def sameFunction : Reach := ⟨false, true⟩

/-- Neither functions nor try expressions are entered. -/
def surface : Reach := ⟨false, false⟩

end Reach

mutual

/-- The nodes of an expression. -/
def Expr.walk (r : Reach) : Expr → List Visit
  | .number v => [.expr (.number v)]
  | .string v => [.expr (.string v)]
  | .bool v => [.expr (.bool v)]
  | .null => [.expr .null]
  | .undefined => [.expr .undefined]
  | .this => [.expr .this]
  | .ident name => [.expr (.ident name)]
  | .array items => .expr (.array items) :: walkExprs r items
  | .unary op arg => .expr (.unary op arg) :: arg.walk r
  | .binary op a b => .expr (.binary op a b) :: (a.walk r ++ b.walk r)
  | .logical op a b => .expr (.logical op a b) :: (a.walk r ++ b.walk r)
  | .assign target value => .expr (.assign target value) :: (target.walk r ++ value.walk r)
  | .member object property => .expr (.member object property) :: object.walk r
  | .index object key => .expr (.index object key) :: (object.walk r ++ key.walk r)
  | .call callee args => .expr (.call callee args) :: (callee.walk r ++ walkExprs r args)
  | .await arg => .expr (.await arg) :: arg.walk r
  | .yield none delegate => [.expr (.yield none delegate)]
  | .yield (some arg) delegate => .expr (.yield (some arg) delegate) :: arg.walk r
  | .func f => .expr (.func f) :: f.walk r
  | .attempt t => .expr (.attempt t) :: t.walk r

/-- The nodes of a list of expressions. -/
def walkExprs (r : Reach) : List Expr → List Visit
  | [] => []
  | e :: es => e.walk r ++ walkExprs r es

/-- The nodes of a function. -/
def Func.walk (r : Reach) : Func → List Visit
  | ⟨name, params, .block body, isAsync, form, span⟩ =>
    .func ⟨name, params, .block body, isAsync, form, span⟩ ::
      if r.functions then walkStmts r body else []
  | ⟨name, params, .expr value, isAsync, form, span⟩ =>
    .func ⟨name, params, .expr value, isAsync, form, span⟩ ::
      if r.functions then value.walk r else []

/-- The nodes of a try expression. -/
def TryExpr.walk (r : Reach) : TryExpr → List Visit
  | ⟨id, body, catchParam, catchBody, finallyParam, none, span, raises, verdict⟩ =>
    .attempt ⟨id, body, catchParam, catchBody, finallyParam, none, span, raises, verdict⟩ ::
      if r.attempts then walkStmts r body ++ walkStmts r catchBody else []
  | ⟨id, body, catchParam, catchBody, finallyParam, some finallyBody, span, raises, verdict⟩ =>
    .attempt ⟨id, body, catchParam, catchBody, finallyParam, some finallyBody, span, raises, verdict⟩ ::
      if r.attempts then
        walkStmts r body ++ walkStmts r catchBody ++ walkStmts r finallyBody
      else []

/-- The nodes of a statement. -/
def Stmt.walk (r : Reach) : Stmt → List Visit
  | .declare kind decls span => .stmt (.declare kind decls span) :: walkDecls r decls
  | .expr value span => .stmt (.expr value span) :: value.walk r
  | .block body span => .stmt (.block body span) :: walkStmts r body
  | .branch test yes none span =>
    .stmt (.branch test yes none span) :: (test.walk r ++ yes.walk r)
  | .branch test yes (some no) span =>
    .stmt (.branch test yes (some no) span) :: (test.walk r ++ yes.walk r ++ no.walk r)
  | .loop test body span => .stmt (.loop test body span) :: (test.walk r ++ body.walk r)
  | .switch subject cases span =>
    .stmt (.switch subject cases span) :: (subject.walk r ++ walkCases r cases)
  | .jump kind span => [.stmt (.jump kind span)]
  | .ret none span => [.stmt (.ret none span)]
  | .ret (some arg) span => .stmt (.ret (some arg) span) :: arg.walk r
  | .throw arg span => .stmt (.throw arg span) :: arg.walk r
  | .guarded body handler finalizer span =>
    .stmt (.guarded body handler finalizer span) ::
      (walkStmts r body ++ walkHandler r handler ++ walkBlock r finalizer)
  | .func f => .stmt (.func f) :: f.walk r
  | .raise id value span => .stmt (.raise id value span) :: value.walk r

/-- The nodes of the initial values of a declaration. -/
def walkDecls (r : Reach) : List Declarator → List Visit
  | [] => []
  | ⟨_, none⟩ :: ds => walkDecls r ds
  | ⟨_, some init⟩ :: ds => init.walk r ++ walkDecls r ds

/-- The nodes of the cases of a switch. -/
def walkCases (r : Reach) : List Case → List Visit
  | [] => []
  | ⟨none, body⟩ :: cs => walkStmts r body ++ walkCases r cs
  | ⟨some test, body⟩ :: cs => test.walk r ++ walkStmts r body ++ walkCases r cs

/-- The nodes of a catch clause. -/
def walkHandler (r : Reach) : Option Handler → List Visit
  | none => []
  | some ⟨_, body⟩ => walkStmts r body

/-- The nodes of a finally block. -/
def walkBlock (r : Reach) : Option (List Stmt) → List Visit
  | none => []
  | some body => walkStmts r body

/-- The nodes of a list of statements. -/
def walkStmts (r : Reach) : List Stmt → List Visit
  | [] => []
  | s :: ss => s.walk r ++ walkStmts r ss

end

/-! ## Queries -/

/-- The try expression of a visit. -/
def Visit.attempt? : Visit → Option TryExpr
  | .attempt t => some t
  | _ => none

/-- Whether the expression holds a try expression outside of functions. -/
def Expr.hasAttempt (e : Expr) : Bool :=
  (e.walk .surface).any (·.attempt?.isSome)

/-- All try expressions of a program, outer ones before those inside them. -/
def attempts (p : Program) : List TryExpr :=
  (walkStmts .all p).filterMap Visit.attempt?

/-- The points at which a function may be left and entered again. -/
structure Suspension where
  awaits : Bool
  yields : Bool
deriving DecidableEq, Repr

/-- Whether a visit is at an `await`. -/
def Visit.isAwait : Visit → Bool
  | .expr (.await _) => true
  | _ => false

/-- Whether a visit is at a `yield`. -/
def Visit.isYield : Visit → Bool
  | .expr (.yield _ _) => true
  | _ => false

/-- The suspension points that running the statements may reach without entering a function. -/
def suspension (body : List Stmt) : Suspension :=
  let seen := walkStmts .sameFunction body
  ⟨seen.any Visit.isAwait, seen.any Visit.isYield⟩

/-- The names that a node binds or refers to. -/
def Visit.names : Visit → List String
  | .stmt (.declare _ decls _) => decls.map (·.name)
  | .stmt (.guarded _ (some h) _ _) => h.param.toList
  | .expr (.ident name) => [name]
  | .func f => f.name.toList ++ f.params
  | .attempt t => t.catchParam.toList ++ t.finallyParam.toList
  | _ => []

/-- Every name bound or referred to anywhere in a program. -/
def identifiers (p : Program) : List String :=
  (walkStmts .all p).flatMap Visit.names

/-- The names whose binding a node may change after it was made. -/
def Visit.rebinds : Visit → List String
  | .stmt (.declare .functionWide decls _) => decls.map (·.name)
  | .stmt (.func f) => f.name.toList
  | .expr (.assign (.ident name) _) => [name]
  | _ => []

/-- Every name that some part of a program may bind anew. -/
def reassigned (p : Program) : List String :=
  (walkStmts .all p).flatMap Visit.rebinds

/-- The property that a node writes by name. -/
def Visit.writes : Visit → List String
  | .expr (.assign (.member _ property) _) => [property]
  | _ => []

/-- Whether a node writes a property whose name is computed. -/
def Visit.writesComputed : Visit → Bool
  | .expr (.assign (.index _ _) _) => true
  | _ => false

/-- The properties that a program writes by name, or nothing when a computed write may reach any
property. -/
def assignedProperties (p : Program) : Option (List String) :=
  let seen := walkStmts .all p
  if seen.any Visit.writesComputed then none else some (seen.flatMap Visit.writes)

end RaiseScript
