import RaiseScript.Syntax.Basic

/-!
# Changing every try expression

`replaceStmts f` goes through a tree in source order, functions included, and replaces each try
expression by what `f` makes of it. The parts of a try expression are changed before the
expression itself, so `f` meets inner ones first. A state is threaded through the calls of `f`.
-/

namespace RaiseScript

variable {σ : Type}

mutual

/-- An expression with its try expressions replaced. -/
def replaceExpr (f : TryExpr → StateM σ TryExpr) : Expr → StateM σ Expr
  | .array items => do return .array (← replaceExprs f items)
  | .unary op arg => do return .unary op (← replaceExpr f arg)
  | .binary op a b => do return .binary op (← replaceExpr f a) (← replaceExpr f b)
  | .logical op a b => do return .logical op (← replaceExpr f a) (← replaceExpr f b)
  | .assign target value => do return .assign (← replaceExpr f target) (← replaceExpr f value)
  | .member object property => do return .member (← replaceExpr f object) property
  | .index object key => do return .index (← replaceExpr f object) (← replaceExpr f key)
  | .call callee args => do return .call (← replaceExpr f callee) (← replaceExprs f args)
  | .await arg => do return .await (← replaceExpr f arg)
  | .yield (some arg) delegate => do return .yield (some (← replaceExpr f arg)) delegate
  | .func g => do return .func (← replaceFunc f g)
  | .attempt t => do return .attempt (← replaceAttempt f t)
  | e => return e

/-- A list of expressions with their try expressions replaced. -/
def replaceExprs (f : TryExpr → StateM σ TryExpr) : List Expr → StateM σ (List Expr)
  | [] => return []
  | e :: es => do return (← replaceExpr f e) :: (← replaceExprs f es)

/-- A function with its try expressions replaced. -/
def replaceFunc (f : TryExpr → StateM σ TryExpr) : Func → StateM σ Func
  | ⟨name, params, .block body, isAsync, form, span⟩ => do
    return ⟨name, params, .block (← replaceStmts f body), isAsync, form, span⟩
  | ⟨name, params, .expr value, isAsync, form, span⟩ => do
    return ⟨name, params, .expr (← replaceExpr f value), isAsync, form, span⟩

/-- A try expression replaced after those inside it. -/
def replaceAttempt (f : TryExpr → StateM σ TryExpr) : TryExpr → StateM σ TryExpr
  | ⟨id, body, catchParam, catchBody, finallyParam, finallyBody, span, raises, verdict⟩ => do
    let body ← replaceStmts f body
    let catchBody ← replaceStmts f catchBody
    let finallyBody ← replaceBlock f finallyBody
    f ⟨id, body, catchParam, catchBody, finallyParam, finallyBody, span, raises, verdict⟩

/-- A statement with its try expressions replaced. -/
def replaceStmt (f : TryExpr → StateM σ TryExpr) : Stmt → StateM σ Stmt
  | .declare kind decls span => do return .declare kind (← replaceDecls f decls) span
  | .expr value span => do return .expr (← replaceExpr f value) span
  | .block body span => do return .block (← replaceStmts f body) span
  | .branch test yes none span => do
    return .branch (← replaceExpr f test) (← replaceStmt f yes) none span
  | .branch test yes (some no) span => do
    return .branch (← replaceExpr f test) (← replaceStmt f yes) (some (← replaceStmt f no)) span
  | .loop test body span => do return .loop (← replaceExpr f test) (← replaceStmt f body) span
  | .switch subject cases span => do
    return .switch (← replaceExpr f subject) (← replaceCases f cases) span
  | .jump kind span => return .jump kind span
  | .ret none span => return .ret none span
  | .ret (some arg) span => do return .ret (some (← replaceExpr f arg)) span
  | .throw arg span => do return .throw (← replaceExpr f arg) span
  | .guarded body handler finalizer span => do
    let body ← replaceStmts f body
    let handler ← replaceHandler f handler
    let finalizer ← replaceBlock f finalizer
    return .guarded body handler finalizer span
  | .func g => do return .func (← replaceFunc f g)
  | .raise id value span => do return .raise id (← replaceExpr f value) span

/-- Declarators with their try expressions replaced. -/
def replaceDecls (f : TryExpr → StateM σ TryExpr) : List Declarator → StateM σ (List Declarator)
  | [] => return []
  | ⟨name, none⟩ :: ds => do return ⟨name, none⟩ :: (← replaceDecls f ds)
  | ⟨name, some init⟩ :: ds => do
    return ⟨name, some (← replaceExpr f init)⟩ :: (← replaceDecls f ds)

/-- Cases with their try expressions replaced. -/
def replaceCases (f : TryExpr → StateM σ TryExpr) : List Case → StateM σ (List Case)
  | [] => return []
  | ⟨none, body⟩ :: cs => do return ⟨none, ← replaceStmts f body⟩ :: (← replaceCases f cs)
  | ⟨some test, body⟩ :: cs => do
    let test ← replaceExpr f test
    return ⟨some test, ← replaceStmts f body⟩ :: (← replaceCases f cs)

/-- A catch clause with its try expressions replaced. -/
def replaceHandler (f : TryExpr → StateM σ TryExpr) : Option Handler → StateM σ (Option Handler)
  | none => return none
  | some ⟨param, body⟩ => do return some ⟨param, ← replaceStmts f body⟩

/-- A finally block with its try expressions replaced. -/
def replaceBlock (f : TryExpr → StateM σ TryExpr) : Option (List Stmt) → StateM σ (Option (List Stmt))
  | none => return none
  | some body => do return some (← replaceStmts f body)

/-- Statements with their try expressions replaced. -/
def replaceStmts (f : TryExpr → StateM σ TryExpr) : List Stmt → StateM σ (List Stmt)
  | [] => return []
  | s :: ss => do return (← replaceStmt f s) :: (← replaceStmts f ss)

end

end RaiseScript
