import RaiseScript.Syntax.Printer
import RaiseScript.Proofs.Phrases

/-!
# Trees without places

`bare` takes the places out of a tree. The printer writes braces around every body of a branch or a
loop, and so `bare true` also makes a block of a body that is a single statement, unless it is the
branch after an `else`.
-/

namespace RaiseScript

mutual

/-- An expression without its places. -/
def Expr.bare (braces : Bool) : Expr → Expr
  | .number v => .number v
  | .string s => .string s
  | .bool b => .bool b
  | .null => .null
  | .undefined => .undefined
  | .this => .this
  | .ident x => .ident x
  | .array items => .array (bareExprs braces items)
  | .unary op a => .unary op (a.bare braces)
  | .binary op a b => .binary op (a.bare braces) (b.bare braces)
  | .logical op a b => .logical op (a.bare braces) (b.bare braces)
  | .assign a b => .assign (a.bare braces) (b.bare braces)
  | .member o p => .member (o.bare braces) p
  | .index o i => .index (o.bare braces) (i.bare braces)
  | .call f args => .call (f.bare braces) (bareExprs braces args)
  | .await a => .await (a.bare braces)
  | .yield none d => .yield none d
  | .yield (some a) d => .yield (some (a.bare braces)) d
  | .func f => .func (f.bare braces)
  | .attempt t => .attempt t

/-- Expressions without their places. -/
def bareExprs (braces : Bool) : List Expr → List Expr
  | [] => []
  | e :: es => e.bare braces :: bareExprs braces es

/-- A function without its places. -/
def Func.bare (braces : Bool) : Func → Func
  | ⟨name, params, .block body, isAsync, form, _⟩ =>
    ⟨name, params, .block (bareStmts braces body), isAsync, form, .none⟩
  | ⟨name, params, .expr value, isAsync, form, _⟩ =>
    ⟨name, params, .expr (value.bare braces), isAsync, form, .none⟩

/-- A statement without its places. -/
def Stmt.bare (braces : Bool) : Stmt → Stmt
  | .declare kind ds _ => .declare kind (bareDecls braces ds) .none
  | .expr e _ => .expr (e.bare braces) .none
  | .block body _ => .block (bareStmts braces body) .none
  | .branch test yes none _ =>
    .branch (test.bare braces)
      (if braces && !yes.isBlock then .block [yes.bare braces] .none else yes.bare braces) none .none
  | .branch test yes (some no) _ =>
    .branch (test.bare braces)
      (if braces && !yes.isBlock then .block [yes.bare braces] .none else yes.bare braces)
      (some (if braces && !(no.isBlock || no.isBranch) then .block [no.bare braces] .none else no.bare braces))
      .none
  | .loop test body _ =>
    .loop (test.bare braces)
      (if braces && !body.isBlock then .block [body.bare braces] .none else body.bare braces) .none
  | .switch subject cs _ => .switch (subject.bare braces) (bareCases braces cs) .none
  | .jump kind _ => .jump kind .none
  | .ret none _ => .ret none .none
  | .ret (some e) _ => .ret (some (e.bare braces)) .none
  | .throw e _ => .throw (e.bare braces) .none
  | .guarded body handler finalizer _ =>
    .guarded (bareStmts braces body) (bareHandler braces handler) (bareBlock braces finalizer) .none
  | .func f => .func (f.bare braces)
  | .raise id e _ => .raise id (e.bare braces) .none

/-- Declarators without their places. -/
def bareDecls (braces : Bool) : List Declarator → List Declarator
  | [] => []
  | ⟨x, none⟩ :: ds => ⟨x, none⟩ :: bareDecls braces ds
  | ⟨x, some e⟩ :: ds => ⟨x, some (e.bare braces)⟩ :: bareDecls braces ds

/-- Cases without their places. -/
def bareCases (braces : Bool) : List Case → List Case
  | [] => []
  | ⟨none, body⟩ :: cs => ⟨none, bareStmts braces body⟩ :: bareCases braces cs
  | ⟨some test, body⟩ :: cs => ⟨some (test.bare braces), bareStmts braces body⟩ :: bareCases braces cs

/-- A catch clause without its places. -/
def bareHandler (braces : Bool) : Option Handler → Option Handler
  | none => none
  | some ⟨x, body⟩ => some ⟨x, bareStmts braces body⟩

/-- A block without its places. -/
def bareBlock (braces : Bool) : Option (List Stmt) → Option (List Stmt)
  | none => none
  | some body => some (bareStmts braces body)

/-- Statements without their places. -/
def bareStmts (braces : Bool) : List Stmt → List Stmt
  | [] => []
  | s :: ss => s.bare braces :: bareStmts braces ss

end

/-- A phrase without its places. -/
@[simp] def Phrase.bare (braces : Bool) : Phrase → Phrase
  | .expr e => .expr (e.bare braces)
  | .exprs es => .exprs (bareExprs braces es)
  | .func f => .func (f.bare braces)
  | .attempt t => .attempt t
  | .stmt s => .stmt (s.bare braces)
  | .decls ds => .decls (bareDecls braces ds)
  | .cases cs => .cases (bareCases braces cs)
  | .handler h => .handler (bareHandler braces h)
  | .block b => .block (bareBlock braces b)
  | .stmts ss => .stmts (bareStmts braces ss)

end RaiseScript
