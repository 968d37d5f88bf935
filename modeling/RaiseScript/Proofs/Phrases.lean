import RaiseScript.Syntax.Visit

/-!
# Induction over all parts of a program

A `Phrase` is a part of a program of any kind : an expression, a statement, a function, a try
expression or a list of such parts. What passes from the parts of each form to the form holds of
every phrase (`Phrase.induct`), so a statement about all kinds of parts is proved by one induction,
with a case for every form.
-/

set_option linter.unusedSectionVars false

namespace RaiseScript

/-- The object and the key of a property : the parts that are evaluated when it is called or
assigned to. -/
@[simp] def Expr.place : Expr → List Expr
  | .member object _ => [object]
  | .index object key => [object, key]
  | _ => []

/-- A part of a program. -/
inductive Phrase where
  | expr (e : Expr)
  | exprs (es : List Expr)
  | func (f : Func)
  | attempt (t : TryExpr)
  | stmt (s : Stmt)
  | decls (ds : List Declarator)
  | cases (cs : List Case)
  | handler (h : Option Handler)
  | block (b : Option (List Stmt))
  | stmts (ss : List Stmt)

namespace Phrase

/-- The nodes of a phrase. -/
@[simp] def walk (r : Reach) : Phrase → List Visit
  | .expr e => e.walk r
  | .exprs es => walkExprs r es
  | .func f => f.walk r
  | .attempt t => t.walk r
  | .stmt s => s.walk r
  | .decls ds => walkDecls r ds
  | .cases cs => walkCases r cs
  | .handler h => walkHandler r h
  | .block b => walkBlock r b
  | .stmts ss => walkStmts r ss

section

variable {P : Phrase → Prop}
  (number : ∀ x, P (.expr (.number x))) (string : ∀ x, P (.expr (.string x))) (bool : ∀ x, P (.expr (.bool x)))
  (null : P (.expr .null)) (undefined : P (.expr .undefined)) (this : P (.expr .this))
  (ident : ∀ x, P (.expr (.ident x))) (array : ∀ items, P (.exprs items) → P (.expr (.array items)))
  (unary : ∀ op a, P (.expr a) → P (.expr (.unary op a)))
  (binary : ∀ op a b, P (.expr a) → P (.expr b) → P (.expr (.binary op a b)))
  (logical : ∀ op a b, P (.expr a) → P (.expr b) → P (.expr (.logical op a b)))
  (assign : ∀ a b, P (.expr a) → P (.expr b) → (∀ o ∈ a.place, P (.expr o)) → P (.expr (.assign a b)))
  (member : ∀ a x, P (.expr a) → P (.expr (.member a x)))
  (index : ∀ a b, P (.expr a) → P (.expr b) → P (.expr (.index a b)))
  (call : ∀ e args, P (.expr e) → P (.exprs args) → (∀ o ∈ e.place, P (.expr o)) → P (.expr (.call e args)))
  (await : ∀ a, P (.expr a) → P (.expr (.await a))) (yieldNone : ∀ d, P (.expr (.yield none d)))
  (yield : ∀ a d, P (.expr a) → P (.expr (.yield (some a) d)))
  (func : ∀ f, P (.func f) → P (.expr (.func f))) (attempt : ∀ t, P (.attempt t) → P (.expr (.attempt t)))
  (nilExprs : P (.exprs [])) (consExprs : ∀ e es, P (.expr e) → P (.exprs es) → P (.exprs (e :: es)))
  (funcBlock : ∀ name params body isAsync form span, P (.stmts body) →
    P (.func ⟨name, params, .block body, isAsync, form, span⟩))
  (funcExpr : ∀ name params value isAsync form span, P (.expr value) →
    P (.func ⟨name, params, .expr value, isAsync, form, span⟩))
  (clauses : ∀ id body catchParam catchBody finallyParam finallyBody span raises verdict,
    P (.stmts body) → P (.stmts catchBody) → P (.block finallyBody) →
    P (.attempt ⟨id, body, catchParam, catchBody, finallyParam, finallyBody, span, raises, verdict⟩))
  (declare : ∀ kind ds span, P (.decls ds) → P (.stmt (.declare kind ds span)))
  (exprStmt : ∀ e span, P (.expr e) → P (.stmt (.expr e span)))
  (blockStmt : ∀ body span, P (.stmts body) → P (.stmt (.block body span)))
  (branch : ∀ e yes span, P (.expr e) → P (.stmt yes) → P (.stmt (.branch e yes none span)))
  (branchElse : ∀ e yes no span, P (.expr e) → P (.stmt yes) → P (.stmt no) →
    P (.stmt (.branch e yes (some no) span)))
  (loop : ∀ e body span, P (.expr e) → P (.stmt body) → P (.stmt (.loop e body span)))
  (switch : ∀ e cs span, P (.expr e) → P (.cases cs) → P (.stmt (.switch e cs span)))
  (jump : ∀ kind span, P (.stmt (.jump kind span))) (retNone : ∀ span, P (.stmt (.ret none span)))
  (ret : ∀ e span, P (.expr e) → P (.stmt (.ret (some e) span)))
  (throw : ∀ e span, P (.expr e) → P (.stmt (.throw e span)))
  (guarded : ∀ body handler finalizer span, P (.stmts body) → P (.handler handler) →
    P (.block finalizer) → P (.stmt (.guarded body handler finalizer span)))
  (funcStmt : ∀ f, P (.func f) → P (.stmt (.func f)))
  (raise : ∀ id e span, P (.expr e) → P (.stmt (.raise id e span)))
  (nilDecls : P (.decls [])) (bareDecl : ∀ x ds, P (.decls ds) → P (.decls (⟨x, none⟩ :: ds)))
  (consDecls : ∀ x e ds, P (.expr e) → P (.decls ds) → P (.decls (⟨x, some e⟩ :: ds)))
  (nilCases : P (.cases []))
  (defaultCase : ∀ body cs, P (.stmts body) → P (.cases cs) → P (.cases (⟨none, body⟩ :: cs)))
  (consCases : ∀ e body cs, P (.expr e) → P (.stmts body) → P (.cases cs) → P (.cases (⟨some e, body⟩ :: cs)))
  (noHandler : P (.handler none)) (handler : ∀ param body, P (.stmts body) → P (.handler (some ⟨param, body⟩)))
  (noBlock : P (.block none)) (finalizer : ∀ body, P (.stmts body) → P (.block (some body)))
  (nilStmts : P (.stmts [])) (consStmts : ∀ st ss, P (.stmt st) → P (.stmts ss) → P (.stmts (st :: ss)))

include number string bool null undefined this ident array unary binary logical assign member index call await
  yieldNone yield func attempt nilExprs consExprs funcBlock funcExpr clauses declare exprStmt blockStmt branch
  branchElse loop switch jump retNone ret throw guarded funcStmt raise nilDecls bareDecl consDecls nilCases
  defaultCase consCases noHandler handler noBlock finalizer nilStmts consStmts

mutual

theorem onExpr : ∀ e : Expr, P (.expr e)
  | .number x => number x
  | .string x => string x
  | .bool x => bool x
  | .null => null
  | .undefined => undefined
  | .this => this
  | .ident x => ident x
  | .array items => array items (onExprs items)
  | .unary op a => unary op a (onExpr a)
  | .binary op a b => binary op a b (onExpr a) (onExpr b)
  | .logical op a b => logical op a b (onExpr a) (onExpr b)
  | .assign a b => assign a b (onExpr a) (onExpr b) (onPlace a)
  | .member a x => member a x (onExpr a)
  | .index a b => index a b (onExpr a) (onExpr b)
  | .call e args => call e args (onExpr e) (onExprs args) (onPlace e)
  | .await a => await a (onExpr a)
  | .yield none d => yieldNone d
  | .yield (some a) d => yield a d (onExpr a)
  | .func f => func f (onFunc f)
  | .attempt t => attempt t (onAttempt t)

theorem onPlace : ∀ e : Expr, ∀ o ∈ e.place, P (.expr o)
  | .member object _ => List.forall_mem_singleton.2 (onExpr object)
  | .index object key => List.forall_mem_cons.2 ⟨onExpr object, List.forall_mem_singleton.2 (onExpr key)⟩
  | .number _ | .string _ | .bool _ | .null | .undefined | .this | .ident _ | .array _ | .unary _ _ | .binary _ _ _
  | .logical _ _ _ | .assign _ _ | .call _ _ | .await _ | .yield _ _ | .func _ | .attempt _ => nofun

theorem onExprs : ∀ es : List Expr, P (.exprs es)
  | [] => nilExprs
  | e :: es => consExprs e es (onExpr e) (onExprs es)

theorem onFunc : ∀ f : Func, P (.func f)
  | ⟨_, _, .block body, _, _, _⟩ => funcBlock _ _ body _ _ _ (onStmts body)
  | ⟨_, _, .expr value, _, _, _⟩ => funcExpr _ _ value _ _ _ (onExpr value)

theorem onAttempt : ∀ t : TryExpr, P (.attempt t)
  | ⟨_, body, _, catchBody, _, finallyBody, _, _, _⟩ =>
    clauses _ body _ catchBody _ finallyBody _ _ _ (onStmts body) (onStmts catchBody) (onBlock finallyBody)

theorem onStmt : ∀ st : Stmt, P (.stmt st)
  | .declare kind ds span => declare kind ds span (onDecls ds)
  | .expr e span => exprStmt e span (onExpr e)
  | .block body span => blockStmt body span (onStmts body)
  | .branch e yes none span => branch e yes span (onExpr e) (onStmt yes)
  | .branch e yes (some no) span => branchElse e yes no span (onExpr e) (onStmt yes) (onStmt no)
  | .loop e body span => loop e body span (onExpr e) (onStmt body)
  | .switch e cs span => switch e cs span (onExpr e) (onCases cs)
  | .jump kind span => jump kind span
  | .ret none span => retNone span
  | .ret (some e) span => ret e span (onExpr e)
  | .throw e span => throw e span (onExpr e)
  | .guarded body h b span => guarded body h b span (onStmts body) (onHandler h) (onBlock b)
  | .func f => funcStmt f (onFunc f)
  | .raise id e span => raise id e span (onExpr e)

theorem onDecls : ∀ ds : List Declarator, P (.decls ds)
  | [] => nilDecls
  | ⟨x, none⟩ :: ds => bareDecl x ds (onDecls ds)
  | ⟨x, some e⟩ :: ds => consDecls x e ds (onExpr e) (onDecls ds)

theorem onCases : ∀ cs : List Case, P (.cases cs)
  | [] => nilCases
  | ⟨none, body⟩ :: cs => defaultCase body cs (onStmts body) (onCases cs)
  | ⟨some e, body⟩ :: cs => consCases e body cs (onExpr e) (onStmts body) (onCases cs)

theorem onHandler : ∀ h : Option Handler, P (.handler h)
  | none => noHandler
  | some ⟨param, body⟩ => handler param body (onStmts body)

theorem onBlock : ∀ b : Option (List Stmt), P (.block b)
  | none => noBlock
  | some body => finalizer body (onStmts body)

theorem onStmts : ∀ ss : List Stmt, P (.stmts ss)
  | [] => nilStmts
  | st :: ss => consStmts st ss (onStmt st) (onStmts ss)

end

/-- What passes from the parts of each form to the form holds of every phrase. -/
@[elab_as_elim, induction_eliminator]
theorem induct (p : Phrase) : P p := by
  cases p with
  | expr e => apply onExpr <;> assumption
  | exprs es => apply onExprs <;> assumption
  | func f => apply onFunc <;> assumption
  | attempt t => apply onAttempt <;> assumption
  | stmt s => apply onStmt <;> assumption
  | decls ds => apply onDecls <;> assumption
  | cases cs => apply onCases <;> assumption
  | handler h => apply onHandler <;> assumption
  | block b => apply onBlock <;> assumption
  | stmts ss => apply onStmts <;> assumption

end

end Phrase

end RaiseScript
