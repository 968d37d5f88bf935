import RaiseScript.Proofs.Operands
import RaiseScript.Parse.Grammar

/-!
# Induction along the walk of lowering

Lowering treats many forms alike. There are leaves (`Expr.Leaf`, `Stmt.Leaf`), operators that
evaluate all their operands (`Expr.Strict`), statements around one expression (`Stmt.Around`), and
the forms that have a treatment of their own. `LoweringRules` has one rule for each of them.
Whatever has these rules holds of every tree (`LoweringRules.onStmts` and its companions).
-/

set_option linter.unusedSectionVars false

namespace RaiseScript

/-- The expression has no parts. -/
inductive Expr.Leaf : Expr → Prop
  | number (x : Float) : Leaf (.number x)
  | string (x : String) : Leaf (.string x)
  | bool (x : Bool) : Leaf (.bool x)
  | null : Leaf .null
  | undefined : Leaf .undefined
  | this : Leaf .this
  | ident (x : String) : Leaf (.ident x)
  | yield (delegate : Bool) : Leaf (.yield none delegate)

/-- The statement has no parts. -/
inductive Stmt.Leaf : Stmt → Prop
  | jump (kind : Jump) (span : Span) : Leaf (.jump kind span)
  | ret (span : Span) : Leaf (.ret none span)

/-- The statement evaluates an expression and does nothing else before that. -/
inductive Stmt.Around : (Expr → Stmt) → Prop
  | expr (span : Span) : Around (.expr · span)
  | ret (span : Span) : Around fun e => .ret (some e) span
  | throw (span : Span) : Around (.throw · span)
  | raise (id : NodeId) (span : Span) : Around (.raise id · span)

section

variable {e target : Expr} {st : Stmt} {make : Expr → Stmt} (s : Surroundings) (hoists : Bool)

theorem Expr.Leaf.walk (h : e.Leaf) (r : Reach) : e.walk r = [.expr e] := by
  cases h <;> rfl

theorem lowerExpr_leaf (h : e.Leaf) : lowerExpr s hoists e = pure ⟨[], e⟩ := by
  cases h <;> rfl

theorem lowerExpr_assign (h : target.isTarget = false) : lowerExpr s hoists (.assign target e) = do
    let target ← settle s (hoists && e.hasAttempt) (← lowerExpr s hoists target)
    let value ← lowerExpr s hoists e
    return ⟨target.before ++ value.before, .assign target.value value.value⟩ := by
  cases target <;> first | rfl | cases h

/-- A call of the method `callee` of `object`. If it has to wait for the arguments, it is put into a
temporary. -/
def lowerBound (waits : Bool) (callee : Hoisted) (object : Expr) (args : List Expr) : Lower Hoisted :=
  if waits then do
    let callee ← spill s callee
    let (before, args) ← lowerOperands s hoists args
    return ⟨callee.before ++ before, callWith callee.value object args⟩
  else do
    let (before, args) ← lowerOperands s hoists args
    return ⟨callee.before ++ before, .call callee.value args⟩

theorem lowerExpr_attempt (t : TryExpr) : lowerExpr s hoists (.attempt t) = do
    let body ← lowerStmts s t.body
    let catchBody ← lowerStmts s t.catchBody
    let finallyBody ← lowerBlock s t.finallyBody
    let lowered ← lowerAttempt { t with body, catchBody, finallyBody }
    if hoists then return ⟨[lowered.declaration, lowered.statement], lowered.reference⟩
    else return ⟨[], lowered.wrapped t.span⟩ := by
  cases t
  rw [lowerExpr]
  simp only [lowerAttempt, bind_assoc, pure_bind]

theorem Stmt.Leaf.walk (h : st.Leaf) (r : Reach) : st.walk r = [.stmt st] := by
  cases h <;> rfl

theorem lowerStmt_leaf (h : st.Leaf) : lowerStmt s st = pure [st] := by
  cases h <;> rw [lowerStmt]

theorem Stmt.Around.walk (h : Around make) (r : Reach) (e : Expr) :
    (make e).walk r = .stmt (make e) :: e.walk r := by
  cases h <;> rfl

theorem lowerStmt_around (h : Stmt.Around make) (e : Expr) : lowerStmt s (make e) = do
    let value ← lowerExpr s true e
    return value.before ++ [make value.value] := by
  cases h <;> rw [lowerStmt]

end

/-- One rule for each way in which a part of a tree is lowered. -/
structure LoweringRules (OnExpr : Expr → Prop) (OnExprs : List Expr → Prop) (OnFunc : Func → Prop)
    (OnStmt : Stmt → Prop) (OnDecls : BindingKind → Span → List Declarator → Prop) (OnCases : List Case → Prop)
    (OnHandler : Option Handler → Prop) (OnBlock : Option (List Stmt) → Prop) (OnStmts : List Stmt → Prop) :
    Prop where
  leaf : ∀ {e}, Expr.Leaf e → OnExpr e
  strict : ∀ {e es}, Expr.Strict e es → (∀ a ∈ es, OnExpr a) → OnExprs es → OnExpr e
  logical : ∀ {a b} op, OnExpr a → OnExpr b → OnExpr (.logical op a b)
  assignIdent : ∀ {e} x, OnExpr e → OnExpr (.assign (.ident x) e)
  assign : ∀ {target e}, Expr.isTarget target = false → OnExpr target → OnExpr e → OnExpr (.assign target e)
  callMember : ∀ {o args} x, OnExpr o → OnExprs args → OnExpr (.call (.member o x) args)
  callIndex : ∀ {o i args}, OnExpr o → OnExpr i → OnExprs args → OnExpr (.call (.index o i) args)
  func : ∀ {f}, OnFunc f → OnExpr (.func f)
  attempt : ∀ t : TryExpr, OnStmts t.body → OnStmts t.catchBody → OnBlock t.finallyBody → OnExpr (.attempt t)
  nilExprs : OnExprs []
  consExprs : ∀ {e es}, OnExpr e → OnExprs es → OnExprs (e :: es)
  funcBlock : ∀ {name params body isAsync form span}, OnStmts body →
    OnFunc ⟨name, params, .block body, isAsync, form, span⟩
  funcExpr : ∀ {name params value isAsync form span}, OnExpr value →
    OnFunc ⟨name, params, .expr value, isAsync, form, span⟩
  leafStmt : ∀ {st}, Stmt.Leaf st → OnStmt st
  around : ∀ {make e}, Stmt.Around make → OnExpr e → OnStmt (make e)
  declare : ∀ {kind span ds}, OnDecls kind span ds → OnStmt (.declare kind ds span)
  block : ∀ {body} span, OnStmts body → OnStmt (.block body span)
  branch : ∀ {e yes} span, OnExpr e → OnStmt yes → OnStmt (.branch e yes none span)
  branchElse : ∀ {e yes no} span, OnExpr e → OnStmt yes → OnStmt no → OnStmt (.branch e yes (some no) span)
  loop : ∀ {e body} span, OnExpr e → OnStmt body → OnStmt (.loop e body span)
  switch : ∀ {e cs} span, OnExpr e → OnCases cs → OnStmt (.switch e cs span)
  guarded : ∀ {body handler finalizer} span, OnStmts body → OnHandler handler → OnBlock finalizer →
    OnStmt (.guarded body handler finalizer span)
  funcStmt : ∀ {f}, OnFunc f → OnStmt (.func f)
  nilDecls : ∀ kind span, OnDecls kind span []
  bareDecl : ∀ {kind span x ds}, OnDecls kind span ds → OnDecls kind span (⟨x, none⟩ :: ds)
  consDecls : ∀ {kind span x e ds}, OnExpr e → OnDecls kind span ds → OnDecls kind span (⟨x, some e⟩ :: ds)
  nilCases : OnCases []
  defaultCase : ∀ {body cs}, OnStmts body → OnCases cs → OnCases (⟨none, body⟩ :: cs)
  consCases : ∀ {e body cs}, OnExpr e → OnStmts body → OnCases cs → OnCases (⟨some e, body⟩ :: cs)
  noHandler : OnHandler none
  handler : ∀ {body} param, OnStmts body → OnHandler (some ⟨param, body⟩)
  noBlock : OnBlock none
  finalizer : ∀ {body}, OnStmts body → OnBlock (some body)
  nilStmts : OnStmts []
  consStmts : ∀ {st ss}, OnStmt st → OnStmts ss → OnStmts (st :: ss)

namespace LoweringRules

variable {OnExpr : Expr → Prop} {OnExprs : List Expr → Prop} {OnFunc : Func → Prop} {OnStmt : Stmt →
  Prop} {OnDecls : BindingKind → Span → List Declarator → Prop} {OnCases : List Case → Prop}
  {OnHandler : Option Handler → Prop} {OnBlock : Option (List Stmt) → Prop} {OnStmts : List Stmt → Prop}
  (h : LoweringRules OnExpr OnExprs OnFunc OnStmt OnDecls OnCases OnHandler OnBlock OnStmts)

include h

theorem strict₁ {e a : Expr} (he : e.Strict [a]) (ha : OnExpr a) : OnExpr e :=
  h.strict he (by simpa using ha) (h.consExprs ha h.nilExprs)

theorem strict₂ {e a b : Expr} (he : e.Strict [a, b]) (ha : OnExpr a) (hb : OnExpr b) : OnExpr e :=
  h.strict he (by simpa using ⟨ha, hb⟩) (h.consExprs ha (h.consExprs hb h.nilExprs))

mutual

theorem onExpr : ∀ e : Expr, OnExpr e
  | .number x => h.leaf (.number x)
  | .string x => h.leaf (.string x)
  | .bool x => h.leaf (.bool x)
  | .null => h.leaf .null
  | .undefined => h.leaf .undefined
  | .this => h.leaf .this
  | .ident x => h.leaf (.ident x)
  | .array items => h.strict (.array items) (forall_onExpr items) (onExprs items)
  | .unary op a => h.strict₁ (.unary op a) (onExpr a)
  | .binary op a b => h.strict₂ (.binary op a b) (onExpr a) (onExpr b)
  | .logical op a b => h.logical op (onExpr a) (onExpr b)
  | .assign target e => by
    have he := onExpr e
    have htarget := onExpr target
    cases target with
    | ident x => exact h.assignIdent x he
    | member o x => exact h.strict₂ (.assignMember o x e) (onExpr o) he
    | index o i =>
      have ho := onExpr o
      have hi := onExpr i
      exact h.strict (.assignIndex o i e) (by simpa using ⟨ho, hi, he⟩)
        (h.consExprs ho (h.consExprs hi (h.consExprs he h.nilExprs)))
    | _ => exact h.assign rfl htarget he
  | .member o x => h.strict₁ (.member o x) (onExpr o)
  | .index o i => h.strict₂ (.index o i) (onExpr o) (onExpr i)
  | .call callee args => by
    have hargs := onExprs args
    have hcallee := onExpr callee
    cases callee with
    | member o x => exact h.callMember x (onExpr o) hargs
    | index o i => exact h.callIndex (onExpr o) (onExpr i) hargs
    | _ =>
      exact h.strict (.call _ args (by simp) (by simp))
        (List.forall_mem_cons.2 ⟨hcallee, forall_onExpr args⟩) (h.consExprs hcallee hargs)
  | .await a => h.strict₁ (.await a) (onExpr a)
  | .yield none delegate => h.leaf (.yield delegate)
  | .yield (some a) delegate => h.strict₁ (.yield a delegate) (onExpr a)
  | .func f => h.func (onFunc f)
  | .attempt ⟨_, body, _, catchBody, _, finallyBody, _, _, _⟩ =>
    h.attempt _ (onStmts body) (onStmts catchBody) (onBlock finallyBody)

theorem forall_onExpr : ∀ es : List Expr, ∀ a ∈ es, OnExpr a
  | [] => List.forall_mem_nil _
  | e :: es => List.forall_mem_cons.2 ⟨onExpr e, forall_onExpr es⟩

theorem onExprs : ∀ es : List Expr, OnExprs es
  | [] => h.nilExprs
  | e :: es => h.consExprs (onExpr e) (onExprs es)

theorem onFunc : ∀ f : Func, OnFunc f
  | ⟨_, _, .block body, _, _, _⟩ => h.funcBlock (onStmts body)
  | ⟨_, _, .expr value, _, _, _⟩ => h.funcExpr (onExpr value)

theorem onStmt : ∀ st : Stmt, OnStmt st
  | .declare kind ds span => h.declare (onDecls kind span ds)
  | .expr e span => h.around (.expr span) (onExpr e)
  | .block body span => h.block span (onStmts body)
  | .branch e yes none span => h.branch span (onExpr e) (onStmt yes)
  | .branch e yes (some no) span => h.branchElse span (onExpr e) (onStmt yes) (onStmt no)
  | .loop e body span => h.loop span (onExpr e) (onStmt body)
  | .switch e cs span => h.switch span (onExpr e) (onCases cs)
  | .jump kind span => h.leafStmt (.jump kind span)
  | .ret none span => h.leafStmt (.ret span)
  | .ret (some e) span => h.around (.ret span) (onExpr e)
  | .throw e span => h.around (.throw span) (onExpr e)
  | .guarded body handler finalizer span =>
    h.guarded span (onStmts body) (onHandler handler) (onBlock finalizer)
  | .func f => h.funcStmt (onFunc f)
  | .raise id e span => h.around (.raise id span) (onExpr e)

theorem onDecls (kind : BindingKind) (span : Span) : ∀ ds : List Declarator, OnDecls kind span ds
  | [] => h.nilDecls kind span
  | ⟨_, none⟩ :: ds => h.bareDecl (onDecls kind span ds)
  | ⟨_, some e⟩ :: ds => h.consDecls (onExpr e) (onDecls kind span ds)

theorem onCases : ∀ cs : List Case, OnCases cs
  | [] => h.nilCases
  | ⟨none, body⟩ :: cs => h.defaultCase (onStmts body) (onCases cs)
  | ⟨some e, body⟩ :: cs => h.consCases (onExpr e) (onStmts body) (onCases cs)

theorem onHandler : ∀ o : Option Handler, OnHandler o
  | none => h.noHandler
  | some ⟨param, body⟩ => h.handler param (onStmts body)

theorem onBlock : ∀ o : Option (List Stmt), OnBlock o
  | none => h.noBlock
  | some body => h.finalizer (onStmts body)

theorem onStmts : ∀ ss : List Stmt, OnStmts ss
  | [] => h.nilStmts
  | st :: ss => h.consStmts (onStmt st) (onStmts ss)

end

end LoweringRules

end RaiseScript
