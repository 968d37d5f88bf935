import RaiseScript.Proofs.Rising

/-!
# The machines that a run passes through

`Traced` is code that also lists the machines it passes through, one for every step. `traceExpr` and
its companions evaluate a tree in this way, step by step, and come to the same end as the evaluator
(`Phrase.run_trace`, `run_traceProgram`). So the machines in `Machine.trace` are those
that the run of a program reaches (`trace_body`).

Try expressions and raises end a run here, as they do with a standard engine.
-/

namespace RaiseScript

variable {α β : Type}

/-- Code with the machines that it passes through. -/
def Traced (α : Type) : Type :=
  Machine → List Machine × Result α

namespace Traced

/-- Goes on after code that gave a value. -/
def andThen (x : Traced α) (f : α → Traced β) : Traced β := fun m =>
  match x m with
  | (ms, .ok a n) => (ms ++ (f a n).1, (f a n).2)
  | (ms, .error e n) => (ms, .error e n)

instance : Monad Traced where
  pure a := fun m => ([], .ok a m)
  bind := andThen

/-- The code runs in one step. -/
def step (x : Run α) : Traced α := fun m =>
  ([Result.final (x m)], x m)

/-- Runs `x` and gives how it ended. -/
def outcome (x : Traced α) : Traced (Except Exit α) := fun m =>
  match x m with
  | (ms, .ok a n) => (ms, .ok (.ok a) n)
  | (ms, .error e n) => (ms, .ok (.error e) n)

/-- The code without the machines it passes through. -/
def run (x : Traced α) : Run α := fun m =>
  (x m).2

@[simp] theorem run_pure (a : α) : (pure a : Traced α).run = pure a := rfl

@[simp] theorem run_bind (x : Traced α) (f : α → Traced β) :
    (x >>= f).run = x.run >>= fun a => (f a).run := by
  funext m
  show (andThen x f m).2 = _
  rw [Run.bind_apply, andThen, run]
  obtain ⟨ms, r⟩ := x m
  cases r <;> rfl

@[simp] theorem run_step (x : Run α) : (step x).run = x := rfl

@[simp] theorem run_outcome (x : Traced α) : (outcome x).run = RaiseScript.outcome x.run := by
  funext m
  rw [RaiseScript.outcome, run, outcome, run]
  obtain ⟨ms, r⟩ := x m
  cases r <;> rfl

@[simp] theorem run_ite (c : Prop) [Decidable c] (x y : Traced α) :
    (if c then x else y).run = if c then x.run else y.run := by
  split <;> rfl

/-! ## Control -/

/-- Repeats `round` while it says so, at most `fuel` times. -/
def rounds (round : Traced Bool) : Nat → Traced Unit
  | 0 => step (fail .exhausted)
  | fuel + 1 => do if ← round then rounds round fuel

@[simp] theorem run_rounds (round : Traced Bool) (fuel : Nat) :
    (rounds round fuel).run = RaiseScript.rounds round.run fuel := by
  induction fuel with
  | zero => rfl
  | succ fuel ih => simp only [rounds, RaiseScript.rounds, run_bind, run_ite, ih, run_pure]

/-- Hands a thrown value to a handler. -/
def catching (first : Except Exit Unit) (handler : Value → Traced Unit) : Traced (Except Exit Unit) :=
  match first with
  | .error (.thrown v) => outcome (handler v)
  | r => pure r

@[simp] theorem run_catching (first : Except Exit Unit) (handler : Value → Traced Unit) :
    (catching first handler).run = RaiseScript.catching first fun v => (handler v).run := by
  match first with
  | .error (.thrown v) => exact run_outcome _
  | .ok () | .error (.returned _) | .error .broke | .error .continued | .error (.failed _) => rfl

/-- Runs the finalizer and then ends as before, unless the finalizer ends otherwise. -/
def finishing (result : Except Exit Unit) (finalizer : Traced Unit) : Traced Unit :=
  match result with
  | .error (.failed f) => step (fail f)
  | r => do
    finalizer
    step (conclude r)

@[simp] theorem run_finishing (result : Except Exit Unit) (finalizer : Traced Unit) :
    (finishing result finalizer).run = RaiseScript.finishing result finalizer.run := by
  match result with
  | .error (.failed f) => rfl
  | .ok () | .error (.returned _) | .error .broke | .error .continued | .error (.thrown _) =>
    exact run_bind _ _

end Traced

/-! ## The tree -/

/-- What evaluation is given from outside. -/
structure Tracer where
  maxSteps : Nat
  /-- Calls a function with a receiver and arguments. -/
  call : Value → Value → List Value → Traced Value

/-- The engine that does the same without listing machines. -/
def Tracer.engine (k : Tracer) : Engine :=
  ⟨k.maxSteps, false, fun f this args => (k.call f this args).run⟩

open Traced (step)

mutual

/-- The value of an expression. An expression without parts that are evaluated takes one step. -/
def traceExpr (k : Tracer) (env : Env) : Expr → Traced Value
  | .array items => do
    let vs ← traceExprs k env items
    step (newArray vs.toArray)
  | .unary op arg =>
    match op, arg with
    | .typeName, .ident x => step (evalExpr k.engine env (.unary .typeName (.ident x)))
    | op, arg => do
      let v ← traceExpr k env arg
      step (applyUnary op v)
  | .binary op a b => do
    let x ← traceExpr k env a
    let y ← traceExpr k env b
    step (applyBinary op x y)
  | .logical op a b => do
    let x ← traceExpr k env a
    if op.decides x then return x else traceExpr k env b
  | .assign (.ident name) value => do
    let v ← traceExpr k env value
    step (assignName env name v)
    return v
  | .assign (.member object property) value => do
    let o ← traceExpr k env object
    let v ← traceExpr k env value
    step (setIndex o (.string property) v)
    return v
  | .assign (.index object key) value => do
    let o ← traceExpr k env object
    let i ← traceExpr k env key
    let v ← traceExpr k env value
    step (setIndex o i v)
    return v
  | .member object property => do
    let o ← traceExpr k env object
    step (getProperty o property)
  | .index object key => do
    let o ← traceExpr k env object
    let i ← traceExpr k env key
    step (getIndex o i)
  | .call (.member object property) args => do
    let this ← traceExpr k env object
    let f ← step (getProperty this property)
    step (noteMethod (args.any Expr.hasAttempt) f)
    let vs ← traceExprs k env args
    k.call f this vs
  | .call (.index object key) args => do
    let this ← traceExpr k env object
    let i ← traceExpr k env key
    let f ← step (getIndex this i)
    step (noteMethod (args.any Expr.hasAttempt) f)
    let vs ← traceExprs k env args
    k.call f this vs
  | .call callee args => do
    let f ← traceExpr k env callee
    let vs ← traceExprs k env args
    k.call f .undefined vs
  | .await arg => traceExpr k env arg
  | e => step (evalExpr k.engine env e)

/-- The values of expressions from left to right. -/
def traceExprs (k : Tracer) (env : Env) : List Expr → Traced (List Value)
  | [] => return []
  | e :: es => do
    let v ← traceExpr k env e
    let vs ← traceExprs k env es
    return v :: vs

/-- Runs a statement. -/
def traceStmt (k : Tracer) (env : Env) (s : Stmt) : Traced Unit := do
  step (tick k.maxSteps)
  match s with
  | .declare kind decls _ => traceDecls k env kind decls
  | .expr value _ => do
    let _ ← traceExpr k env value
  | .block body _ => do
    let inner ← step (newScope env false)
    step (declareFunctions inner body)
    traceAll k inner body
  | .branch test yes none _ => do
    let v ← traceExpr k env test
    if v.truthy then traceStmt k env yes
  | .branch test yes (some no) _ => do
    let v ← traceExpr k env test
    if v.truthy then traceStmt k env yes else traceStmt k env no
  | .loop test body _ => do
    let m ← step get
    let round : Traced Bool := do
      step (tick k.maxSteps)
      let v ← traceExpr k env test
      if v.truthy then do
        let r ← Traced.outcome (traceStmt k env body)
        step (goesOn r)
      else return false
    Traced.rounds round (k.maxSteps + 1 - m.steps)
  | .switch subject cases _ => do
    let v ← traceExpr k env subject
    let inner ← step (newScope env false)
    let chosen ← traceChoice k inner v cases
    match chosen <|> cases.findIdx? (·.test.isNone) with
    | none => return ()
    | some i => do
      let r ← Traced.outcome (traceCases k inner i cases)
      step (leaveSwitch r)
  | .jump .leave _ => step (throw .broke)
  | .jump .again _ => step (throw .continued)
  | .ret none _ => step (throw (.returned .undefined))
  | .ret (some arg) _ => do
    let v ← traceExpr k env arg
    step (throw (.returned v))
  | .throw arg _ => do
    let v ← traceExpr k env arg
    step (throw (.thrown v))
  | .guarded body handler finalizer _ => do
    let first ← Traced.outcome do
      let inner ← step (newScope env false)
      step (declareFunctions inner body)
      traceAll k inner body
    let second ← traceHandler k env first handler
    Traced.finishing second (traceFinally k env finalizer)
  | .func _ => return ()
  | .raise _ _ _ => step (fail (.unlowered .raise))

/-- Runs the declarators of a declaration. -/
def traceDecls (k : Tracer) (env : Env) (kind : BindingKind) : List Declarator → Traced Unit
  | [] => return ()
  | ⟨name, none⟩ :: ds => do
    step (bindDeclared env kind name none)
    traceDecls k env kind ds
  | ⟨name, some init⟩ :: ds => do
    let v ← traceExpr k env init
    step (bindDeclared env kind name (some v))
    traceDecls k env kind ds

/-- The position of the first case whose test equals the value. -/
def traceChoice (k : Tracer) (env : Env) (v : Value) : List Case → Traced (Option Nat)
  | [] => return none
  | ⟨none, _⟩ :: cs => do
    let i ← traceChoice k env v cs
    return i.map (· + 1)
  | ⟨some test, _⟩ :: cs => do
    let u ← traceExpr k env test
    if u.strictlyEquals v then return some 0
    else do
      let i ← traceChoice k env v cs
      return i.map (· + 1)

/-- Runs the bodies of the cases from a position on. -/
def traceCases (k : Tracer) (env : Env) : Nat → List Case → Traced Unit
  | _, [] => return ()
  | skip + 1, _ :: cs => traceCases k env skip cs
  | 0, ⟨_, body⟩ :: cs => do
    step (declareFunctions env body)
    traceAll k env body
    traceCases k env 0 cs

/-- Runs the handler of a try statement when a value was thrown. -/
def traceHandler (k : Tracer) (env : Env) (first : Except Exit Unit) :
    Option Handler → Traced (Except Exit Unit)
  | none => return first
  | some ⟨param, body⟩ =>
    Traced.catching first fun thrown => do
      let inner ← step (newScope env false)
      step (bindParam inner param thrown)
      step (declareFunctions inner body)
      traceAll k inner body

/-- Runs a finally block. -/
def traceFinally (k : Tracer) (env : Env) : Option (List Stmt) → Traced Unit
  | none => return ()
  | some body => do
    let inner ← step (newScope env false)
    step (declareFunctions inner body)
    traceAll k inner body

/-- Runs statements one after the other. -/
def traceAll (k : Tracer) (env : Env) : List Stmt → Traced Unit
  | [] => return ()
  | s :: ss => do
    traceStmt k env s
    traceAll k env ss

end

/-! ## Calls -/

/-- Runs the body of a function. -/
def traceBody (k : Tracer) (env : Env) (body : FuncBody) : Traced Value := do
  let result ← Traced.outcome (match body with
    | .block body => do
      step (declareFunctions env body)
      traceAll k env body
      return .undefined
    | .expr value => traceExpr k env value)
  match result with
  | .error (.returned v) => return v
  | .error .broke => return .undefined
  | .error .continued => return .undefined
  | r => step (conclude r)

/-- Runs `body` as a call of the function. -/
def traceEntry (maxDepth : Nat) (f : Func) (env : Env) (this : Value) (args : List Value)
    (body : Env → FuncBody → Traced Value) : Traced Value := do
  if f.form == .generator then step (fail (.unsupported .generators))
  else do
    let m ← step get
    if maxDepth ≤ m.depth then step (misuse .tooDeep)
    else do
      let env ← step (newScope ⟨env.chain, none⟩ true)
      step (bindParams env f.params args)
      let n ← step get
      step (modify fun m => { m with this, depth := m.depth + 1 })
      let result ← Traced.outcome (body env f.body)
      step (modify fun m => { m with this := n.this, depth := m.depth - 1 })
      step (conclude result)

/-- Calls a function value ; `body` runs the bodies of closures. -/
def traceCall (maxDepth : Nat) (body : Env → FuncBody → Traced Value) (f this : Value)
    (args : List Value) : Traced Value := do
  match resolveCall f this args with
  | (.closure _ g env captured, this, args) =>
    traceEntry maxDepth g env (if g.form == .arrow then captured else this) args body
  | (.native _ kind, this, args) => step (callNative kind this args)
  | (other, _, _) => step (mistakeOf (.notCallable <$> toShown other))

/-- Calls a function value with at most `fuel` calls inside one another. -/
def traceCallAt (limits : Limits) : Nat → Value → Value → List Value → Traced Value
  | 0 => traceCall limits.maxDepth fun _ _ => step (fail .exhausted)
  | fuel + 1 => traceCall limits.maxDepth (traceBody ⟨limits.maxSteps, traceCallAt limits fuel⟩)

/-- The statements of a program, run in the outermost scope. -/
def traceProgram (limits : Limits) (depth : Nat) (p : Program) : Traced Unit := do
  step (declareFunctions Machine.globals p)
  traceAll ⟨limits.maxSteps, traceCallAt limits (limits.maxDepth - depth)⟩ Machine.globals p

/-- The machines that the run of a program on a new machine reaches, from the first to the last. -/
def Machine.trace (limits : Limits) (p : Program) : List Machine :=
  Machine.start :: (traceProgram limits 0 p Machine.start).1

/-! ## The same end -/

section

variable (k : Tracer)

@[simp] theorem Tracer.engine_maxSteps : k.engine.maxSteps = k.maxSteps := rfl

@[simp] theorem Tracer.engine_direct : k.engine.direct = false := rfl

@[simp] theorem Tracer.engine_call (f this : Value) (args : List Value) :
    k.engine.call f this args = (k.call f this args).run := rfl

attribute [local simp] traceExpr traceExprs traceStmt traceDecls traceChoice traceCases traceHandler
  traceFinally traceAll evalExpr evalExprs execStmt execDecls chooseCase execCases execHandler
  execFinally execAll

/-- The traced run of a phrase comes to the same end. -/
@[simp] def Phrase.RunsTraced : Phrase → Prop
  | .expr e => ∀ env, (traceExpr k env e).run = evalExpr k.engine env e
  | .exprs es => ∀ env, (traceExprs k env es).run = evalExprs k.engine env es
  | .func _ | .attempt _ => True
  | .stmt s => ∀ env, (traceStmt k env s).run = execStmt k.engine env s
  | .decls ds => ∀ env kind, (traceDecls k env kind ds).run = execDecls k.engine env kind ds
  | .cases cs => (∀ env v, (traceChoice k env v cs).run = chooseCase k.engine env v cs) ∧
    ∀ env i, (traceCases k env i cs).run = execCases k.engine env i cs
  | .handler h => ∀ env first, (traceHandler k env first h).run = execHandler k.engine env first h
  | .block b => ∀ env, (traceFinally k env b).run = execFinally k.engine env none b
  | .stmts ss => ∀ env, (traceAll k env ss).run = execAll k.engine env ss

theorem Phrase.run_trace (p : Phrase) : p.RunsTraced k := by
  induction p with
  | unary op a =>
    cases op with
    | typeName => cases a <;> simp_all
    | _ => simp_all
  | assign a => cases a <;> simp_all
  | call e => cases e <;> simp_all
  | switch e cs _ he hcs =>
    have hchosen (inner : Env) (chosen : Option Nat) : (match chosen with
        | none => pure ()
        | some i => do
          let r ← Traced.outcome (traceCases k inner i cs)
          step (leaveSwitch r) : Traced Unit).run = (match chosen with
        | none => pure ()
        | some i => do leaveSwitch (← outcome (execCases k.engine inner i cs))) := by
      cases chosen <;> simp [hcs.2]
    intro env
    simp only [traceStmt, execStmt, Traced.run_bind, Traced.run_step, Tracer.engine_maxSteps, he env, hcs.1]
    refine congrArg _ (funext fun _ => congrArg _ (funext fun v => congrArg _ (funext fun inner => ?_)))
    exact congrArg _ (funext fun chosen => hchosen inner (chosen <|> cs.findIdx? (·.test.isNone)))
  | jump kind => cases kind <;> simp
  | defaultCase _ _ hbody hcs | consCases _ _ _ he hbody hcs =>
    refine ⟨by simp_all, fun env i => ?_⟩
    cases i <;> simp_all
  | _ => simp_all

theorem run_traceExpr (env : Env) (e : Expr) : (traceExpr k env e).run = evalExpr k.engine env e :=
  (Phrase.expr e).run_trace k env

theorem run_traceStmt (env : Env) (s : Stmt) : (traceStmt k env s).run = execStmt k.engine env s :=
  (Phrase.stmt s).run_trace k env

theorem run_traceAll (env : Env) (ss : List Stmt) : (traceAll k env ss).run = execAll k.engine env ss :=
  (Phrase.stmts ss).run_trace k env

theorem run_traceBody (env : Env) (body : FuncBody) :
    (traceBody k env body).run = runBody k.engine env body := by
  have hend (r : Except Exit Value) : (match r with
      | .error (.returned v) => pure v
      | .error .broke => pure .undefined
      | .error .continued => pure .undefined
      | r => step (conclude r) : Traced Value).run = (match r with
      | .error (.returned v) => pure v
      | .error .broke => pure .undefined
      | .error .continued => pure .undefined
      | r => conclude r) := by
    split <;> rfl
  unfold traceBody runBody
  rw [Traced.run_bind, Traced.run_outcome]
  refine congr (congrArg (fun x f => outcome x >>= f) ?_) (funext hend)
  cases body with
  | block body => simp [run_traceAll]
  | expr value => exact run_traceExpr k env value

end

theorem run_traceCall (maxDepth : Nat) (body : Env → FuncBody → Traced Value) (f this : Value)
    (args : List Value) : (traceCall maxDepth body f this args).run =
      callWithBody maxDepth (fun env b => (body env b).run) f this args := by
  unfold traceCall callWithBody
  obtain ⟨g, this, args⟩ := resolveCall f this args
  cases g with
  | closure _ g env captured => simp [traceEntry, enter]
  | _ => rfl

/-- Calls come to the same end, however deeply they may be nested. -/
theorem engine_traceCallAt (limits : Limits) (fuel : Nat) :
    Tracer.engine ⟨limits.maxSteps, traceCallAt limits fuel⟩ =
      ⟨limits.maxSteps, false, callAt limits false fuel⟩ := by
  induction fuel with
  | zero =>
    unfold Tracer.engine traceCallAt callAt
    simp [run_traceCall]
  | succ fuel ih =>
    unfold Tracer.engine traceCallAt callAt
    simp [run_traceCall, run_traceBody, ih]

/-- The traced run of a program comes to the same end as the run of the program. -/
theorem run_traceProgram (limits : Limits) (depth : Nat) (p : Program) :
    (traceProgram limits depth p).run = Machine.body limits false depth p := by
  unfold traceProgram Machine.body
  simp [run_traceAll, engine_traceCallAt, Machine.engine]

end RaiseScript
