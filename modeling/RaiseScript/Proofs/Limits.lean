import RaiseScript.Proofs.Bodies
import RaiseScript.Proofs.Outlasting

/-!
# Bounds that are not reached

A run that is not stopped at its limit of steps is not stopped for any other reason (`Lasting`). The
bound on the rounds of a loop is never reached, since each round takes a step, and neither is the
bound on nested calls, since a call that is too deep is refused before (`lasting_callAt`).
-/

namespace RaiseScript

variable {α β : Type} {n d : Nat}
variable {x : Run α} {body : Env → FuncBody → Run Value}

/-- The run took at most `n` steps to its own end. -/
structure Result.Ended (n d : Nat) (r : Result α) : Prop where
  steps : (Result.final r).steps ≤ n
  depth : (Result.final r).depth = d
  unexhausted : ∀ m, r ≠ .error (.failed .exhausted) m

/-- Code with at most `n` steps comes to its own end, unless it is stopped. -/
class Lasting (n d : Nat) (x : Run α) : Prop where
  lasts : ∀ m : Machine, m.depth = d → m.steps ≤ n → Result.Stopped (x m) ∨ Result.Ended n d (x m)

/-! ## Putting code together -/

instance lasting_primitive (x : Run α) [hx : Primitive x] : Lasting n d x where
  lasts m hd hs := by
    obtain ⟨hprolongs, hsteps⟩ := hx.prolongs m
    exact Or.inr ⟨by rwa [hsteps], hprolongs.depth.trans hd, fun n hn => hx.arises m .exhausted n hn⟩

instance lasting_bind (x : Run α) (f : α → Run β) [hx : Lasting n d x]
    [hf : ∀ a, Lasting n d (f a)] : Lasting n d (x >>= f) where
  lasts m hd hs := by
    rw [Run.bind_apply]
    rcases hx.lasts m hd hs with ⟨limit, m', hr⟩ | hended
    · rw [hr]
      exact Or.inl ⟨limit, m', rfl⟩
    · cases hr : x m with
      | ok a m' =>
        rw [hr] at hended
        exact (hf a).lasts m' hended.depth hended.steps
      | error e m' =>
        rw [hr] at hended
        exact Or.inr ⟨hended.steps, hended.depth, fun m'' he => hended.unexhausted m'' (by cases he; rfl)⟩

instance lasting_ite (c : Prop) [Decidable c] (x y : Run α) [Lasting n d x] [Lasting n d y] :
    Lasting n d (if c then x else y) := by
  split <;> infer_instance

instance lasting_tick : Lasting n d (tick n) where
  lasts m hd _ := by
    rw [tick_apply]
    by_cases hn : n < m.steps + 1
    · rw [if_pos hn]
      exact Or.inl ⟨n, _, rfl⟩
    · rw [if_neg hn]
      exact Or.inr ⟨Nat.le_of_not_lt hn, hd, fun _ he => by cases he⟩

/-! ## Looking at outcomes -/

/-- Code that looks at how other code ended, and passes on that it failed. -/
theorem lasting_outcome {f : Except Exit α → Run β} [hx : Lasting n d x]
    (hfail : ∀ e, f (.error (.failed e)) = fail e) (hf : ∀ o, Unfailed o → Lasting n d (f o)) :
    Lasting n d (outcome x >>= f) where
  lasts m hd hs := by
    rw [Run.bind_apply]
    rcases hx.lasts m hd hs with ⟨limit, m', hr⟩ | hended
    · rw [outcome_error hr]
      exact Or.inl ⟨limit, m', congrFun (hfail _) m'⟩
    cases hr : x m with
    | ok a m' =>
      rw [hr] at hended
      rw [outcome_ok hr]
      exact (hf _ fun e he => by cases he).lasts m' hended.depth hended.steps
    | error e m' =>
      rw [hr] at hended
      rw [outcome_error hr]
      cases e with
      | failed e =>
        rw [Result.andThen_ok, hfail]
        exact Or.inr ⟨hended.steps, hended.depth, fun m'' he => hended.unexhausted m'' (by cases he; rfl)⟩
      | _ => exact (hf _ fun e he => by cases he).lasts m' hended.depth hended.steps

theorem lasting_finishing {o : Except Exit Unit} (ho : Unfailed o) {x : Run Unit} [Lasting n d x] :
    Lasting n d (finishing o x) := by
  have := ho.primitive_conclude
  unfold finishing
  split
  · exact absurd rfl (ho _)
  · infer_instance

instance lasting_attempted (B F : Run Unit) (H : Value → Run Unit) [Lasting n d B]
    [∀ v, Lasting n d (H v)] [Lasting n d F] : Lasting n d (attempted B H F) := by
  refine lasting_outcome (fun _ => rfl) fun o ho => ?_
  have hkeep : Lasting n d (pure o >>= fun o => finishing o F : Run Unit) := lasting_finishing ho
  cases o with
  | ok _ => exact hkeep
  | error e =>
    cases e with
    | thrown v => exact lasting_outcome (fun _ => rfl) fun o ho => lasting_finishing ho
    | _ => exact hkeep

/-! ## Loops -/

theorem steps_lt_of_tick (limit : Nat) (x : Run α) [hx : Rising x] (m : Machine) :
    m.steps < (Result.final ((tick limit >>= fun _ => x) m)).steps := by
  rw [Run.bind_apply, tick_apply]
  split
  · exact Nat.lt_succ_self _
  · exact (hx.rises { m with steps := m.steps + 1 }).steps

/-- A loop of which each round takes a step. -/
theorem lasting_rounds {round : Run Bool} [hr : Lasting n d round]
    (hlt : ∀ m, m.steps < (Result.final (round m)).steps) :
    Lasting n d (get >>= fun m => rounds round (n + 1 - m.steps)) := by
  suffices hmain : ∀ fuel (m : Machine), m.depth = d → m.steps ≤ n → n + 1 ≤ fuel + m.steps →
      Result.Stopped (rounds round fuel m) ∨ Result.Ended n d (rounds round fuel m) from
    ⟨fun m hd hs => hmain _ m hd hs (by omega)⟩
  intro fuel
  induction fuel with
  | zero => intro m _ hs hfuel; omega
  | succ fuel ih =>
    intro m hd hs hfuel
    have hround := hr.lasts m hd hs
    have hm := hlt m
    unfold rounds
    rw [Run.bind_apply]
    rcases hround with ⟨limit, m', hstop⟩ | hended
    · rw [hstop]
      exact Or.inl ⟨limit, m', rfl⟩
    cases hres : round m with
    | error e m' =>
      rw [hres] at hended
      exact Or.inr ⟨hended.steps, hended.depth, fun m'' he => hended.unexhausted m'' (by cases he; rfl)⟩
    | ok go m' =>
      rw [hres] at hended hm
      have hsteps : m'.steps ≤ n := hended.steps
      change m.steps < m'.steps at hm
      cases go with
      | false => exact Or.inr ⟨hsteps, hended.depth, fun _ he => by cases he⟩
      | true => exact ih m' hended.depth hsteps (by omega)

/-! ## The tree -/

/-- An engine whose calls come to their ends. -/
class Engine.Lasting (d : Nat) (k : Engine) : Prop where
  rising : k.Rising
  call : ∀ f this args, RaiseScript.Lasting k.maxSteps d (k.call f this args)

section

variable (k : Engine) [hk : k.Lasting d]

instance lasting_call (f this : Value) (args : List Value) : Lasting k.maxSteps d (k.call f this args) :=
  hk.call f this args

variable (d) in
/-- What comes to its end when a phrase is run. -/
def Phrase.Lasts : Phrase → Prop
  | .expr e => ∀ env, Lasting k.maxSteps d (evalExpr k env e)
  | .exprs es => ∀ env, Lasting k.maxSteps d (evalExprs k env es)
  | .func _ => True
  | .attempt t => ∀ env, Lasting k.maxSteps d (evalExpr k env (.attempt t))
  | .stmt s => ∀ env, Lasting k.maxSteps d (execStmt k env s)
  | .decls ds => ∀ env kind, Lasting k.maxSteps d (execDecls k env kind ds)
  | .cases cs => (∀ env v, Lasting k.maxSteps d (chooseCase k env v cs)) ∧
    ∀ env i, Lasting k.maxSteps d (execCases k env i cs)
  | .handler h => ∀ env v, Lasting k.maxSteps d (handling k env h v)
  | .block b => ∀ env param, Lasting k.maxSteps d (execFinally k env param b)
  | .stmts ss => ∀ env, Lasting k.maxSteps d (execAll k env ss)

theorem Phrase.lasts (p : Phrase) : p.Lasts d k := by
  induction p with (simp only [Phrase.Lasts] at *)
  | unary op a ih =>
    intro env
    have hstrict : Lasting k.maxSteps d (evalExpr k env a >>= applyUnary op) := inferInstance
    cases op with
    | typeName =>
      cases a with
      | ident =>
        simp only [evalExpr]
        infer_instance
      | _ => exact hstrict
    | _ => exact hstrict
  | assign target value ht hv hplace =>
    intro env
    cases target with simp only [Expr.place, List.forall_mem_cons] at hplace
    | member o q =>
      have := hplace.1
      simp only [evalExpr]
      infer_instance
    | index o i =>
      have := hplace.1
      have := hplace.2.1
      simp only [evalExpr]
      infer_instance
    | _ =>
      simp only [evalExpr]
      infer_instance
  | call callee args hf hargs hplace =>
    intro env
    have hplain : Lasting k.maxSteps d
      (evalExpr k env callee >>= fun f => evalExprs k env args >>= k.call f .undefined) := inferInstance
    cases callee with simp only [Expr.place, List.forall_mem_cons] at hplace
    | member o q =>
      have := hplace.1
      simp only [evalExpr]
      infer_instance
    | index o i =>
      have := hplace.1
      have := hplace.2.1
      simp only [evalExpr]
      infer_instance
    | _ => exact hplain
  | attempt t ih => exact ih
  | clauses _ body catchParam catchBody finallyParam finallyBody _ _ _ hbody hcatch hfinally =>
    intro env
    cases hdirect : k.direct with
    | false =>
      simp only [evalExpr, hdirect, Bool.false_eq_true, if_false]
      infer_instance
    | true =>
      rw [evalExpr_attempt hdirect]
      unfold execBlock execClause
      infer_instance
  | loop test body _ ht hb =>
    intro env
    have := hk.rising
    have hbody : Lasting k.maxSteps d (outcome (execStmt k env body) >>= goesOn) :=
      lasting_outcome (fun _ => rfl) fun o ho => have := ho.primitive_goesOn; inferInstance
    let round : Run Bool := tick k.maxSteps >>= fun _ => evalExpr k env test >>= fun v =>
      if v.truthy then outcome (execStmt k env body) >>= goesOn else pure false
    have hround : Lasting k.maxSteps d round := inferInstance
    have hlt : ∀ m, m.steps < (Result.final (round m)).steps := steps_lt_of_tick _ _
    have hrounds := @lasting_rounds _ _ _ hround hlt
    simp only [execStmt]
    infer_instance
  | switch subject cs _ hs hcs =>
    intro env
    obtain ⟨hchoose, hcases⟩ := hcs
    have hchosen (env : Env) (i : Nat) : Lasting k.maxSteps d (outcome (execCases k env i cs) >>= leaveSwitch) :=
      lasting_outcome (fun _ => rfl) fun o ho => have := ho.primitive_leaveSwitch; inferInstance
    simp only [execStmt]
    refine @lasting_bind _ _ _ _ _ _ inferInstance fun _ => ?_
    refine @lasting_bind _ _ _ _ _ _ inferInstance fun v => ?_
    refine @lasting_bind _ _ _ _ _ _ inferInstance fun inner => ?_
    refine @lasting_bind _ _ _ _ _ _ inferInstance fun chosen => ?_
    cases chosen <|> cs.findIdx? (·.test.isNone) <;> infer_instance
  | jump kind => cases kind <;> simp only [execStmt] <;> infer_instance
  | guarded body handler finalizer _ hb hh hf =>
    intro env
    rw [execStmt_guarded, ← execFinally_eq]
    unfold execBlock
    infer_instance
  | raise _ value _ hv =>
    intro env
    simp only [execStmt]
    infer_instance
  | nilCases => exact ⟨fun _ _ => by simp only [chooseCase]; infer_instance,
      fun _ _ => by simp only [execCases]; infer_instance⟩
  | defaultCase body cs hbody hcs | consCases e body cs he hbody hcs =>
    obtain ⟨hchoose, hcases⟩ := hcs
    refine ⟨fun env v => by simp only [chooseCase]; infer_instance, fun env i => ?_⟩
    cases i <;> simp only [execCases] <;> infer_instance
  | handler param body ih =>
    intro env v
    unfold handling execClause
    infer_instance
  | finalizer body ih =>
    intro env param
    cases param <;> simp only [execFinally] <;> infer_instance
  | _ =>
    intros
    simp only [evalExpr, evalExprs, execStmt, execDecls, handling, execFinally, execAll]
    infer_instance

instance lasting_evalExpr (env : Env) (e : Expr) : Lasting k.maxSteps d (evalExpr k env e) :=
  (Phrase.expr e).lasts k env

instance lasting_execAll (env : Env) (ss : List Stmt) : Lasting k.maxSteps d (execAll k env ss) :=
  (Phrase.stmts ss).lasts k env

/-! ## Calls -/

instance lasting_runBody (env : Env) (body : FuncBody) : Lasting k.maxSteps d (runBody k env body) := by
  have hleave (o : Except Exit Value) (ho : Unfailed o) : Lasting k.maxSteps d (leaveBody o) := by
    have := ho.primitive_conclude
    unfold leaveBody
    split <;> infer_instance
  cases body with
  | block body =>
    simp only [runBody_block]
    exact lasting_outcome (fun _ => rfl) hleave
  | expr e =>
    simp only [runBody_expr]
    exact lasting_outcome (fun _ => rfl) hleave

end

theorem lasting_deeper (this outer : Value) [hx : Lasting n (d + 1) x] : Lasting n d (deeper this outer x) where
  lasts m hd hs := by
    rw [deeper_apply]
    have hm := hx.lasts { m with this, depth := m.depth + 1 } (congrArg (· + 1) hd) hs
    rcases hm with ⟨limit, m', hr⟩ | hended
    · rw [hr]
      exact Or.inl ⟨limit, _, rfl⟩
    · refine Or.inr ⟨?_, ?_, fun m'' he => ?_⟩
      · rw [Result.final_onFinal]
        exact hended.steps
      · rw [Result.final_onFinal]
        exact congrArg (· - 1) hended.depth
      · cases hr : x { m with this, depth := m.depth + 1 } with
        | ok a m' =>
          rw [hr] at he
          cases he
        | error e m' =>
          rw [hr] at he hended
          cases he
          exact hended.unexhausted m' rfl

theorem lasting_enter (maxDepth : Nat) (f : Func) (env : Env) (this : Value) (args : List Value)
    (hbody : d < maxDepth → ∀ env b, Lasting n (d + 1) (body env b)) :
    Lasting n d (enter maxDepth f env this args body) where
  lasts m hd hs := by
    rw [enter_apply]
    have hmain : d < maxDepth → Lasting n d
        (newScope ⟨env.chain, none⟩ true >>= fun env => bindParams env f.params args >>= fun _ =>
          get >>= fun n => deeper this n.this (body env f.body)) := by
      intro hlt
      have hb := hbody hlt
      have hdeeper (outer : Value) (env : Env) : Lasting n d (deeper this outer (body env f.body)) :=
        lasting_deeper this outer
      infer_instance
    split
    · exact (lasting_primitive (n := n) (d := d) _).lasts m hd hs
    split
    · exact (lasting_primitive (n := n) (d := d) _).lasts m hd hs
    · exact (hmain (by omega)).lasts m hd hs

theorem lasting_callWithBody (maxDepth : Nat) (f this : Value) (args : List Value)
    (hbody : d < maxDepth → ∀ env b, Lasting n (d + 1) (body env b)) :
    Lasting n d (callWithBody maxDepth body f this args) := by
  unfold callWithBody
  split
  · exact lasting_enter maxDepth _ _ _ _ hbody
  · infer_instance
  · infer_instance

/-- Calls come to their ends, as there is a bound for every nested call. -/
theorem lasting_callAt {limits : Limits} (direct : Bool) : ∀ {fuel d : Nat}, limits.maxDepth ≤
    d + fuel → ∀ f this args, Lasting limits.maxSteps d (callAt limits direct fuel f this args)
  | 0, d, hfuel, f, this, args => by
    unfold callAt
    exact lasting_callWithBody limits.maxDepth f this args fun hlt => by omega
  | fuel + 1, d, hfuel, f, this, args => by
    have hk : Engine.Lasting (d + 1) ⟨limits.maxSteps, direct, callAt limits direct fuel⟩ :=
      ⟨⟨rising_callAt limits direct fuel⟩, lasting_callAt direct (by omega)⟩
    unfold callAt
    exact lasting_callWithBody limits.maxDepth f this args fun _ env b =>
      lasting_runBody ⟨limits.maxSteps, direct, callAt limits direct fuel⟩ env b

theorem lasting_engine (limits : Limits) (direct : Bool) (depth : Nat) :
    Engine.Lasting depth (Machine.engine limits direct depth) where
  rising := rising_engine limits direct depth
  call f this args := by
    unfold Machine.engine
    exact lasting_callAt direct (by omega) f this args

/-- A program that is not stopped at its limit of steps comes to its own end. -/
theorem lasting_body (limits : Limits) (direct : Bool) (depth : Nat) (p : Program) :
    Lasting limits.maxSteps depth (Machine.body limits direct depth p) := by
  have := lasting_engine limits direct depth
  have hall := lasting_execAll (d := depth) (Machine.engine limits direct depth) Machine.globals p
  exact @lasting_bind _ _ _ _ _ _ _ (fun _ => hall)

end RaiseScript
