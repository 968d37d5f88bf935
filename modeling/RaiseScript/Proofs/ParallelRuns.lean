import RaiseScript.Proofs.Alike
import RaiseScript.Proofs.Traced

/-!
# Two runs abreast

What the primitives leave of the evaluator are ticks, loops, outcomes that are looked at and calls.
A relation between traced runs that goes through these is `Parallel`, and then it holds between the
traced runs of every program (`Parallel.program`), for any two limits on steps. The relation is told
the number of calls in progress.
-/

namespace RaiseScript

variable {α β : Type}
variable {o : Except Exit Unit} {x y : Traced α} {F F' : Traced Unit}
  {body body' : Env → FuncBody → Traced Value} {limits limits' : Limits}

/-! ## Relations that go through the evaluator -/

namespace Traced

/-- A call goes one level deeper and comes back. -/
def deeper (this : Value) (x : Traced α) : Traced α := do
  let n ← step get
  step (modify fun m => { m with this, depth := m.depth + 1 })
  let result ← outcome x
  step (modify fun m => { m with this := n.this, depth := m.depth - 1 })
  step (conclude result)

/-- A loop that counts a step at the start of each round. -/
def loop (limit : Nat) (x : Traced Bool) : Traced Unit := do
  let m ← step get
  rounds (do step (tick limit); x) (limit + 1 - m.steps)

end Traced

open Traced (step)

/-- The relation goes through everything that evaluation does, with limits of `n` and `n'` steps and
room for `room` calls inside one another. In `R d x y` there are `d` calls in progress when `x` and
`y` start. -/
structure Parallel (R : Nat → {α : Type} → Traced α → Traced α → Prop) (n n' room : Nat) : Prop where
  /-- Only machines with as many calls in progress matter. -/
  atDepth : ∀ {α : Type} {d : Nat} {x x' y y' : Traced α},
    (∀ m : Machine, m.depth = d → x' m = x m) → (∀ m : Machine, m.depth = d → y' m = y m) →
    R d x y → R d x' y'
  pure : ∀ {α : Type} {d : Nat} (a : α), R d (pure a) (pure a)
  bind : ∀ {α β : Type} {d : Nat} {x y : Traced α} {f g : α → Traced β},
    R d x y → (∀ a, R d (f a) (g a)) → R d (x >>= f) (y >>= g)
  primitive : ∀ {α : Type} {d : Nat} (x : Run α) [Primitive x], R d (step x) (step x)
  tick : ∀ {d : Nat}, R d (step (tick n)) (step (tick n'))
  loop : ∀ {d : Nat} {x y : Traced Bool}, R d x y → R d (Traced.loop n x) (Traced.loop n' y)
  /-- Code that looks at how other code ended, and passes on that it failed. -/
  outcome : ∀ {α β : Type} {d : Nat} {x y : Traced α} {f g : Except Exit α → Traced β},
    R d x y → (∀ e, f (.error (.failed e)) = step (fail e)) →
    (∀ e, g (.error (.failed e)) = step (fail e)) → (∀ o, Unfailed o → R d (f o) (g o)) →
    R d (Traced.outcome x >>= f) (Traced.outcome y >>= g)
  deeper : ∀ {α : Type} {d : Nat} (this : Value) {x y : Traced α}, d < room →
    R (d + 1) x y → R d (Traced.deeper this x) (Traced.deeper this y)

/-- Tracers whose calls are related. -/
structure Tracer.Parallel (R : Nat → {α : Type} → Traced α → Traced α → Prop) (room d : Nat)
    (k k' : Tracer) : Prop where
  closed : RaiseScript.Parallel R k.maxSteps k'.maxSteps room
  call : ∀ f this args, R d (k.call f this args) (k'.call f this args)

section

variable {R : Nat → {α : Type} → Traced α → Traced α → Prop} {n n' room d : Nat} {k k' : Tracer}

theorem Parallel.ite (c : Prop) [Decidable c] {x' y' : Traced α} (hx : R d x x') (hy : R d y y') :
    R d (if c then x else y) (if c then x' else y') := by
  split
  · exact hx
  · exact hy

/-- Code that looks at an outcome in one step. -/
theorem Parallel.settle (h : Parallel R n n' room) (hx : R d x y) {f : Except Exit α → Run β}
    (hf : ∀ e, f (.error (.failed e)) = fail e) (hu : ∀ o, Unfailed o → Primitive (f o)) :
    R d (Traced.outcome x >>= fun o => step (f o)) (Traced.outcome y >>= fun o => step (f o)) :=
  h.outcome hx (fun e => by rw [hf]) (fun e => by rw [hf]) fun o ho => have := hu o ho; h.primitive _

theorem Traced.pure_bind (a : α) (f : α → Traced β) : (pure a >>= f) = f a := by
  funext m
  show ([] ++ (f a m).1, (f a m).2) = f a m
  rw [List.nil_append]

theorem Parallel.finishing (h : Parallel R n n' room) (hF : R d F F') (ho : Unfailed o) :
    R d (Traced.finishing o F) (Traced.finishing o F') := by
  have := ho.primitive_conclude
  unfold Traced.finishing
  split
  · exact absurd rfl (ho _)
  · exact h.bind hF fun _ => h.primitive _

/-- A try statement with a handler. -/
theorem Parallel.guarded (h : Parallel R n n' room) {B B' : Traced Unit}
    {H H' : Value → Traced Unit} (hB : R d B B') (hH : ∀ v, R d (H v) (H' v)) (hF : R d F F') :
    R d (Traced.outcome B >>= fun o => Traced.catching o H >>= fun o => Traced.finishing o F)
      (Traced.outcome B' >>= fun o => Traced.catching o H' >>= fun o => Traced.finishing o F') := by
  have hpass (F : Traced Unit) (H : Value → Traced Unit) (e : Failure) :
      (Traced.catching (.error (.failed e)) H >>= fun o => Traced.finishing o F) = step (fail e) :=
    Traced.pure_bind _ _
  refine h.outcome hB (hpass F H) (hpass F' H') fun o ho => ?_
  unfold Traced.catching
  split
  · exact h.outcome (hH _) (fun _ => rfl) (fun _ => rfl) fun _ => h.finishing hF
  · rw [Traced.pure_bind, Traced.pure_bind]
    exact h.finishing hF ho

/-! ## The tree -/

/-- The relation between two pieces of code, as a class : the proof for code is put together from
its parts. -/
class Related (R : Nat → {α : Type} → Traced α → Traced α → Prop) (d : Nat) (x y : Traced α) : Prop where
  rel : R d x y

/-- What is related when a phrase is run by both tracers. -/
def Phrase.Parallel (R : Nat → {α : Type} → Traced α → Traced α → Prop) (d : Nat) (k k' : Tracer) : Phrase → Prop
  | .expr e => ∀ env, Related R d (traceExpr k env e) (traceExpr k' env e)
  | .exprs es => ∀ env, Related R d (traceExprs k env es) (traceExprs k' env es)
  | .func _ | .attempt _ => True
  | .stmt s => ∀ env, Related R d (traceStmt k env s) (traceStmt k' env s)
  | .decls ds => ∀ env kind, Related R d (traceDecls k env kind ds) (traceDecls k' env kind ds)
  | .cases cs => (∀ env v, Related R d (traceChoice k env v cs) (traceChoice k' env v cs)) ∧
    ∀ env i, Related R d (traceCases k env i cs) (traceCases k' env i cs)
  | .handler h => ∀ env B B' F F', Related R d B B' → Related R d F F' →
    Related R d (Traced.outcome B >>= fun o => traceHandler k env o h >>= fun o => Traced.finishing o F)
      (Traced.outcome B' >>= fun o => traceHandler k' env o h >>= fun o => Traced.finishing o F')
  | .block b => ∀ env, Related R d (traceFinally k env b) (traceFinally k' env b)
  | .stmts ss => ∀ env, Related R d (traceAll k env ss) (traceAll k' env ss)

section

variable (h : Tracer.Parallel R room d k k')

include h

theorem Phrase.parallel (p : Phrase) : p.Parallel R d k k' := by
  have hpure {α : Type} (a : α) : Related R d (pure a) (pure a) := ⟨h.closed.pure a⟩
  have hstep {α : Type} (x : Run α) [Primitive x] : Related R d (step x) (step x) := ⟨h.closed.primitive x⟩
  have hbind {α β : Type} (x y : Traced α) (f g : α → Traced β) [hx : Related R d x y]
      [hf : ∀ a, Related R d (f a) (g a)] : Related R d (x >>= f) (y >>= g) :=
    ⟨h.closed.bind hx.rel fun a => (hf a).rel⟩
  have hite {α : Type} (c : Prop) [Decidable c] (x y x' y' : Traced α) [Related R d x x']
      [Related R d y y'] : Related R d (if c then x else y) (if c then x' else y') := by
    split <;> assumption
  have htick : Related R d (step (tick k.maxSteps)) (step (tick k'.maxSteps)) := ⟨h.closed.tick⟩
  have hcall (f this : Value) (args : List Value) : Related R d (k.call f this args) (k'.call f this args) :=
    ⟨h.call f this args⟩
  induction p with (simp only [Phrase.Parallel] at *)
  | attempt t =>
    cases t
    exact fun _ => hstep (fail (.unlowered .attempt) : Run Value)
  | unary op a ih =>
    intro env
    have hstrict : Related R d (traceExpr k env a >>= fun v => step (applyUnary op v))
        (traceExpr k' env a >>= fun v => step (applyUnary op v)) := inferInstance
    cases op with
    | typeName =>
      cases a with
      | ident x =>
        simp only [traceExpr, evalExpr]
        infer_instance
      | _ => exact hstrict
    | _ => exact hstrict
  | assign target value ht hv hplace =>
    intro env
    cases target with simp only [Expr.place, List.forall_mem_cons] at hplace
    | ident x =>
      simp only [traceExpr]
      infer_instance
    | member o q =>
      have := hplace.1
      simp only [traceExpr]
      infer_instance
    | index o i =>
      have := hplace.1
      have := hplace.2.1
      simp only [traceExpr]
      infer_instance
    | _ => exact hstep (misuse .badTarget : Run Value)
  | call callee args hf hargs hplace =>
    intro env
    have hplain : Related R d (traceExpr k env callee >>= fun f => traceExprs k env args >>= k.call f .undefined)
        (traceExpr k' env callee >>= fun f => traceExprs k' env args >>= k'.call f .undefined) := inferInstance
    cases callee with simp only [Expr.place, List.forall_mem_cons] at hplace
    | member o q =>
      have := hplace.1
      simp only [traceExpr]
      infer_instance
    | index o i =>
      have := hplace.1
      have := hplace.2.1
      simp only [traceExpr]
      infer_instance
    | _ => exact hplain
  | loop test body _ ht hb =>
    intro env
    have hbody := h.closed.settle (hb env).rel (f := goesOn) (fun _ => rfl) fun _ ho => ho.primitive_goesOn
    have hround := h.closed.bind (ht env).rel fun v =>
      Parallel.ite (v.truthy = true) hbody (h.closed.pure false)
    exact ⟨h.closed.bind h.closed.tick fun _ => h.closed.loop hround⟩
  | switch subject cs _ hs hcs =>
    intro env
    obtain ⟨hchoice, hcases⟩ := hcs
    have hchosen (inner : Env) (i : Nat) := h.closed.settle (hcases inner i).rel
      (f := leaveSwitch) (fun _ => rfl) fun _ ho => ho.primitive_leaveSwitch
    simp only [traceStmt]
    refine ⟨h.closed.bind h.closed.tick fun _ => h.closed.bind (hs env).rel fun v =>
      h.closed.bind (h.closed.primitive _) fun inner => h.closed.bind (hchoice inner v).rel fun chosen => ?_⟩
    cases chosen <|> cs.findIdx? (·.test.isNone) with
    | none => exact h.closed.pure _
    | some i => exact hchosen inner i
  | jump kind => cases kind <;> simp only [traceStmt] <;> infer_instance
  | guarded body handler finalizer _ hb hh hf =>
    intro env
    have hguarded := hh env (step (newScope env false) >>=
        fun inner => step (declareFunctions inner body) >>= fun _ => traceAll k inner body)
      (step (newScope env false) >>= fun inner => step (declareFunctions inner body) >>=
        fun _ => traceAll k' inner body) _ _ inferInstance (hf env)
    simp only [traceStmt]
    infer_instance
  | nilCases => exact ⟨fun _ _ => hpure _, fun _ _ => by simp only [traceCases]; infer_instance⟩
  | defaultCase body cs hbody hcs | consCases e body cs he hbody hcs =>
    obtain ⟨hchoose, hcases⟩ := hcs
    refine ⟨fun env v => by simp only [traceChoice]; infer_instance, fun env i => ?_⟩
    cases i <;> simp only [traceCases] <;> infer_instance
  | noHandler =>
    intro env B B' F F' hB hF
    refine ⟨h.closed.outcome hB.rel (fun e => Traced.pure_bind _ _) (fun e => Traced.pure_bind _ _) fun o ho => ?_⟩
    exact h.closed.finishing hF.rel ho
  | handler param body ih =>
    intro env B B' F F' hB hF
    exact ⟨h.closed.guarded hB.rel (fun v => Related.rel) hF.rel⟩
  | _ =>
    intros
    simp only [traceExpr, evalExpr, traceExprs, traceStmt, traceDecls, traceFinally, traceAll]
    infer_instance

theorem parallel_traceExpr (env : Env) (e : Expr) : R d (traceExpr k env e) (traceExpr k' env e) :=
  ((Phrase.expr e).parallel h env).rel

theorem parallel_traceStmt (env : Env) (s : Stmt) : R d (traceStmt k env s) (traceStmt k' env s) :=
  ((Phrase.stmt s).parallel h env).rel

theorem parallel_traceAll (env : Env) (ss : List Stmt) :
    R d (traceAll k env ss) (traceAll k' env ss) :=
  ((Phrase.stmts ss).parallel h env).rel

/-! ## Calls -/

theorem parallel_traceBody (env : Env) (body : FuncBody) :
    R d (traceBody k env body) (traceBody k' env body) := by
  refine h.closed.outcome ?_ (fun _ => rfl) (fun _ => rfl) fun o ho => ?_
  · cases body with
    | block body =>
      exact h.closed.bind (h.closed.primitive _) fun _ =>
        h.closed.bind (parallel_traceAll h env body) fun _ => h.closed.pure _
    | expr value => exact parallel_traceExpr h env value
  · have := ho.primitive_conclude
    split
    · exact h.closed.pure _
    · exact h.closed.pure _
    · exact h.closed.pure _
    · exact h.closed.primitive _

end

/-- A call of a function whose body is related one call deeper, if that is not too deep. -/
theorem parallel_traceEntry (h : Parallel R n n' room) (f : Func) (env : Env) (this : Value)
    (args : List Value) (hbody : d < room → ∀ env b, R (d + 1) (body env b) (body' env b)) :
    R d (traceEntry room f env this args body) (traceEntry room f env this args body') := by
  have happly (body : Env → FuncBody → Traced Value) (m : Machine) (hm : m.depth = d) :
      traceEntry room f env this args body m =
        (if f.form == .generator then step (fail (.unsupported .generators))
        else step get >>= fun _ => if room ≤ d then step (misuse .tooDeep)
        else step (newScope ⟨env.chain, none⟩ true) >>= fun env =>
          step (bindParams env f.params args) >>= fun _ =>
            Traced.deeper this (body env f.body)) m := by
    unfold traceEntry
    split
    · rfl
    · subst hm
      rfl
  refine h.atDepth (happly body) (happly body') (Parallel.ite _ (h.primitive _) ?_)
  refine h.bind (h.primitive _) fun _ => ?_
  by_cases hd : room ≤ d
  · rw [if_pos hd, if_pos hd]
    exact h.primitive _
  · rw [if_neg hd, if_neg hd]
    exact h.bind (h.primitive _) fun env => h.bind (h.primitive _) fun _ =>
      h.deeper this (Nat.lt_of_not_le hd) (hbody (Nat.lt_of_not_le hd) env f.body)

theorem parallel_traceCall (h : Parallel R n n' room) (f this : Value) (args : List Value)
    (hbody : d < room → ∀ env b, R (d + 1) (body env b) (body' env b)) :
    R d (traceCall room body f this args) (traceCall room body' f this args) := by
  unfold traceCall
  split
  · exact parallel_traceEntry h _ _ _ _ hbody
  · exact h.primitive _
  · exact h.primitive _

/-- Calls are related, by induction on how many may be nested. The bounds on them are not reached,
since a call that is too deep is refused before. -/
theorem parallel_traceCallAt (h : Parallel R limits.maxSteps limits'.maxSteps limits.maxDepth)
    (hd : limits'.maxDepth = limits.maxDepth) : ∀ {fuel fuel' d : Nat}, limits.maxDepth ≤ d + fuel →
    limits.maxDepth ≤ d + fuel' → ∀ f this args,
      R d (traceCallAt limits fuel f this args) (traceCallAt limits' fuel' f this args)
  | fuel + 1, fuel' + 1, d, hfuel, hfuel', f, this, args => by
    have hk : Tracer.Parallel R limits.maxDepth (d + 1) ⟨limits.maxSteps, traceCallAt limits fuel⟩
        ⟨limits'.maxSteps, traceCallAt limits' fuel'⟩ :=
      ⟨h, parallel_traceCallAt h hd (by omega) (by omega)⟩
    unfold traceCallAt
    rw [hd]
    exact parallel_traceCall h f this args fun _ env b => parallel_traceBody hk env b
  | 0, 0, d, hfuel, _, f, this, args | 0, _ + 1, d, hfuel, _, f, this, args
  | _ + 1, 0, d, _, hfuel, f, this, args => by
    unfold traceCallAt
    rw [hd]
    exact parallel_traceCall h f this args fun hlt => by omega

/-- The runs of a program under two limits on steps are related. -/
theorem Parallel.program (h : Parallel R limits.maxSteps limits'.maxSteps limits.maxDepth)
    (hd : limits'.maxDepth = limits.maxDepth) (depth : Nat) (p : Program) :
    R depth (traceProgram limits depth p) (traceProgram limits' depth p) := by
  have hk : Tracer.Parallel R limits.maxDepth depth ⟨limits.maxSteps, traceCallAt limits (limits.maxDepth - depth)⟩
      ⟨limits'.maxSteps, traceCallAt limits' (limits'.maxDepth - depth)⟩ :=
    ⟨h, by rw [hd]; exact parallel_traceCallAt h hd (by omega) (by omega)⟩
  exact h.bind (h.primitive _) fun _ => parallel_traceAll hk Machine.globals p

end

end RaiseScript
