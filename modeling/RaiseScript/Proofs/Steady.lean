import RaiseScript.Proofs.Keeping

/-!
# Names and fields that stay as they are

Lowering leaves an operand in place when it reads a name that the program does not reassign, and a
method when its name is one that the program does not write. `analyses_sound` says what this rests
on. At every moment of a run, evaluating an expression of the program or running a try statement of
it leaves such names alone, and no step of the run changes such a field of an object that is already
there.
-/

namespace RaiseScript

variable {p : Program}

/-! ## Whole runs -/

/-- A new machine holds no functions of any program. -/
theorem Machine.within_start (p : Program) : Machine.start.Within p where
  bound {i x b} hb := by
    obtain _ | i := i
    · have hscope : [("console", ⟨.object 0, false⟩), ("String", ⟨.native 1 .string, false⟩),
          ("Error", ⟨.native 2 .error, false⟩)].lookup x = some b := hb
      simp only [lookup_cons_ite, List.lookup_nil] at hscope
      repeat' split at hscope
      all_goals cases hscope
      all_goals trivial
    · cases hb
  items a v hv := by cases hv
  fields {a q v} hv := by
    obtain _ | a := a
    · have hfields : [("log", Value.native 0 .log)].lookup q = some v := hv
      simp only [lookup_cons_ite, List.lookup_nil] at hfields
      split at hfields
      all_goals cases hfields
      all_goals trivial
    · cases hv
  this := trivial

theorem tracing_traceProgram (limits : Limits) (p : Program) :
    Tracing p Machine.globals.Open Machine.start Whatever (traceProgram limits 0 p Machine.start) := by
  have hstart := Machine.within_start p
  have hglobals := Machine.within_globals
  have hpart : PartOf p (walkStmts .all p) := fun _ hv => hv
  refine (Tracing.step (keeping_declareFunctions hstart hglobals hpart)).bind fun n _ hn _ => ?_
  exact sparesAll (keeps_traceCallAt limits _) p hpart hn.within (hglobals.later hn)

theorem Machine.within_of_mem_trace {limits : Limits} {m : Machine}
    (h : m ∈ Machine.trace limits p) : m.Within p := by
  rcases List.mem_cons.1 h with rfl | h
  · exact Machine.within_start p
  · exact (tracing_traceProgram limits p).along.within m h

/-- The analyses that let lowering leave an operand in place are sound. At every machine that the
run of a program reaches, evaluating an expression of the program or running a try statement of it
keeps the names that the program does not reassign, and no step of the run changes a field that the
program does not write of an object that is there. -/
theorem analyses_sound (limits : Limits) (p : Program) :
    (∀ m ∈ Machine.trace limits p, ∀ x ∉ reassigned p, ∀ (depth : Nat) (env : Env),
      env.Within m.scopes.size →
      (∀ e, .expr e ∈ walkStmts .all p →
        (Result.final (evalExpr (Machine.engine limits false depth) env e m)).lookup? x env.chain =
          m.lookup? x env.chain) ∧
      (∀ body handler finalizer span,
        .stmt (.guarded body handler finalizer span) ∈ walkStmts .all p →
        (Result.final (execStmt (Machine.engine limits false depth) env
          (.guarded body handler finalizer span) m)).lookup? x env.chain = m.lookup? x env.chain)) ∧
    (∀ names, assignedProperties p = some names → ∀ q ∉ names,
      (Machine.trace limits p).IsChain fun m n => ∀ a < m.heap.objects.size,
        (n.heap.fields a).lookup q = (m.heap.fields a).lookup q) := by
  refine ⟨fun m hm x hx depth env he => ?_, fun names hn q hq => ?_⟩
  · have hwithin := Machine.within_of_mem_trace hm
    have hk : Tracer.Keeps p ⟨limits.maxSteps, traceCallAt limits (limits.maxDepth - depth)⟩ :=
      keeps_traceCallAt limits _
    have hengine := engine_traceCallAt limits (limits.maxDepth - depth)
    refine ⟨fun e hv => ?_, fun body handler finalizer span hv => ?_⟩
    · have h := sparesExpr hk e (deep (.stmts p) _ hv).subset hwithin he
      rw [Machine.engine, ← hengine, ← run_traceExpr]
      exact h.keeping.keeps.lookup? he hx
    · have h := sparesGuarded hk (deep (.stmts p) _ hv).subset hwithin he
      rw [Machine.engine, ← hengine, ← run_traceStmt]
      exact h.keeping.keeps.lookup? he hx
  · refine (tracing_traceProgram limits p).along.isChain.imp fun m n h a ha => h.fields ha ?_
    exact fun hw => hq (hw names hn)

/-- An error gets a note, and what it says is read in a try statement. -/
def notedError : Program :=
  [.declare .mutable [⟨"e", some (.call (.ident "Error") [.string "late"])⟩] .none,
    .expr (.assign (.member (.ident "e") "note") (.string "again")) .none,
    .guarded [.expr (.member (.ident "e") "message") .none] none (some []) .none]

/-- Reading the message keeps `e`, and the message itself is never changed. -/
theorem analyses_sound_of_notedError :
    (∀ m ∈ Machine.trace ⟨100, 10⟩ notedError, Machine.globals.Within m.scopes.size →
      (Result.final (evalExpr (Machine.engine ⟨100, 10⟩ false 0) Machine.globals
        (.member (.ident "e") "message") m)).lookup? "e" Machine.globals.chain =
          m.lookup? "e" Machine.globals.chain) ∧
    (Machine.trace ⟨100, 10⟩ notedError).IsChain fun m n => ∀ a < m.heap.objects.size,
      (n.heap.fields a).lookup "message" = (m.heap.fields a).lookup "message" := by
  refine ⟨fun m hm he => ?_, (analyses_sound ⟨100, 10⟩ notedError).2 ["note"] rfl "message" (by decide)⟩
  refine ((analyses_sound ⟨100, 10⟩ notedError).1 m hm "e" ?_ 0 Machine.globals he).1 _ ?_
  · simp [reassigned, notedError, walkStmts, Stmt.walk, walkDecls, Expr.walk, walkExprs,
      walkHandler, walkBlock, Visit.rebinds]
  · simp [notedError, walkStmts, Stmt.walk, walkDecls, Expr.walk, walkExprs, walkHandler, walkBlock]

end RaiseScript
