import RaiseScript.Proofs.Budget

/-!
# Evaluation ends

The evaluator says of its bounds on calls and rounds that they are never reached. Here this is made
precise. What a call does is given by an equation in which calls occur again (`Engine.Ties`), a loop
by one in which the loop occurs again, and a chain of `call` by one in which `call` occurs again. If
one of them could run on for ever, its equation would leave open what happens then. But each has one
solution, and this is what the evaluator does (`ties_iff`, `unrolls_iff`, `resolves_iff`) : calls,
because one that is too deep is refused, loops, because each round takes a step, and `call`, because
it takes an argument each time. So a run comes to an end with no bound in its way, except that
conversions of values that contain themselves are given up (`evaluation_ends`). A machine may count
its steps in 64 bits, as the count never gets far beyond the limit (`steps_le_maxCount`).
-/

namespace RaiseScript

variable {α β : Type} {n d : Nat}
variable {x y : Traced α} {room : Nat} {R : Nat → {α : Type} → Traced α → Traced α → Prop}
  {limits : Limits} {k : Engine} {m : Machine}

open Traced (step)

/-! ## Code that ends alike -/

/-- With `d` calls in progress, both come to the same end. -/
structure EndsAlike (d : Nat) (x y : Traced α) : Prop where
  forward : x.Forward d
  same : ∀ m : Machine, m.depth = d → y.run m = x.run m

namespace EndsAlike

theorem refl (hx : x.Forward d) : EndsAlike d x x :=
  ⟨hx, fun _ _ => rfl⟩

theorem bind {f g : α → Traced β} (hx : EndsAlike d x y) (hf : ∀ a, EndsAlike d (f a) (g a)) :
    EndsAlike d (x >>= f) (y >>= g) where
  forward := hx.forward.bind fun a => (hf a).forward
  same m hd := by
    have hm := hx.forward m hd
    rw [Traced.run_bind, Traced.run_bind, Run.bind_apply, Run.bind_apply, hx.same m hd]
    rcases hr : x m with ⟨ms, ⟨a, u⟩ | ⟨e, u⟩⟩
    · rw [hr] at hm
      rw [Traced.run, hr]
      exact (hf a).same u (hm.depth.trans hd)
    · rw [Traced.run, hr]
      rfl

theorem outcome {f g : Except Exit α → Traced β} (hx : EndsAlike d x y)
    (hffail : ∀ e, f (.error (.failed e)) = step (fail e))
    (hgfail : ∀ e, g (.error (.failed e)) = step (fail e)) (hf : ∀ o, Unfailed o → EndsAlike d (f o) (g o)) :
    EndsAlike d (Traced.outcome x >>= f) (Traced.outcome y >>= g) := by
  refine bind ⟨hx.forward.outcome, fun m hd => ?_⟩ fun o => ?_
  · rw [Traced.run_outcome, Traced.run_outcome, RaiseScript.outcome, RaiseScript.outcome, hx.same m hd]
  · obtain ho | ⟨e, rfl⟩ := unfailed_or_failed o
    · exact hf o ho
    · rw [hffail, hgfail]
      exact refl (.failed e)

theorem rounds {x y : Traced Bool} (hx : EndsAlike d x y) (fuel : Nat) :
    EndsAlike d (Traced.rounds x fuel) (Traced.rounds y fuel) := by
  induction fuel with
  | zero => exact refl (.failed _)
  | succ fuel ih =>
    refine bind hx fun b => ?_
    cases b
    · exact refl (.pure ())
    · exact ih

theorem deeper (this : Value) (hx : EndsAlike (d + 1) x y) :
    EndsAlike d (Traced.deeper this x) (Traced.deeper this y) where
  forward := hx.forward.deeper this
  same m hd := by
    have hsame : (y (m.into this)).2 = (x (m.into this)).2 :=
      hx.same (m.into this) (congrArg (· + 1) hd)
    rw [Traced.run, Traced.run, Traced.deeper_apply, Traced.deeper_apply, hsame]

end EndsAlike

theorem parallel_endsAlike : Parallel (fun d {_} => EndsAlike d) n n room where
  atDepth hx hy h := by
    refine ⟨fun m hd => hx m hd ▸ h.forward m hd, fun m hd => ?_⟩
    have hsame := h.same m hd
    rwa [Traced.run, Traced.run, ← hx m hd, ← hy m hd] at hsame
  pure a := .refl (.pure a)
  bind := .bind
  primitive x _ := .refl (.primitive x)
  tick := .refl (.tick n)
  loop hx := .bind (.refl (.primitive get)) fun _ => ((EndsAlike.refl (.tick n)).bind fun _ => hx).rounds _
  outcome := .outcome
  deeper this _ _ _ := .deeper this

/-! ## Calls -/

/-- What the engine calls is what it runs itself. -/
structure Engine.Ties (limits : Limits) (k : Engine) : Prop where
  maxSteps : k.maxSteps = limits.maxSteps
  standard : k.direct = false
  call : k.call = callWithBody limits.maxDepth (runBody k)

/-- The engine with as many calls as the machine has room for. -/
def Engine.unbounded (limits : Limits) : Engine :=
  ⟨limits.maxSteps, false, fun f this args m => callAt limits false (limits.maxDepth - m.depth) f this args m⟩

/-- The tracer with as many calls as the machine has room for. -/
def Tracer.unbounded (limits : Limits) : Tracer :=
  ⟨limits.maxSteps, fun f this args m => traceCallAt limits (limits.maxDepth - m.depth) f this args m⟩

theorem engine_unbounded (limits : Limits) : (Tracer.unbounded limits).engine = Engine.unbounded limits := by
  have hcall (f this : Value) (args : List Value) (m : Machine) :=
    congrArg (fun k : Engine => k.call f this args m) (engine_traceCallAt limits (limits.maxDepth - m.depth))
  exact congrArg (Engine.mk limits.maxSteps false) (by funext f this args m; exact hcall f this args m)

theorem Parallel.unbounded (h : Parallel R limits.maxSteps limits.maxSteps limits.maxDepth) (d : Nat) :
    Tracer.Parallel R limits.maxDepth d (Tracer.unbounded limits) (Tracer.unbounded limits) where
  closed := h
  call f this args := by
    have hat (m : Machine) (hm : m.depth = d) : (Tracer.unbounded limits).call f this args m =
        traceCallAt limits (limits.maxDepth - d) f this args m := by
      subst hm
      rfl
    exact h.atDepth hat hat (parallel_traceCallAt h rfl (by omega) (by omega) f this args)

/-- A tracer that makes a call in one step. -/
def Engine.tracer (k : Engine) : Tracer :=
  ⟨k.maxSteps, fun f this args => step (k.call f this args)⟩

theorem Engine.engine_tracer (hk : k.direct = false) : k.tracer.engine = k := by
  obtain ⟨maxSteps, direct, call⟩ := k
  cases hk
  rfl

theorem Engine.run_traceCall_tracer (hk : k.direct = false) (maxDepth : Nat) (f this : Value)
    (args : List Value) : (traceCall maxDepth (traceBody k.tracer) f this args).run =
      callWithBody maxDepth (runBody k) f this args := by
  rw [run_traceCall]
  simp only [run_traceBody, Engine.engine_tracer hk]

section

/-- A call, when the calls in it end alike. -/
theorem endsAlike_callWithBody (hsteps : k.maxSteps = limits.maxSteps) (hk : k.direct = false) :
    ∀ {fuel d : Nat}, limits.maxDepth ≤ d + fuel →
      (∀ {fuel'}, fuel = fuel' + 1 → ∀ f this args,
        EndsAlike (d + 1) (traceCallAt limits fuel' f this args) (step (k.call f this args))) →
      ∀ f this args, EndsAlike d (traceCallAt limits fuel f this args)
        (step (callWithBody limits.maxDepth (runBody k) f this args))
  | fuel, d, hfuel, hcall, f, this, args => by
    have h : EndsAlike d (traceCallAt limits fuel f this args)
        (traceCall limits.maxDepth (traceBody k.tracer) f this args) := by
      cases fuel with
      | zero =>
        exact parallel_traceCall (parallel_endsAlike (n := limits.maxSteps)) f this args
          fun hlt => by omega
      | succ fuel =>
        have hbodies : Tracer.Parallel (fun d {_} => EndsAlike d) limits.maxDepth (d + 1)
            ⟨limits.maxSteps, traceCallAt limits fuel⟩ k.tracer := ⟨hsteps ▸ parallel_endsAlike, hcall rfl⟩
        exact parallel_traceCall hbodies.closed f this args fun _ env b =>
          parallel_traceBody hbodies env b
    rw [← Engine.run_traceCall_tracer hk]
    exact ⟨h.forward, h.same⟩

/-- The calls of an engine that ties the knot are those of the evaluator, by induction on how many
may be nested. -/
theorem Engine.Ties.endsAlike (hk : k.Ties limits) : ∀ {fuel d : Nat}, limits.maxDepth ≤ d + fuel →
    ∀ f this args, EndsAlike d (traceCallAt limits fuel f this args) (step (k.call f this args))
  | 0, d, hfuel, f, this, args => by
    rw [hk.call]
    exact endsAlike_callWithBody hk.maxSteps hk.standard hfuel nofun f this args
  | fuel + 1, d, hfuel, f, this, args => by
    rw [hk.call]
    refine endsAlike_callWithBody hk.maxSteps hk.standard hfuel (fun h => ?_) f this args
    cases h
    exact hk.endsAlike (by omega)

theorem endsAlike_unbounded {fuel : Nat} (hfuel : limits.maxDepth ≤ d + fuel) (f this : Value)
    (args : List Value) : EndsAlike d (traceCallAt limits fuel f this args)
      (step ((Engine.unbounded limits).call f this args)) := by
  have h : EndsAlike d (traceCallAt limits fuel f this args)
      (traceCallAt limits (limits.maxDepth - d) f this args) :=
    parallel_traceCallAt parallel_endsAlike rfl hfuel (by omega) f this args
  refine ⟨h.forward, fun m hd => ?_⟩
  subst hd
  rw [← engine_unbounded]
  exact h.same m rfl

/-- There is one way to tie the knot. -/
theorem ties_iff : k.Ties limits ↔ k = Engine.unbounded limits := by
  have hroom (m : Machine) : limits.maxDepth ≤ m.depth + (limits.maxDepth - m.depth) := by omega
  constructor
  · intro hk
    have hcall : k.call = (Engine.unbounded limits).call := by
      funext f this args m
      exact ((hk.endsAlike (hroom m) f this args).same m rfl).trans
        ((endsAlike_unbounded (hroom m) f this args).same m rfl).symm
    obtain ⟨maxSteps, direct, call⟩ := k
    obtain ⟨rfl, rfl, -⟩ := hk
    exact congrArg (Engine.mk limits.maxSteps false) hcall
  · rintro rfl
    refine ⟨rfl, rfl, ?_⟩
    funext f this args m
    have hinner := endsAlike_callWithBody (k := Engine.unbounded limits) rfl rfl (hroom m)
      (fun h => endsAlike_unbounded (by omega)) f this args
    exact ((endsAlike_unbounded (hroom m) f this args).same m rfl).trans (hinner.same m rfl).symm

/-- A program runs as with the engine that ties the knot. -/
theorem body_eq_unbounded (limits : Limits) (p : Program) (m : Machine) :
    Machine.body limits false m.depth p m =
      (do declareFunctions Machine.globals p; execAll (Engine.unbounded limits) Machine.globals p : Run Unit) m := by
  have hk : Tracer.Parallel (fun d {_} => EndsAlike d) limits.maxDepth m.depth
      ⟨limits.maxSteps, traceCallAt limits (limits.maxDepth - m.depth)⟩ (Engine.unbounded limits).tracer :=
    ⟨parallel_endsAlike, endsAlike_unbounded (by omega)⟩
  have h : EndsAlike m.depth (traceProgram limits m.depth p) (do
      step (declareFunctions Machine.globals p)
      traceAll (Engine.unbounded limits).tracer Machine.globals p) :=
    hk.closed.bind (hk.closed.primitive _) fun _ => parallel_traceAll hk Machine.globals p
  rw [← run_traceProgram, ← h.same m rfl, Traced.run_bind]
  simp only [Traced.run_step, run_traceAll]
  rfl

end

/-! ## Loops -/

/-- The test of a loop and its body, and whether the loop goes on. -/
def Engine.round (k : Engine) (env : Env) (test : Expr) (body : Stmt) : Run Bool := do
  tick k.maxSteps
  if (← evalExpr k env test).truthy then goesOn (← outcome (execStmt k env body))
  else return false

/-- A loop after its first step. -/
def Engine.loop (k : Engine) (env : Env) (test : Expr) (body : Stmt) : Run Unit := do
  rounds (k.round env test body) (k.maxSteps + 1 - (← get).steps)

theorem execStmt_loop (k : Engine) (env : Env) (test : Expr) (body : Stmt) (sp : Span) :
    execStmt k env (.loop test body sp) = (do tick k.maxSteps; k.loop env test body) := rfl

/-- The loop runs a round, and then itself again. -/
def Unrolls (n : Nat) (round : Run Bool) (x : Run Unit) : Prop :=
  ∀ m : Machine, m.steps ≤ n → x m = (do if ← round then x : Run Unit) m

/-- A round that comes to an end has taken a step, and not too many. -/
def Advances (n : Nat) (round : Run Bool) : Prop :=
  ∀ {m u : Machine} {b : Bool}, m.steps ≤ n → round m = .ok b u → m.steps < u.steps ∧ u.steps ≤ n

theorem rounds_unique {round : Run Bool} (hround : Advances n round) {x : Run Unit} (hx : Unrolls n round x) :
    ∀ (fuel : Nat) (m : Machine), m.steps ≤ n → n < fuel + m.steps → x m = rounds round fuel m
  | 0, m, hs, hfuel => absurd hfuel (by omega)
  | fuel + 1, m, hs, hfuel => by
    rw [hx m hs, rounds, Run.bind_apply, Run.bind_apply]
    cases hr : round m with
    | error e u => rfl
    | ok b u =>
      obtain ⟨hlt, hle⟩ := hround hs hr
      cases b
      · rfl
      · exact rounds_unique hround hx fuel u hle (by omega)

theorem rounds_fuel {round : Run Bool} (hround : Advances n round) :
    ∀ (fuel fuel' : Nat) (m : Machine), m.steps ≤ n → n < fuel + m.steps → n < fuel' + m.steps →
      rounds round fuel m = rounds round fuel' m
  | 0, _, m, hs, hfuel, _ => absurd hfuel (by omega)
  | _, 0, m, hs, _, hfuel' => absurd hfuel' (by omega)
  | fuel + 1, fuel' + 1, m, hs, hfuel, hfuel' => by
    rw [rounds, rounds, Run.bind_apply, Run.bind_apply]
    cases hr : round m with
    | error e u => rfl
    | ok b u =>
      obtain ⟨hlt, hle⟩ := hround hs hr
      cases b
      · rfl
      · exact rounds_fuel hround fuel fuel' u hle (by omega) (by omega)

/-- The unrolled loop has one solution. -/
theorem unrolls_iff_of_advances {round : Run Bool} (hround : Advances n round) (x : Run Unit) :
    Unrolls n round x ↔
      ∀ m : Machine, m.steps ≤ n → x m = rounds round (n + 1 - m.steps) m := by
  constructor
  · intro hx m hs
    exact rounds_unique hround hx _ m hs (by omega)
  · intro hx m hs
    obtain ⟨fuel, hfuel⟩ : ∃ fuel, n + 1 - m.steps = fuel + 1 := ⟨n - m.steps, by omega⟩
    rw [hx m hs, hfuel, rounds, Run.bind_apply, Run.bind_apply]
    cases hr : round m with
    | error e u => rfl
    | ok b u =>
      obtain ⟨hlt, hle⟩ := hround hs hr
      cases b
      · rfl
      · exact (rounds_fuel hround _ _ u hle (by omega) (by omega)).trans (hx u hle).symm

/-- A round after its first step, traced. -/
def Tracer.round (k : Tracer) (env : Env) (test : Expr) (body : Stmt) : Traced Bool := do
  let v ← traceExpr k env test
  if v.truthy then do
    let r ← Traced.outcome (traceStmt k env body)
    step (goesOn r)
  else return false

theorem Tracer.run_round (k : Tracer) (env : Env) (test : Expr) (body : Stmt) :
    (do step (tick k.maxSteps); k.round env test body : Traced Bool).run = k.engine.round env test body := by
  simp [Tracer.round, Engine.round, run_traceExpr, run_traceStmt]

theorem Tracer.Parallel.round {k k' : Tracer} (h : Tracer.Parallel R room d k k') (env : Env)
    (test : Expr) (body : Stmt) : R d (k.round env test body) (k'.round env test body) := by
  refine h.closed.bind (parallel_traceExpr h env test) fun v => Parallel.ite _ ?_ (h.closed.pure false)
  exact h.closed.settle (parallel_traceStmt h env body) (fun _ => rfl) fun _ ho => ho.primitive_goesOn

/-- Each round of a loop takes a step. -/
theorem advances_round (limits : Limits) (env : Env) (test : Expr) (body : Stmt) :
    Advances limits.maxSteps ((Engine.unbounded limits).round env test body) := by
  intro m u b hs hr
  have hk := (parallel_outlasts (Nat.le_refl limits.maxSteps)).unbounded m.depth
  have hafter : Outlasts _ _ _ _ := hk.round env test body
  have hround : Outlasts _ _ _ _ := (Outlasts.tick (Nat.le_refl limits.maxSteps)).bind fun _ => hafter
  have hlt := hafter.left.steps_lt_of_tick limits.maxSteps rfl
  rw [← engine_unbounded, ← Tracer.run_round] at hr
  have hended : (do step (tick limits.maxSteps); (Tracer.unbounded limits).round env test body :
    Traced Bool) m = (_, .ok b u) := Prod.ext rfl hr
  rw [hended] at hlt
  refine ⟨hlt, ?_⟩
  rcases hround.goesOn m rfl hs with ⟨-, -, hwithin⟩ | ⟨before, c, after, stop, hcut, -⟩
  · rw [hended] at hwithin
    exact hwithin.steps
  · rw [hended] at hcut
    exact nomatch (Prod.mk.inj hcut).2

/-- Of all code, the loop alone runs a round and then itself again. -/
theorem unrolls_iff (limits : Limits) (env : Env) (test : Expr) (body : Stmt) (x : Run Unit) :
    Unrolls limits.maxSteps ((Engine.unbounded limits).round env test body) x ↔
      ∀ m : Machine, m.steps ≤ limits.maxSteps → x m = (Engine.unbounded limits).loop env test body m :=
  unrolls_iff_of_advances (advances_round limits env test body) x

/-! ## Chains of `call` -/

/-- What is called in the end : `call` calls its receiver, anything else is called itself. -/
structure Resolves (r : Value → Value → List Value → Value × Value × List Value) : Prop where
  call : ∀ i f args, r (.native i .call) f args = r f (args.headD .undefined) args.tail
  other : ∀ f this args, (∀ i, f ≠ .native i .call) → r f this args = (f, this, args)

theorem resolves_resolveCall : Resolves resolveCall where
  call i f args := by
    cases args with
    | cons this args => rw [resolveCall, List.headD_cons, List.tail_cons]
    | nil =>
      cases f with
      | native j kind => cases kind <;> rfl
      | _ => rfl
  other f this args hf := by
    unfold resolveCall
    split
    · exact absurd rfl (hf _)
    · exact absurd rfl (hf _)
    · exact absurd rfl (hf _)
    · rfl

section

variable {r s : Value → Value → List Value → Value × Value × List Value}

/-- The two agree on a function if they agree on the receiver, in case the function is `call`. -/
theorem Resolves.step (hr : Resolves r) (hs : Resolves s) {f this : Value} {args : List Value}
    (h : r this (args.headD .undefined) args.tail = s this (args.headD .undefined) args.tail) :
    r f this args = s f this args := by
  by_cases hf : ∃ i, f = .native i .call
  · obtain ⟨i, rfl⟩ := hf
    rw [hr.call, hs.call, h]
  · have hf : ∀ i, f ≠ .native i .call := fun i hi => hf ⟨i, hi⟩
    rw [hr.other f this args hf, hs.other f this args hf]

/-- A chain ends because each `call` takes an argument. Without arguments the next receiver is
undefined. -/
theorem Resolves.unique (hr : Resolves r) (hs : Resolves s) : ∀ args f this, r f this args = s f this args
  | [], f, this => by
    have hlast : r .undefined .undefined [] = s .undefined .undefined [] := by
      rw [hr.other _ _ _ (fun _ h => by cases h), hs.other _ _ _ (fun _ h => by cases h)]
    exact hr.step hs (hr.step hs hlast)
  | a :: args, f, this => hr.step hs (hr.unique hs args this a)

/-- There is one way to follow a chain. -/
theorem resolves_iff : Resolves r ↔ r = resolveCall := by
  constructor
  · intro hr
    funext f this args
    exact hr.unique resolves_resolveCall args f this
  · rintro rfl
    exact resolves_resolveCall

end

/-! ## Programs -/

/-- A machine that has exceeded the limit before is stopped at the first statement. -/
theorem traceProgram_of_exceeded (p : Program) (hs : limits.maxSteps < m.steps) :
    (∀ u ∈ (traceProgram limits m.depth p m).1, u.steps ≤ m.steps + 1) ∧
    ∀ f u, (traceProgram limits m.depth p m).2 = .error (.failed f) u →
      f = .stepLimit limits.maxSteps ∨ f.Arises u.heap := by
  have hprimitive : Primitive (declareFunctions Machine.globals p) := inferInstance
  have hsteps := (hprimitive.prolongs m).2
  have harises := hprimitive.arises m
  unfold traceProgram
  cases hr : declareFunctions Machine.globals p m with
  | error e v =>
    have hfirst : step (declareFunctions Machine.globals p) m = ([v], .error e v) := by
      rw [step, hr]
      rfl
    rw [hr] at hsteps harises
    rw [Traced.bind_error hfirst]
    refine ⟨List.forall_mem_singleton.2 (Nat.le_succ_of_le (Nat.le_of_eq hsteps)), fun f u h => ?_⟩
    exact .inr (harises f u (by cases h; rfl))
  | ok a v =>
    have hfirst : step (declareFunctions Machine.globals p) m = ([v], .ok a v) := by
      rw [step, hr]
      rfl
    rw [hr] at hsteps
    change v.steps = m.steps at hsteps
    have hle : ∀ u ∈ [v], u.steps ≤ m.steps + 1 :=
      List.forall_mem_singleton.2 (Nat.le_succ_of_le (Nat.le_of_eq hsteps))
    rw [Traced.bind_ok hfirst]
    cases p with
    | nil => exact ⟨hle, fun f u h => by cases h⟩
    | cons s ss =>
      have htick := Traced.tick_apply limits.maxSteps v
      rw [if_pos (by omega)] at htick
      let w := { v with steps := v.steps + 1 }
      have hstmt : traceStmt ⟨limits.maxSteps, traceCallAt limits (limits.maxDepth - m.depth)⟩
          Machine.globals s v = ([w], .error (.failed (.stepLimit limits.maxSteps)) w) := by
        unfold traceStmt
        exact Traced.bind_error htick
      rw [traceAll, Traced.bind_error hstmt]
      refine ⟨List.forall_mem_append.2 ⟨hle, List.forall_mem_singleton.2 ?_⟩, fun f u h => ?_⟩
      · exact Nat.succ_le_succ (Nat.le_of_eq hsteps)
      · cases h
        exact .inl rfl

/-- A program outlasts itself. -/
theorem outlasts_program (p : Program) :
    Outlasts limits.maxSteps m.depth (traceProgram limits m.depth p) (traceProgram limits m.depth p) :=
  (parallel_outlasts (Nat.le_refl limits.maxSteps)).program rfl m.depth p

/-- A run is given up at the limit on steps, or for a reason of its own. -/
theorem failure_of_body {p : Program} {u : Machine} {f : Failure}
    (h : Machine.body limits false m.depth p m = .error (.failed f) u) :
    f = .stepLimit limits.maxSteps ∨ f.Arises u.heap := by
  rw [← run_traceProgram, Traced.run] at h
  by_cases hs : m.steps ≤ limits.maxSteps
  · rcases (outlasts_program p).goesOn m rfl hs with ⟨-, -, hwithin⟩ | ⟨before, c, after, stop, hcut, -⟩
    · exact Or.inr (hwithin.arises f u h)
    · rw [hcut] at h
      cases h
      exact Or.inl rfl
  · exact (traceProgram_of_exceeded p (Nat.lt_of_not_le hs)).2 f u h

/-- A run whose limit on steps is below the largest number of 64 bits keeps its count of steps
there. -/
theorem steps_le_maxCount (p : Program) (hlimit : limits.maxSteps < maxCount)
    (hm : m.steps < maxCount) : ∀ u ∈ (traceProgram limits m.depth p m).1, u.steps ≤ maxCount := by
  intro u hu
  by_cases hs : m.steps ≤ limits.maxSteps
  · exact Nat.le_trans (((outlasts_program p).goesOn m rfl hs).steps_le u hu) hlimit
  · exact Nat.le_trans ((traceProgram_of_exceeded p (Nat.lt_of_not_le hs)).1 u hu) hm

/-- An arrow function that calls itself, at first through `call`. -/
def endlessArrow : String :=
  "const f = () => f(); f.call.call(f);"

end RaiseScript
