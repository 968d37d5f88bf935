import RaiseScript.Proofs.Ending
import RaiseScript.Proofs.FunctionAnchors

/-!
# Statements that have their turn

A call runs the statements of its body and, where these have statements inside them, some of those.
`Reaches` says that a statement has its turn in this way, in which scopes and on which machine, and
which finally blocks it stands under. Calls inside expressions are not followed, so a statement that
has its turn belongs to the function that is called (`Reaches.anchors`).

A `return` that has its turn ends the call with its value, once the finally blocks it stands under
have come to their ends (`Reaches.returned`). Statements have their turns one after the other, and
no name goes away in between (`Reaches.later`).
-/

namespace RaiseScript

variable {α β : Type} {limits : Limits}
variable {x : Run α} {f : α → Run β} {m n n' l : Machine} {a : α} {e : Exit} {limit : Nat}
  {test : Expr} {body : Stmt} {r : Except Exit Unit} {inner' : Env} {ss' : List Stmt}
  {final' : Option (List Stmt)} {k : Engine} {home : Option Span}

/-! ## Code that goes on -/

theorem Run.bind_ok (h : x m = .ok a n) : (x >>= f) m = f a n := by
  rw [Run.bind_apply, h, Result.andThen_ok]

theorem Run.bind_error (h : x m = .error e n) : (x >>= f) m = .error e n := by
  rw [Run.bind_apply, h, Result.andThen_error]

theorem Run.bind_eq_ok {u : Machine} {b : β} : (x >>= f) m = .ok b u ↔ ∃ a n, x m = .ok a n ∧ f a n = .ok b u := by
  rw [Run.bind_apply]
  cases x m with
  | ok a n => simp
  | error e n => simp

instance rising_unbounded : (Engine.unbounded limits).Rising :=
  ⟨fun f this args => ⟨fun m => (rising_callAt limits false (limits.maxDepth - m.depth) f this args).rises m⟩⟩

instance rising_loop (env : Env) (test : Expr) (body : Stmt) :
    Rising ((Engine.unbounded limits).loop env test body) := by
  unfold Engine.loop Engine.round
  infer_instance

/-! ## The parts of a statement -/

/-- The scope of a block, with its functions. -/
def openBlock (env : Env) (body : List Stmt) : Run Env := do
  let inner ← newScope env false
  declareFunctions inner body
  return inner

/-- The scope of a catch clause, with its parameter and its functions. -/
def openHandler (env : Env) (h : Handler) (thrown : Value) : Run Env := do
  let inner ← newScope env false
  bindParam inner h.param thrown
  declareFunctions inner h.body
  return inner

/-- The scope of a switch, and the case that it starts with. -/
def openSwitch (k : Engine) (env : Env) (subject : Expr) (cases : List Case) : Run (Env × Option Nat) := do
  let v ← evalExpr k env subject
  let inner ← newScope env false
  let chosen ← chooseCase k inner v cases
  return (inner, chosen <|> cases.findIdx? (·.test.isNone))

/-- How the body of a try statement ends. -/
def runGuarded (k : Engine) (env : Env) (body : List Stmt) : Run (Except Exit Unit) :=
  outcome do
    let inner ← openBlock env body
    execAll k inner body

/-- Repeats `round` the given number of times, as long as it says so. -/
def turns (round : Run Bool) : Nat → Run Bool
  | 0 => return true
  | i + 1 => do if ← turns round i then round else return false

/-- The statement, run in `env` on the first machine, runs the statements of its part `i` in other
scopes on the second machine. The last argument is the finally block that runs after the part. -/
inductive Engine.Part (k : Engine) (env : Env) :
    Stmt → Machine → Nat → Env → List Stmt → Machine → Option (List Stmt) → Prop
  | block {body : List Stmt} {sp : Span} {m n : Machine} {inner : Env}
    (h : (do tick k.maxSteps; openBlock env body) m = .ok inner n) :
    Part k env (.block body sp) m 0 inner body n none
  | yes {test : Expr} {yes : Stmt} {no : Option Stmt} {sp : Span} {m n : Machine} {v : Value}
    (h : (do tick k.maxSteps; evalExpr k env test) m = .ok v n) (hv : v.truthy = true) :
    Part k env (.branch test yes no sp) m 0 env [yes] n none
  | no {test : Expr} {yes no : Stmt} {sp : Span} {m n : Machine} {v : Value}
    (h : (do tick k.maxSteps; evalExpr k env test) m = .ok v n) (hv : v.truthy = false) :
    Part k env (.branch test yes (some no) sp) m 0 env [no] n none
  | round {test : Expr} {body : Stmt} {sp : Span} {i : Nat} {m m₁ n : Machine} {v : Value}
    (hm : (do tick k.maxSteps; turns (k.round env test body) i) m = .ok true m₁)
    (h : (do tick k.maxSteps; evalExpr k env test) m₁ = .ok v n) (hv : v.truthy = true) :
    Part k env (.loop test body sp) m i env [body] n none
  | case {subject : Expr} {cases before after : List Case} {c : Case} {sp : Span} {first : Nat}
    {m m₁ n : Machine} {inner : Env}
    (hm : (do tick k.maxSteps; openSwitch k env subject cases) m = .ok (inner, some first) m₁)
    (hc : cases.drop first = before ++ c :: after)
    (h : (do execCases k inner 0 before; declareFunctions inner c.body) m₁ = .ok () n) :
    Part k env (.switch subject cases sp) m before.length inner c.body n none
  | guarded {body : List Stmt} {handler : Option Handler} {finalizer : Option (List
    Stmt)} {sp : Span} {m n : Machine} {inner : Env} (h : (do tick k.maxSteps; openBlock env body)
    m = .ok inner n) : Part k env (.guarded body handler finalizer sp) m 0 inner body n finalizer
  | handler {body : List Stmt} {handler : Handler} {finalizer : Option (List Stmt)} {sp : Span}
    {m m₁ n : Machine} {inner : Env} {thrown : Value}
    (hm : (do tick k.maxSteps; runGuarded k env body) m = .ok (.error (.thrown thrown)) m₁)
    (h : openHandler env handler thrown m₁ = .ok inner n) :
    Part k env (.guarded body (some handler) finalizer sp) m 1 inner handler.body n finalizer
  | finalizer {body finalizer : List Stmt} {handler : Option Handler} {sp : Span} {m m₁ n : Machine}
    {inner : Env} {r : Except Exit Unit} (hr : Unfailed r)
    (hm : (do tick k.maxSteps; execHandler k env (← runGuarded k env body) handler) m = .ok r m₁)
    (h : openBlock env finalizer m₁ = .ok inner n) :
    Part k env (.guarded body handler (some finalizer) sp) m 2 inner finalizer n none

/-- When the statements `ss` are run in `env` on the machine `m`, the statement `s` has its turn in
the scopes `env'` on the machine `n`, under the finally blocks in `pending`, innermost first. -/
inductive Engine.Reaches (k : Engine) :
    Env → List Stmt → Machine → Env → Stmt → Machine → List (Env × Option (List Stmt)) → Prop
  | here {env : Env} {before after : List Stmt} {s : Stmt} {m n : Machine}
    (hm : execAll k env before m = .ok () n) : Reaches k env (before ++ s :: after) m env s n []
  | inside {env inner env' : Env} {before after ss : List Stmt} {s s' : Stmt} {i : Nat}
    {m m₁ m₂ n : Machine} {final : Option (List Stmt)} {pending : List (Env × Option (List Stmt))}
    (hm : execAll k env before m = .ok () m₁) (hp : k.Part env s m₁ i inner ss m₂ final)
    (hr : Reaches k inner ss m₂ env' s' n pending) :
    Reaches k env (before ++ s :: after) m env' s' n (pending ++ [(env, final)])

/-- Runs finally blocks one after the other. -/
def execPending (k : Engine) : List (Env × Option (List Stmt)) → Run Unit
  | [] => return ()
  | (env, final) :: rest => do
    execFinally k env none final
    execPending k rest

theorem execPending_append (k : Engine) (ps qs : List (Env × Option (List Stmt))) :
    execPending k (ps ++ qs) = (do execPending k ps; execPending k qs) := by
  induction ps with
  | nil => simp [execPending]
  | cons p ps ih => simp [execPending, ih]

/-! ## Statements in terms of their parts -/

section

variable (k : Engine) (env : Env)

theorem execStmt_block (body : List Stmt) (sp : Span) : execStmt k env (.block body sp) = (do
      let inner ← (do tick k.maxSteps; openBlock env body)
      execAll k inner body) := by
  simp [execStmt, openBlock]

theorem execStmt_branch (test : Expr) (yes : Stmt) (no : Option Stmt) (sp : Span) :
    execStmt k env (.branch test yes no sp) = (do
      let v ← (do tick k.maxSteps; evalExpr k env test)
      if v.truthy then execStmt k env yes else execAll k env no.toList) := by
  cases no <;> simp [execStmt, execAll]

theorem execStmt_switch (subject : Expr) (cases : List Case) (sp : Span) :
    execStmt k env (.switch subject cases sp) = (do
      let (inner, first) ← (do tick k.maxSteps; openSwitch k env subject cases)
      match first with
      | none => return ()
      | some i => leaveSwitch (← outcome (execCases k inner i cases))) := by
  simp only [openSwitch, bind_assoc]
  rfl

theorem execStmt_try (body : List Stmt) (handler : Option Handler) (finalizer : Option (List Stmt))
    (sp : Span) : execStmt k env (.guarded body handler finalizer sp) = (do
      let r ← (do tick k.maxSteps; execHandler k env (← runGuarded k env body) handler)
      finishing r (execFinally k env none finalizer)) := by
  simp [execStmt, runGuarded, openBlock]

theorem execHandler_some (first : Except Exit Unit) (h : Handler) :
    execHandler k env first (some h) = catching first (fun thrown => do
      let inner ← openHandler env h thrown
      execAll k inner h.body) := by
  obtain ⟨param, body⟩ := h
  simp [execHandler, openHandler]

theorem execFinally_some (body : List Stmt) : execFinally k env none (some body) = (do
      let inner ← openBlock env body
      execAll k inner body) := by
  simp [execFinally, openBlock]

theorem execCases_drop : ∀ (i : Nat) (cs : List Case), execCases k env i cs = execCases k env 0 (cs.drop i)
  | 0, cs => rfl
  | i + 1, [] => by simp [execCases]
  | i + 1, c :: cs => by
    exact execCases_drop i cs

theorem execCases_cons (c : Case) (cs : List Case) : execCases k env 0 (c :: cs) = (do
      declareFunctions env c.body
      execAll k env c.body
      execCases k env 0 cs) := by
  obtain ⟨test, body⟩ := c
  rw [execCases]

theorem execCases_append (cs ds : List Case) :
    execCases k env 0 (cs ++ ds) = (do execCases k env 0 cs; execCases k env 0 ds) := by
  induction cs with
  | nil => simp [execCases]
  | cons c cs ih => simp [execCases_cons, ih]

end

/-! ## How a statement ends after one of its parts -/

section

variable {env inner : Env} {s : Stmt} {ss : List Stmt} {i : Nat} {u u' : Machine} {v : Value}
  {final : Option (List Stmt)}

theorem tick_eq_ok : tick limit m = .ok () n ↔ m.steps < limit ∧ n = { m with steps := m.steps + 1 } := by
  have htick := congrArg Prod.snd (Traced.tick_apply limit m)
  change tick limit m = _ at htick
  rw [htick]
  split
  · next h => simp [Nat.not_lt.2 (Nat.le_of_lt_succ h)]
  · next h => simp [Nat.lt_of_succ_le (Nat.le_of_not_lt h), eq_comm]

/-- A loop after some of its rounds. -/
theorem loop_of_turns (hs : m.steps ≤ limits.maxSteps) :
    ∀ {i : Nat} {n : Machine}, turns ((Engine.unbounded limits).round env test body) i m =
      .ok true n → n.steps ≤ limits.maxSteps ∧ (Engine.unbounded limits).loop env test body m =
        (Engine.unbounded limits).loop env test body n
  | 0, n, h => by
    cases h
    exact ⟨hs, rfl⟩
  | i + 1, n, h => by
    obtain ⟨b, n', hb, h⟩ := Run.bind_eq_ok.1 h
    cases b with
    | false => cases h
    | true =>
      obtain ⟨hs', hloop⟩ := loop_of_turns hs hb
      rw [if_pos rfl] at h
      refine ⟨(advances_round limits env test body hs' h).2, hloop.trans ?_⟩
      rw [(unrolls_iff limits env test body _).2 (fun _ _ => rfl) n' hs', Run.bind_ok h]
      rfl

theorem round_eq (env : Env) (test : Expr) (body : Stmt) : (Engine.unbounded limits).round env test body = (do
      let v ← (do tick limits.maxSteps; evalExpr (.unbounded limits) env test)
      if v.truthy then goesOn (← outcome (execStmt (.unbounded limits) env body)) else return false) := by
  simp [Engine.round, Engine.unbounded]

/-- A loop in one of its rounds. -/
theorem execStmt_loop_of_round {sp : Span} {m₁ : Machine}
    (hm : (do tick limits.maxSteps; turns ((Engine.unbounded limits).round env test body) i) m = .ok true m₁)
    (h : (do tick limits.maxSteps; evalExpr (.unbounded limits) env test) m₁ = .ok v n) (hv : v.truthy = true) :
    execStmt (.unbounded limits) env (.loop test body sp) m = (do
      let on ← (do goesOn (← outcome (execStmt (.unbounded limits) env body)))
      if on then (Engine.unbounded limits).loop env test body : Run Unit) n := by
  obtain ⟨⟨⟩, m', htick, hturns⟩ := Run.bind_eq_ok.1 hm
  obtain ⟨hlt, rfl⟩ := tick_eq_ok.1 htick
  obtain ⟨hs, hloop⟩ := loop_of_turns (m := { m with steps := m.steps + 1 }) hlt hturns
  show (tick limits.maxSteps >>= fun _ => (Engine.unbounded limits).loop env test body) m = _
  rw [Run.bind_ok htick, hloop, (unrolls_iff limits env test body _).2 (fun _ _ => rfl) m₁ hs]
  rw [round_eq, bind_assoc, Run.bind_ok h, if_pos hv]

theorem outcome_bind_ok (h : x m = .ok a n) : outcome (x >>= f) m = outcome (f a) n := by
  rw [outcome, outcome, Run.bind_ok h]

/-- Goes on after code that gave a value, and looks at the outcome. -/
def outcomeAfter (f : α → Run β) : Except Exit α → Run (Except Exit β)
  | .ok a => outcome (f a)
  | .error e => return .error e

instance rising_outcomeAfter (f : α → Run β) [∀ a, Rising (f a)] (r : Except Exit α) :
    Rising (outcomeAfter f r) := by
  cases r <;> unfold outcomeAfter <;> infer_instance

theorem outcome_bind (x : Run α) (f : α → Run β) : outcome (x >>= f) = outcome x >>= outcomeAfter f := by
  funext m
  rw [Run.bind_apply, outcome, Run.bind_apply, outcome]
  cases x m <;> rfl

theorem outcome_conclude (x : Run α) : (outcome x >>= conclude) = x := by
  funext m
  rw [Run.bind_apply, outcome]
  cases x m <;> rfl

theorem final_outcome (x : Run α) (m : Machine) : Result.final (outcome x m) = Result.final (x m) := by
  rw [outcome]
  cases x m <;> rfl

theorem finishing_of_unfailed (hr : Unfailed r) (x : Run Unit) : finishing r x = (do x; conclude r) := by
  match r, hr with
  | .error (.failed f), hr => exact absurd rfl (hr f)
  | .ok (), _ | .error (.thrown _), _ | .error (.returned _), _ | .error .broke, _ | .error .continued, _ => rfl

/-- Whether a jump in the statement leads to its end or to its next round. -/
def Stmt.catches : Stmt → Jump → Bool
  | .loop .., _ => true
  | .switch .., .leave => true
  | _, _ => false

/-- Whether the statement leaves it to others to deal with a part that ends so. -/
def Stmt.passes (s : Stmt) : Exit → Bool
  | .returned _ => true
  | .broke => !s.catches .leave
  | .continued => !s.catches .again
  | .thrown _ | .failed _ => false

/-- Handlers are for thrown values, and finally blocks run after all that is passed on. -/
theorem handling_of_passes {s : Stmt} (he : s.passes e = true) (k : Engine) (env : Env)
    (h : Option Handler) (x : Run Unit) :
    execHandler k env (.error e) h = pure (.error e) ∧ finishing (.error e) x = (do x; throw e) := by
  cases e with
  | thrown | failed => cases he
  | returned | broke | continued =>
    cases h with
    | none => exact ⟨by rw [execHandler], rfl⟩
    | some h => exact ⟨by rw [execHandler_some]; rfl, rfl⟩

theorem throw_bind (e : Exit) (f : α → Run β) : (throw e >>= f) = throw e :=
  rfl

/-- What a statement does after one of its parts has ended. -/
structure Engine.Goes (k : Engine) (env : Env) (s : Stmt) (m : Machine) (inner : Env) (ss : List Stmt)
    (n : Machine) (final : Option (List Stmt)) (next : Except Exit Unit → Run Unit) : Prop where
  rising : ∀ r, RaiseScript.Rising (next r)
  eq : execStmt k env s m = (outcome (execAll k inner ss) >>= next) n
  passed : ∀ e, s.passes e = true → next (.error e) = (do execFinally k env none final; throw e)

section

variable (hp : (Engine.unbounded limits).Part env s m i inner ss n final)

include hp

theorem Engine.Part.goes : ∃ next, (Engine.unbounded limits).Goes env s m inner ss n final next := by
  cases hp with
  | block h =>
    refine ⟨conclude, inferInstance, ?_, fun e _ => ?_⟩
    · rw [execStmt_block, Run.bind_ok h, outcome_conclude]
    · simp [execFinally, conclude]
  | yes h hv =>
    refine ⟨conclude, inferInstance, ?_, fun e _ => ?_⟩
    · rw [execStmt_branch, Run.bind_ok h, if_pos hv, outcome_conclude, execAll_single]
    · simp [execFinally, conclude]
  | no h hv =>
    refine ⟨conclude, inferInstance, ?_, fun e _ => ?_⟩
    · rw [execStmt_branch, Run.bind_ok h, if_neg (by simp [hv]), outcome_conclude]
      rfl
    · simp [execFinally, conclude]
  | @round test body _ _ _ _ _ _ hm h hv =>
    refine ⟨fun r => do if ← goesOn r then (Engine.unbounded limits).loop env test body,
      inferInstance, ?_, fun e he => ?_⟩
    · rw [execStmt_loop_of_round hm h hv, execAll_single, bind_assoc]
    · cases e with
      | returned v => simp [execFinally, goesOn, throw_bind]
      | _ => cases he
  | @case _ _ _ after _ _ _ _ _ _ _ hm hc h =>
    refine ⟨fun r => outcomeAfter (fun _ => execCases (.unbounded limits) inner 0 after) r >>=
      leaveSwitch, inferInstance, ?_, fun e he => ?_⟩
    · rw [execStmt_switch, Run.bind_ok hm]
      dsimp only
      rw [execCases_drop, hc, execCases_append, execCases_cons, ← bind_assoc, Run.bind_apply,
        outcome_bind_ok h, outcome_bind, ← Run.bind_apply, bind_assoc]
    · cases e with
      | returned | continued => simp [execFinally, outcomeAfter, leaveSwitch, conclude]
      | _ => cases he
  | @guarded _ handler _ _ _ _ _ h =>
    refine ⟨fun r => execHandler (.unbounded limits) env r handler >>= fun r' =>
      finishing r' (execFinally (.unbounded limits) env none final), inferInstance, ?_, fun e he => ?_⟩
    · obtain ⟨⟨⟩, m', htick, hopen⟩ := Run.bind_eq_ok.1 h
      rw [execStmt_try, bind_assoc, Run.bind_ok htick, bind_assoc, runGuarded, Run.bind_apply,
        outcome_bind_ok hopen, ← Run.bind_apply]
    · obtain ⟨hhandler, hfinal⟩ := handling_of_passes he (.unbounded limits) env handler
        (execFinally (.unbounded limits) env none final)
      rw [hhandler, pure_bind, hfinal]
  | handler hm h =>
    refine ⟨fun r => finishing r (execFinally (.unbounded limits) env none final),
      inferInstance, ?_, fun e he => (handling_of_passes he (.unbounded limits) env none _).2⟩
    rw [execStmt_try, ← bind_assoc, bind_assoc, Run.bind_ok hm, execHandler_some, catching,
      Run.bind_apply, outcome_bind_ok h, ← Run.bind_apply]
  | @finalizer _ _ _ _ _ _ _ _ r hu hm h =>
    refine ⟨fun r' => conclude r' >>= fun _ => conclude r, inferInstance, ?_, fun e _ => ?_⟩
    · rw [execStmt_try, Run.bind_ok hm, finishing_of_unfailed hu, execFinally_some, bind_assoc,
        Run.bind_ok h, ← bind_assoc, outcome_conclude]
    · simp [execFinally, conclude, throw_bind]

/-- A statement that passes on how one of its parts ends does so after the finally block. -/
theorem Engine.Part.passed (he : s.passes e = true) (hr : execAll (.unbounded limits) inner ss n = .error e u)
    (hf : execFinally (.unbounded limits) env none final u = .ok () u') :
    execStmt (.unbounded limits) env s m = .error e u' := by
  obtain ⟨next, hnext⟩ := hp.goes
  rw [hnext.eq, Run.bind_ok (outcome_error hr), hnext.passed e he, Run.bind_ok hf]
  rfl

/-- What a part of a statement leaves comes before what the statement leaves. -/
theorem Engine.Part.ends : (Result.final (execAll (.unbounded limits) inner ss n)).Prolongs
      (Result.final (execStmt (.unbounded limits) env s m)) := by
  obtain ⟨next, hnext⟩ := hp.goes
  have := hnext.rising
  rw [hnext.eq, ← final_outcome]
  exact Rising.andThen n

end

theorem prolongs_of_tick [Rising x] (h : (do tick limit; x) m = .ok a n) : m.Prolongs n ∧ m.steps < n.steps := by
  refine ⟨Rising.of_ok h, ?_⟩
  obtain ⟨⟨⟩, m', htick, hx⟩ := Run.bind_eq_ok.1 h
  obtain ⟨-, rfl⟩ := tick_eq_ok.1 htick
  exact (Rising.of_ok hx).steps

instance rising_turns (round : Run Bool) [Rising round] : ∀ i, Rising (turns round i)
  | 0 => by unfold turns; infer_instance
  | i + 1 => by
    have := rising_turns round i
    unfold turns
    infer_instance

instance rising_openBlock (env : Env) (body : List Stmt) : Rising (openBlock env body) := by
  unfold openBlock
  infer_instance

instance rising_openHandler (env : Env) (h : Handler) (v : Value) : Rising (openHandler env h v) := by
  unfold openHandler
  infer_instance

instance rising_openSwitch (env : Env) (subject : Expr) (cases : List Case) :
    Rising (openSwitch (.unbounded limits) env subject cases) := by
  unfold openSwitch
  infer_instance

instance rising_runGuarded (env : Env) (body : List Stmt) :
    Rising (runGuarded (.unbounded limits) env body) := by
  unfold runGuarded
  infer_instance

instance rising_round (env : Env) (test : Expr) (body : Stmt) :
    Rising ((Engine.unbounded limits).round env test body) := by
  unfold Engine.round
  infer_instance

/-- A part starts at a later step than its statement. -/
theorem Engine.Part.starts (hp : (Engine.unbounded limits).Part env s m i inner ss n final) :
    m.Prolongs n ∧ m.steps < n.steps := by
  have hlater {l : Machine} (h : m.Prolongs l ∧ m.steps < l.steps) (h' : l.Prolongs n) :
      m.Prolongs n ∧ m.steps < n.steps :=
    ⟨h.1.trans h', Nat.lt_of_lt_of_le h.2 h'.steps⟩
  cases hp with
  | block h | guarded h | yes h | no h => exact prolongs_of_tick h
  | round hm h | case hm _ h | handler hm h | finalizer _ hm h =>
    exact hlater (prolongs_of_tick hm) (Rising.of_ok h)

/-- A statement has one part of each number. -/
theorem Engine.Part.unique (hp : (Engine.unbounded limits).Part env s m i inner ss n final)
    (hp' : (Engine.unbounded limits).Part env s m i inner' ss' n' final') :
    inner' = inner ∧ ss' = ss ∧ n' = n := by
  generalize hi : i = j at hp'
  cases hp with
  | block h =>
    cases hp' with
    | block h' =>
      cases h.symm.trans h'
      exact ⟨rfl, rfl, rfl⟩
  | guarded h =>
    cases hp' with
    | guarded h' =>
      cases h.symm.trans h'
      exact ⟨rfl, rfl, rfl⟩
    | handler | finalizer => cases hi
  | yes h hv | no h hv =>
    cases hp' with
    | yes h' hv' | no h' hv' =>
      cases h.symm.trans h'
      simp_all
  | round hm h hv =>
    cases hp' with
    | round hm' h' hv' =>
      cases hi
      cases hm.symm.trans hm'
      cases h.symm.trans h'
      exact ⟨rfl, rfl, rfl⟩
  | case hm hc h =>
    cases hp' with
    | case hm' hc' h' =>
      cases hm.symm.trans hm'
      obtain ⟨rfl, hrest⟩ := List.append_inj (hc.symm.trans hc') hi
      cases hrest
      cases h.symm.trans h'
      exact ⟨rfl, rfl, rfl⟩
  | handler hm h =>
    cases hp' with
    | handler hm' h' =>
      cases hm.symm.trans hm'
      cases h.symm.trans h'
      exact ⟨rfl, rfl, rfl⟩
    | guarded | finalizer => cases hi
  | finalizer hu hm h =>
    cases hp' with
    | finalizer hu' hm' h' =>
      cases hm.symm.trans hm'
      cases h.symm.trans h'
      exact ⟨rfl, rfl, rfl⟩
    | guarded | handler => cases hi

/-- Some round before the last one, and what it left. -/
theorem exists_turn {round : Run Bool} [Rising round] {i : Nat} : ∀ {j : Nat} {u : Machine}, i < j →
    turns round j m = .ok true u →
    ∃ n n', turns round i m = .ok true n ∧ round n = .ok true n' ∧ n'.Prolongs u
  | j + 1, u, hij, h => by
    obtain ⟨b, l, hl, hround⟩ := Run.bind_eq_ok.1 h
    cases b with
    | false => cases hround
    | true =>
      rcases Nat.lt_or_eq_of_le (Nat.le_of_lt_succ hij) with hlt | rfl
      · obtain ⟨n, n', hn, hn', hpro⟩ := exists_turn hlt hl
        exact ⟨n, n', hn, hn', hpro.trans (Rising.of_ok hround)⟩
      · exact ⟨l, u, hl, hround, .refl u⟩

theorem exists_between {b b' a a' : List α} {x x' : α} (h : b ++ x :: a = b' ++ x' :: a')
    (hl : b.length < b'.length) : ∃ mid, b' = b ++ x :: mid := by
  rcases List.append_eq_append_iff.1 h with ⟨as, rfl, has⟩ | ⟨bs, rfl, -⟩
  · cases as with
    | nil => simp at hl
    | cons y mid =>
      cases has
      exact ⟨mid, rfl⟩
  · rw [List.length_append] at hl
    omega

/-- What the body of a loop leaves comes before what the round leaves. -/
theorem round_ends {b : Bool} (h : (do tick limits.maxSteps; evalExpr (.unbounded limits) env test) m = .ok v n)
    (hv : v.truthy = true) (hl : (Engine.unbounded limits).round env test body m = .ok b l) :
    (Result.final (execStmt (.unbounded limits) env body n)).Prolongs l := by
  rw [round_eq, Run.bind_ok h, if_pos hv] at hl
  have hafter := Rising.andThen (x := outcome (execStmt (.unbounded limits) env body)) (f := goesOn) n
  rwa [hl, final_outcome] at hafter

/-- What the body of a try statement leaves. -/
theorem runGuarded_ends {body : List Stmt} (h : (do tick limits.maxSteps; openBlock env body) m = .ok inner n)
    (hl : (do tick limits.maxSteps; runGuarded (.unbounded limits) env body) m = .ok r l) :
    Result.final (execAll (.unbounded limits) inner body n) = l := by
  obtain ⟨⟨⟩, m', htick, hopen⟩ := Run.bind_eq_ok.1 h
  rw [Run.bind_ok htick, runGuarded, outcome_bind_ok hopen] at hl
  rw [← final_outcome, hl, Result.final_ok]

/-- A part of a statement comes to its end before a later part starts. -/
theorem Engine.Part.order {j : Nat} (hp : (Engine.unbounded limits).Part env s m i inner ss n final)
    (hp' : (Engine.unbounded limits).Part env s m j inner' ss' n' final') (hij : i < j) :
    (Result.final (execAll (.unbounded limits) inner ss n)).Prolongs n' := by
  cases hp' with
  | block | yes | no | guarded => cases hij
  | round hm' h' hv' =>
    cases hp with
    | round hm h hv =>
      obtain ⟨⟨⟩, l, htick, hm⟩ := Run.bind_eq_ok.1 hm
      rw [Run.bind_ok htick] at hm'
      obtain ⟨l₁, l₂, hl₁, hl₂, hpro⟩ := exists_turn hij hm'
      cases hm.symm.trans hl₁
      rw [execAll_single]
      exact (round_ends h hv hl₂).trans (hpro.trans (Rising.of_ok h'))
  | case hm' hc' h' =>
    cases hp with
    | case hm hc h =>
      cases hm.symm.trans hm'
      obtain ⟨mid, rfl⟩ := exists_between (hc.symm.trans hc') hij
      rw [execCases_append, execCases_cons, bind_assoc, bind_assoc, ← bind_assoc, Run.bind_ok h, bind_assoc] at h'
      obtain ⟨⟨⟩, l, hl, h'⟩ := Run.bind_eq_ok.1 h'
      rw [hl]
      exact Rising.of_ok h'
  | handler hm' h' =>
    cases hp with
    | guarded h =>
      rw [runGuarded_ends h hm']
      exact Rising.of_ok h'
    | handler | finalizer => omega
  | finalizer hu' hm' h' =>
    rw [← bind_assoc] at hm'
    obtain ⟨r, l, hl, hhandler⟩ := Run.bind_eq_ok.1 hm'
    cases hp with
    | guarded h =>
      rw [runGuarded_ends h hl]
      exact (Rising.of_ok hhandler).trans (Rising.of_ok h')
    | handler hm h =>
      cases hm.symm.trans hl
      rw [execHandler_some, catching, outcome_bind_ok h] at hhandler
      rw [← final_outcome, hhandler]
      exact Rising.of_ok h'
    | finalizer => omega

end

/-! ## One turn after the other -/

section

variable {env env' env₁ env₂ : Env} {s s₁ s₂ : Stmt} {ss : List Stmt} {n₁ n₂ u u' : Machine}
  {v : Value} {pending pending₁ pending₂ : List (Env × Option (List Stmt))}

/-- As in `Reaches` a statement has its turn, and the statements around it would pass on that it
ends so. -/
inductive Engine.Escapes (k : Engine) (e : Exit) :
    Env → List Stmt → Machine → Env → Stmt → Machine → List (Env × Option (List Stmt)) → Prop
  | here {env : Env} {before after : List Stmt} {s : Stmt} {m n : Machine}
    (hm : execAll k env before m = .ok () n) : Escapes k e env (before ++ s :: after) m env s n []
  | inside {env inner env' : Env} {before after ss : List Stmt} {s s' : Stmt} {i : Nat}
    {m m₁ m₂ n : Machine} {final : Option (List Stmt)} {pending : List (Env × Option (List Stmt))}
    (hm : execAll k env before m = .ok () m₁) (hs : s.passes e = true) (hp : k.Part env s m₁ i inner ss m₂ final)
    (hr : Escapes k e inner ss m₂ env' s' n pending) :
    Escapes k e env (before ++ s :: after) m env' s' n (pending ++ [(env, final)])

/-- What is passed on ends all the statements, after the finally blocks. -/
theorem Engine.Escapes.ended (h : (Engine.unbounded limits).Escapes e env ss m env' s n pending)
    (hs : execStmt (.unbounded limits) env' s n = .error e u)
    (hp : execPending (.unbounded limits) pending u = .ok () u') :
    execAll (.unbounded limits) env ss m = .error e u' := by
  induction h generalizing u' with
  | here hm =>
    cases hp
    rw [execAll_append, Run.bind_ok hm, execAll, Run.bind_error hs]
  | inside hm hpass hpart _ ih =>
    rw [execPending_append] at hp
    obtain ⟨⟨⟩, l, hl, hp⟩ := Run.bind_eq_ok.1 hp
    obtain ⟨⟨⟩, l', hl', hp⟩ := Run.bind_eq_ok.1 hp
    cases hp
    rw [execAll_append, Run.bind_ok hm, execAll, Run.bind_error (hpart.passed hpass (ih hs hl) hl')]

/-- Every statement passes a `return` on. -/
theorem Engine.Reaches.escapes (h : k.Reaches env ss m env' s n pending) :
    k.Escapes (.returned v) env ss m env' s n pending := by
  induction h with
  | here hm => exact .here hm
  | inside hm hpart _ ih => exact .inside hm rfl hpart ih

/-- A `return` that has its turn ends the statements, after the finally blocks it stands under. -/
theorem Engine.Reaches.returned (h : (Engine.unbounded limits).Reaches env ss m env' s n pending)
    (hs : execStmt (.unbounded limits) env' s n = .error (.returned v) u)
    (hp : execPending (.unbounded limits) pending u = .ok () u') :
    execAll (.unbounded limits) env ss m = .error (.returned v) u' :=
  h.escapes.ended hs hp

theorem prolongs_execAll_cons (env : Env) (s : Stmt) (ss : List Stmt) (m : Machine) :
    (Result.final (execStmt (.unbounded limits) env s m)).Prolongs
      (Result.final (execAll (.unbounded limits) env (s :: ss) m)) := by
  exact Rising.andThen m

/-- A statement has its turn after the start and before the end. -/
theorem Engine.Reaches.during (h : (Engine.unbounded limits).Reaches env ss m env' s n pending) :
    m.Prolongs n ∧ (Result.final (execStmt (.unbounded limits) env' s n)).Prolongs
      (Result.final (execAll (.unbounded limits) env ss m)) := by
  induction h with
  | here hm =>
    refine ⟨Rising.of_ok hm, ?_⟩
    rw [execAll_append, Run.bind_ok hm]
    exact prolongs_execAll_cons _ _ _ _
  | inside hm hpart _ ih =>
    refine ⟨(Rising.of_ok hm).trans (hpart.starts.1.trans ih.1), ih.2.trans (hpart.ends.trans ?_)⟩
    rw [execAll_append, Run.bind_ok hm]
    exact prolongs_execAll_cons _ _ _ _

/-- The statement, or one inside it, has its turn. -/
inductive Engine.Within (k : Engine) (env : Env) (s : Stmt) (m : Machine) : Env → Stmt → Machine → Prop
  | refl : Within k env s m env s m
  | part {i : Nat} {inner env' : Env} {ss : List Stmt} {s' : Stmt} {l n : Machine} {final : Option
    (List Stmt)} {pending : List (Env × Option (List Stmt))} (hp : k.Part env s m i
    inner ss l final) (hr : k.Reaches inner ss l env' s' n pending) : Within k env s m env' s' n

theorem Engine.Reaches.split (h : k.Reaches env ss m env' s n pending) :
    ∃ before t after l, ss = before ++ t :: after ∧ execAll k env before m = .ok () l ∧
      k.Within env t l env' s n := by
  cases h with
  | here hm => exact ⟨_, _, _, _, rfl, hm, .refl⟩
  | inside hm hp hr => exact ⟨_, _, _, _, rfl, hm, .part hp hr⟩

theorem Engine.Within.during (h : (Engine.unbounded limits).Within env s m env' s₁ n) :
    m.Prolongs n ∧ (Result.final (execStmt (.unbounded limits) env' s₁ n)).Prolongs
      (Result.final (execStmt (.unbounded limits) env s m)) := by
  cases h with
  | refl => exact ⟨.refl m, .refl _⟩
  | part hp hr => exact ⟨hp.starts.1.trans hr.during.1, hr.during.2.trans hp.ends⟩

/-- One of the statements comes to its end before the next one has its turn. -/
theorem prolongs_of_before {before mid : List Stmt} (hl : execAll (.unbounded limits) env before m = .ok () l)
    (hn : execAll (.unbounded limits) env (before ++ s :: mid) m = .ok () n) :
    (Result.final (execStmt (.unbounded limits) env s l)).Prolongs n := by
  rw [execAll_append, Run.bind_ok hl] at hn
  have h : (Result.final (execStmt (.unbounded limits) env s l)).Prolongs _ := prolongs_execAll_cons env s mid l
  rwa [hn] at h

/-- A statement comes to its end before another one has its turn at a later step, unless this one is
inside it. -/
theorem Engine.Reaches.later (h₁ : (Engine.unbounded limits).Reaches env ss m env₁ s₁ n₁ pending₁)
    (h₂ : (Engine.unbounded limits).Reaches env ss m env₂ s₂ n₂ pending₂)
    (hs : ∀ {i inner ts l final}, ¬ (Engine.unbounded limits).Part env₁ s₁ n₁ i inner ts l final)
    (hlt : n₁.steps < n₂.steps) :
    (Result.final (execStmt (.unbounded limits) env₁ s₁ n₁)).Prolongs n₂ := by
  -- Whatever the second statement is inside of has not come to its end when the first one has its turn.
  have hnot {env : Env} {t : Stmt} {l : Machine} (hw : (Engine.unbounded limits).Within env t l env₂ s₂ n₂) :
      ¬ (Result.final (execStmt (.unbounded limits) env t l)).Prolongs n₁ := by
    intro hpro
    have hend := (((rising_execStmt (.unbounded limits) env₂ s₂).rises n₂).trans (hw.during.2.trans hpro)).steps
    omega
  induction h₁ generalizing pending₂ with
  | @here env before after s m n hm =>
    obtain ⟨before', t, after', l, hss, hl, hw⟩ := h₂.split
    rcases Nat.lt_trichotomy before.length before'.length with hlen | hlen | hlen
    · obtain ⟨mid, rfl⟩ := exists_between hss hlen
      exact (prolongs_of_before hm hl).trans hw.during.1
    · obtain ⟨rfl, hrest⟩ := List.append_inj hss hlen
      cases hrest
      cases hm.symm.trans hl
      cases hw with
      | refl => exact absurd hlt (Nat.lt_irrefl _)
      | part hp _ => exact absurd hp hs
    · obtain ⟨mid, rfl⟩ := exists_between hss.symm hlen
      exact absurd (prolongs_of_before hl hm) (hnot hw)
  | @inside env inner env' before after ss s s' i m l₁ l₂ n final pending hm hp hr ih =>
    obtain ⟨before', t, after', l, hss, hl, hw⟩ := h₂.split
    have hpoint := Engine.Within.part hp hr
    rcases Nat.lt_trichotomy before.length before'.length with hlen | hlen | hlen
    · obtain ⟨mid, rfl⟩ := exists_between hss hlen
      exact hpoint.during.2.trans ((prolongs_of_before hm hl).trans hw.during.1)
    · obtain ⟨rfl, hrest⟩ := List.append_inj hss hlen
      cases hrest
      cases hm.symm.trans hl
      cases hw with
      | refl =>
        have hpart := hp.starts.2
        have hturn := hr.during.1.steps
        omega
      | @part j _ _ _ _ _ _ _ _ hp' hr' =>
        rcases Nat.lt_trichotomy i j with hij | rfl | hij
        · exact hr.during.2.trans ((hp.order hp' hij).trans hr'.during.1)
        · obtain ⟨rfl, rfl, rfl⟩ := hp.unique hp'
          exact ih hr' hs hlt hnot
        · have hend := (((rising_execStmt (.unbounded limits) env₂ s₂).rises n₂).trans
            (hr'.during.2.trans ((hp'.order hp hij).trans hr.during.1))).steps
          omega
    · obtain ⟨mid, rfl⟩ := exists_between hss.symm hlen
      exact absurd ((prolongs_of_before hl hm).trans hpoint.during.1) (hnot hw)

end

/-! ## Where a statement stands -/

section

variable {env env' inner : Env} {s s' : Stmt} {ss : List Stmt} {i : Nat}
  {final : Option (List Stmt)} {pending : List (Env × Option (List Stmt))}

theorem mem_anchorsOfStmts {a : Anchored} (ha : a ∈ s.anchors home) (before after : List Stmt) :
    a ∈ anchorsOfStmts home (before ++ s :: after) := by
  simp [anchorsOfStmts, ha]

/-- A part of a statement belongs to the same function. -/
theorem Engine.Part.anchors (hp : k.Part env s m i inner ss n final) (home : Option Span) :
    ∀ a ∈ anchorsOfStmts home ss, a ∈ s.anchors home := by
  intro a ha
  cases hp with
  | block => exact ha
  | @yes _ _ no => cases no <;> simp_all [anchorsOfStmts, Stmt.anchors]
  | no => simp_all [anchorsOfStmts, Stmt.anchors]
  | round => simp_all [anchorsOfStmts, Stmt.anchors]
  | @case _ cases before after c _ first _ _ _ _ _ hc =>
    have hcases (cs : List Case) (hmem : c ∈ cs) : a ∈ anchorsOfCases home cs := by
      induction cs with
      | nil => cases hmem
      | cons d ds ih =>
        obtain ⟨_ | test, body⟩ := d <;> rcases List.mem_cons.1 hmem with rfl | hmem <;>
          simp_all [anchorsOfCases]
    have hmem : c ∈ cases := List.mem_of_mem_drop (i := first) (by simp [hc])
    simp [Stmt.anchors, hcases cases hmem]
  | guarded => simp_all [Stmt.anchors]
  | @handler _ h =>
    obtain ⟨param, body⟩ := h
    simp_all [Stmt.anchors, anchorsOfHandler]
  | finalizer => simp_all [Stmt.anchors, anchorsOfBlock]

/-- A statement that has its turn belongs to the same function. -/
theorem Engine.Reaches.anchors (h : k.Reaches env ss m env' s n pending) {a : Anchored}
    (ha : a ∈ s.anchors home) : a ∈ anchorsOfStmts home ss := by
  induction h with
  | here _ => exact mem_anchorsOfStmts ha _ _
  | inside _ hp _ ih => exact mem_anchorsOfStmts (hp.anchors home a (ih ha)) _ _

/-- The scopes of `env'` are those of `env` and others inside the same function. -/
def Env.Inside (env' env : Env) : Prop :=
  ∃ more, env'.chain = more ++ env.chain ∧ ∀ l ∈ more, l.isBody = false

theorem Env.Inside.refl (env : Env) : env.Inside env :=
  ⟨[], rfl, by simp⟩

theorem Env.Inside.trans {a b c : Env} (h : a.Inside b) (h' : b.Inside c) : a.Inside c := by
  obtain ⟨more, hmore, hbody⟩ := h
  obtain ⟨more', hmore', hbody'⟩ := h'
  exact ⟨more ++ more', by rw [hmore, hmore', List.append_assoc], List.forall_mem_append.2 ⟨hbody, hbody'⟩⟩

theorem newScope_inside (h : newScope env false m = .ok inner n) : inner.Inside env := by
  cases h
  exact ⟨[_], rfl, by simp⟩

theorem openBlock_inside {body : List Stmt} (h : openBlock env body m = .ok inner n) : inner.Inside env := by
  obtain ⟨_, _, hnew, h⟩ := Run.bind_eq_ok.1 h
  obtain ⟨_, _, _, h⟩ := Run.bind_eq_ok.1 h
  cases h
  exact newScope_inside hnew

theorem openHandler_inside {h : Handler} {v : Value} (ho : openHandler env h v m = .ok inner n) :
    inner.Inside env := by
  obtain ⟨_, _, hnew, ho⟩ := Run.bind_eq_ok.1 ho
  obtain ⟨_, _, _, ho⟩ := Run.bind_eq_ok.1 ho
  obtain ⟨_, _, _, ho⟩ := Run.bind_eq_ok.1 ho
  cases ho
  exact newScope_inside hnew

theorem openSwitch_inside {subject : Expr} {cases : List Case} {first : Option Nat}
    (h : openSwitch k env subject cases m = .ok (inner, first) n) : inner.Inside env := by
  obtain ⟨_, _, _, h⟩ := Run.bind_eq_ok.1 h
  obtain ⟨_, _, hnew, h⟩ := Run.bind_eq_ok.1 h
  obtain ⟨_, _, _, h⟩ := Run.bind_eq_ok.1 h
  cases h
  exact newScope_inside hnew

/-- A part of a statement runs in scopes of the same function. -/
theorem Engine.Part.inside (hp : k.Part env s m i inner ss n final) : inner.Inside env := by
  cases hp with
  | block h | guarded h =>
    obtain ⟨_, _, _, h⟩ := Run.bind_eq_ok.1 h
    exact openBlock_inside h
  | yes | no | round => exact .refl env
  | case hm =>
    obtain ⟨_, _, _, hm⟩ := Run.bind_eq_ok.1 hm
    exact openSwitch_inside hm
  | handler _ h => exact openHandler_inside h
  | finalizer _ _ h => exact openBlock_inside h

/-- A statement has its turn in scopes of the same function. -/
theorem Engine.Reaches.inside_scopes (h : k.Reaches env ss m env' s n pending) : env'.Inside env := by
  induction h with
  | here _ => exact .refl _
  | inside _ hp _ ih => exact ih.trans hp.inside

end

end RaiseScript
