import RaiseScript.Proofs.Views

/-!
# Tests that became statements

The test of a loop may hold a try expression. It then becomes statements in front of what is left of
it, which run in a scope of their own (`Hoisted.test`). What becomes of a test imitates it if the
clauses of its try expressions hold no further ones (`testImitates_of_flat`).
-/

namespace RaiseScript

variable {α β : Type} {temp : String → Prop}
variable {q : Progress} {h : Hoisted} {x : String} {F : Run Unit} {k : Engine} {env : Env}
  {e : Expr} {s : Surroundings}

/-! ## Tests -/

/-- The statements in front of a test run in a scope of their own. One step later what is left of
the test is evaluated there. -/
def Hoisted.test (k : Engine) (env : Env) (h : Hoisted) : Run Value := do
  let inner ← newScope env false
  execAll k inner h.before
  tick k.maxSteps
  evalExpr k inner h.value

variable (temp) in
/-- What became of a test does what the test does, and its scope holds temporaries only. -/
def TestImitates (test : Expr) (h : Hoisted) : Prop :=
  Imitates temp (Alike (.mirror temp)) (fun w m => w.withExtra m.scopes.size) (evalExpr · · test)
    (Hoisted.test · · h)

variable (temp) in
/-- The code is never left by a `break` or a `continue`. -/
def Stays (x : Engine → Env → Run α) : Prop :=
  ∀ (limits : Limits) (s : View) (m : Machine) (env : Env), s.Covers temp m → s.Holds env → ∀ e n,
    x (Machine.engine limits true m.depth) env m = .error e n → e ≠ .broke ∧ e ≠ .continued

/-! ## Tests with one try expression -/

theorem Setting.lowers_mirror : (Setting.mirror temp).Lowers .any := by
  intro f f' p q hl _ htame
  obtain ⟨vs, hvs⟩ := f.walk_eq_cons .all
  have hhead := htame (.func f) (by rw [hvs]; exact List.mem_cons_self)
  have hplain : Plain (f.walk .all) :=
    Plain.iff_meetsAttempt.2 (by simpa [Visit.isFlat] using hhead.flat rfl)
  rw [lowerFunc_plain _ f hplain] at hl
  cases hl
  exact ⟨rfl, fun v hv => (htame v hv).names⟩

/-- A test whose clauses and functions hold no further try expressions is imitated by what becomes
of it. -/
theorem testImitates_of_flat {test : Expr} {p : Progress} (hl : Lowerable .any (test.walk .all))
    (hflat : ∀ v ∈ test.walk .all, v.isFlat = true)
    (hyields : ∀ v ∈ test.walk .all, v.yieldsPlain = true) (hkept : p.names.issued ⊆ p.names.taken)
    (hfree : Avoids (· ∈ q.names.issued) (test.walk .all))
    (hlow : lowerExpr .unknown true test p = .ok (h, q)) : TestImitates (· ∈ q.names.issued) test h := by
  intro limits s m env hc hh hs hstop
  have hlast := lasting_engine limits true m.depth
  let a : Twin (.mirror (· ∈ q.names.issued)) := (⟨s.world, m, m, hc⟩ : Twin _).pushExtra
  have hplaced : Placed a.world env (env.inside m false) :=
    ⟨.extra (Or.inr rfl) rfl ((View.chains hh.scopes).mono (World.le_withExtra _ _)), List.cons_ne_nil _ _⟩
  have htame : AllTame .any .unknown (· ∈ q.names.issued) (test.walk .all) := fun v hv =>
    tame_unknown (hl v hv).1 (hl v hv).2 (hfree v hv) (hyields v hv) (hflat v hv)
  have hstage := stagesExpr (mirrorEngines limits (limits.maxDepth - m.depth))
    Setting.lowers_mirror test hlow (fun h => by cases h) ⟨Spelling.any_fits _, hkept,
    fun _ hx => hx⟩ htame (n := 0) (a := a) (Nat.zero_le _) hplaced
  have hmeets := hstage.next .none fun c hc hripe =>
    Meets.tick_right (hripe.active (hplaced.mono hc.world) _ (.tick _ c))
  have hex : ¬ Excused (.mirror (· ∈ q.names.issued)) m
    (evalExpr (Machine.engine limits true m.depth) env test m) :=
    not_excused_of_lasting (lasting_evalExpr _ env test) rfl hs hstop
  exact hmeets.endsLike hex fun _ _ _ hv => hv

/-! ## A test that asks a variable -/

/-- The code never ends in a `break` or a `continue`. -/
def JumpFree (x : Run α) : Prop :=
  ∀ m e n, x m = .error e n → e ≠ .broke ∧ e ≠ .continued

namespace JumpFree

theorem of_ok {x : Run α} (h : ∀ m, ∃ a n, x m = .ok a n) : JumpFree x := by
  intro m e n he
  obtain ⟨a, m', hok⟩ := h m
  rw [hok] at he
  cases he

theorem bind {x : Run α} {f : α → Run β} (hx : JumpFree x) (hf : ∀ a, JumpFree (f a)) : JumpFree (x >>= f) := by
  intro m e n he
  rw [Run.bind_apply] at he
  cases hr : x m with
  | ok a m' =>
    rw [hr] at he
    exact hf a m' e n he
  | error e' m' =>
    rw [hr] at he
    cases he
    exact hx m e n hr

theorem pure (a : α) : JumpFree (pure a : Run α) :=
  of_ok fun m => ⟨a, m, rfl⟩

theorem newScope (env : Env) (isBody : Bool) : JumpFree (newScope env isBody) :=
  of_ok fun _ => ⟨_, _, rfl⟩

theorem declareHere (env : Env) (x : String) (v : Value) (isMutable : Bool) :
    JumpFree (declareHere env x v isMutable) := by
  unfold RaiseScript.declareHere
  split
  · exact .pure ()
  · exact of_ok fun _ => ⟨_, _, rfl⟩

theorem tick (limit : Nat) : JumpFree (tick limit) := by
  refine bind (of_ok fun _ => ⟨_, _, rfl⟩) fun _ => bind (of_ok fun m => ⟨m, m, rfl⟩) fun m => ?_
  split
  · intro m e n he
    cases he
    simp
  · exact .pure ()

theorem misuse (e : Misuse) : JumpFree (misuse e : Run α) := by
  intro m e' n he
  have herror : ∃ v m', RaiseScript.misuse (α := α) e m = .error (.thrown v) m' := ⟨_, _, rfl⟩
  obtain ⟨v, m', herror⟩ := herror
  rw [herror] at he
  cases he
  simp

theorem mistake (e : Misuse) : JumpFree (mistake e : Run α) :=
  bind (of_ok fun _ => ⟨_, _, rfl⟩) fun _ => .misuse e

theorem readName (env : Env) (x : String) : JumpFree (readName env x) := by
  refine bind (of_ok fun m => ⟨m, m, rfl⟩) fun m => ?_
  split
  · exact .pure _
  · exact .mistake _

theorem assignName (env : Env) (x : String) (v : Value) : JumpFree (assignName env x v) := by
  refine bind (of_ok fun m => ⟨m, m, rfl⟩) fun m => ?_
  split
  · exact .misuse _
  · split
    · exact of_ok fun _ => ⟨_, _, rfl⟩
    · exact .misuse _

/-- What comes after other code may count on how that code did not end. -/
theorem outcome {x : Run α} {f : Except Exit α → Run β} (hx : JumpFree x)
    (hf : ∀ o, (∀ e, o = .error e → e ≠ .broke ∧ e ≠ .continued) → JumpFree (f o)) :
    JumpFree (outcome x >>= f) := by
  intro m e n he
  rw [Run.bind_apply] at he
  cases hr : x m with
  | ok a m' =>
    rw [outcome_ok hr] at he
    exact hf (.ok a) (fun _ h => by cases h) m' e n he
  | error e' m' =>
    rw [outcome_error hr] at he
    exact hf (.error e') (fun _ h => by cases h; exact hx m e' m' hr) m' e n he

theorem finishing {o : Except Exit Unit} (ho : ∀ e, o = .error e → e ≠ .broke ∧ e ≠ .continued)
    (hF : JumpFree F) : JumpFree (finishing o F) := by
  unfold RaiseScript.finishing
  split
  · intro m e n he
    cases he
    simp
  · refine hF.bind fun _ => ?_
    cases o with
    | ok a => exact .pure a
    | error e₀ =>
      intro m e n he
      cases he
      exact ho e₀ rfl

theorem attempted {B : Run Unit} {H : Value → Run Unit} (hB : JumpFree B) (hH : ∀ v, JumpFree (H v))
    (hF : JumpFree F) : JumpFree (attempted B H F) := by
  refine hB.outcome fun o ho => ?_
  unfold catching
  split
  · exact (hH _).outcome fun o ho => finishing ho hF
  · rw [pure_bind]
    exact finishing ho hF

/-- A clause that raises the value of an expression. -/
theorem execClause_raise (id : NodeId) (span : Span) (he : ∀ env, JumpFree (evalExpr k env e))
    (v : Value) : JumpFree (execClause k env none (storeAll x [.raise id e span]) v) := by
  refine (newScope env false).bind fun inner => ?_
  simp only [bindParam, pure_bind, declareFunctions_eq, storeAll, Stmt.storeRaises,
    funcsOf, declareAll, execAll_single, execStmt_assign]
  exact (JumpFree.tick _).bind fun _ => (he inner).bind fun v => .assignName inner x v

theorem execBlock_raise (id : NodeId) (span : Span) (he : ∀ env, JumpFree (evalExpr k env e)) :
    JumpFree (execBlock k env (storeAll x [.raise id e span])) := by
  have h : JumpFree (execClause k env none (storeAll x [.raise id e span]) .undefined) :=
    execClause_raise id span he .undefined
  simpa only [execClause, execBlock, bindParam, pure_bind] using h

end JumpFree

/-- A try expression that raises the variable `x`, or else `false`. -/
def Expr.asks (x : String) : Expr → Bool
  | .attempt ⟨_, [.raise _ (.ident y) _], none, [.raise _ (.bool false) _], none, none, _, _, _⟩ => x == y
  | _ => false

theorem plain_raise (he : Plain (e.walk .all)) (id : NodeId) (span : Span) :
    Plain (walkStmts .all [.raise id e span]) := by
  intro v hv
  simp only [walkStmts, Stmt.walk, List.append_nil] at hv
  rcases List.mem_cons.1 hv with rfl | hv
  · rfl
  · exact he v hv

theorem plain_ident (x : String) : Plain ((Expr.ident x).walk .all) := by
  simp [Plain, Expr.walk]

theorem plain_bool (b : Bool) : Plain ((Expr.bool b).walk .all) := by
  simp [Plain, Expr.walk]

theorem stays_of_asks {test : Expr} (hasks : test.asks x = true) {p : Progress}
    (hlow : lowerExpr s true test p = .ok (h, q)) : Stays temp (Hoisted.test · · h) := by
  unfold Expr.asks at hasks
  split at hasks
  · rename_i id id₁ y span₁ id₂ span₂ span raises verdict
    obtain ⟨body, p₁, catchBody, p₂, finallyBody, p₃, hl₁, hl₂, hl₃, rfl, -⟩ := lowerExpr_attempt_eq_ok hlow
    rw [lowerStmts_plain s _ (plain_raise (plain_ident y) id₁ span₁)] at hl₁
    cases hl₁
    rw [lowerStmts_plain s _ (plain_raise (plain_bool false) id₂ span₂)] at hl₂
    cases hl₂
    rw [lowerBlock] at hl₃
    cases hl₃
    intro limits _ m env _ _ e n he
    refine (?_ : JumpFree (Hoisted.test _ env _)) m e n he
    refine (JumpFree.newScope env false).bind fun inner => .bind ?_ fun _ => (JumpFree.tick _).bind fun _ => ?_
    · rw [execAll_stored]
      refine (JumpFree.tick _).bind fun _ => (JumpFree.declareHere _ _ _ _).bind fun _ => (JumpFree.tick _).bind
        fun _ => .attempted (.execBlock_raise _ _ fun env => ?_) (.execClause_raise _ _ fun env => ?_) (.pure ())
      · rw [evalExpr]
        exact .readName env y
      · rw [evalExpr]
        exact .pure _
    · rw [evalExpr]
      exact .readName inner _
  · cases hasks

/-- Try expressions in the clauses apart, nothing around a test matters for what becomes of it. -/
theorem lowerExpr_of_asks (s s' : Surroundings) {test : Expr} (h : test.asks x = true) :
    lowerExpr s true test = lowerExpr s' true test := by
  unfold Expr.asks at h
  split at h
  · rw [lowerExpr, lowerExpr]
    simp only [lowerStmts_plain _ _ (plain_raise (plain_ident _) _ _),
      lowerStmts_plain _ _ (plain_raise (plain_bool _) _ _), lowerBlock]
  · cases h

theorem flat_of_asks {test : Expr} (h : test.asks x = true) :
    ∀ v ∈ test.walk .all, v.isFlat = true ∧ v.yieldsPlain = true := by
  unfold Expr.asks at h
  split at h
  · simp [Expr.walk, TryExpr.walk, walkStmts, Stmt.walk, Visit.isFlat, Visit.yieldsPlain,
      meetsAttempt]
  · cases h

section

variable {p : Program} {test : Expr} {body : Stmt} {span : Span}

theorem avoids_of_forProgram (hloop : .stmt (.loop test body span) ∈ walkStmts .all p)
    {q : Names} (hgrows : (Names.forProgram "__" p).Grows q) :
    Avoids (· ∈ q.issued) ((Stmt.loop test body span).walk .all) := by
  intro v hv y hy hissued
  refine hgrows.free y hissued (by simp) ?_
  exact List.mem_flatMap.2 ⟨v, (deep (.stmts p) _ hloop).subset hv, hy⟩

/-- A test that asks a variable meets what is asked of a moved test. -/
theorem moves_of_asks (hall : Lowerable .any (walkStmts .all p))
    (hloop : .stmt (.loop test body span) ∈ walkStmts .all p) (hasks : test.asks x = true)
    (hlow : lowerExpr s true test ⟨.forProgram "__" p, 0⟩ = .ok (h, q)) :
    Avoids (· ∈ q.names.issued) ((Stmt.loop test body span).walk .all) ∧
      TestImitates (· ∈ q.names.issued) test h ∧ Stays (· ∈ q.names.issued) (Hoisted.test · · h) := by
  have hl : Lowerable .any ((Stmt.loop test body span).walk .all) := fun v hv =>
    hall v ((deep (.stmts p) _ hloop).subset hv)
  rw [Stmt.walk, lowerable_cons, lowerable_append] at hl
  have havoids := avoids_of_forProgram hloop (lowerExpr_grows hlow)
  refine ⟨havoids, ?_, stays_of_asks hasks hlow⟩
  rw [lowerExpr_of_asks s .unknown hasks] at hlow
  rw [Stmt.walk] at havoids
  exact testImitates_of_flat hl.2.1 (fun v hv => (flat_of_asks hasks v hv).1)
    (fun v hv => (flat_of_asks hasks v hv).2) (by simp) havoids.tail.left hlow

end

end RaiseScript
