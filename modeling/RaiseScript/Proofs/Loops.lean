import RaiseScript.Proofs.Moved
import RaiseScript.Proofs.Ending

/-!
# Loops whose test became statements

Lowering moves a test with a try expression into the body of its loop : in each round the statements
in front of the test run in a scope of their own, and the loop leaves itself when what is left of
the test is not true (`testedInside`). If the moved test imitates the test, the loop does what it
did before, for any number of rounds and however its body ends (`loop_faithful`).

The body now runs one scope deeper. So it must not declare a name for the scope it stands in
(`loop_unfaithful`).
-/

namespace RaiseScript

variable {temp : String → Prop}
variable {e : Exit} {m : Machine}

/-! ## The body with the test in it -/

/-- The body of a loop with the test in it. -/
def testedBody (h : Hoisted) (body : Stmt) (span : Span) : List Stmt :=
  h.before ++ [.branch (.unary .not h.value) (.jump .leave span) none span, body]

/-- The body of the loop runs if the test is true, and else the loop is left. -/
def bodyIf (k : Engine) (env : Env) (body : Stmt) (v : Value) : Run Unit :=
  if v.truthy then execStmt k env body else throw Exit.broke

instance rising_bodyIf (k : Engine) [k.Rising] (env : Env) (body : Stmt) (v : Value) :
    Rising (bodyIf k env body v) := by
  unfold bodyIf
  infer_instance

theorem round_eq_bodyIf (k : Engine) (env : Env) (test : Expr) (body : Stmt) : k.round env test body =
    tick k.maxSteps >>= fun _ => evalExpr k env test >>= fun v => outcome (bodyIf k env body v) >>= goesOn := by
  unfold Engine.round bodyIf
  congr; funext _; congr; funext v
  cases v.truthy <;> rfl

/-- The same with one more step to leave the loop. -/
def bodyIfLater (k : Engine) (inner : Env) (body : Stmt) (v : Value) : Run Unit :=
  if v.truthy then execStmt k inner body else tick k.maxSteps >>= fun _ => throw Exit.broke

theorem execAll_testedBody (k : Engine) (inner : Env) (h : Hoisted) (body : Stmt) (span : Span) :
    execAll k inner (testedBody h body span) = execAll k inner h.before >>= fun _ =>
      tick k.maxSteps >>= fun _ => evalExpr k inner h.value >>= bodyIfLater k inner body := by
  have hbranch : execStmt k inner (.branch (.unary .not h.value) (.jump .leave span) none span) =
      tick k.maxSteps >>= fun _ => evalExpr k inner h.value >>= fun v =>
        if v.truthy then pure () else tick k.maxSteps >>= fun _ => throw Exit.broke := by
    simp only [execStmt, evalExpr, applyUnary, bind_assoc, pure_bind]
    congr; funext _; congr; funext v
    cases v.truthy <;> simp [Value.truthy]
  rw [testedBody, execAll_append, execAll, execAll_single, hbranch]
  simp only [bind_assoc]
  congr; funext _; congr; funext _; congr; funext v
  unfold bodyIfLater
  cases v.truthy with
  | true => simp only [if_true, pure_bind]
  | false =>
    simp only [Bool.false_eq_true, if_false, bind_assoc]
    rfl

/-- In a round the moved test runs in the scope that is new on the machine, and so does the body. -/
theorem execBlock_testedBody (k : Engine) (env : Env) {h : Hoisted} {body : Stmt} (span : Span)
    (hfuncs : funcsOf (h.before ++ [body]) = []) (m : Machine) :
    execBlock k env (testedBody h body span) m =
      (h.test k env >>= bodyIfLater k (env.inside m false) body) m := by
  have hnone : funcsOf (testedBody h body span) = [] := by
    rw [funcsOf_append] at hfuncs
    rw [testedBody, funcsOf_append, funcsOf, hfuncs]
    simp
  rw [execBlock, Hoisted.test]
  simp only [declareFunctions_eq, hnone, declareAll, pure_bind, execAll_testedBody, bind_assoc]
  rfl

/-! ## One round -/

variable (temp) in
/-- The statement `s'` does what `s` does. -/
def StmtImitates (s s' : Stmt) : Prop :=
  Imitates temp (fun _ _ _ => True) (fun w _ => w) (execStmt · · s) (execStmt · · s')

variable (temp) in
/-- What a loop counts on when its test is moved in front of its body. -/
structure TestMoved (test : Expr) (body : Stmt) (h : Hoisted) (b : Stmt) : Prop where
  avoids_test : Avoids temp (test.walk .all)
  avoids_body : Avoids temp (body.walk .all)
  imitated : TestImitates temp test h
  stays : Stays temp (Hoisted.test · · h)
  runs : StmtImitates temp body b
  undeclared : body.declaresHere = false
  funcs : funcsOf (h.before ++ [b]) = []

theorem goesOn_error (h : e ≠ .broke ∧ e ≠ .continued) : goesOn (.error e) = throw e := by
  cases e with
  | broke => exact absurd rfl h.1
  | continued => exact absurd rfl h.2
  | _ => rfl

/-- A test that is not left by a jump may as well run inside of what the loop looks at. -/
theorem outcome_bind_goesOn {x : Run Value} {f : Value → Run Unit}
    (h : ∀ e n, x m = .error e n → e ≠ .broke ∧ e ≠ .continued) :
    (outcome (x >>= f) >>= goesOn) m = Result.andThen (x m) fun v => outcome (f v) >>= goesOn := by
  have hbind : (x >>= f) m = Result.andThen (x m) f := Run.bind_apply x f m
  rw [Run.bind_apply]
  cases hx : x m with
  | error e n =>
    rw [hx] at hbind
    rw [outcome_error hbind, Result.andThen_ok, goesOn_error (h e n hx)]
    rfl
  | ok v n =>
    rw [hx, Result.andThen_ok] at hbind
    rw [Result.andThen_ok, Run.bind_apply, outcome, outcome, hbind]

theorem excused_goesOn {l u : Machine} {x : Run Unit} (h : Excused (.mirror temp) l (x m)) :
    Excused (.mirror temp) u ((outcome x >>= goesOn) m) := by
  obtain ⟨e, n, he, hlimit⟩ | ⟨hfaultless, -⟩ := h
  · rw [Run.bind_apply, outcome_error he]
    exact Or.inl ⟨e, n, rfl, hlimit⟩
  · cases hfaultless

section

variable {limits : Limits} {d : Nat} {test : Expr} {body b : Stmt} {h : Hoisted}
  {c : Twin (.mirror temp)} {env env' : Env}

theorem Opposite.mono {b : Twin (.mirror temp)} (h : Opposite 0 c env env')
    (hle : c.world ≤ b.world) : Opposite 0 b env env' where
  next := Nat.zero_le _
  chains := h.chains.mono hle
  slot := by
    have hs := h.slot
    generalize env.slot = i, env'.slot = i' at hs ⊢
    cases hs with
    | none => exact .none
    | some hs => exact .some (hle.slots hs)

/-- The right machine may go on in an extra scope. -/
theorem Opposite.deeper (h : Opposite 0 c env env') {j : Nat} (hj : c.world.extra j) :
    Opposite 0 c env { env' with chain := ⟨j, false⟩ :: env'.chain } :=
  ⟨h.next, .extra hj rfl h.chains, h.slot⟩

section

variable (hmoved : TestMoved temp test body h b)

include hmoved

/-- A statement that declares nothing where it stands does the same some scopes deeper. -/
theorem execStmt_endsLike (hopp : Opposite 0 c env env')
    (hd : c.right.depth = d)
    (hex : ¬ Excused (.mirror temp) c.left (execStmt (Machine.engine limits true d) env body c.left)) :
    EndsLike (.mirror temp) (fun _ _ _ => True) c.world
      (execStmt (Machine.engine limits true d) env body c.left)
      (fun i => execStmt (Machine.engine ⟨i, limits.maxDepth⟩ true d) env' b) c.right := by
  subst hd
  have hmeets := (Phrase.stmt body).mirrors (k := mirrorEngines limits (limits.maxDepth - c.right.depth))
    (fun _ => rfl) hmoved.avoids_body hopp fun hdecl => by rw [hmoved.undeclared] at hdecl; cases hdecl
  have hsame := hmeets.endsLike (R := fun _ _ _ => True) hex fun _ _ _ _ => trivial
  exact hmoved.runs.after hopp (fun _ _ _ _ _ _ _ => trivial) (fun _ _ => World.le_trans_of_rightView) hex hsame

/-- The moved test ends like the test. -/
theorem test_endsLike (hopp : Opposite 0 c env env')
    (hd : c.right.depth = d)
    (hex : ¬ Excused (.mirror temp) c.left (evalExpr (Machine.engine limits true d) env test c.left)) :
    EndsLike (.mirror temp) (Alike (.mirror temp)) (c.world.withExtra c.right.scopes.size)
      (evalExpr (Machine.engine limits true d) env test c.left)
      (fun i => h.test (Machine.engine ⟨i, limits.maxDepth⟩ true d) env') c.right := by
  subst hd
  have hmeets := (Phrase.expr test).mirrors (k :=
    mirrorEngines limits (limits.maxDepth - c.right.depth)) (fun _ => rfl) hmoved.avoids_test hopp
  refine hmoved.imitated.after hopp (fun _ _ _ _ _ => Alike.trans) (fun u v hu hv => ?_) hex
    (hmeets.endsLike hex fun _ _ _ hv => hv)
  have hle := World.le_trans_of_rightView hu (World.le_trans (World.le_withExtra _ _) hv)
  refine ⟨hle.scopes, ?_, hle.ids, hle.slots⟩
  rintro j (hj | rfl)
  · exact hle.extra hj
  · exact Or.inl (hv.extra (Or.inr rfl))

/-- With the moved test, the test is never left by a jump. -/
theorem test_stays (hopp : Opposite 0 c env env')
    (hd : c.right.depth = d) {w : World} {r : Result Value}
    (hends : EndsLike (.mirror temp) (Alike (.mirror temp)) w r
      (fun i => h.test (Machine.engine ⟨i, limits.maxDepth⟩ true d) env') c.right) (he : r = .error e m) :
    e ≠ .broke ∧ e ≠ .continued := by
  subst hd he
  obtain ⟨v, r', -, ⟨N, hN⟩, hr⟩ := hends
  cases hr with
  | error he _ =>
    have hright := hmoved.stays ⟨N, limits.maxDepth⟩ c.world.rightView c.right env' c.agree.covers
      hopp.holds _ _ (hN N (Nat.le_refl N))
    cases he <;> simp_all

/-- The block with the test in it ends like the test and the body after it. -/
theorem block_endsLike (span : Span) (hopp : Opposite 0 c env env')
    (hd : c.right.depth = d)
    (hex : ¬ Excused (.mirror temp) c.left (Result.andThen (evalExpr (Machine.engine limits true d) env test c.left)
      fun v => outcome (bodyIf (Machine.engine limits true d) env body v) >>= goesOn)) :
    EndsLike (.mirror temp) (fun _ _ _ => True) c.world
      ((evalExpr (Machine.engine limits true d) env test >>=
        bodyIf (Machine.engine limits true d) env body) c.left)
      (fun i => execBlock (Machine.engine ⟨i, limits.maxDepth⟩ true d) env' (testedBody h b span)) c.right := by
  have hrising := rising_engine limits true d
  have hextest : ¬ Excused (.mirror temp) c.left (evalExpr (Machine.engine limits true d) env test c.left) :=
    fun hx => hex (hx.andThen _)
  refine EndsLike.congr (y := fun i => h.test (Machine.engine ⟨i, limits.maxDepth⟩ true d) env' >>=
    bodyIfLater (Machine.engine ⟨i, limits.maxDepth⟩ true d) (env'.inside c.right false) b) ?_ fun i =>
    execBlock_testedBody _ _ span hmoved.funcs c.right
  rw [Run.bind_apply]
  refine ((test_endsLike hmoved hopp hd hextest).bind fun v a a' m m' hv hok ha hm => ?_).of_le
    (c.world.le_withExtra _)
  rw [hok, Result.andThen_ok] at hex
  unfold bodyIf at hex ⊢
  unfold bodyIfLater
  rw [ha.truthy]
  split
  · rename_i htrue
    -- the scope of the moved test is extra on the right
    have hinside : Opposite 0 ⟨v, m, m', hm⟩ env (env'.inside c.right false) :=
      (hopp.mono (World.le_trans (c.world.le_withExtra _) hv)).deeper (hv.extra (Or.inr rfl))
    have hdepth : m'.depth = d := by
      have hleft := ((rising_evalExpr (Machine.engine limits true d) env test).rises c.left).depth
      rw [hok] at hleft
      exact hm.depth.trans (hleft.trans (c.agree.depth.symm.trans hd))
    rw [if_pos htrue] at hex
    exact execStmt_endsLike hmoved hinside hdepth fun hx => hex (excused_goesOn hx)
  · exact .tick_right ⟨v, _, World.le_refl v, .of_eq fun _ => rfl,
      .error .broke ⟨hm.scopes, hm.ids, hm.slots, hm.heap, hm.this, hm.depth, hm.output⟩⟩

/-- A round of the loop with the test in its body ends like a round of the loop. -/
theorem round_endsLike (span : Span) (hopp : Opposite 0 c env env')
    (hd : c.right.depth = d)
    (hex : ¬ Excused (.mirror temp) c.left ((Machine.engine limits true d).round env test body c.left)) :
    EndsLike (.mirror temp) (fun _ go go' => go' = go) c.world
      ((Machine.engine limits true d).round env test body c.left)
      (fun i => (Machine.engine ⟨i, limits.maxDepth⟩ true d).round env' (.bool true)
        (.block (testedBody h b span) span)) c.right := by
  have hrising := rising_engine limits true d
  rw [round_eq_bodyIf] at hex ⊢
  have hticked := tick_bind_of_not_excused hex
  rw [hticked, Run.bind_apply] at hex ⊢
  -- both machines after the steps that start a round
  let c₁ := (c.countLeft (c.left.steps + 1) c.left.mistakes c.left.misses).countRight
    (c.right.steps + 1 + 1) c.right.mistakes c.right.misses
  have hopp₁ : Opposite 0 c₁ env env' := ⟨hopp.next, hopp.chains, hopp.slot⟩
  have htest := test_endsLike hmoved hopp₁ hd fun hx => hex (hx.andThen _)
  have hblock := block_endsLike hmoved span hopp₁ hd hex
  have hround := (EndsLike.tick_right (m := { c.right with steps := c.right.steps + 1 }) hblock).goesOn
  rw [outcome_bind_goesOn fun e m => test_stays hmoved hopp₁ hd htest] at hround
  exact hround.tick_right

end

/-! ## The whole loop -/

/-- A statement that uses no temporaries imitates itself. -/
theorem stmtImitates_self (ha : Avoids temp (body.walk .all)) (hd : body.declaresHere = false) :
    StmtImitates temp body body := by
  intro limits s m env hc hh hs hstop
  have hmeets := (Phrase.stmt body).mirrors (k := mirrorEngines limits (limits.maxDepth - m.depth))
    (fun _ => rfl) ha (hh.opposite hc) fun hd' => by rw [hd] at hd'; cases hd'
  have hlast := lasting_engine limits true m.depth
  have hex : ¬ Excused (.mirror temp) m (execStmt (Machine.engine limits true m.depth) env body m) :=
    not_excused_of_lasting ((Phrase.stmt body).lasts _ env) rfl hs hstop
  exact hmeets.endsLike hex fun _ _ _ _ => trivial

/-- The loop with the test in its body does what the loop does. -/
theorem stmtImitates_testedInside (hmoved : TestMoved temp test body h b) (span : Span) :
    StmtImitates temp (.loop test body span) (testedInside h b span) := by
  intro limits s m env hc hh hs hstop
  have hrising := rising_engine limits true m.depth
  have hlast := lasting_engine limits true m.depth
  have hex : ¬ Excused (.mirror temp) m
    (execStmt (Machine.engine limits true m.depth) env (.loop test body span) m) :=
    not_excused_of_lasting ((Phrase.stmt (.loop test body span)).lasts _ env) rfl hs hstop
  have hround : Rising ((Machine.engine limits true m.depth).round env test body) := by
    unfold Engine.round
    infer_instance
  simp only [execStmt_loop, testedInside] at hex ⊢
  have hticked := tick_bind_of_not_excused hex
  rw [hticked] at hex ⊢
  refine .tick_right ?_
  let m₁ := { m with steps := m.steps + 1 }
  have hm₁ : Matches (.mirror temp) s.world m₁ m₁ :=
    ⟨hc.scopes, hc.ids, hc.slots, hc.heap, hc.this, hc.depth, hc.output⟩
  have hrounds := EndsLike.rounds (d := m.depth)
    (fun v n n' hv hn hd hex => round_endsLike hmoved span (c := ⟨v, n, n', hn⟩) ((hh.opposite hc).mono hv)
      (hn.depth.trans hd) hex)
    (limits.maxSteps + 1 - m₁.steps) m.steps hm₁ rfl hex
  refine hrounds.congr fun i => ?_
  show rounds _ (i + 1 - (m.steps + 1)) _ = _
  rw [Nat.add_sub_add_right]
  rfl

end

/-! ## A loop that asks a variable -/

/-- A loop that asks a variable. Its body clears the variable and then declares a name. -/
def askedLoop (declaration : String) : String :=
  "let go = true; while (try \x7b raise go; \x7d catch \x7b raise false; \x7d) if (!(go = false)) "
    ++ declaration ++ "\nconsole.log(y);"

/-- A loop between two statements. -/
structure LoopProgram where
  first : Stmt
  test : Expr
  body : Stmt
  span : Span
  last : Stmt

namespace LoopProgram

/-- The program with `loop` in place of the loop. -/
def around (l : LoopProgram) (loop : Stmt) : Program :=
  [l.first, loop, l.last]

/-- The loop of the program. -/
def loop (l : LoopProgram) : Stmt :=
  .loop l.test l.body l.span

/-- Whether the loop asks `go`, its body is a branch, and there are no further try expressions. -/
def isAsked (l : LoopProgram) : Bool :=
  l.test.asks "go" && l.test.hasAttempt && l.body.isBranch &&
    (walkStmts .all [l.first, l.body, l.last]).all fun v => v.attempt?.isNone

/-- Reads a program as a loop between two statements. -/
def of? : Program → Option LoopProgram
  | [first, .loop test body span, last] => some ⟨first, test, body, span, last⟩
  | _ => none

theorem eq_of_of? {p : Program} {l : LoopProgram} (h : of? p = some l) : p = l.around l.loop := by
  unfold of? at h
  split at h <;> cases h
  rfl

/-- What is known of a loop that is asked, in the words of `loop_faithful`. -/
structure Asked (l : LoopProgram) : Prop where
  asks : l.test.asks "go" = true
  hasAttempt : l.test.hasAttempt = true
  isBranch : l.body.isBranch = true
  first : Plain (l.first.walk .all)
  body : Plain (l.body.walk .all)
  last : Plain (l.last.walk .all)

theorem asked_of_isAsked {l : LoopProgram} (h : l.isAsked = true) : l.Asked := by
  simp only [isAsked, Bool.and_eq_true, List.all_eq_true, Option.isNone_iff_eq_none] at h
  obtain ⟨⟨⟨hasks, htry⟩, hbranch⟩, hplain⟩ := h
  have hplain : Plain (walkStmts .all [l.first, l.body, l.last]) := hplain
  exact ⟨hasks, htry, hbranch, hplain.left, hplain.right.left, hplain.right.right.left⟩

theorem Asked.body_ne_func {l : LoopProgram} (h : l.Asked) (f : Func) : l.body ≠ .func f := by
  intro hf
  have hbranch := h.isBranch
  rw [hf] at hbranch
  cases hbranch

theorem mem_walk (l : LoopProgram) : .stmt l.loop ∈ walkStmts .all (l.around l.loop) := by
  simp [around, loop, walkStmts, Stmt.walk]

/-- The program is lowered to itself, with the test of the loop moved into its body. -/
theorem Asked.lower {l : LoopProgram} (ha : l.Asked) {s : Surroundings} {p q : Progress}
    {lowered : Program} (hlow : lowerStmts s (l.around l.loop) p = .ok (lowered, q)) :
    ∃ h, lowerExpr s true l.test p = .ok (h, q) ∧ lowered = l.around (testedInside h l.body l.span) := by
  simp only [around, loop, lowerStmts, lowerStmt_plain s _ ha.first, lowerStmt_plain s _ ha.last,
    lowerStmt, lowerStmt_plain s _ ha.body, pure_bind, ha.hasAttempt, if_true, bind_assoc] at hlow
  obtain ⟨h, rfl, hl⟩ := Lower.map_eq_ok.1 hlow
  exact ⟨h, hl, rfl⟩

end LoopProgram

/-! ## Loops of programs -/

theorem funcsOf_asBranch {ss : List Stmt} (h : funcsOf ss = []) (span : Span) :
    funcsOf [asBranch span ss] = [] := by
  rcases ss with _ | ⟨s, _ | ⟨s', ss⟩⟩
  · rfl
  · exact h
  · rfl

/-- Moving the test of a loop into its body is faithful. Let a program be read and checked without
complaints, and let a loop in it have a test with a try expression and a body that declares nothing
where it stands. Then the loop is lowered to one with the moved test in its body. If the moved test
does what the test does and is not left by a jump, then that loop does what the loop did, with its
body as it was, and with the lowered body if this does what the body did. -/
theorem loop_faithful {source file : String} {o : Options} {p : Program} {test : Expr}
    {body : Stmt} {span : Span} (ho : 1 ≤ o.maxErrors) (ha : analyze source file o = .ok (p, []))
    (hloop : .stmt (.loop test body span) ∈ walkStmts .all p) (htry : test.hasAttempt = true)
    (hfunc : ∀ f, body ≠ .func f) (hdecl : body.declaresHere = false) (s : Surroundings) (before : Progress) :
    ∃ h q ss after, lowerExpr s true test before = .ok (h, q) ∧ lowerStmt s body q = .ok (ss, after) ∧
      lowerStmt s (.loop test body span) before = .ok ([testedInside h (asBranch body.span ss) span], after) ∧
      ∀ temp : String → Prop, Avoids temp ((Stmt.loop test body span).walk .all) →
        TestImitates temp test h → Stays temp (Hoisted.test · · h) →
          StmtImitates temp (.loop test body span) (testedInside h body span) ∧
          (StmtImitates temp body (asBranch body.span ss) →
            StmtImitates temp (.loop test body span) (testedInside h (asBranch body.span ss) span)) := by
  obtain ⟨hall, -⟩ := lowerable_of_analyze ho ha
  have hl : Lowerable .any ((Stmt.loop test body span).walk .all) := fun v hv =>
    hall v ((deep (.stmts p) _ hloop).subset hv)
  rw [Stmt.walk, lowerable_cons, lowerable_append] at hl
  obtain ⟨-, hltest, hlbody⟩ := hl
  obtain ⟨h, q, hlow, -⟩ := lowersExpr .any s test true hltest before (Spelling.any_fits _)
  obtain ⟨ss, after, hlow', -⟩ := lowersStmt .any s body hlbody q (Spelling.any_fits _)
  refine ⟨h, q, ss, after, hlow, hlow', ?_, fun temp havoids htest hstays => ?_⟩
  · rw [lowerStmt, Lower.bind_ok hlow, Lower.bind_ok hlow', if_pos htry]
    rfl
  · rw [Stmt.walk] at havoids
    have hmoved {b : Stmt} (hb : funcsOf [b] = []) (hruns : StmtImitates temp body b) :
        TestMoved temp test body h b :=
      ⟨havoids.tail.left, havoids.tail.right, htest, hstays, hruns,
        hdecl, by simp [(lowerExpr_ahead hlow).funcs, hb]⟩
    have hnone : funcsOf [body] = [] := by
      cases body with
      | func f => exact absurd rfl (hfunc f)
      | _ => rfl
    refine ⟨stmtImitates_testedInside (hmoved hnone (stmtImitates_self havoids.tail.right hdecl))
      span, fun hruns => stmtImitates_testedInside (hmoved ?_ hruns) span⟩
    exact funcsOf_asBranch ((lowerStmt_standsFor hlow').funcs hfunc) body.span

/-- A name that holds for the whole function may be declared in the body. -/
theorem loop_faithful_of_askedLoop :
    ∃ p l h q ss after, analyze (askedLoop "var y = 'seen';") "main.js" ⟨"__", 10⟩ = .ok (p, []) ∧
      p = LoopProgram.around l l.loop ∧ l.test.hasAttempt = true ∧ l.body.isBranch = true ∧
      l.body.declaresHere = false ∧ lowerExpr (.ofProgram p) true l.test ⟨.forProgram "__" p, 0⟩ = .ok (h, q) ∧
      lowerStmt (.ofProgram p) l.body q = .ok (ss, after) ∧
      TestImitates (· ∈ q.names.issued) l.test h ∧ Stays (· ∈ q.names.issued) (Hoisted.test · · h) ∧
      StmtImitates (· ∈ q.names.issued) l.loop (testedInside h l.body l.span) ∧
      StmtImitates (· ∈ q.names.issued) l.loop (testedInside h (asBranch l.body.span ss) l.span) := by
  have hlook : compareRuns (askedLoop "var y = 'seen';") (fun p _ _ =>
      (LoopProgram.of? p).any fun l => l.isAsked && !l.body.declaresHere) = true := by decide +kernel
  obtain ⟨p, q, progress, ha, -, h⟩ := exists_of_compareRuns hlook
  obtain ⟨l, hl, h⟩ := (Option.any_eq_true _ _).1 h
  obtain rfl := LoopProgram.eq_of_of? hl
  obtain ⟨h, hdecl⟩ := Bool.and_eq_true_iff.1 h
  rw [Bool.not_eq_true'] at hdecl
  have hasked := LoopProgram.asked_of_isAsked h
  obtain ⟨low, q', ss, after, hlow, hlow', -, hfaithful⟩ := loop_faithful (by decide) ha l.mem_walk
    hasked.hasAttempt hasked.body_ne_func hdecl (.ofProgram _) ⟨.forProgram "__" _, 0⟩
  obtain ⟨havoids, htest, hstays⟩ :=
    moves_of_asks (lowerable_of_analyze (by decide) ha).1 l.mem_walk hasked.asks hlow
  obtain ⟨hsame, hlowered⟩ := hfaithful _ havoids htest hstays
  refine ⟨_, l, low, q', ss, after, ha, rfl, hasked.hasAttempt, hasked.isBranch, hdecl, hlow, hlow',
    htest, hstays, hsame, hlowered ?_⟩
  rw [lowerStmt_plain _ _ hasked.body] at hlow'
  cases hlow'
  rw [Stmt.walk] at havoids
  exact stmtImitates_self havoids.tail.right hdecl

/-- A name for the scope itself may not. On its own the loop leaves `y` to the statement after it,
but in the scope of the moved test `y` is gone. -/
theorem loop_unfaithful :
    ∃ p q progress l h after, analyze (askedLoop "let y = 'seen';") "main.js" ⟨"__", 10⟩ =
      .ok (p, []) ∧ lowerProgram "__" p = .ok (q, progress) ∧ p = LoopProgram.around l l.loop ∧
      q = l.around (testedInside h l.body l.span) ∧ l.test.hasAttempt = true ∧ l.body.isBranch = true ∧
      lowerExpr (.ofProgram p) true l.test ⟨.forProgram "__" p, 0⟩ = .ok (h, after) ∧
      TestImitates (· ∈ after.names.issued) l.test h ∧ Stays (· ∈ after.names.issued) (Hoisted.test · · h) ∧
      (Machine.start.run ⟨100, 10⟩ true p).1 = .ok () ∧
      (Machine.start.run ⟨100, 10⟩ true p).2.output = #["seen"] ∧
      (Machine.start.run ⟨100, 10⟩ false q).1 = .error (.uncaught "ReferenceError: y is not defined") := by
  have hlook : compareRuns (askedLoop "let y = 'seen';") (fun p r r' =>
      ((LoopProgram.of? p).any fun l => l.isAsked) && decide (r.1 = .ok () ∧ r.2.output = #["seen"] ∧
        r'.1 = .error (.uncaught "ReferenceError: y is not defined"))) = true := by decide +kernel
  obtain ⟨p, q, progress, ha, hlower, h⟩ := exists_of_compareRuns hlook
  obtain ⟨h, hruns⟩ := Bool.and_eq_true_iff.1 h
  obtain ⟨l, hl, h⟩ := (Option.any_eq_true _ _).1 h
  obtain rfl := LoopProgram.eq_of_of? hl
  have hasked := LoopProgram.asked_of_isAsked h
  obtain ⟨low, hlow, hq⟩ := hasked.lower (lowerProgram_eq_ok.1 hlower).1
  obtain ⟨-, htest, hstays⟩ := moves_of_asks (lowerable_of_analyze (by decide) ha).1 l.mem_walk hasked.asks hlow
  exact ⟨_, q, progress, l, low, progress, ha, hlower, rfl, hq, hasked.hasAttempt,
    hasked.isBranch, hlow, htest, hstays, of_decide_eq_true hruns⟩

end RaiseScript
