import RaiseScript.Proofs.Runs

/-!
# Cases and clauses

The statements that run other statements in scopes of their own : switches, whose cases share one
scope, and try statements, whose clauses have one each (`execBlock`, `execClause`). Each clause is
met by the clause that lowering made of it. What is left are the statements that have no parts.
-/

namespace RaiseScript

variable {S : Setting} {sp : Spelling} {k : Engines S} {n : Nat} {a b c : Twin S} {env env' : Env}
  {aim : Option Aim} {x : String} {t : Touch}
variable {body : List Stmt} {cs : List Case} {p q : Progress}

/-! ## Switches -/

variable (sp k) in
/-- The cases are met by what became of them. -/
structure RunsCases (cs : List Case) : Prop where
  choose : ∀ {p q : Progress} {cs' : List Case}, lowerCases S.surroundings cs p = .ok (cs', q) →
    Supplied sp S.temp p q → S.Tames sp (walkCases .all cs) →
    (∀ c ∈ cs, c.test.any Expr.hasAttempt = false) →
    ∀ {n : Nat} {a : Twin S} {env env' : Env} {v v' : Value} (x : String), n ≤ a.left.nextId →
    Placed a.world env env' → Alike S a.world v v' →
    Meets n .none a (chooseCase k.left env v cs a.left)
      (fun i => chooseCase (k.right i) env' v' (storeInCases x cs')) (fun _ i i' => i' = i)
  run : ∀ {p q : Progress} {cs' : List Case}, lowerCases S.surroundings cs p = .ok (cs', q) →
    Supplied sp S.temp p q → S.Tames sp (walkCases .all cs) →
    ∀ {n : Nat} {a : Twin S} {env env' : Env} {aim : Option Aim} {x : String},
    Faces n a env env' aim x q.names → (aim = none → raiseSites .body (walkCases .surface cs) = []) →
    Flush a.world env env' → ∀ skip : Nat,
    Meets n (.stmt env env' p.names q.names aim) a (execCases k.left env skip cs a.left)
      (fun i => execCases (k.right i) env' skip (storeInCases x cs')) Anything

theorem runsCases_nil : RunsCases sp k [] where
  choose hl _ _ _ _ _ _ _ _ _ _ _ _ _ := by
    cases hl
    exact .pure rfl
  run hl _ _ _ _ _ _ _ _ _ _ _ skip := by
    cases hl
    cases skip <;> (simp only [storeInCases, execCases]; exact .pure trivial)

/-- The body of a case and the cases after it. -/
theorem meets_execCases (hS : S.Lowers sp) {body' : List Stmt} {cs' : List Case}
    {test test' : Option Expr} {p₀ p₁ : Progress} (hbody : RunsStmts sp k body)
    (hcs : RunsCases sp k cs) (hl₁ : lowerStmts S.surroundings body p = .ok (body', p₁))
    (hl₂ : lowerCases S.surroundings cs p₁ = .ok (cs', q)) (hsup : Supplied sp S.temp p q)
    (htame : S.Tames sp (walkStmts .all body ++ walkCases .all cs))
    (hf : Faces n a env env' aim x q.names) (hp : p₀.names.issued ⊆ p.names.issued)
    (hsites : aim = none → raiseSites .body (walkStmts .surface body) = [] ∧
      raiseSites .body (walkCases .surface cs) = []) (hflush : Flush a.world env env') (skip : Nat) :
    Meets n (.stmt env env' p₀.names q.names aim) a
      (execCases k.left env skip (⟨test, body⟩ :: cs) a.left) (fun i => execCases (k.right i) env'
      skip (⟨test', storeAll x body'⟩ :: storeInCases x cs')) Anything := by
  have := k.rising
  have hg₁ := lowerStmts_grows hl₁
  have hsup₂ := hsup.second hg₁
  have hg₂ := lowerCases_grows hl₂
  have hrest := Touch.stmt_within_stmt (p := p₀.names) a env env' aim
    (List.Subset.trans hp hg₁.issued) (List.Subset.refl q.names.issued)
  cases skip with
  | succ skip =>
    exact (hcs.run hl₂ hsup₂ htame.right hf (fun h => (hsites h).2) hflush skip).within hrest
  | zero =>
    have hdecl := declares_lowerStmts hS hl₁ (hsup.first hg₂) htame.left
    rw [← funcsOf_storeAll x body'] at hdecl
    refine (meets_declareFunctions hdecl hf.next hf.stands.placed.chains hflush).seq fun b _ _ hb _ => ?_
    have hfb := hf.stays hb
    have hrun := (hbody hl₁ (hsup.first hg₂) htame.left (hfb.mono hg₂.issued) (fun h => (hsites h).1)
      (hflush.mono hb.world)).within (Touch.stmt_within_stmt (p := p₀.names) b env env' aim hp hg₂.issued)
    refine hrun.seq fun d _ _ hd _ => ?_
    exact (hcs.run hl₂ hsup₂ htame.right (hfb.stays hd) (fun h => (hsites h).2)
      (hflush.mono (World.le_trans hb.world hd.world)) 0).within
      (Touch.stmt_within_stmt d env env' aim (List.Subset.trans hp hg₁.issued) (List.Subset.refl _))

theorem runsCases_default (hS : S.Lowers sp) (hbody : RunsStmts sp k body)
    (hcs : RunsCases sp k cs) : RunsCases sp k (⟨none, body⟩ :: cs) where
  choose {p q cs'} hl hsup htame hroom n a env env' v v' x hn hp hv := by
    have := k.rising
    obtain ⟨body', p₁, hl₁, hl⟩ := Lower.bind_eq_ok.1 hl
    obtain ⟨cs', p₂, hl₂, hl⟩ := Lower.bind_eq_ok.1 hl
    cases Lower.pure_eq_ok.1 hl
    have hg₁ := lowerStmts_grows hl₁
    refine (hcs.choose hl₂ (hsup.second hg₁) htame.right (List.forall_mem_cons.1 hroom).2
      x hn hp hv).seq fun b i i' _ hi => ?_
    subst hi
    exact .pure rfl
  run hl hsup htame n a env env' aim x hf hsites hflush skip := by
    obtain ⟨body', p₁, hl₁, hl⟩ := Lower.bind_eq_ok.1 hl
    obtain ⟨cs', rfl, hl₂⟩ := Lower.map_eq_ok.1 hl
    simp only [walkCases, raiseSites_append, List.append_eq_nil_iff] at hsites
    exact meets_execCases hS hbody hcs hl₁ hl₂ hsup htame hf (List.Subset.refl _) hsites hflush skip

theorem runsCases_test (hS : S.Lowers sp) {e : Expr} (he : StagesExpr sp k e) (hbody : RunsStmts sp k body)
    (hcs : RunsCases sp k cs) : RunsCases sp k (⟨some e, body⟩ :: cs) where
  choose {p q cs'} hl hsup htame hroom n a env env' v v' x hn hp hv := by
    have := k.rising
    obtain ⟨h, p₁, hl₁, hl⟩ := Lower.bind_eq_ok.1 hl
    obtain ⟨body', p₂, hl₂, hl⟩ := Lower.bind_eq_ok.1 hl
    obtain ⟨cs', p₃, hl₃, hl⟩ := Lower.bind_eq_ok.1 hl
    cases Lower.pure_eq_ok.1 hl
    obtain ⟨hroom₁, hroom₂⟩ := List.forall_mem_cons.1 hroom
    have hg₁ := lowerExpr_grows hl₁
    have hsup₂ := hsup.second hg₁
    have hg₂ := lowerStmts_grows hl₂
    have hsup₃ := hsup₂.second hg₂
    have hg₃ := lowerCases_grows hl₃
    have heval := (he.flat hl₁ hroom₁ (hsup.first (hg₂.trans hg₃)) htame.left.left hn hp).2
    refine heval.seq fun b u u' hb hu => ?_
    rw [b.agree.ids.strictlyEquals hu (hv.mono hb.world)]
    split
    · exact .pure rfl
    · refine (hcs.choose hl₃ hsup₃ htame.right hroom₂ x (Nat.le_trans hn hb.left.nextId)
        (hp.mono hb.world) (hv.mono hb.world)).seq fun d i i' _ hi => ?_
      subst hi
      exact .pure rfl
  run {p q cs'} hl hsup htame n a env env' aim x hf hsites hflush skip := by
    rw [walkCases, List.append_assoc] at htame
    obtain ⟨h, p₁, hl₁, hl⟩ := Lower.bind_eq_ok.1 hl
    obtain ⟨body', p₂, hl₂, hl⟩ := Lower.bind_eq_ok.1 hl
    obtain ⟨cs', rfl, hl₃⟩ := Lower.map_eq_ok.1 hl
    have hg₁ := lowerExpr_grows hl₁
    simp only [walkCases, raiseSites_append, raiseSites_expr, List.nil_append,
      List.append_eq_nil_iff] at hsites
    exact meets_execCases hS hbody hcs hl₂ hl₃ (hsup.second hg₁) htame.right hf hg₁.issued hsites hflush skip

/-- The default stands where it stood. -/
theorem findIdx?_lowerCases {s : Surroundings} (x : String) :
    ∀ {cs cs' : List Case} {p q : Progress}, lowerCases s cs p = .ok (cs', q) →
      (storeInCases x cs').findIdx? (·.test.isNone) = cs.findIdx? (·.test.isNone)
  | [], cs', p, q, hl => by
    cases hl
    rfl
  | ⟨none, body⟩ :: cs, cs', p, q, hl => by
    obtain ⟨body', p₁, -, hl⟩ := Lower.bind_eq_ok.1 hl
    obtain ⟨cs', p₂, -, hl⟩ := Lower.bind_eq_ok.1 hl
    cases Lower.pure_eq_ok.1 hl
    simp [storeInCases, List.findIdx?_cons]
  | ⟨some e, body⟩ :: cs, cs', p, q, hl => by
    obtain ⟨h, p₁, -, hl⟩ := Lower.bind_eq_ok.1 hl
    obtain ⟨body', p₂, -, hl⟩ := Lower.bind_eq_ok.1 hl
    obtain ⟨cs', rfl, hl₃⟩ := Lower.map_eq_ok.1 hl
    simp [storeInCases, List.findIdx?_cons, findIdx?_lowerCases x hl₃]

/-- Runs a switch from the chosen case on, or from the default. -/
def execChosen (k : Engine) (env : Env) (cs : List Case) (chosen : Option Nat) : Run Unit :=
  match chosen <|> cs.findIdx? (·.test.isNone) with
  | none => return ()
  | some i => outcome (execCases k env i cs) >>= leaveSwitch

instance rising_execChosen (k : Engine) [k.Rising] (env : Env) (cs : List Case)
    (chosen : Option Nat) : Rising (execChosen k env cs chosen) := by
  unfold execChosen
  split <;> infer_instance

theorem runsStmt_switch {subject : Expr} (span : Span) (he : StagesExpr sp k subject)
    (hcs : RunsCases sp k cs) : RunsStmt sp k (.switch subject cs span) := by
  intro p q ss hl hsup htame n a env env' aim x hf hsites _
  have := k.rising
  have hroom : ∀ c ∈ cs, c.test.any Expr.hasAttempt = false := by
    simpa [Visit.leavesRoom] using htame.head.room
  obtain ⟨h, p₁, hl₁, hl⟩ := Lower.bind_eq_ok.1 hl
  obtain ⟨cs', rfl, hl₂⟩ := Lower.map_eq_ok.1 hl
  have hw := hoistedWell_of_eq_ok hsup.fits htame.tail.left.lowerable hl₁
  have hg₁ := lowerExpr_grows hl₁
  have hsup₂ := hsup.second hg₁
  have hg₂ := lowerCases_grows hl₂
  simp only [Stmt.walk, raiseSites_cons, Visit.raiseSite?, Option.toList_none, List.nil_append,
    raiseSites_append, raiseSites_expr] at hsites
  have hexec (k : Engine) (env : Env) (e : Expr) (cs : List Case) :
      execStmt k env (.switch e cs span) = tick k.maxSteps >>= fun _ => evalExpr k env e >>= fun v =>
        newScope env false >>= fun inner => chooseCase k inner v cs >>= execChosen k inner cs := by
    rfl
  rw [storeAll_append, hw.before.storeAll x, storeAll, storeAll, Stmt.storeRaises, hexec]
  refine .ticked fun b hb => ?_
  have hfb := hf.quiet hb
  rw [Run.bind_apply]
  refine (he hl₁ (fun h => by cases h) (hsup.first hg₂) htame.tail.left hfb.next
    hfb.stands.placed).finish (g := fun i v => newScope env' false >>= fun inner =>
      chooseCase (k.right i) inner v (storeInCases x cs') >>= execChosen (k.right i) inner (storeInCases x cs'))
    hfb hg₂.issued (fun i => by rw [hexec, k.maxSteps]) fun o v v' ho hv => ?_
  have hfi := (hfb.stays ho).inside false
  have hflush := Flush.inside o env env' false
  refine Meets.newScope ?_ (Touch.inside_within_stmt o env env' false p₁.names q.names aim)
  have hchoose := hcs.choose hl₂ hsup₂ htame.tail.right hroom x hfi.next hfi.stands.placed
    (hv.mono (o.world.le_withScopes _ _))
  refine (hchoose.within .none).seq fun d i i' hd hi => ?_
  subst hi
  unfold execChosen
  rw [findIdx?_lowerCases x hl₂]
  cases i' <|> cs.findIdx? (·.test.isNone) with
  | none => exact .pure trivial
  | some i =>
    exact (hcs.run hl₂ hsup₂ htame.tail.right (hfi.stays hd) hsites
      (hflush.mono hd.world) _).outcome .refl (fun _ _ => rfl)
      fun _ _ _ _ => meets_leaveSwitch

/-! ## Try statements -/

/-- Runs the body of a catch clause. -/
def execClause (k : Engine) (env : Env) (param : Option String) (body : List Stmt)
    (thrown : Value) : Run Unit :=
  newScope env false >>= fun inner => bindParam inner param thrown >>= fun _ =>
    declareFunctions inner body >>= fun _ => execAll k inner body

/-- What a try statement does with a value that was thrown. -/
def handling (k : Engine) (env : Env) : Option Handler → Value → Run Unit
  | none, thrown => throw (.thrown thrown)
  | some ⟨param, body⟩, thrown => execClause k env param body thrown

/-- What a try statement does at its end. -/
def finalizing (k : Engine) (env : Env) : Option (List Stmt) → Run Unit
  | none => return ()
  | some body => execBlock k env body

section

variable (k : Engine) [k.Rising] (env : Env)

instance rising_execClause (param : Option String) (body : List Stmt) (thrown : Value) :
    Rising (execClause k env param body thrown) := by
  unfold execClause
  infer_instance

instance rising_handling : ∀ (h : Option Handler) (thrown : Value), Rising (handling k env h thrown)
  | none, _ => rising_throw _
  | some ⟨param, body⟩, thrown => rising_execClause k env param body thrown

instance rising_finalizing : ∀ body : Option (List Stmt), Rising (finalizing k env body)
  | none => rising_pure _
  | some body => rising_execBlock k env body

end

theorem execHandler_eq (k : Engine) (env : Env) (first : Except Exit Unit) (h : Option Handler) :
    execHandler k env first h = catching first (handling k env h) := by
  cases h with
  | some h =>
    obtain ⟨param, body⟩ := h
    rfl
  | none =>
    cases first with
    | ok _ => rfl
    | error e => cases e <;> rfl

theorem execFinally_eq (k : Engine) (env : Env) (body : Option (List Stmt)) :
    execFinally k env none body = finalizing k env body := by
  cases body with
  | none => rfl
  | some body =>
    simp only [execFinally, finalizing, execBlock]

theorem execStmt_guarded (k : Engine) (env : Env) (body : List Stmt) (handler : Option Handler)
    (finalizer : Option (List Stmt)) (span : Span) :
    execStmt k env (.guarded body handler finalizer span) = tick k.maxSteps >>= fun _ =>
      attempted (execBlock k env body) (handling k env handler) (finalizing k env finalizer) := by
  rw [execStmt]
  simp only [execHandler_eq, execFinally_eq]
  rfl

/-- A catch clause is met by what became of it. -/
theorem meets_execClause (hS : S.Lowers sp) {param : Option String} {ss ss' : List Stmt}
    (hss : RunsStmts sp k ss) (hl : lowerStmts S.surroundings ss p = .ok (ss', q))
    (hsup : Supplied sp S.temp p q) (htame : S.Tames sp (walkStmts .all ss))
    (hparam : ∀ y ∈ param, ¬ S.temp y) (hf : Faces n a env env' aim x q.names)
    (hsites : aim = none → raiseSites .body (walkStmts .surface ss) = [])
    (hw : (Touch.stmt (env.inside a.left false) (env'.inside a.right false) p.names q.names aim).Within a t)
    {v v' : Value} (hv : Alike S a.world v v') : Meets n t a (execClause k.left env param ss v a.left)
      (fun i => execClause (k.right i) env' param (storeAll x ss') v') Anything := by
  have := k.rising
  have hfi := hf.inside false
  have hflush := Flush.inside a env env' false
  have hdecl := declares_lowerStmts hS hl hsup htame
  rw [← funcsOf_storeAll x ss'] at hdecl
  refine Meets.newScope ?_ hw
  have hbind : Meets n (.stmt (env.inside a.left false) (env'.inside a.right false)
      p.names q.names aim) a.pushBoth (bindParam (env.inside a.left false) param v a.pushBoth.left)
      (fun _ => bindParam (env'.inside a.right false) param v') Anything := by
    cases param with
    | none => exact .pure trivial
    | some y =>
      exact meets_declareHere true hflush (hparam y rfl) (hv.mono (a.world.le_withScopes _ _)) fun _ => rfl
  refine hbind.seq fun b _ _ hb _ => ?_
  have hfb := hfi.stays hb
  refine (meets_declareFunctions hdecl hfb.next hfb.stands.placed.chains (hflush.mono hb.world)).seq
    fun d _ _ hd _ => ?_
  exact hss hl hsup htame (hfb.stays hd) hsites
    (hflush.mono (World.le_trans hb.world hd.world))

theorem runsStmt_guarded (hS : S.Lowers sp) {handler : Option Handler} {finalizer : Option (List Stmt)}
    (span : Span) (hbody : RunsStmts sp k body) (hhandler : ∀ h ∈ handler, RunsStmts sp k h.body)
    (hfinal : ∀ ss ∈ finalizer, RunsStmts sp k ss) : RunsStmt sp k (.guarded body handler finalizer span) := by
  intro p q ss hl hsup htame n a env env' aim x hf hsites _
  have := k.rising
  have hparam : ∀ h ∈ handler, ∀ y ∈ h.param, ¬ S.temp y := by
    rintro h ⟨⟩ y hy
    exact htame.head.names y (by simpa [Visit.names] using hy)
  obtain ⟨body', p₁, hl₁, hl⟩ := Lower.bind_eq_ok.1 hl
  obtain ⟨handler', p₂, hl₂, hl⟩ := Lower.bind_eq_ok.1 hl
  obtain ⟨finalizer', rfl, hl₃⟩ := Lower.map_eq_ok.1 hl
  have htame₁ := htame.tail.left.left
  have htame₂ := htame.tail.left.right
  have htame₃ := htame.tail.right
  have hg₁ := lowerStmts_grows hl₁
  have hsup₂ := hsup.second hg₁
  have hg₂ := lowerHandler_grows hl₂
  have hsup₃ := hsup₂.second hg₂
  have hg₃ := lowerBlock_grows hl₃
  simp only [Stmt.walk, raiseSites_cons, Visit.raiseSite?, Option.toList_none, List.nil_append,
    raiseSites_append, List.append_eq_nil_iff] at hsites
  simp only [storeAll, Stmt.storeRaises, execAll_single, execStmt_guarded, k.maxSteps]
  refine .ticked fun b hb => Meets.tick_right ?_
  have hfb := (hf.quiet hb).quiet (b.later_countRight n (b.right.steps + 1) b.right.mistakes b.right.misses)
  refine meets_attempted ?_ (fun d v v' hd hv => ?_) fun d hd => ?_
  · exact meets_execBlock hS hbody hl₁ (hsup.first (hg₂.trans hg₃)) htame₁
      (hfb.mono (hg₂.trans hg₃).issued) (fun h => (hsites h).1.1) (Touch.inside_within_stmt _ _ _ _ _ _ _)
  · have hfd := hfb.stays hd
    cases handler with
    | none =>
      cases hl₂
      exact .throw (.thrown hv)
    | some h =>
      obtain ⟨param, clause⟩ := h
      obtain ⟨clause', rfl, hl₂'⟩ := Lower.map_eq_ok.1 hl₂
      exact meets_execClause hS (hhandler _ rfl) hl₂' (hsup₂.first hg₃) htame₂ (hparam _ rfl)
        (hfd.mono hg₃.issued) (fun h => (hsites h).1.2) (Touch.inside_within_stmt _ _ _ _ _ _ _) hv
  · have hfd := hfb.stays hd
    cases finalizer with
    | none =>
      cases hl₃
      exact .pure trivial
    | some clause =>
      obtain ⟨clause', rfl, hl₃'⟩ := Lower.map_eq_ok.1 hl₃
      exact meets_execBlock hS (hfinal _ rfl) hl₃' hsup₃ htame₃ hfd (fun h => (hsites h).2)
        (Touch.inside_within_stmt _ _ _ _ _ _ _)

/-! ## Statements without parts -/

theorem runsStmt_func (f : Func) : RunsStmt sp k (.func f) := by
  intro p q ss hl _ _ n a env env' aim x _ _ _
  obtain ⟨f', rfl, -⟩ := Lower.map_eq_ok.1 hl
  simp only [storeAll, Stmt.storeRaises, execAll_single, execStmt, k.maxSteps]
  exact .ticked fun b _ => Meets.tick_right (.pure trivial)

theorem runsStmt_jump (kind : Jump) (span : Span) : RunsStmt sp k (.jump kind span) := by
  intro p q ss hl _ _ n a env env' aim x _ _ _
  cases hl
  cases kind with
  | leave =>
    simp only [storeAll, Stmt.storeRaises, execAll_single, execStmt, k.maxSteps]
    exact .ticked fun b _ => Meets.tick_right (.throw .broke)
  | again =>
    simp only [storeAll, Stmt.storeRaises, execAll_single, execStmt, k.maxSteps]
    exact .ticked fun b _ => Meets.tick_right (.throw .continued)

theorem runsStmt_retNone (span : Span) : RunsStmt sp k (.ret none span) := by
  intro p q ss hl _ _ n a env env' aim x _ _ _
  cases hl
  simp only [storeAll, Stmt.storeRaises, execAll_single, execStmt, k.maxSteps]
  exact .ticked fun b _ => Meets.tick_right (.throw (.returned .undefined))

end RaiseScript
