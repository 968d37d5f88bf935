import RaiseScript.Proofs.Faithful

/-!
# Lowering keeps what fragments do

Code without try expressions is left as it is (`lowerStmts_plain`). So functions that a machine
already holds belong to themselves, and the simulation applies to a fragment on any machine that
holds lowered code. The statements in front of a fragment and then what is left of it do what the
fragment does (`fragment_faithful`).
-/

namespace RaiseScript

variable {e : Expr} {v : Visit} {names : Names} {f : Func} {source file : String}

/-! ## Code without try expressions -/

/-- No node of the walk is a try expression. -/
def Plain (vs : List Visit) : Prop :=
  ∀ v ∈ vs, v.attempt? = none

namespace Plain

variable {us vs : List Visit}

theorem iff_meetsAttempt : Plain vs ↔ meetsAttempt vs = false := by
  simp [Plain, meetsAttempt]

theorem tail (h : Plain (v :: vs)) : Plain vs :=
  fun u hu => h u (List.mem_cons_of_mem v hu)

theorem left (h : Plain (us ++ vs)) : Plain us :=
  fun u hu => h u (List.mem_append_left vs hu)

theorem right (h : Plain (us ++ vs)) : Plain vs :=
  fun u hu => h u (List.mem_append_right us hu)

theorem hasAttempt (h : Plain (e.walk .all)) : e.hasAttempt = false :=
  hasAttempt_of_meetsAttempt e (iff_meetsAttempt.1 h)

theorem any_hasAttempt {es : List Expr} (h : Plain (walkExprs .all es)) :
    es.any Expr.hasAttempt = false :=
  hasAttempt_of_meetsAttempts es (iff_meetsAttempt.1 h)

end Plain

section

-- Derives the equations of the walk once, ahead of the proofs that rewrite with them.
attribute [local simp] lowerExpr lowerOperands lowerFunc lowerStmt lowerDecls
  lowerCases lowerHandler lowerBlock lowerStmts asBranch

variable (s : Surroundings)

theorem lowerRules_plain : LoweringRules
    (fun e => Plain (e.walk .all) → ∀ hoists, lowerExpr s hoists e = pure ⟨[], e⟩)
    (fun es => Plain (walkExprs .all es) → ∀ hoists, lowerOperands s hoists es = pure ([], es))
    (fun f => Plain (f.walk .all) → lowerFunc s f = pure f)
    (fun st => Plain (st.walk .all) → lowerStmt s st = pure [st])
    (fun kind span ds => Plain (walkDecls .all ds) →
      ∀ ready, lowerDecls s kind span ready ds = pure [.declare kind (ready ++ ds) span])
    (fun cs => Plain (walkCases .all cs) → lowerCases s cs = pure cs)
    (fun o => Plain (walkHandler .all o) → lowerHandler s o = pure o)
    (fun o => Plain (walkBlock .all o) → lowerBlock s o = pure o)
    (fun ss => Plain (walkStmts .all ss) → lowerStmts s ss = pure ss) where
  leaf he _ hoists := lowerExpr_leaf s hoists he
  strict he _ hes h hoists := by
    rw [lowerExpr_strict s hoists he, hes (fun v hv => h v (he.mem_walk hv)) hoists]
    cases he <;> simp [Expr.withOperands]
  logical _ ha hb h hoists := by
    simp [ha h.tail.left, hb h.tail.right, Plain.hasAttempt h.tail.right]
  assignIdent _ he h hoists := by simp [he h.tail.right]
  assign hn ht he h hoists := by
    rw [lowerExpr_assign s hoists hn]
    simp [ht h.tail.left, he h.tail.right, Plain.hasAttempt h.tail.right]
  callMember _ ho hargs h hoists := by
    simp [ho h.tail.left.tail, hargs h.tail.right, Plain.any_hasAttempt h.tail.right]
  callIndex ho hi hargs h hoists := by
    simp [ho h.tail.left.tail.left, hi h.tail.left.tail.right, hargs h.tail.right,
      Plain.any_hasAttempt h.tail.right, Plain.hasAttempt h.tail.left.tail.right]
  func hf h hoists := by simp [hf h.tail]
  attempt _ _ _ _ h _ := absurd (Plain.hasAttempt h) (by simp)
  nilExprs _ hoists := by simp
  consExprs he hes h hoists := by simp [he h.left, hes h.right, Plain.any_hasAttempt h.right]
  funcBlock hb h := by simp [hb h.tail]
  funcExpr he h := by simp [he h.tail]
  leafStmt hst _ := lowerStmt_leaf s hst
  around hm he h := by
    rw [hm.walk] at h
    simp [lowerStmt_around s hm, he h.tail]
  declare hds h := by simp [hds h.tail]
  block _ hb h := by simp [hb h.tail]
  branch _ he hyes h := by simp [he h.tail.left, hyes h.tail.right]
  branchElse _ he hyes hno h := by simp [he h.tail.left.left, hyes h.tail.left.right, hno h.tail.right]
  loop _ he hb h := by simp [he h.tail.left, hb h.tail.right, Plain.hasAttempt h.tail.left]
  switch _ he hcs h := by simp [he h.tail.left, hcs h.tail.right]
  guarded _ hb hh hf h := by simp [hb h.tail.left.left, hh h.tail.left.right, hf h.tail.right]
  funcStmt hf h := by simp [hf h.tail]
  nilDecls _ _ _ ready := by simp
  bareDecl hds h ready := by simp [hds h]
  consDecls he hds h ready := by simp [he h.left, hds h.right, Plain.hasAttempt h.left]
  nilCases _ := by simp
  defaultCase hb hcs h := by simp [hb h.left, hcs h.right]
  consCases he hb hcs h := by simp [he h.left.left, hb h.left.right, hcs h.right]
  noHandler _ := by simp
  handler _ hb h := by simp [hb h]
  noBlock _ := by simp
  finalizer hb h := by simp [hb h]
  nilStmts _ := by simp
  consStmts hst hss h := by simp [hst h.left, hss h.right]

theorem lowerFunc_plain (f : Func) (h : Plain (f.walk .all)) : lowerFunc s f = pure f :=
  (lowerRules_plain s).onFunc f h

theorem lowerStmt_plain (st : Stmt) (h : Plain (st.walk .all)) : lowerStmt s st = pure [st] :=
  (lowerRules_plain s).onStmt st h

theorem lowerStmts_plain (ss : List Stmt) (h : Plain (walkStmts .all ss)) : lowerStmts s ss = pure ss :=
  (lowerRules_plain s).onStmts ss h

end

/-! ## Nodes without try expressions under them -/

namespace Plain

theorem any_test {cs : List Case} (h : Plain (walkCases .all cs)) :
    ∀ c ∈ cs, c.test.any Expr.hasAttempt = false := by
  induction cs with
  | nil => exact fun _ hc => by cases hc
  | cons c cs ih =>
    obtain ⟨_ | test, body⟩ := c
    · exact List.forall_mem_cons.2 ⟨rfl, ih h.right⟩
    · exact List.forall_mem_cons.2 ⟨h.left.left.hasAttempt, ih h.right⟩

theorem leavesRoom : ∀ {v : Visit}, Plain v.below → v.leavesRoom = true
  | .func ⟨_, _, .block _, _, _, _⟩, _ => rfl
  | .func ⟨_, _, .expr _, _, _, _⟩, h => by
    rw [Visit.leavesRoom, h.tail.hasAttempt]
    rfl
  | .stmt st, h => by
    cases st with
    | switch subject cs span => simpa [Visit.leavesRoom] using h.tail.right.any_test
    | loop test body span => simpa [Visit.leavesRoom] using h.tail.left.hasAttempt
    | _ => rfl
  | .expr _, _ => rfl
  | .attempt _, _ => rfl

theorem yieldsPlain (h : Plain v.below) : v.yieldsPlain = true := by
  unfold Visit.yieldsPlain
  split
  · rw [h.tail.hasAttempt]
    rfl
  · rfl

theorem isFlat : ∀ {v : Visit}, Plain v.below → v.isFlat = true
  | .func _, h | .stmt _, h => by simpa [Visit.isFlat, Visit.below] using iff_meetsAttempt.1 h
  | .expr e, h => by
    cases e with
    | call callee args => simp [Visit.isFlat, any_hasAttempt h.tail.right]
    | _ => rfl
  | .attempt _, _ => rfl

end Plain

theorem Standard.plain {vs : List Visit} (h : Standard vs) : Plain vs := by
  intro v hv
  have hv := h v hv
  cases v with
  | attempt t => cases hv
  | _ => rfl

theorem Visit.leavesRoom_of_isFlat (h : v.isFlat = true) : v.leavesRoom = true := by
  cases v with
  | stmt st => exact Plain.leavesRoom (Plain.iff_meetsAttempt.2 (by simpa [Visit.isFlat, below] using h))
  | func f => exact Plain.leavesRoom (Plain.iff_meetsAttempt.2 (by simpa [Visit.isFlat, below] using h))
  | _ => rfl

/-! ## The setting of a fragment -/

/-- A function of lowered code that does not use the names. -/
structure Func.Lowered (names : Names) (f : Func) : Prop where
  clean : Clean .any (f.walk .all)
  free : ∀ v ∈ f.walk .all, ∀ x ∈ v.names, x ∉ names.issued

theorem Surroundings.unknown_isOpen (h : Surroundings.unknown.isOpen = false) : false = true := by cases h

/-- Nothing is known about the code around a fragment. -/
def Setting.fragment (names : Names) : Setting :=
  .lowering .any .unknown (· ∈ names.issued) false Surroundings.unknown_isOpen

/-- What lowering asks of a node in unknown surroundings. -/
theorem tame_unknown {temp : String → Prop} (hready : v.Ready) (hspelled : v.Spelled .any)
    (hnames : ∀ x ∈ v.names, ¬ temp x) (hyields : v.yieldsPlain = true) (hflat : v.isFlat = true) :
    v.Tame .any .unknown temp where
  ready := hready
  spelled := hspelled
  names := hnames
  rebinds h := by cases h
  writes _ _ := rfl
  computed _ _ := rfl
  room := Visit.leavesRoom_of_isFlat hflat
  yields := hyields
  braced h := by cases h
  flat _ := hflat

theorem Standard.ready : ∀ {v : Visit}, Standard v.below → v.Ready
  | .attempt t, h => by cases h (.attempt t) (by simp [Visit.below, TryExpr.walk_all])
  | .func ⟨_, _, .block body, _, _, _⟩, h => fun c =>
    raiseSites_of_standard c body fun v hv => h v (List.mem_cons_of_mem _ hv)
  | .func ⟨_, _, .expr _, _, _, _⟩, _ => trivial
  | .stmt _, _ => trivial
  | .expr _, _ => trivial

/-- A function of lowered code belongs to itself. -/
theorem Func.Lowered.becomes (h : f.Lowered names) : (Setting.fragment names).code f f := by
  have hstandard := h.clean.standard
  refine ⟨⟨⟨.avoiding "" [], 0⟩, ⟨.avoiding "" [], 0⟩, ?_, ?_⟩, fun v hv => ?_⟩
  · rw [lowerFunc_plain _ f hstandard.plain]
    rfl
  · exact ⟨Spelling.any_fits _, List.Subset.refl _, fun x hx => by cases hx⟩
  · have hbelow : Standard v.below := fun u hu => hstandard u ((deep (.func f) v hv).subset hu)
    exact tame_unknown hbelow.ready (h.clean v hv).2 (h.free v hv) hbelow.plain.yieldsPlain
      hbelow.plain.isFlat

/-- Functions of a fragment are left as they are. -/
theorem Setting.eq_of_fragment_code {f' : Func} (h : (Setting.fragment names).code f f') : f' = f := by
  obtain ⟨⟨p, q, hl, -⟩, htame⟩ := h
  obtain ⟨vs, hvs⟩ := f.walk_eq_cons .all
  rw [hvs] at htame
  have hflat := htame.head.flat rfl
  have hplain : Plain (f.walk .all) := Plain.iff_meetsAttempt.2 (by simpa [Visit.isFlat] using hflat)
  rw [lowerFunc_plain _ f hplain] at hl
  cases hl
  rfl

/-! ## Fragments -/

/-- Two runs have the same effect, up to the numbers of scopes and functions and up to
temporaries. -/
inductive SameEffect (S : Setting) (w : World) : Result Value → Result Value → Prop
  | value {v v' : Value} {m m' : Machine} (hv : Alike S w v v') (hm : Matches S w m m') :
    SameEffect S w (.ok v m) (.ok v' m')
  | exit {e e' : Exit} {m m' : Machine} (he : ExitAlike S w e e') (hm : Matches S w m m') :
    SameEffect S w (.error e m) (.error e' m')

/-- The statements in front of a fragment and then what is left of it. -/
def Hoisted.eval (k : Engine) (env : Env) (h : Hoisted) : Run Value := do
  execAll k env h.before
  evalExpr k env h.value

/-- A limit that is not reached does not matter for the two. -/
theorem Hoisted.eval_outlasting {i j depth : Nat} {m : Machine} (hij : i ≤ j)
    (hm : m.steps ≤ i) (env : Env) (h : Hoisted) :
    Result.Stopped (h.eval (Machine.engine ⟨i, depth⟩ false m.depth) env m) ∨
      h.eval (Machine.engine ⟨j, depth⟩ false m.depth) env m =
        h.eval (Machine.engine ⟨i, depth⟩ false m.depth) env m := by
  let k (i : Nat) : Tracer := ⟨i, traceCallAt ⟨i, depth⟩ (depth - m.depth)⟩
  have hparallel : Parallel (fun d {_} => Outlasts i d) (Limits.mk i depth).maxSteps
      (Limits.mk j depth).maxSteps (Limits.mk i depth).maxDepth := parallel_outlasts hij
  have hroom : (Limits.mk i depth).maxDepth ≤ m.depth + (depth - m.depth) := by
    simp only
    omega
  have hk : Tracer.Parallel (fun d {_} => Outlasts i d) depth m.depth (k i) (k j) :=
    ⟨hparallel, parallel_traceCallAt hparallel rfl hroom hroom⟩
  have hrun (i : Nat) : (do traceAll (k i) env h.before; traceExpr (k i) env h.value : Traced Value).run =
      h.eval (Machine.engine ⟨i, depth⟩ false m.depth) env := by
    have hengine : (k i).engine = Machine.engine ⟨i, depth⟩ false m.depth := engine_traceCallAt ⟨i, depth⟩ _
    rw [Traced.run_bind, run_traceAll, run_traceExpr, hengine]
    rfl
  have hlasts := hk.closed.bind (parallel_traceAll hk env h.before) fun _ => parallel_traceExpr hk env h.value
  have hsame := hlasts.same rfl hm
  rwa [hrun, hrun] at hsame

theorem Meets.sameEffect {S : Setting} {n : Nat} {t : Touch} {c : Twin S} {r : Result Value}
    {y : Nat → Run Value} (h : Meets n t c r y AlikeIn) (hex : ¬ Excused S c.left r) :
    ∃ w, c.world ≤ w ∧ ∃ N, ∀ i ≥ N, SameEffect S w r (y i c.right) := by
  cases h with
  | excused h => exact absurd h hex
  | gives b v v' hl hv hy hr =>
    obtain ⟨N, hN⟩ := hy
    refine ⟨b.world, hl.world, N, fun i hi => ?_⟩
    rw [hv, hN i hi]
    exact .value hr b.agree
  | exits b e e' hl he hy hr =>
    obtain ⟨N, hN⟩ := hy
    refine ⟨b.world, hl.world, N, fun i hi => ?_⟩
    rw [he, hN i hi]
    exact .exit hr b.agree

theorem parseExpr_eq_ok (h : parseExpr source file = .ok e) : ∃ ls, parseExprLexemes ls = .ok e := by
  unfold parseExpr at h
  cases hl : lex source file with
  | error d => rw [hl] at h; cases h
  | ok ls =>
    rw [hl] at h
    change (parseExprLexemes ls).mapError _ = .ok e at h
    cases hp : parseExprLexemes ls with
    | error d => rw [hp] at h; cases h
    | ok e' =>
      rw [hp] at h
      cases h
      exact ⟨ls, hp⟩

/-- The nodes of an expression that was read and checked are ready to be lowered. -/
theorem lowerable_of_parseExpr {e₀ : Expr} {span : Span} {limit : Nat} (hlimit : 1 ≤ limit)
    (hparse : parseExpr source file = .ok e₀)
    (hvalid : validate file limit (annotate [.expr e₀ span]).1 = ([.expr e span], [])) :
    Lowerable .any (e.walk .all) := by
  obtain ⟨ls, hls⟩ := parseExpr_eq_ok hparse
  have hparsed := parsed_of_parseExprLexemes .any (fun l _ => l.token.fits_any) hls
  have hwhole : Parsed .any (walkStmts .all [.expr e₀ span]) := by
    intro v hv
    rw [walkStmts, walkStmts, List.append_nil, Stmt.walk] at hv
    rcases List.mem_cons.1 hv with rfl | hv
    · exact ⟨trivial, trivial⟩
    · exact hparsed v hv
  have hl := (lowerable_of_validate hlimit hwhole hvalid).1
  rw [walkStmts, walkStmts, List.append_nil, Stmt.walk] at hl
  exact fun v hv => hl v (List.mem_cons_of_mem _ hv)

/-- A fragment is met by what became of it. -/
theorem meets_fragment {h : Hoisted} {q : Progress} (limits : Limits) {m : Machine} {env : Env}
    (hl : Lowerable .any (e.walk .all)) (hflat : ∀ v ∈ e.walk .all, v.isFlat = true)
    (hyields : ∀ v ∈ e.walk .all, v.yieldsPlain = true) (hkept : names.issued ⊆ names.taken)
    (hfree : ∀ v ∈ e.walk .all, ∀ x ∈ v.names, x ∉ q.names.issued)
    (hlow : lowerFragment names e = .ok (h, q)) (hm : m.Sound (Func.Lowered q.names))
    (hnonempty : env.chain ≠ []) (henv : env.Within m.scopes.size) :
    ∃ hs : m.Sound fun f => (Setting.fragment q.names).code f f,
      Meets m.nextId (.temps env names q.names) (.same m hs)
        (evalExpr (Machine.engine limits true m.depth) env e m)
        (fun i => h.eval (Machine.engine ⟨i, limits.maxDepth⟩ false m.depth) env) AlikeIn := by
  have hs : m.Sound fun f => (Setting.fragment q.names).code f f := hm.imp fun _ => Func.Lowered.becomes
  have hplaced : Placed (World.same m) env env := ⟨.same henv, hnonempty⟩
  have htame : AllTame .any .unknown (· ∈ q.names.issued) (e.walk .all) := fun v hv =>
    tame_unknown (hl v hv).1 (hl v hv).2 (hfree v hv) (hyields v hv) (hflat v hv)
  have hstage := stagesExpr (engines limits (limits.maxDepth - m.depth))
    Setting.lowers_lowering e hlow (fun h => by cases h) ⟨Spelling.any_fits _, hkept,
    fun _ hx => hx⟩ htame (a := .same m hs) (Nat.le_refl _) hplaced
  exact ⟨hs, hstage.next .none fun c hc hripe =>
    hripe.active (hplaced.mono hc.world) c (.refl _ c)⟩

/-- Lowering a fragment keeps its effect. Let an expression be read and checked without complaints,
let the clauses of its try expressions and its functions hold no further ones, and let none stand
under a `yield` or among the arguments of a method. Then it can be lowered. On every machine whose
functions are lowered code and do not use the temporaries, if evaluating the expression in place
comes to an end, the statements in front of the lowered expression and then the expression itself
give the same value or exit, the same output and heap and the same bindings but for temporaries,
unless they are stopped at their limit of steps, which they are not if the limit is high enough.
Functions are the same on both sides. -/
theorem fragment_faithful {source file : String} {e₀ e : Expr} {span : Span} {limit : Nat}
    {names : Names} (hlimit : 1 ≤ limit) (hparse : parseExpr source file = .ok e₀)
    (hvalid : validate file limit (annotate [.expr e₀ span]).1 = ([.expr e span], []))
    (hflat : ∀ v ∈ e.walk .all, v.isFlat = true)
    (hyields : ∀ v ∈ e.walk .all, v.yieldsPlain = true)
    (hkept : names.issued ⊆ names.taken)
    (hnames : ∀ v ∈ e.walk .all, ∀ x ∈ v.names, x ∈ names.taken ∧ x ∉ names.issued) :
    ∃ h q, lowerFragment names e = .ok (h, q) ∧
      (∀ f f', (Setting.fragment q.names).code f f' → f' = f) ∧
      ∀ (limits : Limits) (m : Machine) (env : Env), m.Sound (Func.Lowered q.names) →
        env.chain ≠ [] → env.Within m.scopes.size → m.steps ≤ limits.maxSteps →
        ¬ Result.Stopped (evalExpr (Machine.engine limits true m.depth) env e m) →
        ∃ w, World.same m ≤ w ∧
          (∃ N, ∀ i ≥ N, SameEffect (.fragment q.names) w
            (evalExpr (Machine.engine limits true m.depth) env e m)
            (h.eval (Machine.engine ⟨i, limits.maxDepth⟩ false m.depth) env m)) ∧
          ∀ i ≥ m.steps,
            Result.Stopped (h.eval (Machine.engine ⟨i, limits.maxDepth⟩ false m.depth) env m) ∨
            SameEffect (.fragment q.names) w (evalExpr (Machine.engine limits true m.depth) env e m)
              (h.eval (Machine.engine ⟨i, limits.maxDepth⟩ false m.depth) env m) := by
  have hl := lowerable_of_parseExpr hlimit hparse hvalid
  obtain ⟨h, q, hlow, hm, -⟩ := lowersExpr .any .unknown e true hl ⟨names, 0⟩ (Spelling.any_fits _)
  have hfree : ∀ v ∈ e.walk .all, ∀ x ∈ v.names, x ∉ q.names.issued := fun v hv x hx hi =>
    hm.grows.free x hi (hnames v hv x hx).2 (hnames v hv x hx).1
  refine ⟨h, q, hlow, fun _ _ => Setting.eq_of_fragment_code,
    fun limits m env hm hnonempty henv hsteps hstop => ?_⟩
  obtain ⟨hs, hmeets⟩ := meets_fragment limits hl hflat hyields hkept hfree hlow hm hnonempty henv
  have hex : ¬ Excused (Setting.fragment q.names) m
      (evalExpr (Machine.engine limits true m.depth) env e m) := by
    have := lasting_engine limits true m.depth
    have hended := ((lasting_evalExpr (d := m.depth) (Machine.engine limits true m.depth) env
      e).lasts m rfl hsteps).resolve_left hstop
    rintro (⟨f, n, hf, ⟨stop, rfl⟩ | rfl⟩ | ⟨hfaultless, -⟩)
    · exact hstop ⟨stop, n, hf⟩
    · exact hended.unexhausted n hf
    · cases hfaultless
  obtain ⟨w, hworld, N, hN⟩ := hmeets.sameEffect hex
  refine ⟨w, hworld, ⟨N, hN⟩, fun i hi => ?_⟩
  refine (h.eval_outlasting (Nat.le_max_left i N) hi env).imp_right fun hsame => ?_
  rw [← hsame]
  exact hN _ (Nat.le_max_right i N)

/-! ## Fragments next to each other -/

/-- Reads and checks an expression, lowers it and looks at both forms. -/
def compareForms (source : String) (look : Expr → Hoisted → Bool) : Bool :=
  (parseExpr source "main.js").toOption.any fun e₀ =>
    match validate "main.js" 1 (annotate [.expr e₀ .none]).1 with
    | ([.expr e span], []) => span == .none &&
      (lowerFragment (.forProgram "__" [.expr e .none]) e).toOption.any fun r => look e r.1
    | _ => false

theorem exists_of_compareForms {look : Expr → Hoisted → Bool}
    (h : compareForms source look = true) : ∃ e₀ e low q, parseExpr source "main.js" = .ok e₀ ∧
      validate "main.js" 1 (annotate [.expr e₀ .none]).1 = ([.expr e .none], []) ∧
      lowerFragment (.forProgram "__" [.expr e .none]) e = .ok (low, q) ∧ look e low = true := by
  obtain ⟨e₀, hparse, h⟩ := Except.exists_of_any h
  split at h
  · rename_i e span hvalid
    obtain ⟨hspan, h⟩ := Bool.and_eq_true_iff.1 h
    obtain rfl := eq_of_beq hspan
    obtain ⟨⟨low, q⟩, hlow, h⟩ := Except.exists_of_any h
    exact ⟨e₀, e, low, q, hparse, hvalid, hlow, h⟩
  · cases h

theorem Names.forProgram_fragment (beginning : String) (e : Expr) (span : Span) :
    ∀ v ∈ e.walk .all, ∀ x ∈ v.names, x ∈ (Names.forProgram beginning [.expr e span]).taken ∧
      x ∉ (Names.forProgram beginning [.expr e span]).issued := by
  intro v hv x hx
  refine ⟨List.mem_flatMap.2 ⟨v, ?_, hx⟩, by simp⟩
  exact List.mem_append_left _ (List.mem_cons_of_mem _ hv)

/-- A call is spilled in front of a clause that prints. -/
def spilledCall : String :=
  "String('a') + try \x7b console.log('x'); raise 'b' \x7d catch \x7b raise 'c' \x7d"

/-- On a new machine the clause prints, and both forms have the same effect. -/
theorem fragment_faithful_of_spilledCall :
    ∃ e₀ e h q w N, parseExpr spilledCall "main.js" = .ok e₀ ∧
      validate "main.js" 1 (annotate [.expr e₀ .none]).1 = ([.expr e .none], []) ∧
      lowerFragment (.forProgram "__" [.expr e .none]) e = .ok (h, q) ∧
      (Result.final (evalExpr (Machine.engine ⟨100, 10⟩ true 0) Machine.globals e
        Machine.start)).output = #["x"] ∧
      ∀ i ≥ N, SameEffect (.fragment q.names) w
        (evalExpr (Machine.engine ⟨100, 10⟩ true 0) Machine.globals e Machine.start)
        (h.eval (Machine.engine ⟨i, 10⟩ false 0) Machine.globals Machine.start) := by
  have hlook : compareForms spilledCall (fun e _ =>
      ((e.walk .all).all fun v => v.isFlat && v.yieldsPlain) &&
      match evalExpr (Machine.engine ⟨100, 10⟩ true 0) Machine.globals e Machine.start with
      | .ok _ m => m.output == #["x"]
      | .error _ _ => false) = true := by decide +kernel
  obtain ⟨e₀, e, low, q, hparse, hvalid, hlow, h⟩ := exists_of_compareForms hlook
  obtain ⟨hnodes, h⟩ := Bool.and_eq_true_iff.1 h
  simp only [Bool.and_eq_true, List.all_eq_true] at hnodes
  split at h
  · rename_i v m hrun
    have hstop : ¬ Result.Stopped
        (evalExpr (Machine.engine ⟨100, 10⟩ true 0) Machine.globals e Machine.start) := by
      rintro ⟨limit, m', hstopped⟩
      rw [hrun] at hstopped
      cases hstopped
    obtain ⟨low', q', hlow', -, hsame⟩ := fragment_faithful (Nat.le_refl 1) hparse hvalid
      (fun v hv => (hnodes v hv).1) (fun v hv => (hnodes v hv).2)
      (by simp) (Names.forProgram_fragment "__" e .none)
    rw [hlow] at hlow'
    cases hlow'
    obtain ⟨w, -, ⟨N, hN⟩, -⟩ := hsame ⟨100, 10⟩ Machine.start Machine.globals (Machine.sound_start _)
      (List.cons_ne_nil _ _) (by simp [Env.Within, Machine.globals, Machine.start]) (Nat.zero_le _) hstop
    refine ⟨e₀, e, low, q, w, N, hparse, hvalid, hlow, ?_, hN⟩
    rw [hrun]
    exact eq_of_beq h
  · cases h

/-- Something has to be asked of `yield` : what a clause under it prints is printed before the
machine refuses the `yield`, but not if the clause runs in place. -/
theorem fragment_unfaithful :
    ∃ e₀ e h q, parseExpr "yield (try \x7b console.log('clause'); raise 'a' \x7d catch \x7b raise 'b' \x7d)"
        "main.js" = .ok e₀ ∧
      validate "main.js" 1 (annotate [.expr e₀ .none]).1 = ([.expr e .none], []) ∧
      lowerFragment (.forProgram "__" [.expr e .none]) e = .ok (h, q) ∧
      (∀ v ∈ e.walk .all, v.isFlat = true) ∧
      (Result.final (evalExpr (Machine.engine ⟨100, 10⟩ true 0) Machine.globals e
        Machine.start)).output = #[] ∧
      (Result.final (h.eval (Machine.engine ⟨100, 10⟩ false 0) Machine.globals
        Machine.start)).output = #["clause"] := by
  have hlook : compareForms
      "yield (try \x7b console.log('clause'); raise 'a' \x7d catch \x7b raise 'b' \x7d)"
      (fun e h => decide ((∀ v ∈ e.walk .all, v.isFlat = true) ∧
        (Result.final (evalExpr (Machine.engine ⟨100, 10⟩ true 0) Machine.globals e
          Machine.start)).output = #[] ∧
        (Result.final (h.eval (Machine.engine ⟨100, 10⟩ false 0) Machine.globals
          Machine.start)).output = #["clause"])) = true := by decide +kernel
  obtain ⟨e₀, e, low, q, hparse, hvalid, hlow, h⟩ := exists_of_compareForms hlook
  exact ⟨e₀, e, low, q, hparse, hvalid, hlow, of_decide_eq_true h⟩

end RaiseScript
