import RaiseScript.Proofs.Scoped
import RaiseScript.Proofs.Transpiled

/-!
# Temporaries are hygienic

Lowering takes all its temporaries from one supply that avoids every name of the program, so they
differ from those names and from each other. What it puts in front of an expression declares the
temporaries that stand in the expression, whatever is in scope there already (`HoistedScoped`), and
a raise is stored in a temporary that was declared in front of the try statement around it. So every
temporary is used only where its declaration can be seen (`lowerProgram_hygienic`).

Nothing is asked of the program but that it was lowered. Only for the claim that spilled operands
are never assigned to must its assignments have targets, which all programs have that were read from
a text (`targeted_of_analyze`).
-/

namespace RaiseScript

variable {e o : Expr} {args : List Expr} {temp role beginning : String} {p lowered : Program}
  {progress : Progress}

/-- The node does not name a temporary. If it is an assignment to something that is no target, then
no temporary is fixed. -/
def Visit.Apart (t : Temps) (v : Visit) : Prop :=
  (∀ x ∈ v.names, ¬ t.issued x) ∧
    ∀ target value, v = .expr (.assign target value) → target.isTarget = true ∨ ∀ x, ¬ t.fixed x

/-- No node of a walk names a temporary. -/
def Apart (t : Temps) (vs : List Visit) : Prop :=
  ∀ v ∈ vs, v.Apart t

/-- Temporaries for try expressions and for logical operators are not fixed. -/
def Temps.Fits (t : Temps) (names : Names) : Prop :=
  ∀ role ∈ ["raise", "cond"], ∀ n, ¬ t.fixed (names.candidate role n)

section

variable {t : Temps}

@[simp] theorem apart_nil : Apart t [] := by
  simp [Apart]

@[simp] theorem apart_cons (v : Visit) (vs : List Visit) : Apart t (v :: vs) ↔ v.Apart t ∧ Apart t vs := by
  simp [Apart]

@[simp] theorem apart_append (us vs : List Visit) : Apart t (us ++ vs) ↔ Apart t us ∧ Apart t vs :=
  List.forall_mem_append

end

/-! ## What is said of each part -/

/-- The statements in front of an expression declare the temporaries in it. -/
structure HoistedScoped (t : Temps) (h : Hoisted) : Prop where
  before : ∀ scope, scopedAll t scope h.before
  value : ∀ scope, h.value.Scoped t (behind scope h.before)

/-- The statements in front of operands declare the temporaries in them. -/
structure OperandsScoped (t : Temps) (r : List Stmt × List Expr) : Prop where
  before : ∀ scope, scopedAll t scope r.1
  values : ∀ scope, scopedExprs t (behind scope r.1) r.2

variable (a : Names) (t : Temps) (s : Surroundings)

/-- What an expression lowers to declares its temporaries. -/
def ScopesExpr (e : Expr) : Prop :=
  Apart t (e.walk .all) → ∀ hoists, (lowerExpr s hoists e).Gives a (HoistedScoped t)

/-- Operands lower to such as declare their temporaries. -/
def ScopesExprs (es : List Expr) : Prop :=
  Apart t (walkExprs .all es) → ∀ hoists, (lowerOperands s hoists es).Gives a (OperandsScoped t)

/-- The statements for a statement declare their temporaries. -/
def ScopesStmt (st : Stmt) : Prop :=
  Apart t (st.walk .all) → (lowerStmt s st).Gives a fun ss => ∀ scope, scopedAll t scope ss

/-- The same for a list of statements. -/
def ScopesStmts (ss : List Stmt) : Prop :=
  Apart t (walkStmts .all ss) → (lowerStmts s ss).Gives a fun ss' => ∀ scope, scopedAll t scope ss'

/-- Declarators that are ready use temporaries that are in scope already. -/
def ScopesDecls (kind : BindingKind) (span : Span) (ds : List Declarator) : Prop :=
  Apart t (walkDecls .all ds) → ∀ ready : List Declarator, (∀ d ∈ ready ++ ds, ¬ t.issued d.name) →
    (lowerDecls s kind span ready ds).Gives a fun ss => ∀ scope, scopedDecls t scope ready → scopedAll t scope ss

/-- The same for a block that may be missing. -/
def ScopesBlock (o : Option (List Stmt)) : Prop :=
  Apart t (walkBlock .all o) → (lowerBlock s o).Gives a fun o' => ∀ scope, scopedBlock t scope o'

/-! ## Expressions -/

section

variable {a t s}

/-- A settled operand is scoped as it was before. What was declared in front of it still is. -/
theorem settle_scoped {follows : Bool} {h : Hoisted} (hh : HoistedScoped t h) :
    (settle s follows h).Gives a fun h' => HoistedScoped t h' ∧
      ∀ scope, behind scope h.before ⊆ behind scope h'.before := by
  refine .settle ⟨hh, fun _ => List.Subset.refl _⟩ fun _ x => ?_
  refine ⟨⟨fun scope => ?_, fun scope => ?_⟩, fun scope => ?_⟩
  · simp [hh.before scope, hh.value scope, scopedAll, Stmt.Scoped, scopedDecls]
  · simp [Expr.Scoped, Stmt.lets]
  · simp [Stmt.lets]

theorem scopesExprs_cons {es : List Expr} (he : ScopesExpr a t s e) (hes : ScopesExprs a t s es) :
    ScopesExprs a t s (e :: es) := by
  intro ha hoists
  rw [walkExprs, apart_append] at ha
  refine (he ha.1 hoists).bind fun h hh => (settle_scoped hh).bind fun h hh => (hes ha.2 hoists).bind fun r hr =>
    .pure ⟨fun scope => ?_, fun scope => ?_⟩
  · exact (scopedAll_append _ _ scope).2 ⟨hh.1.before scope, hr.before _⟩
  · rw [behind_append]
    exact ⟨(hh.1.value scope).mono (subset_behind _ _), hr.values _⟩

/-- Where something that is no target is assigned to, no temporary is fixed. -/
theorem scopesExpr_assign {target : Expr} (hn : target.isTarget = false) (ht : ScopesExpr a t s target)
    (he : ScopesExpr a t s e) : ScopesExpr a t s (.assign target e) := by
  intro ha hoists
  simp only [Expr.walk, apart_cons, apart_append] at ha
  have hfixed : ∀ x, ¬ t.fixed x := by
    rcases ha.1.2 target e rfl with ht | hx
    · rw [hn] at ht
      cases ht
    · exact hx
  rw [lowerExpr_assign s hoists hn]
  refine (ht ha.2.1 hoists).bind fun h hh => (settle_scoped hh).bind fun h hh =>
    (he ha.2.2 hoists).bind fun h' hh' =>
    .pure ⟨fun scope => ?_, fun scope => ?_⟩
  · exact (scopedAll_append _ _ scope).2 ⟨hh.1.before scope, hh'.before _⟩
  · rw [behind_append, Expr.Scoped]
    exact ⟨fun x _ => hfixed x, (hh.1.value scope).mono (subset_behind _ _), hh'.value _⟩

theorem scopesExpr_logical (hf : t.Fits a) (op : LogicalOp) {e₁ e₂ : Expr} (h₁ : ScopesExpr a t s e₁)
    (h₂ : ScopesExpr a t s e₂) : ScopesExpr a t s (.logical op e₁ e₂) := by
  intro ha hoists
  simp only [Expr.walk, apart_cons, apart_append] at ha
  refine (h₁ ha.2.1 hoists).bind fun h hh => .ite (fun _ => ?_) fun _ => ?_
  · refine (Lower.Gives.freshName "cond").bind fun x hx => (h₂ ha.2.2 hoists).bind fun h' hh' =>
      .pure ⟨fun scope => ?_, fun scope => ?_⟩
    · have hn : ¬ t.fixed x := by
        obtain ⟨n, rfl⟩ := hx
        exact hf "cond" (by simp) n
      have hguard (scope : List String) (hmem : x ∈ scope) : (op.guard (.ident x)).Scoped t scope := by
        cases op <;> simp [LogicalOp.guard, Expr.Scoped, hmem]
      have hmem (ss : List Stmt) : x ∈ behind (x :: behind scope h.before) ss :=
        subset_behind ss _ List.mem_cons_self
      simp [shortCircuit, scopedAll, Stmt.Scoped, scopedDecls, Expr.Scoped, Stmt.lets, hh.before,
        hh.value, hh'.before, hh'.value, hguard, hn, hmem]
    · simp [shortCircuit, Expr.Scoped, Stmt.lets]
  · refine (h₂ ha.2.2 hoists).bind fun h' hh' => .pure ⟨fun scope => ?_, fun scope => ?_⟩
    · exact (scopedAll_append _ _ scope).2 ⟨hh.before scope, hh'.before _⟩
    · rw [behind_append, Expr.Scoped]
      exact ⟨(hh.value scope).mono (subset_behind _ _), hh'.value _⟩

/-- A call of a method that was looked up before its arguments. -/
theorem scoped_callWith {callee receiver : Expr} {scope : List String} (hc : callee.Scoped t scope)
    (hr : receiver.Scoped t scope) (ha : scopedExprs t scope args) :
    (callWith callee receiver args).Scoped t scope := by
  exact ⟨hc, hr, ha⟩

theorem scopes_lowerBound {callee : Hoisted} {object : Expr} (hoists waits : Bool)
    (hargs : ScopesExprs a t s args) (ha : Apart t (walkExprs .all args))
    (hc : HoistedScoped t callee) (ho : ∀ scope, object.Scoped t (behind scope callee.before)) :
    (lowerBound s hoists waits callee object args).Gives a (HoistedScoped t) := by
  refine .ite (fun _ => ?_) fun _ => ?_
  · rw [← settle_true]
    refine (settle_scoped hc).bind fun c hc => (hargs ha hoists).bind fun r hr =>
      .pure ⟨fun scope => ?_, fun scope => ?_⟩
    · exact (scopedAll_append _ _ scope).2 ⟨hc.1.before scope, hr.before _⟩
    · rw [behind_append]
      exact scoped_callWith ((hc.1.value scope).mono (subset_behind _ _))
        ((ho scope).mono (List.Subset.trans (hc.2 scope) (subset_behind _ _))) (hr.values _)
  · refine (hargs ha hoists).bind fun r hr => .pure ⟨fun scope => ?_, fun scope => ?_⟩
    · exact (scopedAll_append _ _ scope).2 ⟨hc.before scope, hr.before _⟩
    · rw [behind_append, Expr.Scoped]
      exact ⟨(hc.value scope).mono (subset_behind _ _), hr.values _⟩

theorem scopesExpr_callMember (x : String) (ho : ScopesExpr a t s o)
    (hargs : ScopesExprs a t s args) : ScopesExpr a t s (.call (.member o x) args) := by
  intro ha hoists
  simp only [Expr.walk, apart_cons, apart_append] at ha
  refine (ho ha.2.1.2 hoists).bind fun h hh => (settle_scoped hh).bind fun h hh => ?_
  refine scopes_lowerBound hoists _ hargs ha.2.2 ⟨hh.1.before, fun scope => ?_⟩ hh.1.value
  rw [Expr.Scoped]
  exact hh.1.value scope

theorem scopesExpr_callIndex {i : Expr} (ho : ScopesExpr a t s o) (hi : ScopesExpr a t s i)
    (hargs : ScopesExprs a t s args) : ScopesExpr a t s (.call (.index o i) args) := by
  intro ha hoists
  simp only [Expr.walk, apart_cons, apart_append] at ha
  refine (ho ha.2.1.2.1 hoists).bind fun h hh => (settle_scoped hh).bind fun h hh =>
    (hi ha.2.1.2.2 hoists).bind fun h' hh' => ?_
  have hobject (scope : List String) : h.value.Scoped t (behind scope (h.before ++ h'.before)) := by
    rw [behind_append]
    exact (hh.1.value scope).mono (subset_behind _ _)
  refine scopes_lowerBound hoists _ hargs ha.2.2 ⟨fun scope => ?_, fun scope => ⟨hobject scope, ?_⟩⟩ hobject
  · exact (scopedAll_append _ _ scope).2 ⟨hh.1.before scope, hh'.before _⟩
  · rw [behind_append]
    exact hh'.value _

/-! ## Try expressions -/

/-- The temporary of a try expression is declared in front of the statement that stores into it. -/
theorem scoped_stored {e : TryExpr} (hn : ¬ t.fixed temp) (hcp : ∀ x ∈ e.catchParam, ¬ t.issued x)
    (hb : ∀ scope, scopedAll t scope e.body) (hc : ∀ scope, scopedAll t scope e.catchBody)
    (hfin : ∀ scope, scopedBlock t scope e.finallyBody) (scope : List String) :
    scopedAll t scope [(e.stored temp).declaration, (e.stored temp).statement] := by
  have hmem : temp ∈ temp :: scope := List.mem_cons_self
  have hfinal : scopedBlock t (temp :: scope) (e.finallyBody.map fun body =>
      (e.finallyParam.toList.map fun param =>
        Stmt.declare .mutable [⟨param, some (.ident temp)⟩] e.span) ++ storeAll temp body) := by
    have h := hfin (e.finallyParam.toList ++ temp :: scope)
    cases hbody : e.finallyBody with
    | none => trivial
    | some body =>
      rw [hbody] at h
      have hstore := scopedAll_storeAll hn (List.mem_append_right _ hmem) h
      cases hparam : e.finallyParam with
      | none => simpa [hparam, scopedBlock] using hstore
      | some param =>
        rw [hparam] at hstore
        simpa [scopedBlock, scopedAll, Stmt.Scoped, scopedDecls, Expr.Scoped, Stmt.lets] using hstore
  simp only [TryExpr.stored, declareEmpty, scopedAll, Stmt.Scoped, scopedDecls, Stmt.lets, scopedHandler]
  exact ⟨by simp, ⟨scopedAll_storeAll hn hmem (hb _), ⟨hcp, scopedAll_storeAll hn hmem (hc _)⟩, hfinal⟩,
    trivial⟩

/-- A wrapped try expression uses no temporary from outside. -/
theorem scoped_wrapped {e : TryExpr} (span : Span)
    (h : ∀ scope, scopedAll t scope [(e.stored temp).declaration, (e.stored temp).statement])
    (scope : List String) : ((e.stored temp).wrapped span).Scoped t scope := by
  have hfunc (isAsync : Bool) (form : FuncForm) (scope : List String) : (Expr.func ⟨none, [],
      .block [(e.stored temp).declaration, (e.stored temp).statement,
        .ret (some (e.stored temp).reference) span], isAsync, form, span⟩).Scoped t scope := by
    have hb := h []
    refine ⟨by simp, by simp, hb.1, hb.2.1, ?_⟩
    simp [scopedAll, Stmt.Scoped, LoweredAttempt.reference, Expr.Scoped,
      TryExpr.stored, declareEmpty, Stmt.lets]
  simp only [LoweredAttempt.wrapped]
  split
  · rw [Expr.Scoped]
    exact scoped_callWith (hfunc _ _ _) (by simp [Expr.Scoped]) trivial
  · split
    · rw [Expr.Scoped, Expr.Scoped]
      exact ⟨hfunc _ _ _, trivial⟩
    · rw [Expr.Scoped]
      exact ⟨hfunc _ _ _, trivial⟩

theorem scopesExpr_attempt (hf : t.Fits a) (e : TryExpr) (hb : ScopesStmts a t s e.body)
    (hc : ScopesStmts a t s e.catchBody) (hfin : ScopesBlock a t s e.finallyBody) :
    ScopesExpr a t s (.attempt e) := by
  intro ha hoists
  simp only [Expr.walk, TryExpr.walk_all, apart_cons, apart_append] at ha
  obtain ⟨-, ⟨hnames, -⟩, ⟨hab, hac⟩, haf⟩ := ha
  simp only [Visit.names, List.mem_append, Option.mem_toList] at hnames
  rw [lowerExpr_attempt]
  refine (hb hab).bind fun body hb => (hc hac).bind fun catchBody hc => (hfin haf).bind fun finallyBody hfin =>
    (Lower.Gives.lowerAttempt _).bind fun l hl => ?_
  obtain ⟨n, rfl⟩ := hl
  have hstored := scoped_stored (e := { e with body, catchBody, finallyBody })
    (hf "raise" (by simp) n) (fun x hx => hnames x (Or.inl hx)) hb hc hfin
  refine .ite (fun _ => .pure ⟨hstored, fun scope => ?_⟩) fun _ => .pure ⟨fun _ => trivial, ?_⟩
  · simp [LoweredAttempt.reference, Expr.Scoped, TryExpr.stored, declareEmpty, Stmt.lets]
  · exact fun scope => scoped_wrapped _ hstored scope

/-! ## Statements -/

theorem scopesDecls_some {kind : BindingKind} {span : Span} {x : String} {ds : List Declarator}
    (he : ScopesExpr a t s e) (hds : ScopesDecls a t s kind span ds) :
    ScopesDecls a t s kind span (⟨x, some e⟩ :: ds) := by
  intro ha ready hn
  rw [walkDecls, apart_append] at ha
  obtain ⟨hr, hn⟩ := List.forall_mem_append.1 hn
  rw [List.forall_mem_cons] at hn
  refine ((he ha.1 true).and (gives_ahead e)).bind fun h hh => .ite (fun _ => ?_) fun hattempt => ?_
  · refine (hds ha.2 [⟨x, some h.value⟩] (List.forall_mem_cons.2 hn)).bind fun ss hss =>
      .pure fun scope hscope => ?_
    have hearlier : scopedAll t scope (if ready.isEmpty then [] else [Stmt.declare kind ready span]) := by
      split
      · trivial
      · rw [scopedAll, Stmt.Scoped]
        exact ⟨⟨fun _ => hr, hscope⟩, trivial⟩
    rw [List.append_assoc, scopedAll_append, scopedAll_append]
    refine ⟨hearlier, hh.1.before _, hss _ ?_⟩
    exact ⟨hh.1.value _, trivial⟩
  · have hn' : ∀ d ∈ (ready ++ [⟨x, some h.value⟩]) ++ ds, ¬ t.issued d.name := by
      rw [List.append_assoc, List.forall_mem_append]
      exact ⟨hr, List.forall_mem_cons.2 hn⟩
    refine fun p hp ss q hss => (hds ha.2 _ hn' p hp ss q hss).imp id fun hs scope hscope => hs scope ?_
    -- Without a try expression nothing stands in front of the initial value.
    have hv := hh.1.value scope
    rw [hh.2.flat (by simpa using hattempt)] at hv
    rw [scopedDecls_append, scopedDecls]
    exact ⟨hscope, hv, trivial⟩

end

/-! ## The walk -/

variable {a t} in
/-- Every part keeps the temporaries in scope when its own parts do. -/
theorem scopesRules (hf : t.Fits a) : LoweringRules (ScopesExpr a t s) (ScopesExprs a t s)
    (fun f => Apart t (f.walk .all) → (lowerFunc s f).Gives a (Func.Scoped t))
    (ScopesStmt a t s) (ScopesDecls a t s)
    (fun cs => Apart t (walkCases .all cs) →
      (lowerCases s cs).Gives a fun cs' => ∀ scope, scopedCases t scope cs')
    (fun o => Apart t (walkHandler .all o) → (∀ h ∈ o, ∀ x ∈ h.param, ¬ t.issued x) →
      (lowerHandler s o).Gives a fun o' => ∀ scope, scopedHandler t scope o')
    (ScopesBlock a t s) (ScopesStmts a t s) where
  leaf he ha hoists := by
    rw [lowerExpr_leaf s hoists he]
    refine .pure ⟨fun _ => trivial, fun scope => ?_⟩
    cases he with
    | ident x =>
      have hx : ¬ t.issued x := (ha (.expr (.ident x)) (by simp [Expr.walk])).1 x (by simp [Visit.names])
      rw [Expr.Scoped]
      exact fun h => absurd h hx
    | _ => simp [Expr.Scoped]
  strict {e es} he _ hes ha hoists := by
    rw [lowerExpr_strict s hoists he]
    refine ((hes (fun v hv => ha v (he.mem_walk hv)) hoists).and (gives_length s es)).bind fun r hr => ?_
    exact .pure ⟨hr.1.before, fun scope => he.scoped_withOperands hr.2 (hr.1.values scope)⟩
  logical op := scopesExpr_logical hf op
  assignIdent x he ha hoists := by
    simp only [Expr.walk, apart_cons, apart_append] at ha
    have hx : ¬ t.issued x := ha.2.1.1.1 x (by simp [Visit.names])
    rw [lowerExpr]
    refine (he ha.2.2 hoists).bind fun h hh => .pure ⟨hh.before, fun scope => ?_⟩
    simp only [Expr.Scoped, Expr.ident.injEq]
    refine ⟨?_, fun h => absurd h hx, hh.value scope⟩
    rintro _ rfl hfixed
    exact hx (t.issued_of_fixed hfixed)
  assign := scopesExpr_assign
  callMember x := scopesExpr_callMember x
  callIndex := scopesExpr_callIndex
  func hfunc ha hoists := by
    rw [Expr.walk, apart_cons] at ha
    rw [lowerExpr]
    refine (hfunc ha.2).bind fun f hf => .pure ⟨fun _ => trivial, fun scope => ?_⟩
    rwa [Expr.Scoped]
  attempt := scopesExpr_attempt hf
  nilExprs _ _ := .pure ⟨fun _ => trivial, fun _ => trivial⟩
  consExprs := scopesExprs_cons
  funcBlock hbody ha := by
    simp only [Func.walk, Reach.functions_all, if_true, apart_cons] at ha
    have hnames := ha.1.1
    simp only [Visit.names, List.mem_append, Option.mem_toList] at hnames
    rw [lowerFunc]
    refine (hbody ha.2).bind fun ss hss => .pure ?_
    rw [Func.Scoped]
    exact ⟨fun x hx => hnames x (Or.inl hx), fun x hx => hnames x (Or.inr hx), hss []⟩
  funcExpr {_ _ value _ _ _} hvalue ha := by
    simp only [Func.walk, Reach.functions_all, if_true, apart_cons] at ha
    have hnames := ha.1.1
    simp only [Visit.names, List.mem_append, Option.mem_toList] at hnames
    rw [lowerFunc]
    refine ((hvalue ha.2 false).and (gives_ahead value)).bind fun h hh => .pure ?_
    rw [Func.Scoped]
    refine ⟨fun x hx => hnames x (Or.inl hx), fun x hx => hnames x (Or.inr hx), ?_⟩
    -- Nothing moves in front of an expression body.
    have hv := hh.1.value []
    rwa [hh.2.flat rfl] at hv
  leafStmt hst _ := by
    rw [lowerStmt_leaf s hst]
    exact .pure fun scope => ⟨by cases hst <;> trivial, trivial⟩
  around hm he ha := by
    rw [hm.walk, apart_cons] at ha
    rw [lowerStmt_around s hm]
    refine (he ha.2 true).bind fun h hh => .pure fun scope => ?_
    have hvalue := hh.value scope
    rw [scopedAll_append, scopedAll]
    exact ⟨hh.before scope, by cases hm <;> rwa [Stmt.Scoped], trivial⟩
  declare {_ _ ds} hds ha := by
    rw [Stmt.walk, apart_cons] at ha
    have hnames : ∀ d ∈ ds, ¬ t.issued d.name := fun d hd =>
      ha.1.1 d.name (by simpa [Visit.names] using ⟨d, hd, rfl⟩)
    rw [lowerStmt]
    exact fun p hp ss q hss => (hds ha.2 [] hnames p hp ss q hss).imp id fun hs scope => hs scope trivial
  block span hbody ha := by
    rw [Stmt.walk, apart_cons] at ha
    rw [lowerStmt]
    refine (hbody ha.2).bind fun ss hss => .pure fun scope => ?_
    rw [scopedAll, Stmt.Scoped]
    exact ⟨hss scope, trivial⟩
  branch span he hyes ha := by
    simp only [Stmt.walk, apart_cons, apart_append] at ha
    rw [lowerStmt]
    refine (he ha.2.1 true).bind fun h hh => (hyes ha.2.2).bind fun ss hss => .pure fun scope => ?_
    rw [scopedAll_append, scopedAll, Stmt.Scoped]
    exact ⟨hh.before scope, ⟨hh.value scope, scoped_asBranch _ (hss _)⟩, trivial⟩
  branchElse span he hyes hno ha := by
    simp only [Stmt.walk, apart_cons, apart_append] at ha
    rw [lowerStmt]
    refine (he ha.2.1.1 true).bind fun h hh => (hyes ha.2.1.2).bind fun ss hss => (hno ha.2.2).bind fun ss' hss' =>
      .pure fun scope => ?_
    rw [scopedAll_append, scopedAll, Stmt.Scoped]
    exact ⟨hh.before scope, ⟨hh.value scope, scoped_asBranch _ (hss _), scoped_asBranch _ (hss' _)⟩, trivial⟩
  loop {e _} span he hbody ha := by
    simp only [Stmt.walk, apart_cons, apart_append] at ha
    rw [lowerStmt]
    refine ((he ha.2.1 true).and (gives_ahead e)).bind fun h hh => (hbody ha.2.2).bind fun ss hss =>
      .ite (fun _ => .pure fun scope => ?_) fun hattempt => .pure fun scope => ?_
    · simp [testedInside, scopedAll, Stmt.Scoped, Expr.Scoped, hh.1.before, hh.1.value, scoped_asBranch _ (hss _)]
    · have hv := hh.1.value scope
      rw [hh.2.flat (by simpa using hattempt)] at hv
      rw [scopedAll, Stmt.Scoped]
      exact ⟨⟨hv, scoped_asBranch _ (hss _)⟩, trivial⟩
  switch span he hcs ha := by
    simp only [Stmt.walk, apart_cons, apart_append] at ha
    rw [lowerStmt]
    refine (he ha.2.1 true).bind fun h hh => (hcs ha.2.2).bind fun cs hcs => .pure fun scope => ?_
    rw [scopedAll_append, scopedAll, Stmt.Scoped]
    exact ⟨hh.before scope, ⟨hh.value scope, hcs _⟩, trivial⟩
  guarded {_ handler _} span hbody hhandler hfinal ha := by
    simp only [Stmt.walk, apart_cons, apart_append] at ha
    have hparam : ∀ g ∈ handler, ∀ x ∈ g.param, ¬ t.issued x := by
      rintro g rfl x hx
      exact ha.1.1 x (by simpa [Visit.names] using hx)
    rw [lowerStmt]
    refine (hbody ha.2.1.1).bind fun _ hb => (hhandler ha.2.1.2 hparam).bind fun _ hh =>
      (hfinal ha.2.2).bind fun _ hf => .pure fun scope => ?_
    rw [scopedAll, Stmt.Scoped]
    exact ⟨⟨hb scope, hh scope, hf scope⟩, trivial⟩
  funcStmt hfunc ha := by
    rw [Stmt.walk, apart_cons] at ha
    rw [lowerStmt]
    refine (hfunc ha.2).bind fun f hf => .pure fun scope => ?_
    rw [scopedAll, Stmt.Scoped]
    exact ⟨hf, trivial⟩
  nilDecls kind span _ ready hn := by
    rw [List.append_nil] at hn
    refine .pure fun scope hs => ?_
    rw [scopedAll, Stmt.Scoped]
    exact ⟨⟨fun _ => hn, hs⟩, trivial⟩
  bareDecl hds ha ready hn := by
    rw [lowerDecls]
    refine fun p hp ss q hss => (hds ha _ (by simpa using hn) p hp ss q hss).imp id fun hs scope hscope => ?_
    exact hs scope (by simpa [scopedDecls] using hscope)
  consDecls := scopesDecls_some
  nilCases _ := .pure fun _ => trivial
  defaultCase hbody hcs ha := by
    rw [walkCases, apart_append] at ha
    rw [lowerCases]
    exact (hbody ha.1).bind fun _ hb => (hcs ha.2).bind fun _ hc => .pure fun scope => ⟨hb scope, hc scope⟩
  consCases {e _ _} he hbody hcs ha := by
    rw [walkCases, apart_append, apart_append] at ha
    rw [lowerCases]
    refine ((he ha.1.1 false).and (gives_ahead e)).bind fun h hh => (hbody ha.1.2).bind fun _ hb =>
      (hcs ha.2).bind fun _ hc => .pure fun scope => ⟨?_, hb scope, hc scope⟩
    -- Nothing moves in front of a test.
    have hv := hh.1.value scope
    rwa [hh.2.flat rfl] at hv
  noHandler _ _ := .pure fun _ => trivial
  handler param hbody ha hp := by
    rw [lowerHandler]
    exact (hbody ha).bind fun _ hb => .pure fun scope => ⟨hp _ rfl, hb scope⟩
  noBlock _ := .pure fun _ => trivial
  finalizer hbody ha := by
    rw [lowerBlock]
    exact (hbody ha).bind fun _ hb => .pure hb
  nilStmts _ := .pure fun _ => trivial
  consStmts hst hss ha := by
    rw [walkStmts, apart_append] at ha
    rw [lowerStmts]
    exact (hst ha.1).bind fun _ h => (hss ha.2).bind fun _ h' => .pure fun scope =>
      (scopedAll_append _ _ scope).2 ⟨h scope, h' _⟩

/-! ## Programs -/

/-- The temporaries that a supply has given out. -/
def Names.temps (names : Names) : Temps :=
  ⟨(· ∈ names.issued), fun _ => False, False.elim⟩

/-- The name belongs to a spilled operand. -/
def Names.IsSpill (names : Names) (x : String) : Prop :=
  x ∈ names.issued ∧ ∃ n, x = names.candidate "spill" n

/-- The temporaries that a supply has given out, those of spilled operands being fixed. -/
def Names.spillTemps (names : Names) : Temps :=
  ⟨(· ∈ names.issued), names.IsSpill, And.left⟩

/-- Every assignment has a target. -/
def Targeted (p : Program) : Prop :=
  ∀ target value, .expr (.assign target value) ∈ walkStmts .all p → target.isTarget = true

/-- Names whose roles start with different characters differ. -/
theorem Names.candidate_ne (names : Names) {role' : String} {c d : Char} {cs ds : List Char}
    (hr : role.toList = c :: cs) (hr' : role'.toList = d :: ds) (hne : c ≠ d) (m n : Nat) :
    names.candidate role m ≠ names.candidate role' n := by
  intro h
  have hchars := congrArg String.toList h
  simp only [Names.candidate, String.toList_append, List.append_assoc,
    List.append_cancel_left_eq, hr, hr', List.cons_append, List.cons.injEq] at hchars
  exact hne hchars.1

/-- No spilled operand has the name of another temporary. -/
theorem Names.candidate_ne_spill (names : Names) (hr : role ∈ ["raise", "cond"]) (m n : Nat) :
    names.candidate role m ≠ names.candidate "spill" n := by
  have hspill : "spill".toList = 's' :: ['p', 'i', 'l', 'l'] := by decide
  rcases List.mem_cons.1 hr with rfl | hr
  · have hraise : "raise".toList = 'r' :: ['a', 'i', 's', 'e'] := by decide
    exact names.candidate_ne hraise hspill (by decide) m n
  · obtain rfl := List.mem_singleton.1 hr
    have hcond : "cond".toList = 'c' :: ['o', 'n', 'd'] := by decide
    exact names.candidate_ne hcond hspill (by decide) m n

/-- The supply of a lowered program comes from one that avoids the names of the program. -/
theorem draws_of_lowerProgram (h : lowerProgram beginning p = .ok (lowered, progress)) :
    (Names.forProgram beginning p).Draws progress.names := by
  exact ((drawsRules _).onStmts p _ _ .refl _ _ (lowerProgram_eq_ok.1 h).1).1

theorem notMem_identifiers_of_issued (h : lowerProgram beginning p = .ok (lowered, progress)) :
    ∀ x ∈ progress.names.issued, x ∉ identifiers p := by
  intro x hx
  exact (draws_of_lowerProgram h).grows.free x hx (by simp)

/-- The temporaries of a lowered program are in scope. If some are fixed, they belong to spilled
operands, and the assignments of the program have targets. -/
theorem scoped_of_lowerProgram {t : Temps} (h : lowerProgram beginning p = .ok (lowered, progress))
    (hissued : ∀ x, t.issued x → x ∈ progress.names.issued)
    (hfixed : ∀ x, t.fixed x → Targeted p ∧ progress.names.IsSpill x) : scopedAll t [] lowered := by
  have hapart : Apart t (walkStmts .all p) := by
    intro v hv
    refine ⟨fun x hx hi => ?_, fun target value hassign => ?_⟩
    · exact notMem_identifiers_of_issued h x (hissued x hi) (List.mem_flatMap.2 ⟨v, hv, hx⟩)
    · by_cases ht : target.isTarget = true
      · exact Or.inl ht
      · exact Or.inr fun x hx => ht ((hfixed x hx).1 target value (hassign ▸ hv))
  have hfits : t.Fits (Names.forProgram beginning p) := by
    intro role hr m hx
    obtain ⟨n, hn⟩ := (hfixed _ hx).2.2
    rw [(draws_of_lowerProgram h).grows.candidate] at hn
    exact Names.candidate_ne_spill _ hr m n hn
  exact ((scopesRules _ hfits).onStmts p hapart _ .refl _ _ (lowerProgram_eq_ok.1 h).1).2 []

/-- The assignments of a program that was read from a text have targets. -/
theorem targeted_of_analyze {source file : String} {o : Options} {ds : List Diagnostic}
    (h : analyze source file o = .ok (p, ds)) : Targeted p := by
  obtain ⟨q, hq, hv⟩ := analyze_eq_ok h
  obtain ⟨ls, -, hls⟩ := parse_eq_ok hq
  obtain ⟨hparsed, -⟩ := parsed_of_parseLexemes .any (fun l _ => l.token.fits_any) hls
  have hannotated := parsed_renoted notes_annotate.only (renoted_stmts notes_annotate.only _ q 0) hparsed
  have hnotes := notesOnly_judgeUpTo file o.maxErrors
  have hp := parsed_renoted hnotes (renoted_stmts hnotes _ (annotate q).1 []) hannotated
  change replaceStmts (judgeUpTo file o.maxErrors) (annotate q).1 [] = (p, ds) at hv
  rw [hv] at hp
  exact fun target value hmem => (hp _ hmem).1

/-- Temporaries are hygienic. In a lowered program they differ from each other and from every name
of the source, each of them is used only where a `let` or `const` for it is in scope in the same
function, and spilled operands are never assigned to. The last asks that the source assigns to
targets only, as every program does that was read from a text. -/
theorem temporaries_hygienic :
    (∀ {beginning : String} {p lowered : Program} {progress : Progress},
      lowerProgram beginning p = .ok (lowered, progress) →
      progress.names.issued.Nodup ∧
      (∀ x ∈ progress.names.issued, x ∉ identifiers p) ∧
      scopedAll progress.names.temps [] lowered ∧
      (Targeted p → ∀ x, progress.names.IsSpill x → Unassigned x (walkStmts .all lowered))) ∧
    ∀ {source file : String} {o : Options} {p : Program} {ds : List Diagnostic},
      analyze source file o = .ok (p, ds) → Targeted p := by
  refine ⟨fun h => ⟨?_, notMem_identifiers_of_issued h, ?_, fun ht x hx => ?_⟩, targeted_of_analyze⟩
  · exact (draws_of_lowerProgram h).nodup (by simp)
      (by simp)
  · exact scoped_of_lowerProgram h (fun _ => id) fun _ => False.elim
  · have hscoped : scopedAll _ [] _ :=
      scoped_of_lowerProgram (t := Names.spillTemps _) h (fun _ => id) fun _ hfixed => ⟨ht, hfixed⟩
    exact Phrase.Scoped.unassigned (p := .stmts _) hx hscoped

/-- A call plus a try expression, in a program that has a name which looks like a temporary. -/
def spilledSum : Program :=
  [.declare .mutable [⟨"__spill0", none⟩] .none,
    .expr (.binary .add (.call (.ident "f") []) (.attempt ⟨0, [.raise 1 .null .none], none,
      [.raise 2 .undefined .none], none, none, .none, none, some .valid⟩)) .none]

/-- What becomes of it. -/
def spilledSumLowered : Program :=
  [.declare .mutable [⟨"__spill0", none⟩] .none,
    .declare .constant [⟨"__spill1", some (.call (.ident "f") [])⟩] .none,
    .declare .mutable [⟨"__raise2", none⟩] .none,
    .guarded [.expr (.assign (.ident "__raise2") .null) .none]
      (some ⟨none, [.expr (.assign (.ident "__raise2") .undefined) .none]⟩) none .none,
    .expr (.binary .add (.ident "__spill1") (.ident "__raise2")) .none]

theorem temporaries_hygienic_of_spilledSum :
    ∃ progress, lowerProgram "__" spilledSum = .ok (spilledSumLowered, progress) ∧
      progress.names.issued = ["__raise2", "__spill1"] ∧
      (∀ x ∈ progress.names.issued, x ∉ identifiers spilledSum) ∧
      scopedAll progress.names.temps [] spilledSumLowered ∧
      Unassigned "__spill1" (walkStmts .all spilledSumLowered) := by
  have h : lowerProgram "__" spilledSum = .ok (spilledSumLowered,
      ⟨⟨"__", 3, ["__raise2", "__spill1", "__spill0", "f"], ["__raise2", "__spill1"]⟩, 1⟩) := by
    rfl
  have htargeted : Targeted spilledSum := by
    simp [Targeted, spilledSum, walkStmts, Stmt.walk, walkDecls, Expr.walk, walkExprs, TryExpr.walk]
  obtain ⟨-, hnames, hscoped, hspill⟩ := temporaries_hygienic.1 h
  exact ⟨_, h, rfl, hnames, hscoped, hspill htargeted "__spill1" ⟨by simp, 1, by decide⟩⟩

end RaiseScript
