import RaiseScript.Proofs.Faithful

/-!
# Suspension points stay where they may be

An `await` may stand directly in a function only if the function is async, and a `yield` only if it
is a generator ; outside of all functions both may stand. `Lawful` says this of a tree, given what
is granted to the place where the tree stands. A function grants its body what it is, whatever was
granted around it (`lawful_func`).

Lowering moves code within a function, and it makes a function of a try expression that is wrapped.
The flags of that function are those that its body asks for, and the `await` or `yield` around its
call is one that the clauses asked for before (`lawful_wrapped`). So what was granted is enough, for
any nesting of wrapped and hoisted try expressions (`suspensions_stay_legal`).
-/

namespace RaiseScript

variable {α β : Type} {g : Suspension}
variable {h : Hoisted} {e o : Expr} {es args : List Expr} {p : Program}

/-! ## What a place grants -/

/-- The node may stand where this is granted. -/
def Suspension.Permits (g : Suspension) (v : Visit) : Prop :=
  (v.isAwait = true → g.awaits = true) ∧ (v.isYield = true → g.yields = true)

/-- The nodes of the body of a function. -/
def FuncBody.walk (r : Reach) : FuncBody → List Visit
  | .block body => walkStmts r body
  | .expr value => value.walk r

/-- What a function grants its body. -/
def Func.grant (f : Func) : Suspension :=
  ⟨f.isAsync, f.form == .generator⟩

/-- A function grants its body what stands directly in it. -/
def Visit.Granted : Visit → Prop
  | .func f => ∀ v ∈ f.body.walk .sameFunction, f.grant.Permits v
  | _ => True

/-- The nodes may stand where `g` is granted, and those inside functions where they stand. -/
structure Lawful (g : Suspension) (vs : Reach → List Visit) : Prop where
  here : ∀ v ∈ vs .sameFunction, g.Permits v
  inside : ∀ v ∈ vs .all, v.Granted

theorem lawful_congr {us vs : Reach → List Visit} (hhere : us .sameFunction = vs .sameFunction)
    (hinside : us .all = vs .all) : Lawful g us ↔ Lawful g vs := by
  constructor
  · rintro ⟨h, h'⟩
    exact ⟨hhere ▸ h, hinside ▸ h'⟩
  · rintro ⟨h, h'⟩
    exact ⟨hhere ▸ h, hinside ▸ h'⟩

@[simp] theorem lawful_nil : Lawful g fun _ => [] where
  here _ h := nomatch h
  inside _ h := nomatch h

@[simp] theorem lawful_cons (v : Visit) (vs : Reach → List Visit) :
    Lawful g (fun r => v :: vs r) ↔ (g.Permits v ∧ v.Granted) ∧ Lawful g vs := by
  constructor
  · rintro ⟨h, h'⟩
    rw [List.forall_mem_cons] at h h'
    exact ⟨⟨h.1, h'.1⟩, h.2, h'.2⟩
  · rintro ⟨⟨h, h'⟩, hvs⟩
    exact ⟨List.forall_mem_cons.2 ⟨h, hvs.here⟩, List.forall_mem_cons.2 ⟨h', hvs.inside⟩⟩

@[simp] theorem lawful_append (us vs : Reach → List Visit) :
    Lawful g (fun r => us r ++ vs r) ↔ Lawful g us ∧ Lawful g vs := by
  constructor
  · rintro ⟨h, h'⟩
    rw [List.forall_mem_append] at h h'
    exact ⟨⟨h.1, h'.1⟩, h.2, h'.2⟩
  · rintro ⟨hus, hvs⟩
    exact ⟨List.forall_mem_append.2 ⟨hus.here, hvs.here⟩, List.forall_mem_append.2 ⟨hus.inside, hvs.inside⟩⟩

attribute [local simp] Suspension.Permits Visit.isAwait Visit.isYield Visit.Granted

/-- A function is lawful when its body is, with what the function grants. -/
@[simp] theorem lawful_func (f : Func) :
    Lawful g (Func.walk · f) ↔ Lawful f.grant (FuncBody.walk · f.body) := by
  have hvisits : ∀ r : Reach, f.walk r = .func f :: if r.functions then f.body.walk r else [] := by
    obtain ⟨_, _, _ | _, _, _, _⟩ := f <;> intro r <;> rfl
  constructor
  · rintro ⟨-, h⟩
    rw [hvisits] at h
    obtain ⟨h, h'⟩ := List.forall_mem_cons.1 h
    exact ⟨h, h'⟩
  · rintro ⟨h, h'⟩
    refine ⟨?_, ?_⟩
    · intro v hv
      obtain rfl : v = .func f := by simpa [hvisits, Reach.sameFunction] using hv
      simp
    · rw [hvisits]
      exact List.forall_mem_cons.2 ⟨h, h'⟩

@[simp] theorem lawful_attempt (t : TryExpr) :
    Lawful g (TryExpr.walk · t) ↔ Lawful g (walkStmts · t.body) ∧
      Lawful g (walkStmts · t.catchBody) ∧ Lawful g (walkBlock · t.finallyBody) := by
  have hvisits : Lawful g (TryExpr.walk · t) ↔ Lawful g fun r => .attempt t ::
      (walkStmts r t.body ++ walkStmts r t.catchBody ++ walkBlock r t.finallyBody) := by
    refine lawful_congr ?_ t.walk_all
    obtain ⟨_, _, _, _, _, _ | _, _, _, _⟩ := t <;>
      simp [TryExpr.walk, walkBlock, Reach.sameFunction]
  rw [hvisits]
  simp

/-- Nodes that may stand somewhere ask for no more than what is among them. -/
theorem Lawful.own {vs : Reach → List Visit} (h : Lawful g vs) :
    Lawful ⟨(vs .sameFunction).any Visit.isAwait, (vs .sameFunction).any Visit.isYield⟩ vs where
  here v hv := ⟨fun hv' => List.any_eq_true.2 ⟨v, hv, hv'⟩, fun hv' => List.any_eq_true.2 ⟨v, hv, hv'⟩⟩
  inside := h.inside

theorem Lawful.awaits {vs : Reach → List Visit} (h : Lawful g vs)
    (hv : (vs .sameFunction).any Visit.isAwait = true) : g.awaits = true := by
  obtain ⟨v, hv, hawait⟩ := List.any_eq_true.1 hv
  exact (h.here v hv).1 hawait

theorem Lawful.yields {vs : Reach → List Visit} (h : Lawful g vs)
    (hv : (vs .sameFunction).any Visit.isYield = true) : g.yields = true := by
  obtain ⟨v, hv, hyield⟩ := List.any_eq_true.1 hv
  exact (h.here v hv).2 hyield

@[simp] theorem lawful_asBranch (span : Span) (ss : List Stmt) :
    Lawful g (Stmt.walk · (asBranch span ss)) ↔ Lawful g (walkStmts · ss) := by
  unfold asBranch
  split
  · simp [walkStmts]
  · simp [Stmt.walk]

/-! ## Raises become assignments -/

theorem Phrase.lawful_storeRaises (temp : String) (p : Phrase) (h : Lawful g (Phrase.walk · p)) :
    Lawful g (Phrase.walk · (p.storeRaises temp)) := by
  induction p with
  | blockStmt | branch | branchElse | loop | switch | guarded | raise =>
    simp_all [Stmt.storeRaises, Stmt.walk, Expr.walk]
  | defaultCase | consCases => simp_all [storeInCases, walkCases]
  | handler => simp_all [storeInHandler, walkHandler]
  | finalizer => simp_all [storeInBlock, walkBlock]
  | consStmts => simp_all [storeAll, walkStmts]
  | _ => exact h

theorem lawful_storeAll (temp : String) (ss : List Stmt) (h : Lawful g (walkStmts · ss)) :
    Lawful g (walkStmts · (storeAll temp ss)) :=
  Phrase.lawful_storeRaises temp (.stmts ss) h

/-! ## Lowered try expressions -/

/-- The try statement may stand where the try expression may. -/
theorem lawful_stored {t : TryExpr} (temp : String) (h : Lawful g (TryExpr.walk · t)) :
    Lawful g (Stmt.walk · (t.stored temp).statement) := by
  rw [lawful_attempt] at h
  obtain ⟨hbody, hcatch, hfinally⟩ := h
  have hblock : Lawful g (walkBlock · (t.finallyBody.map fun body =>
      t.finallyParam.toList.map (fun param =>
        Stmt.declare .mutable [⟨param, some (.ident temp)⟩] t.span) ++ storeAll temp body)) := by
    cases hb : t.finallyBody with
    | none => simp [walkBlock]
    | some body =>
      rw [hb] at hfinally
      have hstored := lawful_storeAll temp body hfinally
      cases t.finallyParam <;> simp [walkBlock, walkStmts, Stmt.walk, walkDecls, Expr.walk, hstored]
  simp only [TryExpr.stored, Stmt.walk, walkHandler, lawful_cons, lawful_append]
  exact ⟨⟨by simp, trivial⟩, ⟨lawful_storeAll temp _ hbody, lawful_storeAll temp _ hcatch⟩, hblock⟩

/-- A try expression that is wrapped may stand where it stood. The function has the flags that its
body asks for, and the call is awaited or delegated to only if the clauses await or yield. -/
theorem lawful_wrapped {l : LoweredAttempt} (span : Span) (hd : ∀ g, Lawful g (Stmt.walk · l.declaration))
    (hs : Lawful g (Stmt.walk · l.statement)) : Lawful g (Expr.walk · (l.wrapped span)) := by
  have hall : Lawful g (walkStmts · [l.statement]) := by simpa [walkStmts] using hs
  have hown : Lawful (suspension [l.statement]) (walkStmts · [l.statement]) := hall.own
  have hbody : Lawful (suspension [l.statement])
      (walkStmts · [l.declaration, l.statement, .ret (some l.reference) span]) := by
    simp only [walkStmts, List.append_nil] at hown ⊢
    simp [hd, hown, Stmt.walk, LoweredAttempt.reference, Expr.walk]
  unfold LoweredAttempt.wrapped
  rcases hneeds : suspension [l.statement] with ⟨awaits, yields⟩
  rw [hneeds] at hbody
  have hawaits : awaits = true → g.awaits = true :=
    fun h => hall.awaits ((congrArg Suspension.awaits hneeds).trans h)
  have hyields : yields = true → g.yields = true :=
    fun h => hall.yields ((congrArg Suspension.yields hneeds).trans h)
  cases yields with
  | true => simp [callWith, Expr.walk, walkExprs, FuncBody.walk, Func.grant, hyields, hbody]
  | false =>
    have harrow : (FuncForm.arrow == FuncForm.generator) = false := rfl
    cases awaits with
    | true => simp [harrow, Expr.walk, walkExprs, FuncBody.walk, Func.grant, hawaits, hbody]
    | false => simp [harrow, Expr.walk, walkExprs, FuncBody.walk, Func.grant, hbody]

/-! ## Steps of a lowering -/

/-- The nodes of an expression and of the statements before it. -/
def Hoisted.walk (h : Hoisted) (r : Reach) : List Visit :=
  walkStmts r h.before ++ h.value.walk r

/-- The nodes of operands and of the statements before them. -/
def operandVisits (x : List Stmt × List Expr) (r : Reach) : List Visit :=
  walkStmts r x.1 ++ walkExprs r x.2

/-- What the lowering gives may stand where the nodes `old` may. -/
def KeepsLaw (a : Names) (x : Lower α) (new : α → Reach → List Visit) (old : Reach → List Visit) : Prop :=
  ∀ g, Lawful g old → x.Gives a fun r => Lawful g (new r)

@[simp] theorem Hoisted.lawful_iff {h : Hoisted} :
    Lawful g h.walk ↔ Lawful g (walkStmts · h.before) ∧ Lawful g (Expr.walk · h.value) :=
  lawful_append _ _

@[simp] theorem lawful_operandVisits {x : List Stmt × List Expr} :
    Lawful g (operandVisits x) ↔ Lawful g (walkStmts · x.1) ∧ Lawful g (walkExprs · x.2) :=
  lawful_append _ _

section

variable {a : Names} {s : Surroundings}

theorem lawful_spill (hh : Lawful g h.walk) : (spill s h).Gives a fun h' => Lawful g h'.walk := by
  refine .spill hh fun x => ?_
  rw [Hoisted.lawful_iff] at hh
  simp [walkStmts, Stmt.walk, walkDecls, Expr.walk, hh]

theorem lawful_settle (follows : Bool) (hh : Lawful g h.walk) :
    (settle s follows h).Gives a fun h' => Lawful g h'.walk := by
  cases follows
  · exact .pure hh
  · exact lawful_spill hh

/-! ## Expressions -/

variable (a s) in
/-- The expression keeps the law, hoisted or not. -/
def LawfulExpr (e : Expr) : Prop :=
  ∀ hoists, KeepsLaw a (lowerExpr s hoists e) Hoisted.walk (Expr.walk · e)

variable (a s) in
/-- The operands keep the law, hoisted or not. -/
def LawfulExprs (es : List Expr) : Prop :=
  ∀ hoists, KeepsLaw a (lowerOperands s hoists es) operandVisits (walkExprs · es)

variable (a s) in
/-- The statements keep the law. -/
def LawfulStmts (ss : List Stmt) : Prop :=
  KeepsLaw a (lowerStmts s ss) (fun ss r => walkStmts r ss) (walkStmts · ss)

variable (a s) in
/-- The finally block keeps the law. -/
def LawfulBlock (b : Option (List Stmt)) : Prop :=
  KeepsLaw a (lowerBlock s b) (fun b r => walkBlock r b) (walkBlock · b)

theorem Expr.Strict.lawful (he : e.Strict es) (h : Lawful g (Expr.walk · e)) :
    Lawful g (walkExprs · es) where
  here v hv := h.here v (he.mem_walk hv)
  inside v hv := h.inside v (he.mem_walk hv)

/-- Other operands in place of the old ones. -/
theorem Expr.Strict.lawful_withOperands {vs : List Expr} (he : e.Strict es) (h : Lawful g (Expr.walk · e))
    (hvs : Lawful g (walkExprs · vs)) : Lawful g (Expr.walk · (e.withOperands vs)) := by
  unfold Expr.withOperands
  split
  case h_11 => exact h
  case h_10 =>
    cases he
    simp only [Expr.walk, walkExprs, List.append_nil, lawful_cons] at h hvs ⊢
    exact ⟨⟨by simpa using h.1.1, trivial⟩, hvs⟩
  all_goals simp only [Expr.walk, walkExprs, List.append_nil, lawful_cons, lawful_append] at h hvs ⊢
  all_goals simp_all

theorem lawful_guard (op : LogicalOp) (x : String) : Lawful g (Expr.walk · (op.guard (.ident x))) := by
  cases op <;> simp [LogicalOp.guard, Expr.walk]

theorem lawfulExpr_logical (op : LogicalOp) {e' : Expr} (he : LawfulExpr a s e)
    (he' : LawfulExpr a s e') : LawfulExpr a s (.logical op e e') := by
  intro hoists g h
  simp only [Expr.walk, lawful_cons, lawful_append] at h
  refine (he hoists g h.2.1).bind fun l hl => .ite (fun _ => ?_) fun _ => ?_
  · refine (Lower.Gives.freshName _).bind fun x _ => (he' hoists g h.2.2).bind fun r hr => .pure ?_
    rw [Hoisted.lawful_iff] at hl hr ⊢
    simp [shortCircuit, walkStmts, Stmt.walk, walkDecls, Expr.walk, lawful_guard, hl, hr]
  · refine (he' hoists g h.2.2).bind fun r hr => .pure ?_
    rw [Hoisted.lawful_iff] at hl hr ⊢
    simp [Expr.walk, hl, hr]

theorem lawful_lowerBound {callee : Hoisted} {object : Expr} (hoists waits : Bool) (hargs : LawfulExprs a s args)
    (ha : Lawful g (walkExprs · args)) (ho : Lawful g (Expr.walk · object)) (hc : Lawful g callee.walk) :
    (lowerBound s hoists waits callee object args).Gives a fun h => Lawful g h.walk := by
  refine .ite (fun _ => ?_) fun _ => ?_
  · refine (lawful_spill hc).bind fun c hc => (hargs hoists g ha).bind fun r hr => .pure ?_
    rw [Hoisted.lawful_iff] at hc ⊢
    rw [lawful_operandVisits] at hr
    simp [callWith, Expr.walk, walkExprs, ho, hc, hr]
  · refine (hargs hoists g ha).bind fun r hr => .pure ?_
    rw [Hoisted.lawful_iff] at hc ⊢
    rw [lawful_operandVisits] at hr
    simp [Expr.walk, hc, hr]

theorem lawfulExpr_callMember (x : String) (ho : LawfulExpr a s o) (hargs : LawfulExprs a s args) :
    LawfulExpr a s (.call (.member o x) args) := by
  intro hoists g h
  simp only [Expr.walk, lawful_cons, lawful_append] at h
  refine (ho hoists g h.2.1.2).bind fun _ hb => (lawful_settle _ hb).bind fun b hb => ?_
  rw [Hoisted.lawful_iff] at hb
  refine lawful_lowerBound hoists _ hargs h.2.2 hb.2 (Hoisted.lawful_iff.2 ?_)
  simp [Expr.walk, hb]

theorem lawfulExpr_callIndex {i : Expr} (ho : LawfulExpr a s o) (hi : LawfulExpr a s i)
    (hargs : LawfulExprs a s args) : LawfulExpr a s (.call (.index o i) args) := by
  intro hoists g h
  simp only [Expr.walk, lawful_cons, lawful_append] at h
  refine (ho hoists g h.2.1.2.1).bind fun _ hb => (lawful_settle _ hb).bind fun b hb => ?_
  refine (hi hoists g h.2.1.2.2).bind fun c hc => ?_
  rw [Hoisted.lawful_iff] at hb hc
  refine lawful_lowerBound hoists _ hargs h.2.2 hb.2 (Hoisted.lawful_iff.2 ?_)
  simp [Expr.walk, hb, hc]

/-- A try expression, whose clauses are lowered first. -/
theorem lawfulExpr_attempt (t : TryExpr) (hbody : LawfulStmts a s t.body) (hcatch : LawfulStmts a s t.catchBody)
    (hfinally : LawfulBlock a s t.finallyBody) : LawfulExpr a s (.attempt t) := by
  intro hoists g h
  simp only [Expr.walk, lawful_cons, lawful_attempt] at h
  rw [lowerExpr_attempt]
  refine (hbody g h.2.1).bind fun body hb => (hcatch g h.2.2.1).bind fun catchBody hc => ?_
  refine (hfinally g h.2.2.2).bind fun finallyBody hf => (Lower.Gives.lowerAttempt _).bind fun l hl => ?_
  obtain ⟨n, rfl⟩ := hl
  have hdecl (x : String) (g : Suspension) : Lawful g (Stmt.walk · (declareEmpty x t.span)) := by
    simp [declareEmpty, Stmt.walk, walkDecls]
  have hstatement (x : String) := lawful_stored x
    ((lawful_attempt { t with body, catchBody, finallyBody }).2 ⟨hb, hc, hf⟩)
  refine .ite (fun _ => .pure ?_) fun _ => .pure ?_
  · rw [Hoisted.lawful_iff]
    refine ⟨?_, by simp [LoweredAttempt.reference, Expr.walk]⟩
    simp only [walkStmts, List.append_nil, lawful_append]
    exact ⟨hdecl _ g, hstatement _⟩
  · rw [Hoisted.lawful_iff]
    exact ⟨by simp [walkStmts], lawful_wrapped t.span (hdecl _) (hstatement _)⟩

end

/-! ## The walk -/

theorem lawfulRules (a : Names) (s : Surroundings) : LoweringRules (LawfulExpr a s)
    (LawfulExprs a s) (fun f => KeepsLaw a (lowerFunc s f) (fun f r => f.walk r) (Func.walk · f))
    (fun st => KeepsLaw a (lowerStmt s st) (fun ss r => walkStmts r ss) (Stmt.walk · st))
    (fun kind span ds => ∀ g ready, Lawful g (walkDecls · ready) → Lawful g (walkDecls · ds) →
      (lowerDecls s kind span ready ds).Gives a fun ss => Lawful g (walkStmts · ss))
    (fun cs => KeepsLaw a (lowerCases s cs) (fun cs r => walkCases r cs) (walkCases · cs))
    (fun h => KeepsLaw a (lowerHandler s h) (fun h r => walkHandler r h) (walkHandler · h))
    (LawfulBlock a s) (LawfulStmts a s) where
  leaf he hoists g h := by
    rw [lowerExpr_leaf s hoists he]
    exact .pure (by simp [walkStmts, h])
  strict he _ hes hoists g h := by
    rw [lowerExpr_strict s hoists he]
    refine (hes hoists g (he.lawful h)).bind fun r hr => .pure ?_
    rw [lawful_operandVisits] at hr
    exact Hoisted.lawful_iff.2 ⟨hr.1, he.lawful_withOperands h hr.2⟩
  logical op := lawfulExpr_logical op
  assignIdent x he hoists g h := by
    simp only [Expr.walk, lawful_cons, lawful_append] at h
    rw [lowerExpr]
    refine (he hoists g h.2.2).bind fun b hb => .pure ?_
    rw [Hoisted.lawful_iff] at hb ⊢
    simp [Expr.walk, hb]
  assign hn ht he hoists g h := by
    simp only [Expr.walk, lawful_cons, lawful_append] at h
    rw [lowerExpr_assign s hoists hn]
    refine (ht hoists g h.2.1).bind fun _ hb => (lawful_settle _ hb).bind fun b hb => ?_
    refine (he hoists g h.2.2).bind fun c hc => .pure ?_
    rw [Hoisted.lawful_iff] at hb hc ⊢
    simp [Expr.walk, hb, hc]
  callMember x := lawfulExpr_callMember x
  callIndex := lawfulExpr_callIndex
  func hf hoists g h := by
    simp only [Expr.walk, lawful_cons] at h
    rw [lowerExpr]
    refine (hf g h.2).bind fun f' hf' => .pure ?_
    rw [Hoisted.lawful_iff]
    simpa [walkStmts, Expr.walk] using hf'
  attempt t := lawfulExpr_attempt t
  nilExprs hoists g _ := .pure (by simp [walkStmts, walkExprs])
  consExprs he hes hoists g h := by
    simp only [walkExprs, lawful_append] at h
    rw [lowerOperands]
    refine (he hoists g h.1).bind fun _ hb => (lawful_settle _ hb).bind fun b hb => ?_
    refine (hes hoists g h.2).bind fun r hr => .pure ?_
    simp only [Hoisted.lawful_iff, lawful_operandVisits] at hb hr ⊢
    simp [walkExprs, hb, hr]
  funcBlock hb g h := by
    rw [lowerFunc]
    exact (hb _ ((lawful_func _).1 h)).bind fun _ hb => .pure ((lawful_func _).2 hb)
  funcExpr he g h := by
    rw [lowerFunc]
    exact (he false _ ((lawful_func _).1 h)).bind fun _ hb => .pure ((lawful_func _).2 (Hoisted.lawful_iff.1 hb).2)
  leafStmt hst g h := by
    rw [lowerStmt_leaf s hst]
    exact .pure (by simpa [walkStmts] using h)
  around hm he g h := by
    simp only [hm.walk, lawful_cons] at h
    rw [lowerStmt_around s hm]
    refine (he true g h.2).bind fun b hb => .pure ?_
    rw [Hoisted.lawful_iff] at hb
    simp [walkStmts, hm.walk, hb]
  declare hds g h := by
    simp only [Stmt.walk, lawful_cons] at h
    exact hds g [] (by simp [walkDecls]) h.2
  block span hb g h := by
    simp only [Stmt.walk, lawful_cons] at h
    rw [lowerStmt]
    exact (hb g h.2).bind fun body hb => .pure (by simpa [walkStmts, Stmt.walk] using hb)
  branch span he hy g h := by
    simp only [Stmt.walk, lawful_cons, lawful_append] at h
    rw [lowerStmt]
    refine (he true g h.2.1).bind fun b hb => (hy g h.2.2).bind fun yes hy => .pure ?_
    rw [Hoisted.lawful_iff] at hb
    simp [walkStmts, Stmt.walk, hb, hy]
  branchElse span he hy hn g h := by
    simp only [Stmt.walk, lawful_cons, lawful_append] at h
    rw [lowerStmt]
    refine (he true g h.2.1.1).bind fun b hb => (hy g h.2.1.2).bind fun yes hy => ?_
    refine (hn g h.2.2).bind fun no hn => .pure ?_
    rw [Hoisted.lawful_iff] at hb
    simp [walkStmts, Stmt.walk, hb, hy, hn]
  loop span he hbody g h := by
    simp only [Stmt.walk, lawful_cons, lawful_append] at h
    rw [lowerStmt]
    refine (he true g h.2.1).bind fun b hb => (hbody g h.2.2).bind fun body hbody => ?_
    rw [Hoisted.lawful_iff] at hb
    refine .ite (fun _ => .pure ?_) fun _ => .pure ?_
    · simp [testedInside, walkStmts, Stmt.walk, Expr.walk, hb, hbody]
    · simp [walkStmts, Stmt.walk, hb, hbody]
  switch span he hc g h := by
    simp only [Stmt.walk, lawful_cons, lawful_append] at h
    rw [lowerStmt]
    refine (he true g h.2.1).bind fun b hb => (hc g h.2.2).bind fun cs hc => .pure ?_
    rw [Hoisted.lawful_iff] at hb
    simp [walkStmts, Stmt.walk, hb, hc]
  guarded span hb hh hf g h := by
    simp only [Stmt.walk, lawful_cons, lawful_append] at h
    rw [lowerStmt]
    refine (hb g h.2.1.1).bind fun body hb => (hh g h.2.1.2).bind fun handler hh => ?_
    exact (hf g h.2.2).bind fun finalizer hf => .pure (by simp [walkStmts, Stmt.walk, hb, hh, hf])
  funcStmt hf g h := by
    simp only [Stmt.walk, lawful_cons] at h
    rw [lowerStmt]
    exact (hf g h.2).bind fun f hf => .pure (by simpa [walkStmts, Stmt.walk] using hf)
  nilDecls kind span g ready hr _ := .pure (by simp [walkStmts, Stmt.walk, hr])
  bareDecl hds g ready hr h := by
    rw [lowerDecls]
    exact hds g _ (by simp [walkDecls, hr]) h
  consDecls {kind span x e ds} he hds g ready hr h := by
    simp only [walkDecls, lawful_append] at h
    rw [lowerDecls]
    refine (he true g h.1).bind fun b hb => ?_
    rw [Hoisted.lawful_iff] at hb
    have hnext : Lawful g (walkDecls · [⟨x, some b.value⟩]) := by simp [walkDecls, hb.2]
    refine .ite (fun _ => ?_) fun _ => hds g _ (by simpa [hr] using hnext) h.2
    -- What is ready is written before the statements of the next initial value.
    refine (hds g _ hnext h.2).bind fun ss hss => .pure ?_
    split <;> simp [walkStmts, Stmt.walk, hr, hb.1, hss]
  nilCases g _ := .pure (by simp [walkCases])
  defaultCase hb hc g h := by
    simp only [walkCases, lawful_append] at h
    rw [lowerCases]
    exact (hb g h.1).bind fun body hb => (hc g h.2).bind fun cs hc => .pure (by simp [walkCases, hb, hc])
  consCases he hb hc g h := by
    simp only [walkCases, lawful_append] at h
    rw [lowerCases]
    refine (he false g h.1.1).bind fun b ht => (hb g h.1.2).bind fun body hb => ?_
    refine (hc g h.2).bind fun cs hc => .pure ?_
    rw [Hoisted.lawful_iff] at ht
    simp [walkCases, ht, hb, hc]
  noHandler g _ := .pure (by simp [walkHandler])
  handler param hb g h := by
    rw [lowerHandler]
    exact (hb g h).bind fun body hb => .pure hb
  noBlock g _ := .pure (by simp [walkBlock])
  finalizer hb g h := by
    rw [lowerBlock]
    exact (hb g h).bind fun body hb => .pure hb
  nilStmts g _ := .pure (by simp [walkStmts])
  consStmts hst hss g h := by
    simp only [walkStmts, lawful_append] at h
    rw [lowerStmts]
    exact (hst g h.1).bind fun first hst => (hss g h.2).bind fun rest hss => .pure (by simp [hst, hss])

/-! ## Notes change nothing -/

section

variable {σ : Type} {f : TryExpr → StateM σ TryExpr} {v v' : Visit} {vs vs' : List Visit}

theorem Renoted.permits (h : Renoted f v v') (g : Suspension) : g.Permits v' ↔ g.Permits v := by
  cases h with
  | expr e s =>
    cases e with
    | yield arg delegate => cases arg <;> rfl
    | _ => rfl
  | _ => rfl

theorem forall_renoted {P : Visit → Prop} (hP : ∀ v v', Renoted f v v' → (P v' ↔ P v))
    (h : List.Forall₂ (Renoted f) vs vs') : (∀ v ∈ vs', P v) ↔ ∀ v ∈ vs, P v := by
  induction h with
  | nil => rfl
  | cons hv _ ih => rw [List.forall_mem_cons, List.forall_mem_cons, hP _ _ hv, ih]

theorem Renoted.granted (hf : NotesOnly f) (h : Renoted f v v') : v'.Granted ↔ v.Granted := by
  cases h with
  | func g s =>
    obtain ⟨_, _, body | value, _, _, _⟩ := g
    · exact forall_renoted (fun _ _ hv => hv.permits _) (renoted_stmts hf .sameFunction body s)
    · exact forall_renoted (fun _ _ hv => hv.permits _) (renoted hf .sameFunction (.expr value) s)
  | _ => rfl

theorem lawful_replaceStmts (hf : NotesOnly f) (ss : List Stmt) (s : σ) (g : Suspension) :
    Lawful g (walkStmts · (replaceStmts f ss s).1) ↔ Lawful g (walkStmts · ss) := by
  have hhere := forall_renoted (fun _ _ hv => hv.permits g) (renoted_stmts hf .sameFunction ss s)
  have hinside := forall_renoted (fun _ _ hv => hv.granted hf) (renoted_stmts hf .all ss s)
  exact ⟨fun h => ⟨hhere.1 h.here, hinside.1 h.inside⟩, fun h => ⟨hhere.2 h.here, hinside.2 h.inside⟩⟩

end

/-! ## Whole programs -/

instance : DecidablePred Visit.Granted
  | .func _ | .expr _ | .stmt _ | .attempt _ => by unfold Visit.Granted Suspension.Permits; infer_instance

/-- Every `await` that stands directly in a function stands in an async one, and every `yield` that
does stands in a generator. -/
def SuspendsLegally (p : Program) : Prop :=
  ∀ v ∈ walkStmts .all p, v.Granted

instance : DecidablePred SuspendsLegally := fun p =>
  inferInstanceAs (Decidable (∀ v ∈ walkStmts .all p, v.Granted))

/-- At the top level everything is granted. -/
theorem suspendsLegally_iff : SuspendsLegally p ↔ Lawful ⟨true, true⟩ (walkStmts · p) :=
  ⟨fun h => ⟨fun _ _ => ⟨fun _ => rfl, fun _ => rfl⟩, h⟩, Lawful.inside⟩

theorem suspendsLegally_lowerProgram {beginning : String} {lowered : Program} {progress : Progress}
    (hp : SuspendsLegally p) (h : lowerProgram beginning p = .ok (lowered, progress)) :
    SuspendsLegally lowered :=
  suspendsLegally_iff.2
    ((lawfulRules _ _).onStmts p _ (suspendsLegally_iff.1 hp) _ .refl _ _ (lowerProgram_eq_ok.1 h).1).2

theorem suspendsLegally_analyze {source file : String} {o : Options} {q : Program}
    {ds : List Diagnostic} (hq : parse source file = .ok q)
    (h : analyze source file o = .ok (p, ds)) : SuspendsLegally p ↔ SuspendsLegally q := by
  obtain ⟨q', hq', hv⟩ := analyze_eq_ok h
  rw [hq] at hq'
  cases hq'
  obtain rfl : (validate file o.maxErrors (annotate q).1).1 = p := by rw [hv]
  rw [suspendsLegally_iff, suspendsLegally_iff]
  calc Lawful _ (walkStmts · (validate file o.maxErrors (annotate q).1).1)
    _ ↔ Lawful _ (walkStmts · (annotate q).1) :=
      lawful_replaceStmts (notes_structural file o.maxErrors).only _ [] _
    _ ↔ Lawful _ (walkStmts · q) := lawful_replaceStmts notes_annotate.only q 0 _

/-- Lowering keeps suspension points legal. -/
theorem suspensions_stay_legal {source file : String} {o : Options} {p : Program} {t : Transpiled}
    (hp : parse source file = .ok p) (ht : transpile source file o = .ok t) (h : SuspendsLegally p) :
    SuspendsLegally t.program := by
  obtain ⟨q, progress, ha, hlow, -, -⟩ := transpile_eq_ok ht
  exact suspendsLegally_lowerProgram ((suspendsLegally_analyze hp ha).2 h) hlow

/-- Try expressions that are wrapped one inside the other, and one in the body of an arrow. Their
clauses wait and yield. -/
def suspendedClauses : String :=
  "async function* g(k) \x7b switch (k) \x7b case try \x7b
      switch (k) \x7b case try \x7b raise await k; \x7d catch \x7b raise yield k; \x7d: return k; \x7d
      raise k; \x7d catch \x7b raise k; \x7d: return k; \x7d \x7d
  let f = async (k) => try \x7b raise await k; \x7d catch \x7b raise k; \x7d;"

theorem suspensions_stay_legal_of_suspendedClauses :
    ∃ p t, parse suspendedClauses "main.js" = .ok p ∧ SuspendsLegally p ∧
      transpile suspendedClauses "main.js" ⟨"__", 10⟩ = .ok t ∧ t.lowered = 3 ∧ SuspendsLegally t.program := by
  have hlook : ((analyze suspendedClauses "main.js" ⟨"__", 10⟩).toOption.any fun r =>
      r.2.isEmpty && (decide (SuspendsLegally r.1) && (attempts r.1).length == 3)) = true := by decide +kernel
  obtain ⟨⟨q, ds⟩, ha, hlook⟩ := Except.exists_of_any hlook
  simp only [Bool.and_eq_true, List.isEmpty_iff, decide_eq_true_eq, beq_iff_eq] at hlook
  obtain ⟨rfl, hlegal, hthree⟩ := hlook
  obtain ⟨-, -, p, hp, hcount⟩ := lowerable_of_analyze (by decide) ha
  obtain ⟨t, p', ht, hp', hlowered⟩ := transpile_of_analyze (by decide) ha
  rw [hp] at hp'
  cases hp'
  have hlegal := (suspendsLegally_analyze hp ha).1 hlegal
  exact ⟨p, t, hp, hlegal, ht, by omega, suspensions_stay_legal hp ht hlegal⟩

end RaiseScript
