import RaiseScript.Proofs.Parts

/-!
# What every lowering does

Some facts hold of a lowering whatever it is that is lowered. Names are only drawn from the supply.
What stands in front of an expression declares no function, and nothing stands there unless a try
expression was hoisted (`Ahead`). And a statement becomes one statement with such a list in front of
it (`StandsFor`).
-/

namespace RaiseScript

variable {moves : Bool} {before ss : List Stmt} {st main : Stmt}

/-! ## Walks that meet a try expression -/

/-- Whether a walk meets a try expression. -/
def meetsAttempt (vs : List Visit) : Bool :=
  vs.any (·.attempt?.isSome)

section

attribute [local simp] meetsAttempt

@[simp] theorem meetsAttempt_cons (v : Visit) (vs : List Visit) :
    meetsAttempt (v :: vs) = (v.attempt?.isSome || meetsAttempt vs) := by
  simp

@[simp] theorem meetsAttempt_append (us vs : List Visit) :
    meetsAttempt (us ++ vs) = (meetsAttempt us || meetsAttempt vs) := by
  simp

end

mutual

/-- A try expression outside of functions is met by a walk through everything. -/
theorem hasAttempt_of_meetsAttempt :
    ∀ e : Expr, meetsAttempt (e.walk .all) = false → e.hasAttempt = false
  | .number _, _ | .string _, _ | .bool _, _ | .null, _ | .undefined, _ | .this, _ | .ident _, _
  | .yield none _, _ | .func ⟨_, _, .block _, _, _, _⟩, _ | .func ⟨_, _, .expr _, _, _, _⟩, _ => rfl
  | .array items, h => by
    have hitems := hasAttempt_of_meetsAttempts items
    simp_all only [Expr.walk, meetsAttempt_cons, Bool.or_eq_false_iff, Expr.hasAttempt_array]
  | .unary _ a, h | .member a _, h | .await a, h | .yield (some a) _, h => by
    have ha := hasAttempt_of_meetsAttempt a
    simp_all [Expr.walk]
  | .binary _ a b, h | .logical _ a b, h | .assign a b, h | .index a b, h => by
    have ha := hasAttempt_of_meetsAttempt a
    have hb := hasAttempt_of_meetsAttempt b
    simp_all [Expr.walk]
  | .call f args, h => by
    have hf := hasAttempt_of_meetsAttempt f
    have hargs := hasAttempt_of_meetsAttempts args
    simp_all only [Expr.walk, meetsAttempt_cons, meetsAttempt_append, Bool.or_eq_false_iff,
      Expr.hasAttempt_call, Bool.or_self]
  | .attempt t, h => by simp [Expr.walk, TryExpr.walk_all, Visit.attempt?] at h

theorem hasAttempt_of_meetsAttempts : ∀ es : List Expr,
    meetsAttempt (walkExprs .all es) = false → es.any Expr.hasAttempt = false
  | [], _ => rfl
  | e :: es, h => by
    simp only [walkExprs, meetsAttempt_append, Bool.or_eq_false_iff] at h
    rw [List.any_cons, hasAttempt_of_meetsAttempt e h.1, hasAttempt_of_meetsAttempts es h.2]
    rfl

end

/-! ## In front of an expression -/

/-- The statements declare no function, and there are none unless something `moves`. -/
structure Ahead (moves : Bool) (ss : List Stmt) : Prop where
  funcs : funcsOf ss = []
  flat : moves = false → ss = []

namespace Ahead

variable {moves' : Bool} {ts : List Stmt}

theorem nil (moves : Bool) : Ahead moves [] :=
  ⟨rfl, fun _ => rfl⟩

theorem append (h : Ahead moves ss) (h' : Ahead moves' ts) : Ahead (moves || moves') (ss ++ ts) where
  funcs := by rw [funcsOf_append, h.funcs, h'.funcs, List.append_nil]
  flat hm := by
    obtain ⟨hm, hm'⟩ := Bool.or_eq_false_iff.1 hm
    rw [h.flat hm, h'.flat hm', List.append_nil]

theorem imp (h : Ahead moves ss) (hm : moves' = false → moves = false) : Ahead moves' ss :=
  ⟨h.funcs, fun hf => h.flat (hm hf)⟩

end Ahead

variable {s : Surroundings} {a : Names} {hoists : Bool}

theorem gives_settle {follows : Bool} {h : Hoisted} (hh : Ahead (hoists && moves) h.before) :
    (settle s (hoists && follows) h).Gives a fun h' => Ahead (hoists && (moves || follows)) h'.before := by
  refine .settle (hh.imp (by cases hoists <;> simp +contextual)) fun hf x => ⟨?_, fun hm => ?_⟩
  · simp [hh.funcs, funcsOf]
  · rw [Bool.and_or_distrib_left, hf, Bool.or_true] at hm
    cases hm

theorem gives_spill {value : Expr} (h : Ahead moves before) :
    (spill s ⟨before, value⟩).Gives a fun h' => Ahead true h'.before :=
  .spill (h.imp (by simp)) fun x => ⟨by simp [h.funcs, funcsOf], by simp⟩

/-! ## In place of a statement -/

/-- The statements are one that stands for `st`, and others in front of it. -/
def StandsFor (st : Stmt) (ss : List Stmt) : Prop :=
  ∃ before main, ss = before ++ [main] ∧ Ahead (meetsAttempt (st.walk .all)) before ∧
    ∀ f, main = .func f → ∃ f₀, st = .func f₀

theorem StandsFor.of_single (h : ∀ f, main = .func f → ∃ f₀, st = .func f₀) : StandsFor st [main] :=
  ⟨[], main, rfl, .nil _, h⟩

/-- A statement that evaluates the expression first. -/
theorem StandsFor.of_test {e : Expr} (hb : Ahead (true && e.hasAttempt) before)
    (hvisits : ∀ v ∈ e.walk .all, v ∈ st.walk .all) (hmain : ∀ f, main ≠ .func f) :
    StandsFor st (before ++ [main]) := by
  refine ⟨before, main, rfl, hb.imp fun hm => ?_, fun f hf => absurd hf (hmain f)⟩
  refine hasAttempt_of_meetsAttempt e (List.any_eq_false.2 fun v hv => ?_)
  exact List.any_eq_false.1 hm v (hvisits v hv)

/-- Only a function declaration becomes one. -/
theorem StandsFor.funcs (h : StandsFor st ss) (hst : ∀ f, st ≠ .func f) : funcsOf ss = [] := by
  obtain ⟨before, main, rfl, hb, hmain⟩ := h
  rw [funcsOf_append, hb.funcs, List.nil_append]
  cases main with
  | func f =>
    obtain ⟨f₀, rfl⟩ := hmain f rfl
    exact absurd rfl (hst f₀)
  | _ => rfl

/-- Without try expressions a statement becomes one statement. -/
theorem StandsFor.single (h : StandsFor st ss) (hm : meetsAttempt (st.walk .all) = false) :
    ∃ main, ss = [main] := by
  obtain ⟨before, main, rfl, hb, -⟩ := h
  exact ⟨main, by rw [hb.flat hm, List.nil_append]⟩

variable (s)

/-- What every lowering does to the parts of a tree. -/
theorem drawsRules : LoweringRules
    (fun e => ∀ a hoists, (lowerExpr s hoists e).Gives a fun h => Ahead (hoists && e.hasAttempt) h.before)
    (fun es => ∀ a hoists, (lowerOperands s hoists es).Gives a fun r =>
      Ahead (hoists && es.any Expr.hasAttempt) r.1)
    (fun f => ∀ a, (lowerFunc s f).Gives a fun _ => True)
    (fun st => ∀ a, (lowerStmt s st).Gives a (StandsFor st))
    (fun kind span ds => ∀ a ready, (lowerDecls s kind span ready ds).Gives a fun ss => ∃ before ds',
      ss = before ++ [.declare kind ds' span] ∧ Ahead (meetsAttempt (walkDecls .all ds)) before)
    (fun cs => ∀ a, (lowerCases s cs).Gives a fun _ => True)
    (fun h => ∀ a, (lowerHandler s h).Gives a fun _ => True)
    (fun b => ∀ a, (lowerBlock s b).Gives a fun _ => True)
    (fun ss => ∀ a, (lowerStmts s ss).Gives a fun _ => True) where
  leaf he a hoists := by
    rw [lowerExpr_leaf s hoists he]
    exact .pure (.nil _)
  strict he _ hes a hoists := by
    rw [lowerExpr_strict s hoists he]
    exact (hes a hoists).bind fun r hr => .pure (he.hasAttempt ▸ hr)
  logical op h₁ h₂ a hoists := by
    rw [lowerExpr]
    refine (h₁ a hoists).bind fun h hh => .ite (fun hf => ?_) fun _ => ?_
    · refine (Lower.Gives.freshName "cond").bind fun x _ => (h₂ a hoists).bind fun h' _ => .pure ⟨?_, fun hm => ?_⟩
      · simp [shortCircuit, hh.funcs, funcsOf]
      · rw [Expr.hasAttempt_logical, Bool.and_or_distrib_left, hf, Bool.or_true] at hm
        cases hm
    · exact (h₂ a hoists).bind fun h' hh' => .pure ((hh.append hh').imp (by cases hoists <;> simp))
  assignIdent x he a hoists := by
    rw [lowerExpr]
    exact (he a hoists).bind fun h hh => .pure (hh.imp (by cases hoists <;> simp))
  assign ht h₁ h₂ a hoists := by
    rw [lowerExpr_assign s hoists ht]
    refine (h₁ a hoists).bind fun h hh => (gives_settle hh).bind fun h hh => (h₂ a hoists).bind fun h' hh' => ?_
    exact .pure ((hh.append hh').imp (by cases hoists <;> simp +contextual))
  callMember x ho hargs a hoists := by
    rw [lowerExpr]
    refine (ho a hoists).bind fun h hh => (gives_settle hh).bind fun h hh => .ite (fun hf => ?_) fun _ => ?_
    · refine (gives_spill hh).bind fun c hc => (hargs a hoists).bind fun r hr => ?_
      refine .pure ((hc.append hr).imp ?_)
      cases hoists <;> simp_all
    · exact (hargs a hoists).bind fun r hr => .pure ((hh.append hr).imp (by cases hoists <;> simp +contextual))
  callIndex ho hi hargs a hoists := by
    rw [lowerExpr]
    simp only [← Bool.and_or_distrib_left]
    refine (ho a hoists).bind fun h hh => (gives_settle hh).bind fun h hh => (hi a hoists).bind fun h' hh' => ?_
    refine .ite (fun hf => ?_) fun _ => ?_
    · refine (gives_spill (hh.append hh')).bind fun c hc => (hargs a hoists).bind fun r hr => ?_
      refine .pure ((hc.append hr).imp ?_)
      cases hoists <;> simp_all
    · refine (hargs a hoists).bind fun r hr => .pure (((hh.append hh').append hr).imp ?_)
      cases hoists <;> simp +contextual
  func hf a hoists := by
    rw [lowerExpr]
    exact (hf a).bind fun _ _ => .pure (.nil _)
  attempt t hb hc hf a hoists := by
    rw [lowerExpr_attempt]
    refine (hb a).bind fun _ _ => (hc a).bind fun _ _ => (hf a).bind fun _ _ => ?_
    refine (Lower.Gives.lowerAttempt _).bind fun l hl => .ite (fun hh => .pure ?_) fun _ => .pure (.nil _)
    obtain ⟨n, rfl⟩ := hl
    exact ⟨rfl, by simp [hh]⟩
  nilExprs _ _ := .pure (.nil _)
  consExprs he hes a hoists := by
    refine (he a hoists).bind fun h hh => (gives_settle hh).bind fun h hh => (hes a hoists).bind fun r hr => ?_
    exact .pure ((hh.append hr).imp (by cases hoists <;> simp +contextual))
  funcBlock hb a := by
    rw [lowerFunc]
    exact (hb a).bind fun _ _ => .pure trivial
  funcExpr he a := by
    rw [lowerFunc]
    exact (he a false).bind fun _ _ => .pure trivial
  leafStmt hst a := by
    rw [lowerStmt_leaf s hst]
    exact .pure (.of_single fun f hf => ⟨f, hf⟩)
  around hm he a := by
    rw [lowerStmt_around s hm]
    refine (he a true).bind fun h hh => .pure (.of_test hh (fun v hv => ?_) fun f => ?_)
    · rw [hm.walk]
      exact List.mem_cons_of_mem _ hv
    · cases hm <;> simp
  declare hds a := by
    rw [lowerStmt]
    refine fun p hp ss q h => ?_
    obtain ⟨hq, before, ds', rfl, hb⟩ := hds a [] p hp ss q h
    exact ⟨hq, before, _, rfl, by simpa [Stmt.walk, Visit.attempt?] using hb, by simp⟩
  block span hb a := by
    rw [lowerStmt]
    exact (hb a).bind fun _ _ => .pure (.of_single (by simp))
  branch span he hy a := by
    rw [lowerStmt]
    refine (he a true).bind fun h hh => (hy a).bind fun _ _ => .pure (.of_test hh (fun v hv => ?_) (by simp))
    simp [Stmt.walk, hv]
  branchElse span he hy hn a := by
    rw [lowerStmt]
    refine (he a true).bind fun h hh => (hy a).bind fun _ _ => (hn a).bind fun _ _ => ?_
    exact .pure (.of_test hh (fun v hv => by simp [Stmt.walk, hv]) (by simp))
  loop span he hb a := by
    rw [lowerStmt]
    refine (he a true).bind fun _ _ => (hb a).bind fun _ _ => .ite (fun _ => ?_) fun _ => ?_
    · exact .pure (.of_single (by simp [testedInside]))
    · exact .pure (.of_single (by simp))
  switch span he hc a := by
    rw [lowerStmt]
    refine (he a true).bind fun h hh => (hc a).bind fun _ _ => .pure (.of_test hh (fun v hv => ?_) (by simp))
    simp [Stmt.walk, hv]
  guarded span hb hh hf a := by
    rw [lowerStmt]
    exact (hb a).bind fun _ _ => (hh a).bind fun _ _ => (hf a).bind fun _ _ => .pure (.of_single (by simp))
  funcStmt hf a := by
    rw [lowerStmt]
    exact (hf a).bind fun _ _ => .pure (.of_single fun _ _ => ⟨_, rfl⟩)
  nilDecls _ _ _ ready := .pure ⟨[], ready, rfl, .nil _⟩
  bareDecl hds a ready := by
    exact hds a _
  consDecls {kind span x e ds} he hds a ready := by
    rw [lowerDecls]
    refine (he a true).bind fun h hh => .ite (fun hf => ?_) fun hf => ?_
    · refine (hds a _).bind fun ss hss => .pure ?_
      obtain ⟨before, ds', rfl, hb⟩ := hss
      have hearlier : funcsOf (if ready.isEmpty then [] else [Stmt.declare kind ready span]) = [] := by
        split <;> rfl
      refine ⟨(if ready.isEmpty then [] else [Stmt.declare kind ready span]) ++ h.before ++
        before, ds', by simp, ?_, fun hm => ?_⟩
      · rw [funcsOf_append, funcsOf_append, hearlier, hh.funcs, hb.funcs]
        rfl
      · rw [walkDecls, meetsAttempt_append, Bool.or_eq_false_iff] at hm
        rw [hasAttempt_of_meetsAttempt _ hm.1] at hf
        cases hf
    · refine fun p hp ss q hss => ?_
      obtain ⟨hq, before, ds', rfl, hb⟩ := hds a _ p hp ss q hss
      exact ⟨hq, before, ds', rfl, hb.imp (by rw [walkDecls, meetsAttempt_append]; simp +contextual)⟩
  nilCases _ := .pure trivial
  defaultCase hb hc a := by
    rw [lowerCases]
    exact (hb a).bind fun _ _ => (hc a).bind fun _ _ => .pure trivial
  consCases he hb hc a := by
    rw [lowerCases]
    exact (he a false).bind fun _ _ => (hb a).bind fun _ _ => (hc a).bind fun _ _ => .pure trivial
  noHandler _ := .pure trivial
  handler _ hb a := by
    rw [lowerHandler]
    exact (hb a).bind fun _ _ => .pure trivial
  noBlock _ := .pure trivial
  finalizer hb a := by
    rw [lowerBlock]
    exact (hb a).bind fun _ _ => .pure trivial
  nilStmts _ := .pure trivial
  consStmts hst hss a := by
    rw [lowerStmts]
    exact (hst a).bind fun _ _ => (hss a).bind fun _ _ => .pure trivial

/-! ## Lowerings that succeeded -/

@[simp] theorem Names.issued_forProgram (beginning : String) (p : Program) :
    (Names.forProgram beginning p).issued = [] :=
  rfl

variable {s} in
theorem gives_ahead (e : Expr) : (lowerExpr s hoists e).Gives a fun h => Ahead (hoists && e.hasAttempt) h.before :=
  (drawsRules s).onExpr e a hoists

section

variable {s} {p q : Progress} {e : Expr} {es : List Expr} {h : Hoisted} {r : List Stmt × List Expr}
  {ss' : List Stmt}

theorem Lower.Gives.grows {α : Type} {x : Lower α} {P : α → Prop} {r : α} (hx : x.Gives p.names P)
    (hr : x p = .ok (r, q)) : p.names.Grows q.names :=
  (hx p .refl r q hr).1.grows

theorem lowerExpr_grows (hl : lowerExpr s hoists e p = .ok (h, q)) : p.names.Grows q.names :=
  ((drawsRules s).onExpr e p.names hoists).grows hl

theorem lowerExpr_ahead (hl : lowerExpr s hoists e p = .ok (h, q)) : Ahead (hoists && e.hasAttempt) h.before :=
  ((drawsRules s).onExpr e p.names hoists p .refl h q hl).2

theorem lowerOperands_grows (hl : lowerOperands s hoists es p = .ok (r, q)) : p.names.Grows q.names :=
  ((drawsRules s).onExprs es p.names hoists).grows hl

theorem lowerOperands_ahead (hl : lowerOperands s hoists es p = .ok (r, q)) :
    Ahead (hoists && es.any Expr.hasAttempt) r.1 :=
  ((drawsRules s).onExprs es p.names hoists p .refl r q hl).2

theorem lowerStmt_grows (hl : lowerStmt s st p = .ok (ss, q)) : p.names.Grows q.names :=
  ((drawsRules s).onStmt st p.names).grows hl

theorem lowerStmt_standsFor (hl : lowerStmt s st p = .ok (ss, q)) : StandsFor st ss :=
  ((drawsRules s).onStmt st p.names p .refl ss q hl).2

theorem lowerStmts_grows (hl : lowerStmts s ss p = .ok (ss', q)) : p.names.Grows q.names :=
  ((drawsRules s).onStmts ss p.names).grows hl

theorem lowerDecls_grows {kind : BindingKind} {span : Span} {ready ds : List Declarator}
    (hl : lowerDecls s kind span ready ds p = .ok (ss, q)) : p.names.Grows q.names :=
  ((drawsRules s).onDecls kind span ds p.names ready).grows hl

theorem lowerCases_grows {cs cs' : List Case} (hl : lowerCases s cs p = .ok (cs', q)) : p.names.Grows q.names :=
  ((drawsRules s).onCases cs p.names).grows hl

theorem lowerHandler_grows {o o' : Option Handler} (hl : lowerHandler s o p = .ok (o', q)) :
    p.names.Grows q.names :=
  ((drawsRules s).onHandler o p.names).grows hl

theorem lowerBlock_grows {o o' : Option (List Stmt)} (hl : lowerBlock s o p = .ok (o', q)) :
    p.names.Grows q.names :=
  ((drawsRules s).onBlock o p.names).grows hl

end

/-- There are as many operands as before. -/
theorem gives_length (es : List Expr) : (lowerOperands s hoists es).Gives a fun r => r.2.length = es.length := by
  induction es with
  | nil => exact .pure rfl
  | cons e es ih =>
    have he := (drawsRules s).onExpr e a hoists
    refine he.bind fun h hh => (gives_settle hh).bind fun h' _ => ih.bind fun r hr => .pure ?_
    simp [hr]

theorem lowerOperands_length {s : Surroundings} {es : List Expr} {p q : Progress} {r : List Stmt × List Expr}
    (hl : lowerOperands s hoists es p = .ok (r, q)) : r.2.length = es.length :=
  (gives_length s es p .refl r q hl).2

end RaiseScript
