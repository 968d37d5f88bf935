import RaiseScript.Proofs.Hygiene

/-!
# The function that a statement belongs to

A `return` ends the function around it, and a `var` binds its name in all of it. The walk `anchors`
lists these statements with the function they belong to, which is given by its place. A try
expression that is hoisted belongs to the function around it, and so do the statements in its
clauses. One that is wrapped, in the body of an arrow function or in the test of a case, becomes a
function of its own, and they belong to that ; it ends with a `return` that stands at the same place
as the try expression.

Lowering leaves every statement to its function (`mem_anchors_of_lowerProgram`).
-/

namespace RaiseScript

variable {e o : Expr} {es args : List Expr}

/-- A statement that works on the function around it. -/
inductive Anchor where
  | ret (span : Span)
  | var (name : String) (span : Span)
deriving DecidableEq, Repr

/-- A statement and the place of the function it belongs to, or nothing for the program itself. -/
structure Anchored where
  home : Option Span
  anchor : Anchor
deriving DecidableEq, Repr

/-- What a declaration binds for the whole function. -/
def anchorsOfKind (home : Option Span) (span : Span) (ds : List Declarator) : BindingKind → List Anchored
  | .functionWide => ds.map fun d => ⟨home, .var d.name span⟩
  | _ => []

mutual

/-- The statements inside an expression, where try expressions become functions if it `wraps`
them. -/
def Expr.anchors (wraps : Bool) (home : Option Span) : Expr → List Anchored
  | .array items => anchorsOfExprs wraps home items
  | .unary _ arg => arg.anchors wraps home
  | .binary _ a b => a.anchors wraps home ++ b.anchors wraps home
  | .logical _ a b => a.anchors wraps home ++ b.anchors wraps home
  | .assign target value => target.anchors wraps home ++ value.anchors wraps home
  | .member object _ => object.anchors wraps home
  | .index object key => object.anchors wraps home ++ key.anchors wraps home
  | .call callee args => callee.anchors wraps home ++ anchorsOfExprs wraps home args
  | .await arg => arg.anchors wraps home
  | .yield (some arg) _ => arg.anchors wraps home
  | .func f => f.anchors
  | .attempt t =>
    if wraps then ⟨some t.span, .ret t.span⟩ :: t.anchors (some t.span) else t.anchors home
  | _ => []

/-- The statements inside expressions. -/
def anchorsOfExprs (wraps : Bool) (home : Option Span) : List Expr → List Anchored
  | [] => []
  | e :: es => e.anchors wraps home ++ anchorsOfExprs wraps home es

/-- The statements inside a function. -/
def Func.anchors : Func → List Anchored
  | ⟨_, _, .block body, _, _, span⟩ => anchorsOfStmts (some span) body
  | ⟨_, _, .expr value, _, _, span⟩ => value.anchors true (some span)

/-- The statements in the clauses of a try expression. -/
def TryExpr.anchors (home : Option Span) : TryExpr → List Anchored
  | ⟨_, body, _, catchBody, _, finallyBody, _, _, _⟩ =>
    anchorsOfStmts home body ++ anchorsOfStmts home catchBody ++ anchorsOfBlock home finallyBody

/-- The statement, if it is one of them, and those inside it. -/
def Stmt.anchors (home : Option Span) : Stmt → List Anchored
  | .declare kind ds span => anchorsOfKind home span ds kind ++ anchorsOfDecls home ds
  | .expr value _ => value.anchors false home
  | .block body _ => anchorsOfStmts home body
  | .branch test yes none _ => test.anchors false home ++ yes.anchors home
  | .branch test yes (some no) _ => test.anchors false home ++ yes.anchors home ++ no.anchors home
  | .loop test body _ => test.anchors false home ++ body.anchors home
  | .switch subject cases _ => subject.anchors false home ++ anchorsOfCases home cases
  | .jump _ _ => []
  | .ret none span => [⟨home, .ret span⟩]
  | .ret (some arg) span => ⟨home, .ret span⟩ :: arg.anchors false home
  | .throw arg _ => arg.anchors false home
  | .guarded body handler finalizer _ =>
    anchorsOfStmts home body ++ anchorsOfHandler home handler ++ anchorsOfBlock home finalizer
  | .func f => f.anchors
  | .raise _ value _ => value.anchors false home

/-- The statements inside the initial values of a declaration. -/
def anchorsOfDecls (home : Option Span) : List Declarator → List Anchored
  | [] => []
  | ⟨_, none⟩ :: ds => anchorsOfDecls home ds
  | ⟨_, some init⟩ :: ds => init.anchors false home ++ anchorsOfDecls home ds

/-- The statements inside the cases of a switch. -/
def anchorsOfCases (home : Option Span) : List Case → List Anchored
  | [] => []
  | ⟨none, body⟩ :: cs => anchorsOfStmts home body ++ anchorsOfCases home cs
  | ⟨some test, body⟩ :: cs =>
    test.anchors true home ++ anchorsOfStmts home body ++ anchorsOfCases home cs

/-- The statements inside a catch clause. -/
def anchorsOfHandler (home : Option Span) : Option Handler → List Anchored
  | none => []
  | some ⟨_, body⟩ => anchorsOfStmts home body

/-- The statements inside a finally block. -/
def anchorsOfBlock (home : Option Span) : Option (List Stmt) → List Anchored
  | none => []
  | some body => anchorsOfStmts home body

/-- The statements of a list and those inside them. -/
def anchorsOfStmts (home : Option Span) : List Stmt → List Anchored
  | [] => []
  | s :: ss => s.anchors home ++ anchorsOfStmts home ss

end

/-- The statements inside a phrase. -/
@[simp] def Phrase.anchors (wraps : Bool) (home : Option Span) : Phrase → List Anchored
  | .expr e => e.anchors wraps home
  | .exprs es => anchorsOfExprs wraps home es
  | .func f => f.anchors
  | .attempt t => t.anchors home
  | .stmt s => s.anchors home
  | .decls ds => anchorsOfDecls home ds
  | .cases cs => anchorsOfCases home cs
  | .handler h => anchorsOfHandler home h
  | .block b => anchorsOfBlock home b
  | .stmts ss => anchorsOfStmts home ss

/-- The statements of a program that work on the function around them. -/
def Program.anchors (p : Program) : List Anchored :=
  anchorsOfStmts none p

@[simp] theorem anchorsOfStmts_append (home : Option Span) (ss ts : List Stmt) :
    anchorsOfStmts home (ss ++ ts) = anchorsOfStmts home ss ++ anchorsOfStmts home ts := by
  induction ss with
  | nil => rfl
  | cons s ss ih => simp [anchorsOfStmts, ih]

@[simp] theorem anchorsOfDecls_append (home : Option Span) (ds es : List Declarator) :
    anchorsOfDecls home (ds ++ es) = anchorsOfDecls home ds ++ anchorsOfDecls home es := by
  induction ds with
  | nil => rfl
  | cons d ds ih => obtain ⟨x, _ | e⟩ := d <;> simp [anchorsOfDecls, ih]

@[simp] theorem anchorsOfKind_append (home : Option Span) (span : Span) (ds es : List Declarator)
    (kind : BindingKind) :
    anchorsOfKind home span (ds ++ es) kind = anchorsOfKind home span ds kind ++
      anchorsOfKind home span es kind := by
  cases kind <;> simp [anchorsOfKind]

@[simp] theorem anchors_asBranch (home : Option Span) (span : Span) (ss : List Stmt) :
    (asBranch span ss).anchors home = anchorsOfStmts home ss := by
  obtain _ | ⟨s, _ | ⟨t, ss⟩⟩ := ss <;> simp [asBranch, Stmt.anchors, anchorsOfStmts]

/-! ## Functions -/

section

variable {f : Func} {a : Anchored}

attribute [local simp] Expr.walk walkExprs Func.walk TryExpr.walk_all Stmt.walk walkDecls
  walkCases walkHandler walkBlock walkStmts Expr.anchors anchorsOfExprs Func.anchors
  TryExpr.anchors Stmt.anchors anchorsOfDecls anchorsOfCases anchorsOfHandler anchorsOfBlock anchorsOfStmts

/-- What is inside a function is inside the phrase that holds the function. -/
theorem Phrase.anchors_of_visit (ha : a ∈ f.anchors) (wraps : Bool)
    (home : Option Span) (p : Phrase) (hf : .func f ∈ p.walk .all) : a ∈ p.anchors wraps home := by
  induction p generalizing wraps home with
  | funcBlock | funcExpr =>
    rcases List.mem_cons.1 hf with hf | hf
    · cases hf
      exact ha
    · simp_all [-Bool.forall_bool]
  | attempt => cases wraps <;> simp_all [-Bool.forall_bool]
  | binary | logical | assign | index | call | branch | branchElse | loop | switch | guarded | clauses | consExprs
  | consDecls | defaultCase | consCases | consStmts =>
    simp_all [-Bool.forall_bool]
    grind
  | _ => simp_all [-Bool.forall_bool]

/-! ## Stored raises -/

theorem Phrase.anchors_storeRaises (wraps : Bool) (home : Option Span) (temp : String)
    (p : Phrase) : (p.storeRaises temp).anchors wraps home = p.anchors wraps home := by
  induction p with
  | _ => simp_all [Stmt.storeRaises, storeInCases, storeInHandler, storeInBlock, storeAll]

@[simp] theorem anchorsOfStmts_storeAll (home : Option Span) (temp : String) (ss : List Stmt) :
    anchorsOfStmts home (storeAll temp ss) = anchorsOfStmts home ss :=
  Phrase.anchors_storeRaises false home temp (.stmts ss)

end

/-- The try statement holds what the try expression held. -/
theorem anchors_stored (home : Option Span) (t : TryExpr) (temp : String) :
    (t.stored temp).statement.anchors home = t.anchors home := by
  obtain ⟨id, body, catchParam, catchBody, finallyParam, finallyBody, span, raises, verdict⟩ := t
  cases finallyBody <;> cases finallyParam <;>
    simp [TryExpr.stored, Stmt.anchors, TryExpr.anchors, anchorsOfHandler, anchorsOfBlock,
      anchorsOfStmts, anchorsOfKind, anchorsOfDecls, Expr.anchors]

/-- A function made for a try expression holds what it held, and a `return`. -/
theorem mem_anchors_wrapped (wraps : Bool) (home : Option Span) (t : TryExpr) (temp : String) (a : Anchored) :
    a ∈ ((t.stored temp).wrapped t.span).anchors wraps home ↔ a ∈ (Expr.attempt t).anchors true home := by
  have hbody : a ∈ anchorsOfStmts (some t.span) [(t.stored temp).declaration, (t.stored temp).statement,
      .ret (some (t.stored temp).reference) t.span] ↔ a ∈ (Expr.attempt t).anchors true home := by
    have hdecl : (t.stored temp).declaration.anchors (some t.span) = [] := rfl
    simp [anchorsOfStmts, hdecl, anchors_stored, Expr.anchors, Stmt.anchors, LoweredAttempt.reference, or_comm]
  rw [← hbody]
  unfold LoweredAttempt.wrapped
  dsimp only
  split
  · simp [callWith, Expr.anchors, anchorsOfExprs, Func.anchors]
  · split <;> simp [Expr.anchors, anchorsOfExprs, Func.anchors]

/-! ## What is said of each part -/

/-- The statements before an expression and in it belong where `old` has them. -/
def Hoisted.Leaves (old : Option Span → List Anchored) (h : Hoisted) : Prop :=
  ∀ wraps home a, a ∈ anchorsOfStmts home h.before ∨ a ∈ h.value.anchors wraps home ↔ a ∈ old home

/-- The same for operands. -/
def OperandsLeave (old : Option Span → List Anchored) (r : List Stmt × List Expr) : Prop :=
  ∀ wraps home a, a ∈ anchorsOfStmts home r.1 ∨ a ∈ anchorsOfExprs wraps home r.2 ↔ a ∈ old home

/-- What `x` gives holds the statements that `old` has. -/
def Leaves {α : Type} (names : Names) (x : Lower α) (new : Option Span → α → List Anchored)
    (old : Option Span → List Anchored) : Prop :=
  x.Gives names fun b => ∀ home a, a ∈ new home b ↔ a ∈ old home

section

variable (names : Names) (s : Surroundings)

/-- Lowering leaves the statements of an expression to their functions. -/
def LeavesExpr (e : Expr) : Prop :=
  ∀ hoists, (lowerExpr s hoists e).Gives names (Hoisted.Leaves (e.anchors !hoists))

/-- Lowering leaves the statements of operands to their functions. -/
def LeavesExprs (es : List Expr) : Prop :=
  ∀ hoists, (lowerOperands s hoists es).Gives names (OperandsLeave (anchorsOfExprs (!hoists) · es))

/-- Lowering leaves a statement and those inside it to their functions. -/
def LeavesStmt (st : Stmt) : Prop :=
  Leaves names (lowerStmt s st) anchorsOfStmts st.anchors

/-- Lowering leaves the statements of a list to their functions. -/
def LeavesStmts (ss : List Stmt) : Prop :=
  Leaves names (lowerStmts s ss) anchorsOfStmts (anchorsOfStmts · ss)

/-- Lowering leaves the statements of a finally block to their functions. -/
def LeavesBlock (b : Option (List Stmt)) : Prop :=
  Leaves names (lowerBlock s b) anchorsOfBlock (anchorsOfBlock · b)

/-- Lowering leaves the rest of a declaration to its function, whatever is ready of it. -/
def LeavesDecls (kind : BindingKind) (span : Span) (ds : List Declarator) : Prop :=
  ∀ ready : List Declarator, Leaves names (lowerDecls s kind span ready ds) anchorsOfStmts
    (Stmt.declare kind (ready ++ ds) span).anchors

end

variable {names : Names} {s : Surroundings}

/-! ## Expressions -/

section

variable {old old' : Option Span → List Anchored} {h h' : Hoisted} {r : List Stmt × List Expr}

theorem Hoisted.Leaves.settle {follows : Bool} (hh : h.Leaves old) :
    (RaiseScript.settle s follows h).Gives names (Hoisted.Leaves old) := by
  refine .settle hh fun _ x _ home a => ?_
  rw [← hh false]
  simp [anchorsOfStmts, Stmt.anchors, anchorsOfKind, anchorsOfDecls, Expr.anchors]

/-- One expression after the other. -/
theorem Hoisted.Leaves.pair (hh : h.Leaves old) (hh' : h'.Leaves old')
    (he : ∀ wraps home, e.anchors wraps home = h.value.anchors wraps home ++ h'.value.anchors wraps home) :
    Hoisted.Leaves (fun home => old home ++ old' home) ⟨h.before ++ h'.before, e⟩ := by
  intro wraps home a
  simp only [he, anchorsOfStmts_append, List.mem_append, ← hh wraps, ← hh' wraps, or_or_or_comm]

/-- A call whose callee is ready. -/
theorem Hoisted.Leaves.call (hh : h.Leaves old) (hr : OperandsLeave old' r) :
    Hoisted.Leaves (fun home => old home ++ old' home) ⟨h.before ++ r.1, .call h.value r.2⟩ := by
  intro wraps home a
  simp only [Expr.anchors, anchorsOfStmts_append, List.mem_append, ← hh wraps, ← hr wraps, or_or_or_comm]

/-- A call that is given its receiver. -/
theorem Hoisted.Leaves.callWith (hh : h.Leaves old) {receiver : Expr}
    (hreceiver : ∀ wraps home, ∀ a ∈ receiver.anchors wraps home, a ∈ old home) (hr : OperandsLeave old' r) :
    Hoisted.Leaves (fun home => old home ++ old' home)
      ⟨h.before ++ r.1, RaiseScript.callWith h.value receiver r.2⟩ := by
  have hcall := hh.call hr
  intro wraps home a
  rw [← hcall wraps]
  constructor
  · rintro (hb | hv)
    · exact Or.inl hb
    · simp only [RaiseScript.callWith, Expr.anchors, anchorsOfExprs, List.mem_append] at hv
      rcases hv with hv | hv | hv
      · exact Or.inr (List.mem_append_left _ hv)
      · exact (hcall wraps home a).2 (List.mem_append_left _ (hreceiver wraps home a hv))
      · exact Or.inr (List.mem_append_right _ hv)
  · refine Or.imp_right fun hv => ?_
    simp only [RaiseScript.callWith, Expr.anchors, anchorsOfExprs, List.mem_append] at hv ⊢
    exact hv.imp_right Or.inr

end

theorem Expr.Strict.anchors (he : e.Strict es) (wraps : Bool) (home : Option Span) :
    e.anchors wraps home = anchorsOfExprs wraps home es := by
  cases he <;> simp [Expr.anchors, anchorsOfExprs]

theorem Expr.Strict.anchors_withOperands {vs : List Expr} (he : e.Strict es)
    (hl : vs.length = es.length) (wraps : Bool) (home : Option Span) :
    (e.withOperands vs).anchors wraps home = anchorsOfExprs wraps home vs := by
  cases he.refills hl <;> simp [Expr.withOperands, Expr.anchors, anchorsOfExprs]

theorem leavesExpr_logical (op : LogicalOp) {a b : Expr} (ha : LeavesExpr names s a)
    (hb : LeavesExpr names s b) : LeavesExpr names s (.logical op a b) := by
  intro hoists
  refine (ha hoists).bind fun h hh => .ite (fun _ => ?_) fun _ => ?_
  · refine (Lower.Gives.freshName "cond").bind fun x _ => (hb hoists).bind fun h' hh' =>
      .pure fun wraps home c => ?_
    have hguard (home : Option Span) : (op.guard (.ident x)).anchors false home = [] := by
      cases op <;> rfl
    change _ ↔ c ∈ a.anchors (!hoists) home ++ b.anchors (!hoists) home
    rw [List.mem_append, ← hh false, ← hh' false]
    simp [shortCircuit, anchorsOfStmts, Stmt.anchors, anchorsOfKind, anchorsOfDecls,
      Expr.anchors, hguard, or_assoc]
  · exact (hb hoists).bind fun h' hh' => .pure (hh.pair hh' fun _ _ => rfl)

theorem leavesExpr_callMember (x : String) (ho : LeavesExpr names s o)
    (ha : LeavesExprs names s args) : LeavesExpr names s (.call (.member o x) args) := by
  intro hoists
  refine (ho hoists).bind fun h hh => hh.settle.bind fun h hh => ?_
  have hcallee : Hoisted.Leaves (o.anchors !hoists) ⟨h.before, .member h.value x⟩ := hh
  refine .ite (fun _ => ?_) fun _ => (ha hoists).bind fun r hr => .pure (hcallee.call hr)
  rw [← settle_true]
  refine hcallee.settle.bind fun c hc => (ha hoists).bind fun r hr => .pure ?_
  exact hc.callWith (fun _ _ _ hv => (hh _ _ _).1 (Or.inr hv)) hr

theorem leavesExpr_callIndex {i : Expr} (ho : LeavesExpr names s o) (hi : LeavesExpr names s i)
    (ha : LeavesExprs names s args) : LeavesExpr names s (.call (.index o i) args) := by
  intro hoists
  refine (ho hoists).bind fun h hh => hh.settle.bind fun h hh => (hi hoists).bind fun h' hh' => ?_
  have hcallee := hh.pair hh' (e := .index h.value h'.value) fun _ _ => rfl
  refine .ite (fun _ => ?_) fun _ => (ha hoists).bind fun r hr => .pure (hcallee.call hr)
  rw [← settle_true]
  refine hcallee.settle.bind fun c hc => (ha hoists).bind fun r hr => .pure ?_
  exact hc.callWith (fun _ _ _ hv => List.mem_append_left _ ((hh _ _ _).1 (Or.inr hv))) hr

theorem leavesExpr_attempt (t : TryExpr) (hb : LeavesStmts names s t.body) (hc : LeavesStmts names s t.catchBody)
    (hf : LeavesBlock names s t.finallyBody) : LeavesExpr names s (.attempt t) := by
  intro hoists
  rw [lowerExpr_attempt]
  refine hb.bind fun body hb => hc.bind fun catchBody hc => hf.bind fun finallyBody hf =>
    (Lower.Gives.lowerAttempt _).bind fun l hl => ?_
  obtain ⟨n, rfl⟩ := hl
  have hclauses (home : Option Span) (a : Anchored) :
      a ∈ TryExpr.anchors home { t with body, catchBody, finallyBody } ↔ a ∈ t.anchors home := by
    cases t
    simp only [TryExpr.anchors, List.mem_append, hb home, hc home, hf home]
  cases hoists with
  | true =>
    refine .pure fun wraps home a => ?_
    change _ ↔ a ∈ t.anchors home
    rw [← hclauses, ← anchors_stored _ _ (names.candidate "raise" n)]
    simp [anchorsOfStmts, LoweredAttempt.reference, Expr.anchors, TryExpr.stored,
      declareEmpty, Stmt.anchors, anchorsOfKind, anchorsOfDecls]
  | false =>
    refine .pure fun wraps home a => ?_
    have hwrapped := mem_anchors_wrapped wraps home { t with body, catchBody, finallyBody }
      (names.candidate "raise" n) a
    simp only [anchorsOfStmts, List.not_mem_nil, false_or, hwrapped]
    simp only [Bool.not_false, Expr.anchors, if_true, List.mem_cons, hclauses]

/-! ## Statements -/

/-- In front of the statement that evaluates an expression. -/
theorem LeavesExpr.hoisted (he : LeavesExpr names s e) :
    (lowerExpr s true e).Gives names fun h => Ahead (true && e.hasAttempt) h.before ∧ ∀ home a,
      a ∈ e.anchors false home ↔ a ∈ anchorsOfStmts home h.before ∨ a ∈ h.value.anchors false home :=
  (gives_ahead e).and fun p hp h q hh => (he true p hp h q hh).imp id fun hm home a => (hm false home a).symm

theorem LeavesExpr.wrapped (he : LeavesExpr names s e) :
    (lowerExpr s false e).Gives names fun h => ∀ home a, a ∈ e.anchors true home ↔
      a ∈ h.value.anchors true home := by
  intro p hp h q hh
  obtain ⟨hq, hm, hb⟩ := (he false).and (gives_ahead e) p hp h q hh
  refine ⟨hq, fun home a => ?_⟩
  simpa [anchorsOfStmts, hb.flat rfl] using (hm true home a).symm

theorem leavesDecls_some {kind : BindingKind} {span : Span} {x : String} {ds : List Declarator}
    (he : LeavesExpr names s e) (hds : LeavesDecls names s kind span ds) :
    LeavesDecls names s kind span (⟨x, some e⟩ :: ds) := by
  intro ready
  have hnames (home : Option Span) (e e' : Expr) : anchorsOfKind home span
      (⟨x, some e⟩ :: ds) kind = anchorsOfKind home span (⟨x, some e'⟩ :: ds) kind := by
    cases kind <;> rfl
  refine he.hoisted.bind fun h hh => .ite (fun _ => ?_) fun hattempt => ?_
  · refine (hds _).bind fun ss hss => .pure fun home a => ?_
    have hearlier : anchorsOfStmts home (if ready.isEmpty then []
        else [Stmt.declare kind ready span]) = (Stmt.declare kind ready span).anchors home := by
      cases ready with
      | nil => cases kind <;> rfl
      | cons d ds => simp [anchorsOfStmts]
    simp only [anchorsOfStmts_append, List.mem_append, hearlier, hss home a, Stmt.anchors,
      anchorsOfKind_append, anchorsOfDecls_append, anchorsOfDecls, hh.2, List.singleton_append,
      hnames home h.value e]
    simp only [or_assoc, or_left_comm]
  · refine fun p hp ss q hss => (hds _ p hp ss q hss).imp id fun hss home a => ?_
    have hflat : h.before = [] := hh.1.flat (by simpa using hattempt)
    rw [hss home a]
    simp [Stmt.anchors, anchorsOfDecls, hh.2, hflat, anchorsOfStmts, hnames home h.value e]

/-! ## The walk -/

attribute [local simp] anchorsOfStmts Stmt.anchors anchorsOfCases

/-- Every part is left to its function when its own parts are. -/
theorem leavesRules : LoweringRules (LeavesExpr names s) (LeavesExprs names s)
    (fun f => Leaves names (lowerFunc s f) (fun _ => Func.anchors) fun _ => f.anchors)
    (LeavesStmt names s) (LeavesDecls names s)
    (fun cs => Leaves names (lowerCases s cs) anchorsOfCases (anchorsOfCases · cs))
    (fun h => Leaves names (lowerHandler s h) anchorsOfHandler (anchorsOfHandler · h))
    (LeavesBlock names s) (LeavesStmts names s) where
  leaf {e} he hoists := by
    rw [lowerExpr_leaf s hoists he]
    have hnone (wraps : Bool) (home : Option Span) : e.anchors wraps home = [] := by cases he <;> rfl
    exact .pure fun wraps home a => by simp [hnone]
  strict {e es} he _ hes hoists := by
    rw [lowerExpr_strict s hoists he]
    refine ((hes hoists).and (gives_length s es)).bind fun r hr => .pure fun wraps home a => ?_
    simp only [he.anchors, he.anchors_withOperands hr.2]
    exact hr.1 wraps home a
  logical op := leavesExpr_logical op
  assignIdent x he hoists := by
    rw [lowerExpr]
    exact (he hoists).bind fun h hh => .pure fun wraps home a => by simp [Expr.anchors, ← hh wraps]
  assign hn ht he hoists := by
    rw [lowerExpr_assign s hoists hn]
    exact (ht hoists).bind fun h hh => hh.settle.bind fun h hh => (he hoists).bind fun h' hh' =>
      .pure (hh.pair hh' fun _ _ => rfl)
  callMember x := leavesExpr_callMember x
  callIndex := leavesExpr_callIndex
  func hf hoists := by
    rw [lowerExpr]
    exact hf.bind fun f hf => .pure fun _ home a => by simpa [Expr.anchors] using hf home a
  attempt := leavesExpr_attempt
  nilExprs hoists := .pure (by simp [OperandsLeave, anchorsOfExprs])
  consExprs he hes hoists := by
    rw [lowerOperands]
    refine (he hoists).bind fun h hh => hh.settle.bind fun h hh => (hes hoists).bind fun r hr =>
      .pure fun wraps home a => ?_
    simp only [anchorsOfExprs, anchorsOfStmts_append, List.mem_append, ← hh wraps, ← hr wraps, or_or_or_comm]
  funcBlock hb := by
    unfold Leaves
    rw [lowerFunc]
    exact hb.bind fun _ hb => .pure fun _ a => hb _ a
  funcExpr he := by
    unfold Leaves
    rw [lowerFunc]
    exact he.wrapped.bind fun _ hh => .pure fun _ a => (hh _ a).symm
  leafStmt hst := by
    unfold LeavesStmt Leaves
    rw [lowerStmt_leaf s hst]
    exact .pure fun home a => by simp
  around {make e} hm he := by
    unfold LeavesStmt Leaves
    rw [lowerStmt_around s hm]
    refine he.hoisted.bind fun h hh => .pure fun home a => ?_
    obtain ⟨own, hmake⟩ : ∃ own : Option Span → List Anchored,
        ∀ home e, (make e).anchors home = own home ++ e.anchors false home := by
      cases hm with
      | ret span => exact ⟨fun home => [⟨home, .ret span⟩], fun _ _ => rfl⟩
      | _ => exact ⟨fun _ => [], fun _ _ => rfl⟩
    simp only [hmake, anchorsOfStmts_append, anchorsOfStmts, List.append_nil, List.mem_append, hh.2, or_left_comm]
  declare hds := by
    unfold LeavesStmt
    rw [lowerStmt]
    exact hds []
  block span hb := by
    unfold LeavesStmt Leaves
    rw [lowerStmt]
    exact hb.bind fun _ hb => .pure fun home a => by simp [hb home a]
  branch span he hy := by
    unfold LeavesStmt Leaves
    rw [lowerStmt]
    refine he.hoisted.bind fun h hh => hy.bind fun _ hy => .pure fun home a => ?_
    simp [hh.2, hy home, or_assoc]
  branchElse span he hy hn := by
    unfold LeavesStmt Leaves
    rw [lowerStmt]
    refine he.hoisted.bind fun h hh => hy.bind fun _ hy => hn.bind fun _ hn => .pure fun home a => ?_
    simp [hh.2, hy home, hn home, or_assoc]
  loop {e _} span he hb := by
    unfold LeavesStmt Leaves
    rw [lowerStmt]
    refine he.hoisted.bind fun h hh => hb.bind fun _ hb =>
      .ite (fun _ => .pure fun home a => ?_) fun hattempt => .pure fun home a => ?_
    · simp [testedInside, Expr.anchors, hh.2, hb home, or_assoc]
    · simp [hh.2, hh.1.flat (by simpa using hattempt), hb home]
  switch span he hcs := by
    unfold LeavesStmt Leaves
    rw [lowerStmt]
    refine he.hoisted.bind fun h hh => hcs.bind fun _ hcs => .pure fun home a => ?_
    simp [hh.2, hcs home, or_assoc]
  guarded span hb hh hf := by
    unfold LeavesStmt Leaves
    rw [lowerStmt]
    refine hb.bind fun _ hb => hh.bind fun _ hh => hf.bind fun _ hf => .pure fun home a => ?_
    simp [hb home, hh home, hf home]
  funcStmt hf := by
    unfold LeavesStmt Leaves
    rw [lowerStmt]
    exact hf.bind fun _ hf => .pure fun home a => by simp [hf home a]
  nilDecls kind span ready := .pure fun home a => by simp
  bareDecl {_ _ x _} hds ready := by
    have hrest := hds (ready ++ [⟨x, none⟩])
    rw [List.append_assoc, List.singleton_append] at hrest
    rwa [lowerDecls]
  consDecls := leavesDecls_some
  nilCases := .pure fun _ _ => Iff.rfl
  defaultCase hb hcs := by
    unfold Leaves
    rw [lowerCases]
    exact hb.bind fun _ hb => hcs.bind fun _ hcs => .pure fun home a => by simp [hb home, hcs home]
  consCases he hb hcs := by
    unfold Leaves
    rw [lowerCases]
    refine he.wrapped.bind fun _ hh => hb.bind fun _ hb => hcs.bind fun _ hcs => .pure fun home a => ?_
    simp [hh, hb home, hcs home]
  noHandler := .pure fun _ _ => Iff.rfl
  handler _ hb := by
    unfold Leaves
    rw [lowerHandler]
    exact hb.bind fun _ hb => .pure hb
  noBlock := .pure fun _ _ => Iff.rfl
  finalizer hb := by
    unfold LeavesBlock Leaves
    rw [lowerBlock]
    exact hb.bind fun _ hb => .pure hb
  nilStmts := .pure fun _ _ => Iff.rfl
  consStmts hst hss := by
    unfold LeavesStmts Leaves
    rw [lowerStmts]
    exact hst.bind fun _ h => hss.bind fun _ h' => .pure fun home a => by simp [h home, h' home]

/-- Every `return` and every `var` of a lowered program belongs to the function that it belonged
to. -/
theorem mem_anchors_of_lowerProgram {beginning : String} {p lowered : Program} {progress : Progress}
    (h : lowerProgram beginning p = .ok (lowered, progress)) (a : Anchored) :
    a ∈ lowered.anchors ↔ a ∈ p.anchors :=
  (leavesRules.onStmts p _ .refl _ _ (lowerProgram_eq_ok.1 h).1).2 none a

end RaiseScript
