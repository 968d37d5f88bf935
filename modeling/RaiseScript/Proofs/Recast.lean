import RaiseScript.Proofs.Walk

/-!
# Trees with other names and places

A `Recast` gives names, properties and places that stand for others, and says which notes of raises
are kept. A tree is recast node by node, with the notes that it carries. What a walk meets in the
recast tree are the recast nodes of the tree (`visits_recast_stmts`), so the questions that lowering
asks have the same answers for both.
-/

namespace RaiseScript

/-- What stands for names, for properties and for places, and which try expressions keep the note of
their raises. -/
structure Recast where
  name : String → String
  property : String → String
  span : Span → Span
  keeps : NodeId → Bool

/-- The site at another place. -/
def RaiseSite.recast (m : Recast) (s : RaiseSite) : RaiseSite :=
  ⟨s.clause, s.id, m.span s.span⟩

/-- The sites at other places. -/
def RaiseSites.recast (m : Recast) (s : RaiseSites) : RaiseSites :=
  ⟨s.body.map (·.recast m), s.handler.map (·.recast m), s.finalizer.map (·.recast m)⟩

/-- The verdict with another place for the fault. -/
def Verdict.recast (m : Recast) : Verdict → Verdict
  | .valid => .valid
  | .invalid fault span => .invalid fault (m.span span)

mutual

/-- An expression, recast. -/
def Expr.recast (m : Recast) : Expr → Expr
  | .ident x => .ident (m.name x)
  | .array items => .array (recastExprs m items)
  | .unary op a => .unary op (a.recast m)
  | .binary op a b => .binary op (a.recast m) (b.recast m)
  | .logical op a b => .logical op (a.recast m) (b.recast m)
  | .assign target value => .assign (target.recast m) (value.recast m)
  | .member object property => .member (object.recast m) (m.property property)
  | .index object key => .index (object.recast m) (key.recast m)
  | .call callee args => .call (callee.recast m) (recastExprs m args)
  | .await a => .await (a.recast m)
  | .yield arg delegate => .yield (recastExpr? m arg) delegate
  | .func f => .func (f.recast m)
  | .attempt t => .attempt (t.recast m)
  | e => e

/-- An expression that may be missing, recast. -/
def recastExpr? (m : Recast) : Option Expr → Option Expr
  | none => none
  | some e => some (e.recast m)

/-- A list of expressions, recast. -/
def recastExprs (m : Recast) : List Expr → List Expr
  | [] => []
  | e :: es => e.recast m :: recastExprs m es

/-- The body of a function, recast. -/
def FuncBody.recast (m : Recast) : FuncBody → FuncBody
  | .block body => .block (recastStmts m body)
  | .expr value => .expr (value.recast m)

/-- A function, recast. -/
def Func.recast (m : Recast) : Func → Func
  | ⟨name, params, body, isAsync, form, span⟩ =>
    ⟨name.map m.name, params.map m.name, body.recast m, isAsync, form, m.span span⟩

/-- A try expression, recast with its notes. -/
def TryExpr.recast (m : Recast) : TryExpr → TryExpr
  | ⟨id, body, catchParam, catchBody, finallyParam, finallyBody, span, raises, verdict⟩ =>
    ⟨id, recastStmts m body, catchParam.map m.name, recastStmts m catchBody,
      finallyParam.map m.name, recastBlock m finallyBody, m.span span,
      (raises.filter fun _ => m.keeps id).map (·.recast m), verdict.map (·.recast m)⟩

/-- A statement, recast. -/
def Stmt.recast (m : Recast) : Stmt → Stmt
  | .declare kind decls span => .declare kind (recastDecls m decls) (m.span span)
  | .expr value span => .expr (value.recast m) (m.span span)
  | .block body span => .block (recastStmts m body) (m.span span)
  | .branch test yes no span => .branch (test.recast m) (yes.recast m) (recastStmt? m no) (m.span span)
  | .loop test body span => .loop (test.recast m) (body.recast m) (m.span span)
  | .switch subject cases span => .switch (subject.recast m) (recastCases m cases) (m.span span)
  | .jump kind span => .jump kind (m.span span)
  | .ret arg span => .ret (recastExpr? m arg) (m.span span)
  | .throw arg span => .throw (arg.recast m) (m.span span)
  | .guarded body handler finalizer span =>
    .guarded (recastStmts m body) (recastHandler m handler) (recastBlock m finalizer) (m.span span)
  | .func f => .func (f.recast m)
  | .raise id value span => .raise id (value.recast m) (m.span span)

/-- A statement that may be missing, recast. -/
def recastStmt? (m : Recast) : Option Stmt → Option Stmt
  | none => none
  | some s => some (s.recast m)

/-- Declarators, recast. -/
def recastDecls (m : Recast) : List Declarator → List Declarator
  | [] => []
  | ⟨x, init⟩ :: ds => ⟨m.name x, recastExpr? m init⟩ :: recastDecls m ds

/-- Cases, recast. -/
def recastCases (m : Recast) : List Case → List Case
  | [] => []
  | ⟨test, body⟩ :: cs => ⟨recastExpr? m test, recastStmts m body⟩ :: recastCases m cs

/-- A catch clause, recast. -/
def Handler.recast (m : Recast) : Handler → Handler
  | ⟨param, body⟩ => ⟨param.map m.name, recastStmts m body⟩

/-- A catch clause that may be missing, recast. -/
def recastHandler (m : Recast) : Option Handler → Option Handler
  | none => none
  | some h => some (h.recast m)

/-- A finally block, recast. -/
def recastBlock (m : Recast) : Option (List Stmt) → Option (List Stmt)
  | none => none
  | some body => some (recastStmts m body)

/-- Statements, recast. -/
def recastStmts (m : Recast) : List Stmt → List Stmt
  | [] => []
  | s :: ss => s.recast m :: recastStmts m ss

end

/-- A phrase, recast. -/
@[simp] def Phrase.recast (m : Recast) : Phrase → Phrase
  | .expr e => .expr (e.recast m)
  | .exprs es => .exprs (recastExprs m es)
  | .func f => .func (f.recast m)
  | .attempt t => .attempt (t.recast m)
  | .stmt s => .stmt (s.recast m)
  | .decls ds => .decls (recastDecls m ds)
  | .cases cs => .cases (recastCases m cs)
  | .handler h => .handler (recastHandler m h)
  | .block b => .block (recastBlock m b)
  | .stmts ss => .stmts (recastStmts m ss)

/-- A node that a walk meets, recast. -/
def Visit.recast (m : Recast) : Visit → Visit
  | .stmt s => .stmt (s.recast m)
  | .expr e => .expr (e.recast m)
  | .func f => .func (f.recast m)
  | .attempt t => .attempt (t.recast m)

section

attribute [simp] Expr.recast recastExpr? recastExprs FuncBody.recast Func.recast TryExpr.recast Stmt.recast
  recastStmt? recastDecls recastCases Handler.recast recastHandler recastBlock recastStmts
attribute [local simp] Expr.walk walkExprs Func.walk TryExpr.walk Stmt.walk walkDecls walkCases
  walkHandler walkBlock walkStmts Visit.recast

/-- A walk through the recast phrase meets the recast nodes. -/
theorem walk_recast (m : Recast) (r : Reach) (p : Phrase) :
    (p.recast m).walk r = (p.walk r).map (·.recast m) := by
  induction p with
  | funcBlock | funcExpr => cases hr : r.functions <;> simp_all
  | clauses _ _ _ _ _ finallyBody => cases finallyBody <;> cases hr : r.attempts <;> simp_all
  | _ => simp_all

@[simp] theorem walk_recast_expr (m : Recast) (r : Reach) (e : Expr) :
    (e.recast m).walk r = (e.walk r).map (·.recast m) :=
  walk_recast m r (.expr e)

@[simp] theorem walk_recast_stmts (m : Recast) (r : Reach) (ss : List Stmt) :
    walkStmts r (recastStmts m ss) = (walkStmts r ss).map (·.recast m) :=
  walk_recast m r (.stmts ss)

end

/-! ## Recasting that changes nothing -/

/-- Every node has the property. -/
def Each (P : Visit → Prop) (vs : List Visit) : Prop :=
  ∀ v ∈ vs, P v

namespace Each

variable {P : Visit → Prop} {v : Visit} {us vs : List Visit}

@[simp] theorem cons : Each P (v :: vs) ↔ P v ∧ Each P vs :=
  List.forall_mem_cons

@[simp] theorem append : Each P (us ++ vs) ↔ Each P us ∧ Each P vs :=
  List.forall_mem_append

theorem head (h : Each P (v :: vs)) : P v :=
  h v List.mem_cons_self

theorem tail (h : Each P (v :: vs)) : Each P vs :=
  fun u hu => h u (List.mem_cons_of_mem v hu)

theorem left (h : Each P (us ++ vs)) : Each P us :=
  fun u hu => h u (List.mem_append_left vs hu)

theorem right (h : Each P (us ++ vs)) : Each P vs :=
  fun u hu => h u (List.mem_append_right us hu)

end Each

/-- What is said of a try expression is said of the node, if it is one. -/
def Visit.OnAttempt (P : TryExpr → Prop) : Visit → Prop
  | .attempt t => P t
  | _ => True

@[simp] theorem Visit.onAttempt_attempt (P : TryExpr → Prop) (t : TryExpr) : (Visit.attempt t).OnAttempt P ↔ P t :=
  .rfl

@[simp] theorem Visit.onAttempt_stmt (P : TryExpr → Prop) (s : Stmt) : (Visit.stmt s).OnAttempt P :=
  trivial

@[simp] theorem Visit.onAttempt_expr (P : TryExpr → Prop) (e : Expr) : (Visit.expr e).OnAttempt P :=
  trivial

@[simp] theorem Visit.onAttempt_func (P : TryExpr → Prop) (f : Func) : (Visit.func f).OnAttempt P :=
  trivial

/-- What is said of a try expression holds of every one. -/
abbrev EachAttempt (P : TryExpr → Prop) (vs : List Visit) : Prop :=
  Each (·.OnAttempt P) vs

theorem EachAttempt.of_forall {P : TryExpr → Prop} (h : ∀ t, P t) (vs : List Visit) : EachAttempt P vs := by
  intro v _
  cases v with
  | attempt t => exact h t
  | _ => exact trivial

theorem Standard.eachAttempt {vs : List Visit} (h : Standard vs) (P : TryExpr → Prop) : EachAttempt P vs := by
  intro v hv
  have hnone := h v hv
  cases v with
  | attempt t => cases hnone
  | _ => exact trivial

/-- Names and places as they are, and the notes of some try expressions. -/
abbrev Recast.notes (keeps : NodeId → Bool) : Recast :=
  ⟨id, id, id, keeps⟩

/-- The note on the try expression is kept, or there is none. -/
def TryExpr.Kept (keeps : NodeId → Bool) (t : TryExpr) : Prop :=
  keeps t.id = true ∨ t.raises = none

theorem RaiseSites.recast_id (m : Recast) (hm : m.span = id) (s : RaiseSites) : s.recast m = s := by
  have hsite : RaiseSite.recast m = fun site => site := by
    funext site
    rw [RaiseSite.recast, hm]
    rfl
  simp only [RaiseSites.recast, hsite, List.map_id']

theorem Verdict.recast_id (m : Recast) (hm : m.span = id) (v : Verdict) : v.recast m = v := by
  cases v <;> simp [Verdict.recast, hm]

theorem filter_map_recast {m : Recast} (hm : m.span = id) {i : NodeId} {raises : Option RaiseSites}
    (h : m.keeps i = true ∨ raises = none) : (raises.filter fun _ => m.keeps i).map (·.recast m) = raises := by
  cases raises with
  | none => rfl
  | some s => simp [h.resolve_right (by simp), RaiseSites.recast_id m hm]

section

variable {keeps : NodeId → Bool}

attribute [local simp] Verdict.recast_id
attribute [local simp] Expr.walk walkExprs Func.walk TryExpr.walk_all Stmt.walk walkDecls
  walkCases walkHandler walkBlock walkStmts

/-- Nothing is changed where all notes are kept. -/
theorem recast_notes (p : Phrase) (h : EachAttempt (·.Kept keeps) (p.walk .all)) :
    p.recast (.notes keeps) = p := by
  induction p with
  | clauses => simp_all [TryExpr.Kept, filter_map_recast]
  | _ => simp_all

theorem recast_notes_stmts (ss : List Stmt) (h : EachAttempt (·.Kept keeps) (walkStmts .all ss)) :
    recastStmts (.notes keeps) ss = ss :=
  Phrase.stmts.inj (recast_notes (.stmts ss) h)

end

/-! ## What is asked of a tree -/

section

variable (m : Recast)

theorem Visit.attempt?_recast (v : Visit) : (v.recast m).attempt? = v.attempt?.map (·.recast m) := by
  cases v <;> rfl

@[simp] theorem Expr.hasAttempt_recast (e : Expr) : (e.recast m).hasAttempt = e.hasAttempt := by
  simp [Expr.hasAttempt, walk_recast_expr, Function.comp_def, Visit.attempt?_recast]

@[simp] theorem any_hasAttempt_recast (es : List Expr) :
    (recastExprs m es).any Expr.hasAttempt = es.any Expr.hasAttempt := by
  induction es with
  | nil => rfl
  | cons e es ih => simp [ih]

theorem attempts_recast (p : Program) : attempts (recastStmts m p) = (attempts p).map (·.recast m) := by
  rw [attempts, walk_recast_stmts, List.filterMap_map, attempts, List.map_filterMap]
  exact congrArg (List.filterMap · _) (funext (Visit.attempt?_recast m))

theorem Visit.raiseSite?_recast (c : Clause) (v : Visit) :
    (v.recast m).raiseSite? c = (v.raiseSite? c).map (·.recast m) := by
  cases v with
  | stmt s => cases s <;> simp [Visit.recast, Visit.raiseSite?, RaiseSite.recast]
  | _ => rfl

theorem sitesIn_recast (c : Clause) (ss : List Stmt) :
    sitesIn c (recastStmts m ss) = (sitesIn c ss).map (·.recast m) := by
  rw [sitesIn, walk_recast_stmts, List.filterMap_map, sitesIn, List.map_filterMap]
  exact congrArg (List.filterMap · _) (funext (Visit.raiseSite?_recast m c))

theorem TryExpr.sites_recast (t : TryExpr) : (t.recast m).sites = t.sites.recast m := by
  obtain ⟨_, _, _, _, _, _ | _, _, _, _⟩ := t <;>
    simp only [TryExpr.sites, TryExpr.recast, RaiseSites.recast, recastBlock, sitesIn_recast,
      Option.getD_none, Option.getD_some]
  all_goals rfl

/-- The raises of a try expression, from its note or without it. -/
theorem TryExpr.getD_raises_recast {m : Recast} {t : TryExpr}
    (h : m.keeps t.id = true ∨ t.raises = none ∨ t.raises = some t.sites) :
    (t.recast m).raises.getD (t.recast m).sites = (t.raises.getD t.sites).recast m := by
  have hraises : (t.recast m).raises = (t.raises.filter fun _ => m.keeps t.id).map (·.recast m) := by
    cases t
    rfl
  rw [hraises, t.sites_recast]
  cases hkeeps : m.keeps t.id with
  | true => cases t.raises <;> simp [Option.filter]
  | false =>
    rw [hkeeps] at h
    rcases h with h | h | h
    · cases h
    · rw [h]
      rfl
    · rw [h]
      rfl

@[simp] theorem suspension_recast (ss : List Stmt) : suspension (recastStmts m ss) = suspension ss := by
  have hawait (v : Visit) : (v.recast m).isAwait = v.isAwait := by
    cases v with
    | expr e => cases e <;> simp [Visit.recast, Visit.isAwait]
    | _ => rfl
  have hyield (v : Visit) : (v.recast m).isYield = v.isYield := by
    cases v with
    | expr e => cases e <;> simp [Visit.recast, Visit.isYield]
    | _ => rfl
  simp [suspension, walk_recast_stmts, Function.comp_def, hawait, hyield]

theorem firstExtension?_recast (p : Program) : firstExtension? (recastStmts m p) =
    (firstExtension? p).map m.span := by
  have hextension (v : Visit) : (v.recast m).extension? = v.extension?.map m.span := by
    cases v with
    | stmt s => cases s <;> simp [Visit.recast, Visit.extension?]
    | attempt t =>
      cases t
      simp [Visit.recast, Visit.extension?]
    | _ => rfl
  simp [firstExtension?, walk_recast_stmts, List.findSome?_map, List.map_findSome?, Function.comp_def, hextension]

theorem map_name_recastDecls (ds : List Declarator) :
    (recastDecls m ds).map (·.name) = ds.map fun d => m.name d.name := by
  induction ds with
  | nil => rfl
  | cons d ds ih =>
    obtain ⟨x, init⟩ := d
    simp [ih]

theorem identifiers_recast (hm : m.name = id) (p : Program) : identifiers (recastStmts m p) = identifiers p := by
  have hnames (v : Visit) : (v.recast m).names = v.names := by
    cases v with
    | stmt s =>
      cases s with
      | declare kind ds span => simp [Visit.recast, Visit.names, map_name_recastDecls, hm]
      | guarded body handler finalizer span =>
        obtain _ | ⟨param, caught⟩ := handler <;>
          simp [Visit.recast, Visit.names, hm]
      | _ => rfl
    | expr e => cases e <;> simp [Visit.recast, Visit.names, hm]
    | func f =>
      cases f
      simp [Visit.recast, Visit.names, hm]
    | attempt t =>
      cases t
      simp [Visit.recast, Visit.names, hm]
  simp [identifiers, walk_recast_stmts, List.flatMap_map, hnames]

theorem Surroundings.ofProgram_recast (hm : m.name = id) (hp : m.property = id) (p : Program) :
    ofProgram (recastStmts m p) = ofProgram p := by
  have hrebinds (v : Visit) : (v.recast m).rebinds = v.rebinds := by
    cases v with
    | stmt s =>
      cases s with
      | declare kind ds span =>
        cases kind <;> simp [Visit.recast, Visit.rebinds, map_name_recastDecls, hm]
      | func f =>
        cases f
        simp [Visit.recast, Visit.rebinds, hm]
      | _ => rfl
    | expr e =>
      cases e with
      | assign target value => cases target <;> simp [Visit.recast, Visit.rebinds, hm]
      | _ => rfl
    | _ => rfl
  have hwrites (v : Visit) : (v.recast m).writes = v.writes ∧ (v.recast m).writesComputed = v.writesComputed := by
    cases v with
    | expr e =>
      cases e with
      | assign target value =>
        cases target <;> simp [Visit.recast, Visit.writes, Visit.writesComputed, hp]
      | _ => exact ⟨rfl, rfl⟩
    | _ => exact ⟨rfl, rfl⟩
  simp [ofProgram, reassigned, assignedProperties, walk_recast_stmts, List.flatMap_map,
    Function.comp_def, hrebinds, hwrites]

end

end RaiseScript
