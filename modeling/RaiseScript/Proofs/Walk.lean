import RaiseScript.Lowering.Program
import RaiseScript.Proofs.Phrases

/-!
# Walks over trees, piece by piece

What a walk meets in a tree is what it meets in the parts of the tree. The lemmas of this module
say so for the questions that lowering asks : whether an expression holds a try expression
(`hasAttempt`), which raises stand directly in a clause (`sitesIn`), and whether a tree is
`Standard`, that is, free of try expressions and raises at any depth. With each node a walk through
everything meets the nodes under it (`Deep`).
-/

namespace RaiseScript

@[simp] theorem Reach.functions_all : Reach.all.functions = true := rfl

@[simp] theorem Reach.attempts_all : Reach.all.attempts = true := rfl

@[simp] theorem Reach.functions_surface : Reach.surface.functions = false := rfl

@[simp] theorem Reach.attempts_surface : Reach.surface.attempts = false := rfl

@[simp] theorem walkStmts_append (r : Reach) :
    ∀ ss ts : List Stmt, walkStmts r (ss ++ ts) = walkStmts r ss ++ walkStmts r ts
  | [], ts => rfl
  | s :: ss, ts => by simp [walkStmts, walkStmts_append r ss ts]

@[simp] theorem walkDecls_append (r : Reach) :
    ∀ ds fs : List Declarator, walkDecls r (ds ++ fs) = walkDecls r ds ++ walkDecls r fs
  | [], fs => rfl
  | ⟨_, none⟩ :: ds, fs => by simp [walkDecls, walkDecls_append r ds fs]
  | ⟨_, some _⟩ :: ds, fs => by simp [walkDecls, walkDecls_append r ds fs]

theorem TryExpr.walk_eq (r : Reach) (t : TryExpr) : t.walk r = .attempt t :: if r.attempts then
    walkStmts r t.body ++ walkStmts r t.catchBody ++ walkBlock r t.finallyBody else [] := by
  obtain ⟨_, _, _, _, _, _ | _, _, _, _⟩ := t <;> simp [TryExpr.walk, walkBlock]

theorem TryExpr.walk_all (t : TryExpr) :
    t.walk .all = .attempt t :: (walkStmts .all t.body ++
      walkStmts .all t.catchBody ++ walkBlock .all t.finallyBody) :=
  t.walk_eq .all

/-- The functions that a list of statements declares. -/
def funcsOf : List Stmt → List Func
  | [] => []
  | .func f :: ss => f :: funcsOf ss
  | _ :: ss => funcsOf ss

@[simp] theorem funcsOf_append (ss ts : List Stmt) : funcsOf (ss ++ ts) = funcsOf ss ++ funcsOf ts := by
  induction ss with
  | nil => rfl
  | cons st ss ih => cases st <;> simp [funcsOf, ih]

/-! ## Try expressions outside of functions -/

section

attribute [local simp] Expr.walk Visit.attempt?

theorem any_walkExprs (es : List Expr) :
    (walkExprs .surface es).any (·.attempt?.isSome) = es.any Expr.hasAttempt := by
  induction es with
  | nil => rfl
  | cons e es ih => simp only [walkExprs, List.any_append, List.any_cons, ih, Expr.hasAttempt]

namespace Expr

@[simp] theorem hasAttempt_array (items : List Expr) :
    (Expr.array items).hasAttempt = items.any hasAttempt := by
  rw [← any_walkExprs]
  simp [hasAttempt]

@[simp] theorem hasAttempt_unary (op : UnaryOp) (e : Expr) :
    (Expr.unary op e).hasAttempt = e.hasAttempt := by
  simp [hasAttempt]

@[simp] theorem hasAttempt_binary (op : BinaryOp) (a b : Expr) :
    (Expr.binary op a b).hasAttempt = (a.hasAttempt || b.hasAttempt) := by
  simp [hasAttempt]

@[simp] theorem hasAttempt_logical (op : LogicalOp) (a b : Expr) :
    (Expr.logical op a b).hasAttempt = (a.hasAttempt || b.hasAttempt) := by
  simp [hasAttempt]

@[simp] theorem hasAttempt_assign (a b : Expr) :
    (Expr.assign a b).hasAttempt = (a.hasAttempt || b.hasAttempt) := by
  simp [hasAttempt]

@[simp] theorem hasAttempt_member (e : Expr) (q : String) :
    (Expr.member e q).hasAttempt = e.hasAttempt := by
  simp [hasAttempt]

@[simp] theorem hasAttempt_index (a b : Expr) :
    (Expr.index a b).hasAttempt = (a.hasAttempt || b.hasAttempt) := by
  simp [hasAttempt]

@[simp] theorem hasAttempt_call (f : Expr) (args : List Expr) :
    (Expr.call f args).hasAttempt = (f.hasAttempt || args.any hasAttempt) := by
  rw [← any_walkExprs]
  simp [hasAttempt]

@[simp] theorem hasAttempt_await (e : Expr) : (Expr.await e).hasAttempt = e.hasAttempt := by
  simp [hasAttempt]

@[simp] theorem hasAttempt_yield (e : Expr) (delegate : Bool) :
    (Expr.yield (some e) delegate).hasAttempt = e.hasAttempt := by
  simp [hasAttempt]

@[simp] theorem hasAttempt_attempt (t : TryExpr) : (Expr.attempt t).hasAttempt = true := by
  obtain ⟨_, _, _, _, _, _ | _, _, _, _⟩ := t <;>
    simp [hasAttempt, TryExpr.walk]

end Expr

end

/-! ## Standard trees -/

/-- No try expression and no raise is met. -/
def Standard (vs : List Visit) : Prop :=
  ∀ v ∈ vs, v.extension? = none

@[simp] theorem standard_nil : Standard [] := by
  simp [Standard]

@[simp] theorem standard_cons (v : Visit) (vs : List Visit) :
    Standard (v :: vs) ↔ v.extension? = none ∧ Standard vs := by
  simp [Standard]

@[simp] theorem standard_append (us vs : List Visit) :
    Standard (us ++ vs) ↔ Standard us ∧ Standard vs := by
  simp [Standard, or_imp, forall_and]

theorem firstExtension?_eq_none {p : Program} :
    firstExtension? p = none ↔ Standard (walkStmts .all p) := by
  simp [firstExtension?, Standard, List.findSome?_eq_none_iff]

/-! ## Raises that stand directly in a clause -/

/-- The raises among the nodes of a walk, as sites of a clause. -/
def raiseSites (c : Clause) (vs : List Visit) : List RaiseSite :=
  vs.filterMap (Visit.raiseSite? c)

theorem sitesIn_eq (c : Clause) (body : List Stmt) :
    sitesIn c body = raiseSites c (walkStmts .surface body) := rfl

@[simp] theorem raiseSites_nil (c : Clause) : raiseSites c [] = [] := rfl

@[simp] theorem raiseSites_append (c : Clause) (us vs : List Visit) :
    raiseSites c (us ++ vs) = raiseSites c us ++ raiseSites c vs := by
  simp [raiseSites]

@[simp] theorem raiseSites_cons (c : Clause) (v : Visit) (vs : List Visit) :
    raiseSites c (v :: vs) = (v.raiseSite? c).toList ++ raiseSites c vs := by
  cases h : v.raiseSite? c <;> simp [raiseSites, h]

attribute [simp] Visit.raiseSite?

@[simp] theorem raiseSites_attempt (c : Clause) (t : TryExpr) : raiseSites c (t.walk .surface) = [] := by
  simp [TryExpr.walk_eq]

mutual

/-- No raise stands directly in an expression. -/
@[simp] theorem raiseSites_expr (c : Clause) : ∀ e : Expr, raiseSites c (e.walk .surface) = []
  | .number _ | .string _ | .bool _ | .null | .undefined | .this | .ident _ | .yield none _ => rfl
  | .array items => by simp [Expr.walk, raiseSites_exprs c items]
  | .unary _ a | .member a _ | .await a | .yield (some a) _ => by simp [Expr.walk, raiseSites_expr c a]
  | .binary _ a b | .logical _ a b | .assign a b | .index a b => by
    simp [Expr.walk, raiseSites_expr c a, raiseSites_expr c b]
  | .call f args => by simp [Expr.walk, raiseSites_expr c f, raiseSites_exprs c args]
  | .func ⟨_, _, .block _, _, _, _⟩ | .func ⟨_, _, .expr _, _, _, _⟩ => by simp [Expr.walk, Func.walk]
  | .attempt t => by simp [Expr.walk]

@[simp] theorem raiseSites_exprs (c : Clause) :
    ∀ es : List Expr, raiseSites c (walkExprs .surface es) = []
  | [] => rfl
  | e :: es => by simp [walkExprs, raiseSites_expr c e, raiseSites_exprs c es]

end

@[simp] theorem raiseSites_func (c : Clause) (f : Func) : raiseSites c (f.walk .surface) = [] := by
  simpa [Expr.walk] using raiseSites_expr c (.func f)

@[simp] theorem raiseSites_decls (c : Clause) (ds : List Declarator) :
    raiseSites c (walkDecls .surface ds) = [] := by
  induction ds with
  | nil => rfl
  | cons d ds ih => obtain ⟨x, _ | e⟩ := d <;> simp [walkDecls, ih]

/-! ## Parts of parts -/

/-- The nodes under a node, with the node itself. -/
def Visit.below : Visit → List Visit
  | .stmt s => s.walk .all
  | .expr e => e.walk .all
  | .func f => f.walk .all
  | .attempt t => t.walk .all

/-- With each node the list has the nodes under it, one after the other. -/
def Deep (vs : List Visit) : Prop :=
  ∀ v ∈ vs, v.below <:+: vs

namespace Deep

variable {v : Visit} {us vs : List Visit}

theorem nil : Deep [] :=
  fun _ hv => by cases hv

theorem node (h : v.below = v :: vs) (hd : Deep vs) : Deep (v :: vs) := by
  intro u hu
  rcases List.mem_cons.1 hu with rfl | hu
  · exact h ▸ List.infix_rfl
  · exact (hd u hu).trans (List.suffix_cons v vs).isInfix

theorem append (hu : Deep us) (hv : Deep vs) : Deep (us ++ vs) := by
  intro w hw
  rcases List.mem_append.1 hw with hw | hw
  · exact (hu w hw).trans (List.prefix_append us vs).isInfix
  · exact (hv w hw).trans (List.suffix_append us vs).isInfix

end Deep

/-- A walk through everything meets with each node the nodes under it. -/
theorem deep (p : Phrase) : Deep (p.walk .all) := by
  induction p with
  | number | string | bool | null | undefined | this | ident | yieldNone | jump | retNone => exact .node rfl .nil
  | array _ h | unary _ _ h | member _ _ h | await _ h | yield _ _ h | func _ h | attempt _ h | declare _ _ _ h
  | exprStmt _ _ h | blockStmt _ _ h | ret _ _ h | throw _ _ h | raise _ _ _ h | funcStmt _ h
  | funcBlock _ _ _ _ _ _ h | funcExpr _ _ _ _ _ _ h => exact .node rfl h
  | binary _ _ _ ha hb | logical _ _ _ ha hb | assign _ _ ha hb | index _ _ ha hb | call _ _ ha hb
  | branch _ _ _ ha hb | loop _ _ _ ha hb | switch _ _ _ ha hb => exact .node rfl (ha.append hb)
  | branchElse _ _ _ _ ha hb hc | guarded _ _ _ _ ha hb hc => exact .node rfl ((ha.append hb).append hc)
  | clauses _ _ _ _ _ _ _ _ _ ha hb hc =>
    have hvisits := TryExpr.walk_all
    rw [Phrase.walk, hvisits]
    exact .node (hvisits _) ((ha.append hb).append hc)
  | nilExprs | nilDecls | nilCases | noHandler | noBlock | nilStmts => exact .nil
  | bareDecl _ _ h | handler _ _ h | finalizer _ h => exact h
  | consExprs _ _ ha hb | consDecls _ _ _ ha hb | defaultCase _ _ ha hb | consStmts _ _ ha hb => exact ha.append hb
  | consCases _ _ _ ha hb hc => exact (ha.append hb).append hc

/-- What stands directly in a phrase comes in the order of all that is in it. -/
theorem surface_sublist (p : Phrase) : (p.walk .surface).Sublist (p.walk .all) := by
  induction p with
  | number | string | bool | null | undefined | this | ident | yieldNone | jump | retNone | nilExprs | nilDecls
  | nilCases | noHandler | noBlock | nilStmts => exact .refl _
  | funcBlock | funcExpr => exact (List.nil_sublist _).cons_cons _
  | clauses =>
    rw [Phrase.walk, Phrase.walk, TryExpr.walk_eq, TryExpr.walk_eq]
    exact (List.nil_sublist _).cons_cons _
  | bareDecl _ _ h | handler _ _ h | finalizer _ h => exact h
  | binary _ _ _ ha hb | logical _ _ _ ha hb | assign _ _ ha hb | index _ _ ha hb | call _ _ ha hb
  | branch _ _ _ ha hb | loop _ _ _ ha hb | switch _ _ _ ha hb => exact (ha.append hb).cons_cons _
  | branchElse _ _ _ _ ha hb hc | guarded _ _ _ _ ha hb hc => exact ((ha.append hb).append hc).cons_cons _
  | consExprs _ _ ha hb | consDecls _ _ _ ha hb | defaultCase _ _ ha hb | consStmts _ _ ha hb => exact ha.append hb
  | consCases _ _ _ ha hb hc => exact (ha.append hb).append hc
  | _ =>
    rename_i h
    exact h.cons_cons _

end RaiseScript
