import RaiseScript.Proofs.Spelled

/-!
# Temporaries in scope

A tree is `Scoped` when every temporary in it is used where a `let` or a `const` for it can be
seen : one that stands earlier in the same list of statements or in a list around it, within the
same function. Nothing else binds a temporary, and temporaries that are `fixed` are never assigned
to.

More names in scope do no harm (`Phrase.Scoped.mono`), and neither does storing raises in a
temporary that is in scope (`scopedAll_storeAll`).
-/

set_option linter.unusedSectionVars false

namespace RaiseScript

variable {p : Phrase} {scope scope' : List String} {e : Expr}

/-- Which names are temporaries, and which of them keep the value they are declared with. -/
structure Temps where
  issued : String → Prop
  fixed : String → Prop
  issued_of_fixed : ∀ {x}, fixed x → issued x

/-- The names that a statement of a list brings into scope for the statements after it. -/
def Stmt.lets : Stmt → List String
  | .declare .functionWide _ _ => []
  | .declare _ ds _ => ds.map (·.name)
  | _ => []

/-- The names in scope behind a list of statements. -/
def behind (scope : List String) (ss : List Stmt) : List String :=
  ss.foldl (fun scope s => s.lets ++ scope) scope

mutual

/-- Every temporary of the expression is in scope. -/
def Expr.Scoped (t : Temps) (scope : List String) : Expr → Prop
  | .ident x => t.issued x → x ∈ scope
  | .array items => scopedExprs t scope items
  | .unary _ a => a.Scoped t scope
  | .binary _ a b => a.Scoped t scope ∧ b.Scoped t scope
  | .logical _ a b => a.Scoped t scope ∧ b.Scoped t scope
  | .assign target value =>
    (∀ x, target = .ident x → ¬ t.fixed x) ∧ target.Scoped t scope ∧ value.Scoped t scope
  | .member object _ => object.Scoped t scope
  | .index object key => object.Scoped t scope ∧ key.Scoped t scope
  | .call callee args => callee.Scoped t scope ∧ scopedExprs t scope args
  | .await a => a.Scoped t scope
  | .yield (some a) _ => a.Scoped t scope
  | .func f => f.Scoped t
  | .attempt ⟨_, body, catchParam, catchBody, finallyParam, finallyBody, _, _, _⟩ =>
    (∀ x ∈ catchParam, ¬ t.issued x) ∧ (∀ x ∈ finallyParam, ¬ t.issued x) ∧
      scopedAll t scope body ∧ scopedAll t scope catchBody ∧ scopedBlock t scope finallyBody
  | _ => True

/-- Every temporary of the expressions is in scope. -/
def scopedExprs (t : Temps) (scope : List String) : List Expr → Prop
  | [] => True
  | e :: es => e.Scoped t scope ∧ scopedExprs t scope es

/-- Every temporary of the function is in scope. None is from outside of it. -/
def Func.Scoped (t : Temps) : Func → Prop
  | ⟨name, params, .block body, _, _, _⟩ =>
    (∀ x ∈ name, ¬ t.issued x) ∧ (∀ x ∈ params, ¬ t.issued x) ∧ scopedAll t [] body
  | ⟨name, params, .expr value, _, _, _⟩ =>
    (∀ x ∈ name, ¬ t.issued x) ∧ (∀ x ∈ params, ¬ t.issued x) ∧ value.Scoped t []

/-- Every temporary of the statement is in scope. -/
def Stmt.Scoped (t : Temps) (scope : List String) : Stmt → Prop
  | .declare kind ds _ =>
    (kind = .functionWide → ∀ d ∈ ds, ¬ t.issued d.name) ∧ scopedDecls t scope ds
  | .expr value _ => value.Scoped t scope
  | .block body _ => scopedAll t scope body
  | .branch test yes none _ => test.Scoped t scope ∧ yes.Scoped t scope
  | .branch test yes (some no) _ => test.Scoped t scope ∧ yes.Scoped t scope ∧ no.Scoped t scope
  | .loop test body _ => test.Scoped t scope ∧ body.Scoped t scope
  | .switch subject cases _ => subject.Scoped t scope ∧ scopedCases t scope cases
  | .jump _ _ => True
  | .ret none _ => True
  | .ret (some arg) _ => arg.Scoped t scope
  | .throw arg _ => arg.Scoped t scope
  | .guarded body handler finalizer _ =>
    scopedAll t scope body ∧ scopedHandler t scope handler ∧ scopedBlock t scope finalizer
  | .func f => f.Scoped t
  | .raise _ value _ => value.Scoped t scope

/-- Every temporary of the initial values is in scope. -/
def scopedDecls (t : Temps) (scope : List String) : List Declarator → Prop
  | [] => True
  | ⟨_, none⟩ :: ds => scopedDecls t scope ds
  | ⟨_, some init⟩ :: ds => init.Scoped t scope ∧ scopedDecls t scope ds

/-- Every temporary of the cases is in scope. -/
def scopedCases (t : Temps) (scope : List String) : List Case → Prop
  | [] => True
  | ⟨none, body⟩ :: cs => scopedAll t scope body ∧ scopedCases t scope cs
  | ⟨some test, body⟩ :: cs =>
    test.Scoped t scope ∧ scopedAll t scope body ∧ scopedCases t scope cs

/-- Every temporary of the catch clause is in scope. -/
def scopedHandler (t : Temps) (scope : List String) : Option Handler → Prop
  | none => True
  | some ⟨param, body⟩ => (∀ x ∈ param, ¬ t.issued x) ∧ scopedAll t scope body

/-- Every temporary of the finally block is in scope. -/
def scopedBlock (t : Temps) (scope : List String) : Option (List Stmt) → Prop
  | none => True
  | some body => scopedAll t scope body

/-- Every temporary of the statements is in scope. Statements see what the ones before them
declare. -/
def scopedAll (t : Temps) (scope : List String) : List Stmt → Prop
  | [] => True
  | s :: ss => s.Scoped t scope ∧ scopedAll t (s.lets ++ scope) ss

end

/-- Every temporary of the phrase is in scope. -/
def Phrase.Scoped (t : Temps) (scope : List String) : Phrase → Prop
  | .expr e => e.Scoped t scope
  | .exprs es => scopedExprs t scope es
  | .func f => f.Scoped t
  | .attempt u => (Expr.attempt u).Scoped t scope
  | .stmt s => s.Scoped t scope
  | .decls ds => scopedDecls t scope ds
  | .cases cs => scopedCases t scope cs
  | .handler h => scopedHandler t scope h
  | .block b => scopedBlock t scope b
  | .stmts ss => scopedAll t scope ss

variable {t : Temps}

/-! ## Lists of statements -/

@[simp] theorem behind_nil (scope : List String) : behind scope [] = scope := rfl

@[simp] theorem behind_cons (scope : List String) (s : Stmt) (ss : List Stmt) :
    behind scope (s :: ss) = behind (s.lets ++ scope) ss := rfl

@[simp] theorem behind_append (scope : List String) (ss ts : List Stmt) :
    behind scope (ss ++ ts) = behind (behind scope ss) ts :=
  List.foldl_append

theorem subset_behind (ss : List Stmt) : ∀ scope : List String, scope ⊆ behind scope ss := by
  induction ss with
  | nil => exact fun scope => List.Subset.refl scope
  | cons s ss ih =>
    intro scope
    exact List.Subset.trans (List.subset_append_right s.lets scope) (ih _)

@[simp] theorem scopedAll_append (ss ts : List Stmt) : ∀ scope : List String,
    scopedAll t scope (ss ++ ts) ↔ scopedAll t scope ss ∧ scopedAll t (behind scope ss) ts := by
  induction ss with
  | nil => simp [scopedAll]
  | cons s ss ih =>
    intro scope
    simp only [List.cons_append, scopedAll, behind_cons, ih, and_assoc]

@[simp] theorem scopedDecls_append (ds es : List Declarator) :
    scopedDecls t scope (ds ++ es) ↔ scopedDecls t scope ds ∧ scopedDecls t scope es := by
  induction ds with
  | nil => simp [scopedDecls]
  | cons d ds ih => obtain ⟨_, _ | _⟩ := d <;> simp [scopedDecls, ih, and_assoc]

/-! ## More names in scope -/

theorem Phrase.Scoped.mono (h : scope ⊆ scope') (hp : p.Scoped t scope) : p.Scoped t scope' := by
  induction p generalizing scope scope' with
  | ident => exact fun hx => h (hp hx)
  | array _ ih | unary _ _ ih | member _ _ ih | await _ ih | yield _ _ ih | attempt _ ih | exprStmt _ _ ih
  | blockStmt _ _ ih | ret _ _ ih | throw _ _ ih | raise _ _ _ ih | bareDecl _ _ ih | finalizer _ ih => exact ih h hp
  | binary _ _ _ ha hb | logical _ _ _ ha hb | index _ _ ha hb | call _ _ ha hb | branch _ _ _ ha hb
  | loop _ _ _ ha hb | switch _ _ _ ha hb | consExprs _ _ ha hb | consDecls _ _ _ ha hb | defaultCase _ _ ha hb =>
    exact ⟨ha h hp.1, hb h hp.2⟩
  | branchElse _ _ _ _ ha hb hc | guarded _ _ _ _ ha hb hc | consCases _ _ _ ha hb hc =>
    exact ⟨ha h hp.1, hb h hp.2.1, hc h hp.2.2⟩
  | assign _ _ ha hb => exact ⟨hp.1, ha h hp.2.1, hb h hp.2.2⟩
  | declare _ _ _ ih | handler _ _ ih => exact ⟨hp.1, ih h hp.2⟩
  | clauses _ _ _ _ _ _ _ _ _ ha hb hc =>
    exact ⟨hp.1, hp.2.1, ha h hp.2.2.1, hb h hp.2.2.2.1, hc h hp.2.2.2.2⟩
  | consStmts st _ ha hb =>
    have hlets : st.lets ++ scope ⊆ st.lets ++ scope' :=
      List.append_subset.2 ⟨List.subset_append_left _ _, List.Subset.trans h (List.subset_append_right _ _)⟩
    exact ⟨ha h hp.1, hb hlets hp.2⟩
  | func | funcStmt | funcBlock | funcExpr => exact hp
  | _ => trivial

theorem Expr.Scoped.mono (h : e.Scoped t scope) (hs : scope ⊆ scope') : e.Scoped t scope' :=
  Phrase.Scoped.mono (p := .expr e) hs h

/-! ## Raises stored in a temporary -/

@[simp] theorem lets_storeRaises (temp : String) (s : Stmt) : (s.storeRaises temp).lets = s.lets := by
  cases s with
  | branch _ _ no _ => cases no <;> simp [Stmt.storeRaises, Stmt.lets]
  | _ => simp [Stmt.storeRaises, Stmt.lets]

section

variable {temp : String} (hf : ¬ t.fixed temp)

include hf

theorem Phrase.Scoped.storeRaises (ht : temp ∈ scope) (hp : p.Scoped t scope) :
    (p.storeRaises temp).Scoped t scope := by
  induction p generalizing scope with
  | blockStmt _ _ ih | finalizer _ ih => exact ih ht hp
  | branch _ _ _ _ ih | loop _ _ _ _ ih | switch _ _ _ _ ih | handler _ _ ih => exact ⟨hp.1, ih ht hp.2⟩
  | branchElse _ _ _ _ _ ha hb | consCases _ _ _ _ ha hb => exact ⟨hp.1, ha ht hp.2.1, hb ht hp.2.2⟩
  | defaultCase _ _ ha hb => exact ⟨ha ht hp.1, hb ht hp.2⟩
  | guarded _ _ _ _ ha hb hc => exact ⟨ha ht hp.1, hb ht hp.2.1, hc ht hp.2.2⟩
  | raise =>
    refine ⟨fun x hx => ?_, fun _ => ht, hp⟩
    cases hx
    exact hf
  | consStmts st _ ha hb =>
    refine ⟨ha ht hp.1, ?_⟩
    rw [lets_storeRaises]
    exact hb (List.mem_append_right st.lets ht) hp.2
  | _ => exact hp

theorem scopedAll_storeAll (ht : temp ∈ scope) {ss : List Stmt} (h : scopedAll t scope ss) :
    scopedAll t scope (storeAll temp ss) :=
  Phrase.Scoped.storeRaises (p := .stmts ss) hf ht h

end

/-! ## Shapes that lowering gives -/

theorem scoped_asBranch (span : Span) :
    ∀ {ss : List Stmt}, scopedAll t scope ss → (asBranch span ss).Scoped t scope
  | [], h => by simpa only [asBranch, Stmt.Scoped] using h
  | [_], h => h.1
  | _ :: _ :: _, h => by simpa only [asBranch, Stmt.Scoped] using h

theorem Expr.Strict.scoped_withOperands {es vs : List Expr} (he : e.Strict es) (hl : vs.length = es.length)
    (hvs : scopedExprs t scope vs) : (e.withOperands vs).Scoped t scope := by
  cases he.refills hl <;> simpa [withOperands, Scoped, scopedExprs, and_assoc] using hvs

/-! ## Temporaries that are never assigned to -/

/-- No node of a walk assigns to the name. -/
def Unassigned (x : String) (vs : List Visit) : Prop :=
  ∀ value, .expr (.assign (.ident x) value) ∉ vs

section

variable {x : String}

@[simp] theorem unassigned_nil : Unassigned x [] := by
  simp [Unassigned]

@[simp] theorem unassigned_cons (v : Visit) (vs : List Visit) :
    Unassigned x (v :: vs) ↔ (∀ value, v ≠ .expr (.assign (.ident x) value)) ∧ Unassigned x vs := by
  simp [Unassigned, forall_and, eq_comm]

@[simp] theorem unassigned_append (us vs : List Visit) :
    Unassigned x (us ++ vs) ↔ Unassigned x us ∧ Unassigned x vs := by
  simp [Unassigned, forall_and]

variable (hx : t.fixed x)

include hx

attribute [local simp] Expr.walk walkExprs Func.walk TryExpr.walk_all Stmt.walk walkDecls
  walkCases walkHandler walkBlock walkStmts

theorem Phrase.Scoped.unassigned (hp : p.Scoped t scope) : Unassigned x (p.walk .all) := by
  induction p generalizing scope with
  | array _ ih | unary _ _ ih | member _ _ ih | await _ ih | yield _ _ ih | attempt _ ih | exprStmt _ _ ih
  | blockStmt _ _ ih | ret _ _ ih | throw _ _ ih | raise _ _ _ ih | bareDecl _ _ ih | finalizer _ ih =>
    simpa using ih hp
  | func _ ih | funcStmt _ ih => simpa using @ih [] hp
  | binary _ _ _ ha hb | logical _ _ _ ha hb | index _ _ ha hb | call _ _ ha hb | branch _ _ _ ha hb
  | loop _ _ _ ha hb | switch _ _ _ ha hb | consExprs _ _ ha hb | consDecls _ _ _ ha hb | defaultCase _ _ ha hb
  | consStmts _ _ ha hb => simpa using ⟨ha hp.1, hb hp.2⟩
  | branchElse _ _ _ _ ha hb hc | guarded _ _ _ _ ha hb hc | consCases _ _ _ ha hb hc =>
    simpa using ⟨ha hp.1, hb hp.2.1, hc hp.2.2⟩
  | declare _ _ _ ih | handler _ _ ih => simpa using ih hp.2
  | funcBlock _ _ _ _ _ _ ih | funcExpr _ _ _ _ _ _ ih => simpa using ih hp.2.2
  | clauses _ _ _ _ _ _ _ _ _ ha hb hc => simpa using ⟨ha hp.2.2.1, hb hp.2.2.2.1, hc hp.2.2.2.2⟩
  | assign _ _ ha hb =>
    refine (unassigned_cons _ _).2 ⟨fun v hv => ?_, (unassigned_append _ _).2 ⟨ha hp.2.1, hb hp.2.2⟩⟩
    cases hv
    exact hp.1 x rfl hx
  | _ => simp

end

end RaiseScript
