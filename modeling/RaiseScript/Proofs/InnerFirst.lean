import RaiseScript.Proofs.Renoted

/-!
# The order of a walk

A walk that changes notes meets the try expressions of a tree one after the other, each after those
inside it. `Expr.innerFirst` and its companions list them in this order. The walk meets the try
expressions of this list (`Walked`), with the raises and the places they had. So what the walk notes
on one of them it notes on all of them (`Walked.noted`).
-/

namespace RaiseScript

/-! ## Inner ones first -/

mutual

/-- The try expressions in an expression, each after those inside it. -/
def Expr.innerFirst : Expr → List TryExpr
  | .array items => innerFirstInExprs items
  | .unary _ a => a.innerFirst
  | .binary _ a b => a.innerFirst ++ b.innerFirst
  | .logical _ a b => a.innerFirst ++ b.innerFirst
  | .assign target value => target.innerFirst ++ value.innerFirst
  | .member object _ => object.innerFirst
  | .index object key => object.innerFirst ++ key.innerFirst
  | .call callee args => callee.innerFirst ++ innerFirstInExprs args
  | .await a => a.innerFirst
  | .yield (some a) _ => a.innerFirst
  | .func f => f.innerFirst
  | .attempt t => t.innerFirst
  | _ => []

/-- The try expressions in a list of expressions. -/
def innerFirstInExprs : List Expr → List TryExpr
  | [] => []
  | e :: es => e.innerFirst ++ innerFirstInExprs es

/-- The try expressions in a function. -/
def Func.innerFirst : Func → List TryExpr
  | ⟨_, _, .block body, _, _, _⟩ => innerFirst body
  | ⟨_, _, .expr value, _, _, _⟩ => value.innerFirst

/-- The try expressions in the clauses of a try expression, and then the try expression itself. -/
def TryExpr.innerFirst : TryExpr → List TryExpr
  | ⟨id, body, catchParam, catchBody, finallyParam, finallyBody, span, raises, verdict⟩ =>
    RaiseScript.innerFirst body ++ RaiseScript.innerFirst catchBody ++ innerFirstInBlock finallyBody
      ++ [⟨id, body, catchParam, catchBody, finallyParam, finallyBody, span, raises, verdict⟩]

/-- The try expressions in a statement. -/
def Stmt.innerFirst : Stmt → List TryExpr
  | .declare _ decls _ => innerFirstInDecls decls
  | .expr value _ => value.innerFirst
  | .block body _ => RaiseScript.innerFirst body
  | .branch test yes none _ => test.innerFirst ++ yes.innerFirst
  | .branch test yes (some no) _ => test.innerFirst ++ yes.innerFirst ++ no.innerFirst
  | .loop test body _ => test.innerFirst ++ body.innerFirst
  | .switch subject cases _ => subject.innerFirst ++ innerFirstInCases cases
  | .jump _ _ => []
  | .ret none _ => []
  | .ret (some arg) _ => arg.innerFirst
  | .throw arg _ => arg.innerFirst
  | .guarded body handler finalizer _ =>
    RaiseScript.innerFirst body ++ innerFirstInHandler handler ++ innerFirstInBlock finalizer
  | .func f => f.innerFirst
  | .raise _ value _ => value.innerFirst

/-- The try expressions in the initial values of a declaration. -/
def innerFirstInDecls : List Declarator → List TryExpr
  | [] => []
  | ⟨_, none⟩ :: ds => innerFirstInDecls ds
  | ⟨_, some init⟩ :: ds => init.innerFirst ++ innerFirstInDecls ds

/-- The try expressions in the cases of a switch. -/
def innerFirstInCases : List Case → List TryExpr
  | [] => []
  | ⟨none, body⟩ :: cs => innerFirst body ++ innerFirstInCases cs
  | ⟨some test, body⟩ :: cs => test.innerFirst ++ innerFirst body ++ innerFirstInCases cs

/-- The try expressions in a catch clause. -/
def innerFirstInHandler : Option Handler → List TryExpr
  | none => []
  | some ⟨_, body⟩ => innerFirst body

/-- The try expressions in a finally block. -/
def innerFirstInBlock : Option (List Stmt) → List TryExpr
  | none => []
  | some body => innerFirst body

/-- The try expressions in a list of statements. -/
def innerFirst : List Stmt → List TryExpr
  | [] => []
  | s :: ss => s.innerFirst ++ innerFirst ss

end

/-- The try expressions in a phrase. -/
@[simp] def Phrase.innerFirst : Phrase → List TryExpr
  | .expr e => e.innerFirst
  | .exprs es => innerFirstInExprs es
  | .func f => f.innerFirst
  | .attempt t => t.innerFirst
  | .stmt s => s.innerFirst
  | .decls ds => innerFirstInDecls ds
  | .cases cs => innerFirstInCases cs
  | .handler h => innerFirstInHandler h
  | .block b => innerFirstInBlock b
  | .stmts ss => RaiseScript.innerFirst ss

/-! ### Each of them once -/

/-- The try expressions that a walk meets. -/
def attemptsOf (vs : List Visit) : List TryExpr :=
  vs.filterMap Visit.attempt?

@[simp] theorem attemptsOf_nil : attemptsOf [] = [] := rfl

@[simp] theorem attemptsOf_append (us vs : List Visit) :
    attemptsOf (us ++ vs) = attemptsOf us ++ attemptsOf vs :=
  List.filterMap_append

@[simp] theorem attemptsOf_stmt (s : Stmt) (vs : List Visit) : attemptsOf (.stmt s :: vs) = attemptsOf vs := rfl

@[simp] theorem attemptsOf_expr (e : Expr) (vs : List Visit) : attemptsOf (.expr e :: vs) = attemptsOf vs := rfl

@[simp] theorem attemptsOf_func (f : Func) (vs : List Visit) : attemptsOf (.func f :: vs) = attemptsOf vs := rfl

@[simp] theorem attemptsOf_attempt (t : TryExpr) (vs : List Visit) :
    attemptsOf (.attempt t :: vs) = t :: attemptsOf vs := rfl

section

attribute [local simp] Expr.walk walkExprs Func.walk Stmt.walk walkDecls walkCases
  walkHandler walkBlock walkStmts TryExpr.walk_all Expr.innerFirst innerFirstInExprs
  Func.innerFirst TryExpr.innerFirst Stmt.innerFirst innerFirstInDecls innerFirstInCases
  innerFirstInHandler innerFirstInBlock innerFirst

/-- The list has the try expressions of the phrase, each as often as the phrase. -/
theorem innerFirst_perm (p : Phrase) : p.innerFirst.Perm (attemptsOf (p.walk .all)) := by
  induction p with
  | clauses _ _ _ _ _ _ _ _ _ ha hb hc =>
    rw [Phrase.walk, TryExpr.walk_all, attemptsOf_attempt, attemptsOf_append, attemptsOf_append]
    exact (List.perm_append_singleton _ _).trans (((ha.append hb).append hc).cons _)
  | binary _ _ _ ha hb | logical _ _ _ ha hb | assign _ _ ha hb | index _ _ ha hb | call _ _ ha hb
  | branch _ _ _ ha hb | loop _ _ _ ha hb | switch _ _ _ ha hb | consExprs _ _ ha hb | consDecls _ _ _ ha hb
  | defaultCase _ _ ha hb | consStmts _ _ ha hb => simpa using ha.append hb
  | branchElse _ _ _ _ ha hb hc | guarded _ _ _ _ ha hb hc | consCases _ _ _ ha hb hc =>
    simpa using ha.append (hb.append hc)
  | _ => simp_all

end

theorem mem_attempts {t : TryExpr} {q : Program} :
    t ∈ attempts q ↔ .attempt t ∈ walkStmts .all q := by
  simp only [attempts, List.mem_filterMap]
  constructor
  · rintro ⟨v, hv, ht⟩
    cases v <;> cases ht
    exact hv
  · exact fun ht => ⟨_, ht, rfl⟩

theorem mem_innerFirst {t : TryExpr} {p : Program} : t ∈ innerFirst p ↔ t ∈ attempts p :=
  (innerFirst_perm (.stmts p)).mem_iff

/-! ## Along the list -/

/-- The try expressions have the same place, the same raises and the same notes on themselves. -/
structure TryExpr.AsBefore (t u : TryExpr) : Prop where
  span : u.span = t.span
  sites : u.sites = t.sites
  param : u.finallyParam = t.finallyParam
  block : u.finallyBody.isSome = t.finallyBody.isSome
  raises : u.raises = t.raises

/-- The try expression after those inside it are replaced. -/
def replaceParts {σ : Type} (f : TryExpr → StateM σ TryExpr) : TryExpr → StateM σ TryExpr
  | ⟨id, body, catchParam, catchBody, finallyParam, finallyBody, span, raises, verdict⟩ => do
    let body ← replaceStmts f body
    let catchBody ← replaceStmts f catchBody
    let finallyBody ← replaceBlock f finallyBody
    return ⟨id, body, catchParam, catchBody, finallyParam, finallyBody, span, raises, verdict⟩

theorem asBefore_replaceParts {σ : Type} {f : TryExpr → StateM σ TryExpr} (hf : NotesOnly f)
    (t : TryExpr) (s : σ) : t.AsBefore (replaceParts f t s).1 := by
  obtain ⟨id, body, catchParam, catchBody, finallyParam, finallyBody, span, raises, verdict⟩ := t
  have hsites : (sitesIn .finalizer ((replaceBlock f finallyBody
      (replaceStmts f catchBody (replaceStmts f body s).2).2).1.getD [])) =
        sitesIn .finalizer (finallyBody.getD []) := by
    cases finallyBody with
    | none => rfl
    | some b => exact sitesIn_replaceStmts hf .finalizer b _
  refine ⟨rfl, ?_, rfl, isSome_replaceBlock _ _, rfl⟩
  change RaiseSites.mk (sitesIn .body (replaceStmts f body s).1) (sitesIn .handler (replaceStmts f
    catchBody _).1) (sitesIn .finalizer ((replaceBlock f finallyBody _).1.getD [])) = _
  rw [sitesIn_replaceStmts hf, sitesIn_replaceStmts hf, hsites]
  rfl

/-- The first list is walked with `f` from the state `s`, and the second one and `s'` come of it. By
the time `f` meets a try expression those inside it may have other notes. -/
inductive Walked {σ : Type} (f : TryExpr → StateM σ TryExpr) : List TryExpr → σ → List TryExpr → σ → Prop
  | nil (s : σ) : Walked f [] s [] s
  | cons {t u : TryExpr} {ts us : List TryExpr} {s s' : σ} (htu : t.AsBefore u)
      (h : Walked f ts (f u s).2 us s') : Walked f (t :: ts) s ((f u s).1 :: us) s'

section

variable {σ : Type} {f : TryExpr → StateM σ TryExpr}

theorem Walked.append {ts us ts' us' : List TryExpr} {s s' s'' : σ} (h : Walked f ts s us s')
    (h' : Walked f ts' s' us' s'') : Walked f (ts ++ ts') s (us ++ us') s'' := by
  induction h with
  | nil => exact h'
  | cons htu _ ih => exact .cons htu (ih h')

theorem walked (hf : NotesOnly f) (p : Phrase) (s : σ) :
    Walked f p.innerFirst s (p.replace f s).1.innerFirst (p.replace f s).2 := by
  induction p generalizing s with
  | number | string | bool | null | undefined | this | ident | yieldNone | jump | retNone | nilExprs | nilDecls
  | nilCases | noHandler | noBlock | nilStmts => exact .nil s
  | binary _ _ _ ha hb | logical _ _ _ ha hb | assign _ _ ha hb | index _ _ ha hb | call _ _ ha hb
  | branch _ _ _ ha hb | loop _ _ _ ha hb | switch _ _ _ ha hb | consExprs _ _ ha hb | consDecls _ _ _ ha hb
  | defaultCase _ _ ha hb | consStmts _ _ ha hb => exact (ha s).append (hb _)
  | branchElse _ _ _ _ ha hb hc | guarded _ _ _ _ ha hb hc | consCases _ _ _ ha hb hc =>
    exact ((ha s).append (hb _)).append (hc _)
  | clauses id body catchParam catchBody finallyParam finallyBody span raises verdict ha hb hc =>
    let t : TryExpr := ⟨id, body, catchParam, catchBody, finallyParam, finallyBody, span, raises, verdict⟩
    let u := replaceParts f t s
    have hlast : (f u.1 u.2).1.innerFirst = innerFirst u.1.body ++ innerFirst u.1.catchBody ++
        innerFirstInBlock u.1.finallyBody ++ [(f u.1 u.2).1] := by
      obtain ⟨raises', verdict', hout⟩ := hf u.1 u.2
      rw [hout]
      rfl
    change Walked f t.innerFirst s (f u.1 u.2).1.innerFirst (f u.1 u.2).2
    rw [hlast]
    exact (((ha s).append (hb _)).append (hc _)).append (.cons (asBefore_replaceParts hf t s) (.nil _))
  | _ =>
    rename_i h
    exact h s

end

end RaiseScript
