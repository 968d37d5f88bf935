import RaiseScript.Proofs.Lowered
import RaiseScript.Proofs.Reading
import Mathlib.Data.List.Forall2

/-!
# Walks that change notes

`annotate` and `validate` go through a tree and change nothing but the notes on its try expressions
(`NotesOnly`). So the new tree has the nodes of the old one in the same order, each of them changed
by the same walk (`Renoted`, and `renoted` for whole phrases). What is said of a node without regard
to notes is said of the new node as well, and then of the whole tree : it is spelled and placed as
before, it has as many try expressions, and the raises in its clauses stay where they are.
-/

namespace RaiseScript

variable {σ : Type} {f : TryExpr → StateM σ TryExpr} {sp : Spelling} {v v' : Visit} {vs vs' : List Visit}

/-- A change of a try expression that leaves all but the notes alone. -/
def NotesOnly (f : TryExpr → StateM σ TryExpr) : Prop :=
  ∀ t s, ∃ raises verdict, (f t s).1 = { t with raises, verdict }

/-- The second node is what the walk makes of the first one, from some state. -/
inductive Renoted (f : TryExpr → StateM σ TryExpr) : Visit → Visit → Prop
  | stmt (st : Stmt) (s : σ) : Renoted f (.stmt st) (.stmt (replaceStmt f st s).1)
  | expr (e : Expr) (s : σ) : Renoted f (.expr e) (.expr (replaceExpr f e s).1)
  | func (g : Func) (s : σ) : Renoted f (.func g) (.func (replaceFunc f g s).1)
  | attempt (t : TryExpr) (s : σ) : Renoted f (.attempt t) (.attempt (replaceAttempt f t s).1)

/-! ## The walk -/

/-- A phrase with its try expressions replaced. -/
def Phrase.replace (f : TryExpr → StateM σ TryExpr) : Phrase → StateM σ Phrase
  | .expr e => .expr <$> replaceExpr f e
  | .exprs es => .exprs <$> replaceExprs f es
  | .func g => .func <$> replaceFunc f g
  | .attempt t => .attempt <$> replaceAttempt f t
  | .stmt st => .stmt <$> replaceStmt f st
  | .decls ds => .decls <$> replaceDecls f ds
  | .cases cs => .cases <$> replaceCases f cs
  | .handler h => .handler <$> replaceHandler f h
  | .block b => .block <$> replaceBlock f b
  | .stmts ss => .stmts <$> replaceStmts f ss

/-- What the walk makes of a try expression, notes aside. -/
theorem replaceAttempt_eq (hf : NotesOnly f) (t : TryExpr) (s : σ) : ∃ s' s'' raises verdict,
    (replaceAttempt f t s).1 = { t with
      body := (replaceStmts f t.body s).1, catchBody := (replaceStmts f t.catchBody s').1,
      finallyBody := (replaceBlock f t.finallyBody s'').1, raises, verdict } := by
  cases t
  obtain ⟨raises', verdict', hout⟩ := hf _ _
  exact ⟨_, _, raises', verdict', hout⟩

theorem renoted (hf : NotesOnly f) (r : Reach) (p : Phrase) (s : σ) :
    List.Forall₂ (Renoted f) (p.walk r) ((p.replace f s).1.walk r) := by
  induction p generalizing s with
  | number | string | bool | null | undefined | this | ident | yieldNone => exact .cons (.expr _ s) .nil
  | jump | retNone => exact .cons (.stmt _ s) .nil
  | array _ h | unary _ _ h | member _ _ h | await _ h | yield _ _ h | func _ h | attempt _ h =>
    exact .cons (.expr _ s) (h s)
  | declare _ _ _ h | exprStmt _ _ h | blockStmt _ _ h | ret _ _ h | throw _ _ h | raise _ _ _ h | funcStmt _ h =>
    exact .cons (.stmt _ s) (h s)
  | binary _ _ _ ha hb | logical _ _ _ ha hb | assign _ _ ha hb | index _ _ ha hb | call _ _ ha hb =>
    exact .cons (.expr _ s) (List.rel_append (ha s) (hb _))
  | branch _ _ _ ha hb | loop _ _ _ ha hb | switch _ _ _ ha hb =>
    exact .cons (.stmt _ s) (List.rel_append (ha s) (hb _))
  | branchElse _ _ _ _ ha hb hc | guarded _ _ _ _ ha hb hc =>
    exact .cons (.stmt _ s) (List.rel_append (List.rel_append (ha s) (hb _)) (hc _))
  | funcBlock _ _ _ _ _ _ h | funcExpr _ _ _ _ _ _ h =>
    refine .cons (.func _ s) ?_
    split
    · exact h s
    · exact .nil
  | clauses _ _ _ _ _ _ _ _ _ ha hb hc =>
    obtain ⟨s', s'', raises, verdict, hout⟩ := replaceAttempt_eq hf _ s
    have hself (t : TryExpr) : ((Phrase.attempt t).replace f s).1.walk r = (replaceAttempt f t s).1.walk r := rfl
    rw [hself, Phrase.walk, TryExpr.walk_eq, TryExpr.walk_eq]
    refine .cons (.attempt _ s) ?_
    rw [hout]
    split
    · exact List.rel_append (List.rel_append (ha s) (hb s')) (hc s'')
    · exact .nil
  | nilExprs | nilDecls | nilCases | noHandler | noBlock | nilStmts => exact .nil
  | bareDecl _ _ h | handler _ _ h | finalizer _ h => exact h s
  | consExprs _ _ ha hb | consDecls _ _ _ ha hb | defaultCase _ _ ha hb | consStmts _ _ ha hb =>
    exact List.rel_append (ha s) (hb _)
  | consCases _ _ _ ha hb hc => exact List.rel_append (List.rel_append (ha s) (hb _)) (hc _)

theorem renoted_stmts (hf : NotesOnly f) (r : Reach) (ss : List Stmt) (s : σ) :
    List.Forall₂ (Renoted f) (walkStmts r ss) (walkStmts r (replaceStmts f ss s).1) :=
  renoted hf r (.stmts ss) s

/-! ## Walks that change nothing -/

/-- The try expression is left as it is, and so is the state. -/
def Fixed (f : TryExpr → StateM σ TryExpr) (t : TryExpr) : Prop :=
  f t = pure t

section

variable (f)

attribute [local simp] replaceExpr replaceExprs replaceFunc replaceAttempt replaceStmt
  replaceDecls replaceCases replaceHandler replaceBlock replaceStmts
attribute [local simp] Expr.walk walkExprs Func.walk TryExpr.walk_all Stmt.walk walkDecls
  walkCases walkHandler walkBlock walkStmts

/-- Nothing of the phrase is changed. -/
@[simp] def Phrase.Unchanged : Phrase → Prop
  | .expr e => replaceExpr f e = pure e
  | .exprs es => replaceExprs f es = pure es
  | .func g => replaceFunc f g = pure g
  | .attempt t => replaceAttempt f t = pure t
  | .stmt s => replaceStmt f s = pure s
  | .decls ds => replaceDecls f ds = pure ds
  | .cases cs => replaceCases f cs = pure cs
  | .handler h => replaceHandler f h = pure h
  | .block b => replaceBlock f b = pure b
  | .stmts ss => replaceStmts f ss = pure ss

theorem Phrase.unchanged (p : Phrase) (h : EachAttempt (Fixed f) (p.walk .all)) : p.Unchanged f := by
  induction p with
  | clauses => simp_all [Fixed]
  | _ => simp_all

theorem replaceStmts_fixed (ss : List Stmt) (h : EachAttempt (Fixed f) (walkStmts .all ss)) :
    replaceStmts f ss = pure ss :=
  Phrase.unchanged f (.stmts ss) h

end

/-! ## What stays -/

theorem filterMap_renoted {α : Type} {g : Visit → Option α} (hg : ∀ v v', Renoted f v v' → g v' = g v)
    (h : List.Forall₂ (Renoted f) vs vs') : vs'.filterMap g = vs.filterMap g := by
  induction h with
  | nil => rfl
  | cons hv _ ih => rw [List.filterMap_cons, List.filterMap_cons, hg _ _ hv, ih]

theorem Renoted.raiseSite? (h : Renoted f v v') (c : Clause) : v'.raiseSite? c = v.raiseSite? c := by
  cases h with
  | stmt st s =>
    cases st with
    | branch test yes no span => cases no <;> rfl
    | ret e span => cases e <;> rfl
    | _ => rfl
  | _ => rfl

/-- The raises stay where they are. -/
theorem raiseSites_renoted (c : Clause) (h : List.Forall₂ (Renoted f) vs vs') :
    raiseSites c vs' = raiseSites c vs :=
  filterMap_renoted (fun _ _ hv => hv.raiseSite? c) h

theorem sitesIn_replaceStmts (hf : NotesOnly f) (c : Clause) (ss : List Stmt) (s : σ) :
    sitesIn c (replaceStmts f ss s).1 = sitesIn c ss :=
  raiseSites_renoted c (renoted_stmts hf .surface ss s)

theorem countAttempts_renoted (h : List.Forall₂ (Renoted f) vs vs') :
    countAttempts vs' = countAttempts vs := by
  induction h with
  | nil => rfl
  | cons hv _ ih =>
    rw [countAttempts_cons, countAttempts_cons, ih]
    cases hv <;> rfl

theorem isTarget_replaceExpr (e : Expr) (s : σ) : (replaceExpr f e s).1.isTarget = e.isTarget := by
  cases e with
  | yield arg delegate => cases arg <;> rfl
  | _ => rfl

theorem map_replaceDecls (ds : List Declarator) (s : σ) :
    (replaceDecls f ds s).1.map (fun d => (d.name, d.init.isSome)) = ds.map fun d => (d.name, d.init.isSome) := by
  induction ds generalizing s with
  | nil => rfl
  | cons d ds ih =>
    obtain ⟨x, _ | e⟩ := d
    · exact congrArg (_ :: ·) (ih s)
    · exact congrArg (_ :: ·) (ih _)

theorem countP_replaceCases (cs : List Case) (s : σ) :
    (replaceCases f cs s).1.countP (·.test.isNone) = cs.countP (·.test.isNone) := by
  induction cs generalizing s with
  | nil => rfl
  | cons c cs ih =>
    obtain ⟨_ | e, body⟩ := c
    · change ((⟨none, _⟩ : Case) :: (replaceCases f cs _).1).countP _ = _
      simp [ih]
    · change ((⟨some _, _⟩ : Case) :: (replaceCases f cs _).1).countP _ = _
      simp [ih]

theorem isSome_replaceBlock (b : Option (List Stmt)) (s : σ) : (replaceBlock f b s).1.isSome = b.isSome := by
  cases b <;> rfl

theorem Renoted.spelled (hf : NotesOnly f) (h : Renoted f v v') (hv : v.Spelled sp) : v'.Spelled sp := by
  cases h with
  | expr e s =>
    cases e with
    | assign target value => exact (isTarget_replaceExpr target s).trans hv
    | yield arg delegate =>
      cases arg with
      | none => exact hv
      | some a => exact fun h => by cases h
    | _ => exact hv
  | stmt st s =>
    cases st with
    | declare kind ds span =>
      have hmap := map_replaceDecls (f := f) ds s
      refine ⟨fun hnil => hv.1 ?_, fun d hd => ?_⟩
      · rw [hnil] at hmap
        exact List.map_eq_nil_iff.1 hmap.symm
      · have hmem := List.mem_map_of_mem (f := fun d : Declarator => (d.name, d.init.isSome)) hd
        rw [hmap, List.mem_map] at hmem
        obtain ⟨d₀, hd₀, heq⟩ := hmem
        rw [Prod.mk.injEq] at heq
        have := hv.2 d₀ hd₀
        rwa [heq.1, heq.2] at this
    | switch subject cs span => exact Nat.le_trans (Nat.le_of_eq (countP_replaceCases cs _)) hv
    | guarded body handler finalizer span =>
      obtain _ | ⟨param, clause⟩ := handler
      · exact ⟨hv.1.imp id (isSome_replaceBlock _ _).trans, hv.2⟩
      · refine ⟨Or.inl rfl, ?_⟩
        rintro _ ⟨⟩
        exact hv.2 ⟨param, clause⟩ rfl
    | func g =>
      obtain ⟨_, _, _ | _, _, _, _⟩ := g
      · exact hv
      · exact hv
    | branch test yes no span => cases no <;> exact trivial
    | ret e span => cases e <;> exact trivial
    | _ => exact trivial
  | func g s =>
    obtain ⟨_, _, _ | _, _, _, _⟩ := g
    · exact ⟨hv.1, hv.2.1, hv.2.2.1, fun _ h => by cases h⟩
    · exact ⟨hv.1, hv.2.1, hv.2.2.1, fun _ _ => hv.2.2.2 _ rfl⟩
  | attempt t s =>
    obtain ⟨s', s'', raises, verdict, hout⟩ := replaceAttempt_eq hf t s
    rw [hout]
    exact ⟨hv.1, hv.2.1, fun hp => (isSome_replaceBlock _ _).trans (hv.2.2 hp)⟩

theorem Renoted.placed (hf : NotesOnly f) (h : Renoted f v v') (hv : v.Placed) : v'.Placed := by
  cases h with
  | expr e s => exact trivial
  | stmt st s => exact trivial
  | func g s =>
    obtain ⟨_, _, body | _, _, _, _⟩ := g
    · exact fun c => (sitesIn_replaceStmts hf c body s).trans (hv c)
    · exact trivial
  | attempt t s =>
    obtain ⟨s', s'', raises, verdict, hout⟩ := replaceAttempt_eq hf t s
    rw [hout]
    refine fun hnone c => ?_
    have hv := hv hnone c
    generalize t.finallyBody = b at hv ⊢
    cases b with
    | none => exact hv
    | some body => exact (sitesIn_replaceStmts hf c body s'').trans hv

/-- A tree that was spelled and placed stays so. -/
theorem parsed_renoted (hf : NotesOnly f) (h : List.Forall₂ (Renoted f) vs vs')
    (hp : Parsed sp vs) : Parsed sp vs' := by
  induction h with
  | nil => exact hp
  | cons hv _ ih =>
    rw [parsed_cons] at hp ⊢
    exact ⟨⟨hv.spelled hf hp.1.1, hv.placed hf hp.1.2⟩, ih hp.2⟩

end RaiseScript
