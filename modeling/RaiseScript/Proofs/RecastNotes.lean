import RaiseScript.Proofs.Judged

/-!
# Changing notes in a tree and in the recast tree

A walk changes the notes of a tree, and another walk those of the recast tree. If at every try
expression the second one does what the first one does, recast, then it makes the recast tree of
what the first one makes (`Echoes.alongside`). So raises are noted and verdicts given for a recast
tree as they are for the tree (`annotate_recast`, `validate_recast`).
-/

namespace RaiseScript

variable {m : Recast}

section

variable {σ τ α β : Type} {R : σ → τ → Prop} {ρ : Recast → α → α} {ρ' : Recast → β → β}
  {P : TryExpr → Prop} {f : TryExpr → StateM σ TryExpr} {g : TryExpr → StateM τ TryExpr}

/-- From states that go together come a result and the recast result, and again states that go
together. -/
def Alongside (m : Recast) (R : σ → τ → Prop) (ρ : Recast → α → α) (x : StateM σ α) (y : StateM τ α) : Prop :=
  ∀ s s', R s s' → (y s').1 = ρ m (x s).1 ∧ R (x s).2 (y s').2

theorem Alongside.pure (a : α) : Alongside m R ρ (pure a) (pure (ρ m a)) :=
  fun _ _ hs => ⟨rfl, hs⟩

theorem Alongside.bind {x : StateM σ α} {y : StateM τ α} {k : α → StateM σ β} {l : α → StateM τ β}
    (hx : Alongside m R ρ x y) (hk : ∀ a, Alongside m R ρ' (k a) (l (ρ m a))) :
    Alongside m R ρ' (x >>= k) (y >>= l) := by
  intro s s' hs
  obtain ⟨hvalue, hs⟩ := hx s s' hs
  change (l (y s').1 (y s').2).1 = _ ∧ R (k _ _).2 (l (y s').1 (y s').2).2
  rw [hvalue]
  exact hk _ _ _ hs

/-- What the two walks do at a try expression with `P`, after those inside it. -/
structure Echoes (P : TryExpr → Prop) (m : Recast) (R : σ → τ → Prop)
    (f : TryExpr → StateM σ TryExpr) (g : TryExpr → StateM τ TryExpr) : Prop where
  only : NotesOnly f
  node : ∀ {t u s s'}, P t → t.AsBefore u → R s s' →
    (g (u.recast m) s').1 = (f u s).1.recast m ∧ R (f u s).2 (g (u.recast m) s').2

/-- The second walk makes of the recast phrase what the first one makes of the phrase, recast. -/
def Phrase.Echoed (m : Recast) (R : σ → τ → Prop) (f : TryExpr → StateM σ TryExpr)
    (g : TryExpr → StateM τ TryExpr) : Phrase → Prop
  | .expr e => Alongside m R Expr.recast (replaceExpr f e) (replaceExpr g (e.recast m))
  | .exprs es => Alongside m R recastExprs (replaceExprs f es) (replaceExprs g (recastExprs m es))
  | .func k => Alongside m R Func.recast (replaceFunc f k) (replaceFunc g (k.recast m))
  | .attempt t => Alongside m R TryExpr.recast (replaceAttempt f t) (replaceAttempt g (t.recast m))
  | .stmt st => Alongside m R Stmt.recast (replaceStmt f st) (replaceStmt g (st.recast m))
  | .decls ds => Alongside m R recastDecls (replaceDecls f ds) (replaceDecls g (recastDecls m ds))
  | .cases cs => Alongside m R recastCases (replaceCases f cs) (replaceCases g (recastCases m cs))
  | .handler o => Alongside m R recastHandler (replaceHandler f o) (replaceHandler g (recastHandler m o))
  | .block b => Alongside m R recastBlock (replaceBlock f b) (replaceBlock g (recastBlock m b))
  | .stmts ss => Alongside m R recastStmts (replaceStmts f ss) (replaceStmts g (recastStmts m ss))

theorem Echoes.alongside (h : Echoes P m R f g) (p : Phrase) (hp : EachAttempt P (p.walk .all)) :
    p.Echoed m R f g := by
  induction p with
  | number | string | bool | null | undefined | this | ident | yieldNone | jump | retNone | nilExprs | nilDecls
  | nilCases | noHandler | noBlock | nilStmts => exact fun _ _ hs => ⟨rfl, hs⟩
  | array _ ha | unary _ _ ha | member _ _ ha | await _ ha | yield _ _ ha | func _ ha | attempt _ ha
  | declare _ _ _ ha | exprStmt _ _ ha | blockStmt _ _ ha | ret _ _ ha | throw _ _ ha | raise _ _ _ ha
  | funcStmt _ ha | funcBlock _ _ _ _ _ _ ha | funcExpr _ _ _ _ _ _ ha => exact (ha hp.tail).bind fun _ => .pure _
  | bareDecl _ _ ha | handler _ _ ha | finalizer _ ha => exact (ha hp).bind fun _ => .pure _
  | binary _ _ _ ha hb | logical _ _ _ ha hb | assign _ _ ha hb | index _ _ ha hb | call _ _ ha hb
  | branch _ _ _ ha hb | loop _ _ _ ha hb | switch _ _ _ ha hb =>
    exact (ha hp.tail.left).bind fun _ => (hb hp.tail.right).bind fun _ => .pure _
  | consExprs _ _ ha hb | consDecls _ _ _ ha hb | defaultCase _ _ ha hb | consStmts _ _ ha hb =>
    exact (ha hp.left).bind fun _ => (hb hp.right).bind fun _ => .pure _
  | branchElse _ _ _ _ ha hb hc | guarded _ _ _ _ ha hb hc =>
    exact (ha hp.tail.left.left).bind fun _ => (hb hp.tail.left.right).bind fun _ =>
      (hc hp.tail.right).bind fun _ => .pure _
  | consCases _ _ _ ha hb hc =>
    exact (ha hp.left.left).bind fun _ => (hb hp.left.right).bind fun _ => (hc hp.right).bind fun _ => .pure _
  | clauses id body catchParam catchBody finallyParam finallyBody span raises verdict ha hb hc =>
    let t : TryExpr := ⟨id, body, catchParam, catchBody, finallyParam, finallyBody, span, raises, verdict⟩
    rw [Phrase.walk, TryExpr.walk_all] at hp
    have hparts : Alongside m R TryExpr.recast (replaceParts f t) (replaceParts g (t.recast m)) :=
      (ha hp.tail.left.left).bind fun _ => (hb hp.tail.left.right).bind fun _ =>
        (hc hp.tail.right).bind fun _ => .pure _
    intro s s' hs
    obtain ⟨hvalue, hs'⟩ := hparts s s' hs
    have hnode := h.node hp.head (asBefore_replaceParts h.only _ s) hs'
    rw [← hvalue] at hnode
    exact hnode

end

/-! ## Raises noted, verdicts given -/

/-- The report is the same, in another file and at another place. -/
inductive Diagnostic.Moved (m : Recast) (file file' : String) : Diagnostic → Diagnostic → Prop
  | located (stage : Nat) (kind : DiagnosticKind) (rule : Option String) (span : Span)
    (message : String) : Moved m file file' (.located stage kind rule file span message)
      (.located stage kind rule file' (m.span span) message)

theorem echoes_annotate (hm : ∀ i, m.keeps i = true) :
      Echoes (fun _ => True) m (fun n n' : Nat => n' = n) (fun t => do
        modify (· + 1)
        return { t with raises := some t.sites })
      (fun t => do
        modify (· + 1)
        return { t with raises := some t.sites }) where
  only := notes_annotate.only
  node {t u s s'} _ _ hs := by
    refine ⟨?_, congrArg (· + 1) hs⟩
    change { u.recast m with raises := some (u.recast m).sites } =
      TryExpr.recast m { u with raises := some u.sites }
    rw [u.sites_recast]
    cases u
    simp [Option.filter, hm]

/-- The raises that are noted on a recast tree are those noted on the tree. -/
theorem annotate_recast (hm : ∀ i, m.keeps i = true) (p : Program) :
    annotate (recastStmts m p) = (recastStmts m (annotate p).1, (annotate p).2) := by
  obtain ⟨htree, hcount⟩ := (echoes_annotate hm).alongside (.stmts p) (.of_forall (fun _ => trivial) _) 0 0 rfl
  exact Prod.ext htree hcount

/-- All notes are kept, or the note names the raises that are found without it. -/
def TryExpr.Told (m : Recast) (t : TryExpr) : Prop :=
  (∀ i, m.keeps i = true) ∨ t.Noted

theorem TryExpr.judge_recast {t : TryExpr} (ht : t.Told m) : (t.recast m).judge = t.judge.recast m := by
  have hsites := getD_raises_recast (m := m) (t := t) (ht.imp (· t.id) .inr)
  have hspan : (t.recast m).span = m.span t.span := by
    cases t
    rfl
  have hparam : (t.recast m).finallyParam = t.finallyParam.map m.name := by
    cases t
    rfl
  have hblock : (t.recast m).finallyBody = recastBlock m t.finallyBody := by
    cases t
    rfl
  simp only [judge, hsites, hspan, hparam, hblock]
  generalize t.raises.getD t.sites = sites
  obtain ⟨body, handler, finalizer⟩ := sites
  simp only [RaiseSites.recast, List.isEmpty_map]
  split
  · rfl
  · cases t.finallyParam <;> cases t.finallyBody <;> cases finalizer <;> rfl

theorem Verdict.diagnostic?_recast (m : Recast) (file file' : String) (v : Verdict) :
    List.Forall₂ (Diagnostic.Moved m file file') (v.diagnostic? file).toList
      ((v.recast m).diagnostic? file').toList := by
  cases v with
  | valid => exact .nil
  | invalid fault span => exact .cons (.located ..) .nil

theorem echoes_judgeUpTo (m : Recast) (file file' : String) (limit : Nat) :
    Echoes (·.Told m) m (List.Forall₂ (Diagnostic.Moved m file file')) (judgeUpTo file limit)
      (judgeUpTo file' limit) where
  only := notesOnly_judgeUpTo file limit
  node {t u s s'} ht hu hs := by
    have hu : u.Told m := ht.imp id fun ht => (hu.raises.trans ht).trans (congrArg some hu.sites.symm)
    rw [judgeUpTo_apply, judgeUpTo_apply, hs.length_eq, TryExpr.judge_recast hu]
    split
    · exact ⟨rfl, hs⟩
    · refine ⟨?_, List.rel_append hs (u.judge.diagnostic?_recast m file file')⟩
      cases u
      rfl

/-- The verdicts on a recast tree are those on the tree, and so are the complaints. -/
theorem validate_recast {p : Program} (hp : EachAttempt (·.Told m) (walkStmts .all p))
    (file file' : String) (limit : Nat) :
    (validate file' limit (recastStmts m p)).1 = recastStmts m (validate file limit p).1 ∧
      List.Forall₂ (Diagnostic.Moved m file file') (validate file limit p).2
        (validate file' limit (recastStmts m p)).2 :=
  (echoes_judgeUpTo m file file' limit).alongside (.stmts p) hp [] [] .nil

end RaiseScript
