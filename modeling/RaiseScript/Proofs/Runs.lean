import RaiseScript.Proofs.RaiseTargets

/-!
# Statements and what became of them

A statement on the left is met by the statements that lowering put in its place, with their raises
stored in the temporary of the try expression around them (`RunsStmt` and its companions). There is
one rule for each kind of statement. A branch that became several statements runs in an extra scope
on the right, which does no harm as nothing is declared there but temporaries.
-/

namespace RaiseScript

variable {S : Setting} {sp : Spelling} {k : Engines S} {n : Nat} {a b c d : Twin S} {env env' : Env}
  {aim : Option Aim} {x : String} {t : Touch}
variable {α β : Type} {y : String} {R : Twin S → α → β → Prop} {w : Expr → Stmt} {e test : Expr}
  {ss : List Stmt} {kind : BindingKind} {span : Span} {ds : List Declarator} {st yes : Stmt}

/-! ## Where statements run -/

/-- Code stands where it raises into the temporary `x`, and the names up to `q` are others. -/
structure Faces (n : Nat) (a : Twin S) (env env' : Env) (aim : Option Aim)
    (x : String) (q : Names) : Prop where
  next : n ≤ a.left.nextId
  stands : Stands a env env' aim
  name : ∀ m ∈ aim, m.name = x
  apart : AimClear aim q

namespace Faces

variable {p q p₁ q₁ : Names}

section

variable (h : Faces n a env env' aim x q)

include h

theorem later (hl : Later n t a b) (ht : ∀ m ∈ aim, t.Respects m) : Faces n b env env' aim x q :=
  ⟨Nat.le_trans h.next hl.left.nextId, h.stands.later hl ht, h.name, h.apart⟩

theorem quiet (hl : Later n .none a b) : Faces n b env env' aim x q :=
  h.later hl fun m _ => Touch.respects_none m

theorem stays {env₀ env₀' : Env} (hl : Later n (.stmt env₀ env₀' p₁ q aim) a b) : Faces n b env env' aim x q :=
  h.later hl fun _ hm => Touch.respects_stmt env₀ env₀' hm h.apart

theorem mono (hq : q₁.issued ⊆ q.issued) : Faces n a env env' aim x q₁ :=
  ⟨h.next, h.stands, h.name, h.apart.mono hq⟩

theorem inside (isBody : Bool) :
    Faces n a.pushBoth (env.inside a.left isBody) (env'.inside a.right isBody) aim x q :=
  ⟨h.next, h.stands.inside isBody, h.name, h.apart⟩

theorem insideExtra : Faces n a.pushExtra env (env'.inside a.right false) aim x q :=
  ⟨h.next, h.stands.insideExtra, h.name, h.apart⟩

end

end Faces

variable (sp k) in
/-- The statement is met by what became of it. -/
def RunsStmt (st : Stmt) : Prop :=
  ∀ ⦃p q : Progress⦄ ⦃ss : List Stmt⦄, lowerStmt S.surroundings st p = .ok (ss, q) →
    Supplied sp S.temp p q → S.Tames sp (st.walk .all) →
    ∀ ⦃n : Nat⦄ ⦃a : Twin S⦄ ⦃env env' : Env⦄ ⦃aim : Option Aim⦄ ⦃x : String⦄,
    Faces n a env env' aim x q.names → (aim = none → raiseSites .body (st.walk .surface) = []) →
    ((st.isDeclare || S.surroundings.isOpen) = true → Flush a.world env env') →
    Meets n (.stmt env env' p.names q.names aim) a (execStmt k.left env st a.left)
      (fun i => execAll (k.right i) env' (storeAll x ss)) Anything

variable (sp k) in
/-- The statements are met by what became of them. -/
def RunsStmts (ss : List Stmt) : Prop :=
  ∀ ⦃p q : Progress⦄ ⦃ss' : List Stmt⦄, lowerStmts S.surroundings ss p = .ok (ss', q) →
    Supplied sp S.temp p q → S.Tames sp (walkStmts .all ss) →
    ∀ ⦃n : Nat⦄ ⦃a : Twin S⦄ ⦃env env' : Env⦄ ⦃aim : Option Aim⦄ ⦃x : String⦄,
    Faces n a env env' aim x q.names → (aim = none → raiseSites .body (walkStmts .surface ss) = []) →
    Flush a.world env env' →
    Meets n (.stmt env env' p.names q.names aim) a (execAll k.left env ss a.left)
      (fun i => execAll (k.right i) env' (storeAll x ss')) Anything

/-- Counting a step on the left changes nothing else. -/
theorem Meets.ticked {limit : Nat} {f : Unit → Run α} {y : Nat → Run β}
    (h : ∀ b : Twin S, Later n .none a b → Meets n t b (f () b.left) y R) :
    Meets n t a ((tick limit >>= f) a.left) y R :=
  .tick_left (h _ (Twin.later_countLeft (Nat.le_refl _)))

/-- A statement that starts with an expression. -/
theorem Stage.finish {r : Result Value} {before : List Stmt} {value : Expr} {main : Stmt} {f : Value → Run β}
    [∀ v, Rising (f v)] {g : Nat → Value → Run Unit} {R : Twin S → β → Unit → Prop} {names p q q₁ : Names}
    (hst : Stage n (.temps env' p q₁) a r (fun i => execAll (k.right i) env' before)
      fun c => Ripe k n names c env env' r value) (hf : Faces n a env env' aim x q) (hq : q₁.issued ⊆ q.issued)
    (hmain : ∀ i, execStmt (k.right i) env' main = tick i >>= fun _ => evalExpr (k.right i) env' value >>= g i)
    (hg : ∀ b v v', Later n (.stmt env env' p q aim) a b → Alike S b.world v v' →
      Meets n (.stmt env env' p q aim) b (f v b.left) (fun i => g i v') R) :
    Meets n (.stmt env env' p q aim) a (Result.andThen r f)
      (fun i => execAll (k.right i) env' (before ++ [main])) R := by
  simp only [execAll_append, execAll_single, hmain]
  refine (hst.within (Touch.temps_within_stmt a env hf.apart (List.Subset.refl _) hq)).meets
    .refl fun c hl hc => ?_
  refine Meets.tick_right ?_
  have hactive := hc.active (hf.stands.placed.mono hl.world) _ (.tick n c)
  refine (hactive.within .none).bind .refl fun b v v' hb _ hv => ?_
  have hc : Later n (.stmt env env' p q aim) c _ :=
    (c.later_countRight n (c.right.steps + 1) c.right.mistakes c.right.misses).within .none
  exact hg b v v' (hl.trans (hc.trans hb .refl) .refl) hv

/-! ## Raises -/

/-- What is raised goes into the slot and into the temporary. -/
theorem meets_storeRaised {p q : Names} (hf : Faces n a env env' aim x q) (hsome : aim ≠ none)
    {v v' : Value} (hv : Alike S a.world v v') :
    Meets n (.stmt env env' p q aim) a (storeRaised env v a.left) (fun _ => assignName env' x v') Anything := by
  obtain ⟨m, rfl⟩ := Option.ne_none_iff_exists'.1 hsome
  have haimed := hf.stands.aimed m rfl
  obtain ⟨u, hu, -⟩ := hf.stands.find? (m := m) rfl
  obtain rfl : m.name = x := hf.name m rfl
  have hleft : storeRaised env v a.left = .ok () { a.left with slots := a.left.slots.setIfInBounds m.slot v } := by
    unfold storeRaised
    rw [hf.stands.slot m rfl]
    rfl
  have hright : assignName env' m.name v' a.right = .ok () (a.right.declare m.scope m.name ⟨v', true⟩) := by
    rw [assignName_apply, hu]
    rfl
  rw [hleft]
  exact .gives (a.storeAimed m v v' haimed) () ()
    (Twin.later_storeAimed n haimed hv ⟨m, rfl, rfl⟩ (Or.inr ⟨m, rfl, rfl, rfl⟩) rfl) rfl
    (.of_eq fun _ => hright) trivial

/-! ## Statements with one expression -/

section

-- Derives the equations of `lowerStmt` once, ahead of the proofs that rewrite with them.
attribute [local simp] lowerStmt

/-- Lowering a statement with one expression. -/
theorem lowerStmt_ofExpr {s : Surroundings} {p q : Progress}
    (hlow : lowerStmt s (w e) = do let h ← lowerExpr s true e return h.before ++ [w h.value])
    (h : lowerStmt s (w e) p = .ok (ss, q)) :
    ∃ h, lowerExpr s true e p = .ok (h, q) ∧ ss = h.before ++ [w h.value] := by
  rw [hlow] at h
  obtain ⟨h₀, rfl, hl⟩ := Lower.map_eq_ok.1 h
  exact ⟨h₀, hl, rfl⟩

/-- A statement that evaluates one expression and then does something with the value. -/
theorem runsStmt_ofExpr (he : StagesExpr sp k e) {f : Value → Run Unit} [∀ v, Rising (f v)]
    (hlow : lowerStmt S.surroundings (w e) = do
      let h ← lowerExpr S.surroundings true e
      return h.before ++ [w h.value]) (hvisits : (w e).walk .all = .stmt (w e) :: e.walk .all)
    (hstore : ∀ x e, (w e).storeRaises x = w e)
    (hexec : ∀ (k : Engine) env e, execStmt k env (w e) = tick k.maxSteps >>= fun _ => evalExpr k env e >>= f)
    (hf : ∀ {n : Nat} {t : Touch} {b : Twin S} {v v' : Value}, Alike S b.world v v' →
      Meets n t b (f v b.left) (fun _ => f v') Anything) : RunsStmt sp k (w e) := by
  intro p q ss hl hsup htame n a env env' aim x hfaces _ _
  have := k.rising
  obtain ⟨h, hle, rfl⟩ := lowerStmt_ofExpr hlow hl
  rw [hvisits] at htame
  have hclean := (hoistedWell_of_eq_ok hsup.fits htame.tail.lowerable hle).before
  rw [storeAll_append, hclean.storeAll x, storeAll, storeAll, hstore, hexec]
  refine .ticked fun b hb => ?_
  have hfb := hfaces.quiet hb
  rw [Run.bind_apply]
  exact (he hle (fun h => by cases h) hsup htame.tail hfb.next hfb.stands.placed).finish hfb
    (List.Subset.refl _) (fun i => by rw [hexec, k.maxSteps]) fun o v v' _ hv => hf hv

theorem runsStmt_expr (span : Span) (he : StagesExpr sp k e) : RunsStmt sp k (.expr e span) :=
  runsStmt_ofExpr (w := fun e => .expr e span) (f := fun _ => pure ()) he (by rw [lowerStmt])
    (by rw [Stmt.walk]) (fun _ _ => by rw [Stmt.storeRaises] <;> simp)
    (fun _ _ _ => by rw [execStmt]) fun _ => .pure trivial

theorem runsStmt_ret (span : Span) (he : StagesExpr sp k e) : RunsStmt sp k (.ret (some e) span) :=
  runsStmt_ofExpr (w := fun e => .ret (some e) span) (f := fun v => throw (.returned v)) he
    (by rw [lowerStmt]) (by rw [Stmt.walk]) (fun _ _ => by rw [Stmt.storeRaises] <;> simp)
    (fun _ _ _ => by rw [execStmt]) fun hv => .throw (.returned hv)

theorem runsStmt_throw (span : Span) (he : StagesExpr sp k e) : RunsStmt sp k (.throw e span) :=
  runsStmt_ofExpr (w := fun e => .throw e span) (f := fun v => throw (.thrown v)) he
    (by rw [lowerStmt]) (by rw [Stmt.walk]) (fun _ _ => by rw [Stmt.storeRaises] <;> simp)
    (fun _ _ _ => by rw [execStmt]) fun hv => .throw (.thrown hv)

theorem runsStmt_raise (id : NodeId) (span : Span) (he : StagesExpr sp k e) :
    RunsStmt sp k (.raise id e span) := by
  intro p q ss hl hsup htame n a env env' aim x hfaces hsites _
  have := k.rising
  obtain ⟨h, hle, rfl⟩ := lowerStmt_ofExpr (w := fun e => .raise id e span) (by rw [lowerStmt]) hl
  have hclean := (hoistedWell_of_eq_ok hsup.fits htame.tail.lowerable hle).before
  have hsome : aim ≠ none := fun hnone => by simpa [Stmt.walk, Visit.raiseSite?] using hsites hnone
  rw [storeAll_append, hclean.storeAll x, storeAll, storeAll, Stmt.storeRaises, execStmt, k.direct]
  refine .ticked fun b hb => ?_
  have hfb := hfaces.quiet hb
  simp only [if_true]
  rw [Run.bind_apply]
  refine (he hle (fun h => by cases h) hsup htame.tail hfb.next hfb.stands.placed).finish
    (g := fun _ v => assignName env' x v) hfb (List.Subset.refl _) (fun i => ?_) fun o v v' ho hv => ?_
  · rw [execStmt, k.maxSteps]
    simp only [evalExpr, bind_assoc, pure_bind, bind_pure_unit]
  · exact meets_storeRaised (hfb.stays ho) hsome hv

/-! ## Declarations -/

theorem Result.andThen_pure (r : Result α) : Result.andThen r pure = r := by
  cases r <;> rfl

theorem Result.andThen_andThen {γ : Type} (r : Result α) (f : α → Run β) (g : β → Run γ) :
    Result.andThen (Result.andThen r f) g = Result.andThen r fun v => f v >>= g := by
  cases r with
  | error => rfl
  | ok v m => exact (Run.bind_apply (f v) g m).symm

theorem execDecls_append (k : Engine) (env : Env) (kind : BindingKind) : ∀ ds es : List Declarator,
    execDecls k env kind (ds ++ es) = execDecls k env kind ds >>= fun _ => execDecls k env kind es
  | [], _ => by rw [List.nil_append, execDecls, pure_bind]
  | ⟨x, none⟩ :: ds, es => by
    rw [List.cons_append, execDecls, execDecls, execDecls_append k env kind ds es, bind_assoc]
  | ⟨x, some e⟩ :: ds, es => by
    rw [List.cons_append, execDecls, execDecls, execDecls_append k env kind ds es]
    simp only [bind_assoc]

/-- The name can be declared like this. -/
def Declarable (S : Setting) (kind : BindingKind) (x : String) : Prop :=
  ¬ S.temp x ∧ (kind = .functionWide → ¬ S.Steady x)

theorem meets_bindDeclared {v v' : Option Value} (hy : Declarable S kind y) (hp : Placed c.world env env')
    (hf : Flush c.world env env') (hv : Option.Rel (Alike S c.world) v v') (ht : t.scope env.here) :
    Meets n t c (bindDeclared env kind y v c.left) (fun _ => bindDeclared env' kind y v') Anything := by
  have hvalue : Alike S c.world (v.getD .undefined) (v'.getD .undefined) := by
    cases hv with
    | none => exact .undefined
    | some hv => exact hv
  cases kind with
  | functionWide => exact meets_declareInBody hp.chains hy.1 (hy.2 rfl) hv
  | mutable => exact meets_declareHere true hf hy.1 hvalue fun _ => ht
  | constant => exact meets_declareHere false hf hy.1 hvalue fun _ => ht

variable (sp k) in
/-- The rest of a declaration is met by what became of it. What is `ready` of it has run on the left
with the end `r`, and it is still to run on the right. -/
def RunsDecls (kind : BindingKind) (span : Span) (ds : List Declarator) : Prop :=
  ∀ ⦃ready : List Declarator⦄ ⦃p q : Progress⦄ ⦃ss : List Stmt⦄,
    lowerDecls S.surroundings kind span ready ds p = .ok (ss, q) → Supplied sp S.temp p q →
    S.Tames sp (walkDecls .all ds) → (∀ d ∈ ds, Declarable S kind d.name) →
    ∀ ⦃n : Nat⦄ ⦃c : Twin S⦄ ⦃env env' : Env⦄ ⦃aim : Option Aim⦄ ⦃x : String⦄ ⦃p₀ q₀ : Names⦄ ⦃r : Result Unit⦄,
    Faces n c env env' aim x q₀ → p₀.issued ⊆ p.names.issued → q.names.issued ⊆ q₀.issued →
    Flush c.world env env' →
    (∀ d, Near n c d → Meets n (.stmt env env' p₀ q₀ aim) d r
      (fun i => execDecls (k.right i) env' kind ready) Anything) →
    Meets n (.stmt env env' p₀ q₀ aim) c (Result.andThen r fun _ => execDecls k.left env kind ds)
      (fun i => execAll (k.right i) env' ss) Anything

theorem execStmt_declare (k : Engine) (env : Env) (kind : BindingKind) (ds : List Declarator) (span : Span) :
    execStmt k env (.declare kind ds span) = tick k.maxSteps >>= fun _ => execDecls k env kind ds := by
  rw [execStmt]

/-- The declarators that are ready are written down. -/
theorem meets_execReady {ready : List Declarator} {r : Result Unit}
    (h : ∀ d, Near n c d → Meets n t d r (fun i => execDecls (k.right i) env' kind ready) Anything) :
    Meets n t c r (fun i => execAll (k.right i) env' [.declare kind ready span]) Anything := by
  simp only [execAll_single, execStmt_declare, k.maxSteps]
  exact Meets.tick_right (h _ (.tick n c))

theorem runsDecls_nil (kind : BindingKind) (span : Span) : RunsDecls sp k kind span [] := by
  intro ready p q ss hl _ _ _ n c env env' aim x p₀ q₀ r _ _ _ _ hready
  cases hl
  have hr : (Result.andThen r fun _ => execDecls k.left env kind []) = r := by
    exact r.andThen_pure
  rw [hr]
  exact meets_execReady hready

theorem runsDecls_none (hds : RunsDecls sp k kind span ds) : RunsDecls sp k kind span (⟨y, none⟩ :: ds) := by
  intro ready p q ss hl hsup htame hnames n c env env' aim x p₀ q₀ r hf hp hq hflush hready
  have := k.rising
  have hy := hnames _ List.mem_cons_self
  have hr : (Result.andThen r fun _ => execDecls k.left env kind (⟨y, none⟩ :: ds)) =
      Result.andThen (Result.andThen r fun _ => bindDeclared env kind y none) fun _ =>
        execDecls k.left env kind ds := by
    rw [Result.andThen_andThen, execDecls]
  rw [hr]
  refine hds hl hsup htame (fun d hd => hnames d (List.mem_cons_of_mem _ hd)) hf hp hq hflush fun d hd => ?_
  simp only [execDecls_append, execDecls, bind_pure_unit]
  refine (hready d hd).bind .refl fun b _ _ hb _ _ => ?_
  have hle := World.le_trans hd.world hb.world
  exact meets_bindDeclared hy (hf.stands.placed.mono hle) (hflush.mono hle) .none rfl

theorem runsDecls_some (he : StagesExpr sp k e) (hds : RunsDecls sp k kind span ds) :
    RunsDecls sp k kind span (⟨y, some e⟩ :: ds) := by
  intro ready p q ss hl hsup htame hnames n c env env' aim x p₀ q₀ r hf hp hq hflush hready
  have := k.rising
  obtain ⟨h, p₁, hl₁, hl⟩ := Lower.bind_eq_ok.1 hl
  rw [walkDecls] at htame
  have hy := hnames _ List.mem_cons_self
  have hnames' := fun d hd => hnames d (List.mem_cons_of_mem _ hd)
  have hg₁ := lowerExpr_grows hl₁
  have hsup₁ := hsup.second hg₁
  have hr : (Result.andThen r fun _ => execDecls k.left env kind (⟨y, some e⟩ :: ds)) =
      Result.andThen (Result.andThen r fun _ => evalExpr k.left env e >>= fun v =>
        bindDeclared env kind y (some v)) fun _ => execDecls k.left env kind ds := by
    rw [Result.andThen_andThen, execDecls]
    simp only [bind_assoc]
  have hbind {b : Twin S} {v v' : Value} (hb : c.world ≤ b.world) (hv : Alike S b.world v v') :
      Meets n (.stmt env env' p₀ q₀ aim) b (bindDeclared env kind y (some v) b.left)
        (fun _ => bindDeclared env' kind y (some v')) Anything :=
    meets_bindDeclared hy (hf.stands.placed.mono hb) (hflush.mono hb) (.some hv) rfl
  rw [hr]
  cases ha : e.hasAttempt with
  | false =>
    simp only [ha, Bool.false_eq_true, if_false] at hl
    have hg₂ := lowerDecls_grows hl
    refine hds hl hsup₁ htame.right hnames' hf (List.Subset.trans hp hg₁.issued) hq hflush fun d hd => ?_
    simp only [execDecls_append, execDecls, bind_pure_unit]
    refine (hready d hd).bind .refl fun b _ _ hb _ _ => ?_
    have hle := World.le_trans hd.world hb.world
    have hn : n ≤ b.left.nextId := Nat.le_trans hf.next (hd.left ▸ hb.left.nextId)
    have heval := (he.flat hl₁ ha (hsup.first hg₂) htame.left hn (hf.stands.placed.mono hle)).2
    refine (heval.within .none).seq fun o v v' ho hv => ?_
    exact hbind (World.le_trans hle ho.world) hv
  | true =>
    simp only [ha, if_true] at hl
    obtain ⟨ss', rfl, hl₂⟩ := Lower.map_eq_ok.1 hl
    have hg₂ := lowerDecls_grows hl₂
    have hearlier : Meets n (.stmt env env' p₀ q₀ aim) c r (fun i => execAll (k.right i) env'
        (if ready.isEmpty then [] else [.declare kind ready span])) Anything := by
      cases ready with
      | nil =>
        exact (hready c (.refl n c)).congr fun i => by
          simp only [List.isEmpty_nil, if_true, execAll, execDecls]
      | cons d ready => exact meets_execReady hready
    simp only [execAll_append, bind_assoc, Result.andThen_andThen]
    refine hearlier.bind .refl fun b _ _ hb _ _ => ?_
    have hfb := hf.stays hb
    have hq₁ := List.Subset.trans hg₂.issued hq
    -- The left evaluates the initial value while the right runs what stands in front of it.
    have hst := (he hl₁ (fun h => by cases h) (hsup.first hg₂) htame.left hfb.next
      hfb.stands.placed).within (Touch.temps_within_stmt b env hfb.apart hp hq₁)
    rw [Run.bind_apply]
    refine hst.meets .refl fun o ho hripe => ?_
    have hfo := hfb.stays ho
    have hle := World.le_trans hb.world ho.world
    rw [← Result.andThen_andThen]
    refine hds hl₂ hsup₁ htame.right hnames' hfo (List.Subset.trans hp hg₁.issued) hq
      (hflush.mono hle) fun d hd => ?_
    simp only [execDecls, bind_pure_unit]
    have hactive := hripe.active hfo.stands.placed d hd
    refine (hactive.within .none).bind .refl fun l v v' hll _ hv => ?_
    exact hbind (World.le_trans hle (World.le_trans hd.world hll.world)) hv

theorem runsStmt_declare (hds : RunsDecls sp k kind span ds) : RunsStmt sp k (.declare kind ds span) := by
  intro p q ss hl hsup htame n a env env' aim x hf _ hflush
  have hsites : raiseSites .body (walkStmts .surface ss) = [] := by
    rw [((lowersStmt sp _ _).of_eq_ok hsup.fits htame.lowerable hl).sites .body]
    simp [walkStmts, Stmt.walk]
  have hnames : ∀ d ∈ ds, Declarable S kind d.name := by
    intro d hd
    have hmem : d.name ∈ ds.map (·.name) := List.mem_map_of_mem hd
    refine ⟨htame.head.names _ hmem, ?_⟩
    rintro rfl hs
    exact hs.2 (htame.head.rebinds hs.1 _ hmem)
  rw [storeAll_eq_self x .body ss hsites, execStmt]
  refine .ticked fun b hb => ?_
  refine hds (r := .ok () b.left) hl hsup htame.tail hnames (hf.quiet hb) (List.Subset.refl _)
    (List.Subset.refl _) ((hflush rfl).mono hb.world) fun d hd => ?_
  rw [← hd.left]
  exact .pure trivial

/-! ## Functions that statements declare -/

@[simp] theorem funcsOf_storeAll (x : String) (ss : List Stmt) : funcsOf (storeAll x ss) = funcsOf ss := by
  induction ss with
  | nil => rfl
  | cons st ss ih =>
    cases st with
    | func f => rw [storeAll, Stmt.storeRaises, funcsOf, funcsOf, ih] <;> simp
    | branch _ _ no _ => cases no <;> rw [storeAll, Stmt.storeRaises, funcsOf, funcsOf, ih] <;> simp
    | _ => rw [storeAll, Stmt.storeRaises, funcsOf, funcsOf, ih] <;> simp

/-- Lowering keeps the functions that a statement declares. -/
theorem declares_lowerStmt (hS : S.Lowers sp) {p q : Progress}
    (hl : lowerStmt S.surroundings st p = .ok (ss, q)) (hsup : Supplied sp S.temp p q)
    (htame : S.Tames sp (st.walk .all)) : List.Forall₂ (Declares S) (funcsOf [st]) (funcsOf ss) := by
  cases st with
  | func f =>
    obtain ⟨f', rfl, hl'⟩ := Lower.map_eq_ok.1 hl
    refine .cons ⟨hS hl' hsup htame.tail, fun y hy => ⟨?_, fun hs => ?_⟩⟩ .nil
    · have hf : (Visit.func f).Tame sp S.surroundings S.temp := by
        refine htame.tail (.func f) ?_
        obtain ⟨_, _, _ | _, _, _, _⟩ := f <;> simp [Func.walk]
      exact hf.names y (by simp [Visit.names, Option.mem_toList.2 hy])
    · exact hs.2 (htame.head.rebinds hs.1 y (by simpa [Visit.rebinds] using hy))
  | _ =>
    rw [(lowerStmt_standsFor hl).funcs (by simp)]
    exact .nil

/-- Lowering keeps the functions that statements declare. -/
theorem declares_lowerStmts (hS : S.Lowers sp) : ∀ {ss ss' : List Stmt} {p q : Progress},
    lowerStmts S.surroundings ss p = .ok (ss', q) → Supplied sp S.temp p q →
    S.Tames sp (walkStmts .all ss) → List.Forall₂ (Declares S) (funcsOf ss) (funcsOf ss')
  | [], ss', p, q, hl, _, _ => by
    cases hl
    exact .nil
  | st :: ss, ss', p, q, hl, hsup, htame => by
    obtain ⟨first, p₁, hl₁, hl⟩ := Lower.bind_eq_ok.1 hl
    obtain ⟨rest, rfl, hl₂⟩ := Lower.map_eq_ok.1 hl
    have hg₁ := lowerStmt_grows hl₁
    have hsup₂ := hsup.second hg₁
    have hg₂ := lowerStmts_grows hl₂
    have h₁ := declares_lowerStmt hS hl₁ (hsup.first hg₂) htame.left
    have h₂ := declares_lowerStmts hS hl₂ hsup₂ htame.right
    rw [funcsOf_append, show funcsOf (st :: ss) = funcsOf [st] ++ funcsOf ss from funcsOf_append [st] ss]
    exact List.rel_append h₁ h₂

/-! ## Lists of statements -/

theorem runsStmts_nil : RunsStmts sp k [] := by
  intro p q ss' hl _ _ n a env env' aim x _ _ _
  cases hl
  exact .pure trivial

theorem runsStmts_cons (hst : RunsStmt sp k st) (hss : RunsStmts sp k ss) : RunsStmts sp k (st :: ss) := by
  intro p q ss' hl hsup htame n a env env' aim x hf hsites hflush
  have := k.rising
  obtain ⟨first, p₁, hl₁, hl⟩ := Lower.bind_eq_ok.1 hl
  obtain ⟨rest, rfl, hl₂⟩ := Lower.map_eq_ok.1 hl
  have hg₁ := lowerStmt_grows hl₁
  have hsup₂ := hsup.second hg₁
  have hg₂ := lowerStmts_grows hl₂
  simp only [walkStmts, raiseSites_append, List.append_eq_nil_iff] at hsites
  have hfirst := (hst hl₁ (hsup.first hg₂) htame.left (hf.mono hg₂.issued) (fun h => (hsites h).1)
    fun _ => hflush).within (Touch.stmt_within_stmt a env env' aim (List.Subset.refl _) hg₂.issued)
  rw [storeAll_append, execAll, Run.bind_apply]
  simp only [execAll_append]
  refine hfirst.bind (Touch.stmt_within_stmt a env env' aim hg₁.issued (List.Subset.refl _)) fun b _ _ hb _ _ => ?_
  exact hss hl₂ hsup₂ htame.right (hf.stays hb) (fun h => (hsites h).2) (hflush.mono hb.world)

/-! ## Blocks -/

/-- Runs statements in a scope of their own. -/
def execBlock (k : Engine) (env : Env) (ss : List Stmt) : Run Unit :=
  newScope env false >>= fun inner => declareFunctions inner ss >>= fun _ => execAll k inner ss

instance rising_execBlock (k : Engine) [k.Rising] (env : Env) (ss : List Stmt) :
    Rising (execBlock k env ss) := by
  unfold execBlock
  infer_instance

theorem meets_execBlock (hS : S.Lowers sp) {ss' : List Stmt} (hss : RunsStmts sp k ss) {p q : Progress}
    (hl : lowerStmts S.surroundings ss p = .ok (ss', q)) (hsup : Supplied sp S.temp p q)
    (htame : S.Tames sp (walkStmts .all ss)) (hf : Faces n a env env' aim x q.names)
    (hsites : aim = none → raiseSites .body (walkStmts .surface ss) = [])
    (hw : (Touch.stmt (env.inside a.left false) (env'.inside a.right false) p.names q.names aim).Within a t) :
    Meets n t a (execBlock k.left env ss a.left)
      (fun i => execBlock (k.right i) env' (storeAll x ss')) Anything := by
  have := k.rising
  have hfi := hf.inside false
  have hflush := Flush.inside a env env' false
  have hdecl := declares_lowerStmts hS hl hsup htame
  rw [← funcsOf_storeAll x ss'] at hdecl
  refine Meets.newScope ?_ hw
  refine (meets_declareFunctions hdecl hfi.next hfi.stands.placed.chains hflush).seq fun b _ _ hb _ => ?_
  exact hss hl hsup htame (hfi.stays hb) hsites (hflush.mono hb.world)

theorem runsStmt_block (hS : S.Lowers sp) {body : List Stmt} (span : Span)
    (hbody : RunsStmts sp k body) : RunsStmt sp k (.block body span) := by
  intro p q ss hl hsup htame n a env env' aim x hf hsites _
  obtain ⟨body', rfl, hl'⟩ := Lower.map_eq_ok.1 hl
  have hexec (k : Engine) (env : Env) (ss : List Stmt) :
      execStmt k env (.block ss span) = tick k.maxSteps >>= fun _ => execBlock k env ss := by
    rfl
  simp only [storeAll, Stmt.storeRaises, execAll_single, hexec, k.maxSteps]
  refine .ticked fun b hb => Meets.tick_right ?_
  exact meets_execBlock hS hbody hl' hsup htame.tail
    ((hf.quiet hb).quiet (b.later_countRight n _ _ _)) hsites (Touch.inside_within_stmt _ _ _ _ _ _ _)

/-! ## Branches and loops -/

/-- Code on the right runs in an extra scope. -/
theorem Meets.extraScope {r : Result α} {g : Nat → Env → Run β} {u : Touch}
    (h : Meets n u c.pushExtra r (g · (env'.inside c.right false)) R) (hw : u.Within c t) :
    Meets n t c r (fun i => RaiseScript.newScope env' false >>= g i) R := by
  have hx : Ends (fun _ => RaiseScript.newScope env' false) c.right
      (.ok (env'.inside c.right false) c.pushExtra.right) := .of_eq fun _ => rfl
  exact h.after ((c.later_pushExtra n).within .none) hw hx fun _ => rfl

/-- The body of a branch or of a loop, as one statement. -/
structure Braced (S : Setting) (st : Stmt) : Prop where
  known : S.surroundings.isOpen = false → st.isDeclare = false
  unknown : S.surroundings.isOpen = true → meetsAttempt (st.walk .all) = false

theorem runs_asBranch (hS : S.Lowers sp) (hst : RunsStmt sp k st) (hbraced : Braced S st) {p q : Progress}
    {p₀ q₀ : Names} (hl : lowerStmt S.surroundings st p = .ok (ss, q)) (hsup : Supplied sp S.temp p q)
    (htame : S.Tames sp (st.walk .all)) (hf : Faces n a env env' aim x q₀)
    (hp : p₀.issued ⊆ p.names.issued) (hq : q.names.issued ⊆ q₀.issued)
    (hsites : aim = none → raiseSites .body (st.walk .surface) = [])
    (hflush : S.surroundings.isOpen = true → Flush a.world env env') (span : Span) :
    Meets n (.stmt env env' p₀ q₀ aim) a (execStmt k.left env st a.left)
      (fun i => execStmt (k.right i) env' (asBranch span (storeAll x ss))) Anything := by
  by_cases hsingle : ∃ st', storeAll x ss = [st']
  · obtain ⟨st', hst'⟩ := hsingle
    have hrun := hst hl hsup htame (hf.mono hq) hsites fun hor => ?_
    · rw [hst'] at hrun ⊢
      simp only [execAll_single] at hrun
      exact hrun.within (Touch.stmt_within_stmt a env env' aim hp hq)
    · cases hopen : S.surroundings.isOpen with
      | true => exact hflush hopen
      | false =>
        rw [hopen, hbraced.known hopen] at hor
        cases hor
  · -- Several statements run in an extra scope. Nothing is declared there.
    have hclosed : S.surroundings.isOpen = false := by
      by_contra hopen
      rw [Bool.not_eq_false] at hopen
      obtain ⟨st', rfl⟩ := (lowerStmt_standsFor hl).single (hbraced.unknown hopen)
      exact hsingle ⟨_, rfl⟩
    have hfuncs : funcsOf (storeAll x ss) = [] := by
      have hdecl := declares_lowerStmt hS hl hsup htame
      rw [funcsOf_storeAll]
      cases st with
      | func f =>
        obtain ⟨f', rfl, -⟩ := Lower.map_eq_ok.1 hl
        exact absurd ⟨_, rfl⟩ hsingle
      | _ =>
        rw [funcsOf, funcsOf] at hdecl
        · exact List.forall₂_nil_left_iff.1 hdecl
        all_goals simp
    have hexec (k : Engine) : execStmt k env' (asBranch span (storeAll x ss)) =
        tick k.maxSteps >>= fun _ => newScope env' false >>= fun inner => execAll k inner (storeAll x ss) := by
      have hblock : asBranch span (storeAll x ss) = .block (storeAll x ss) span := by
        rcases hss : storeAll x ss with _ | ⟨st', _ | ⟨_, _⟩⟩
        · rfl
        · exact absurd ⟨st', hss⟩ hsingle
        · rfl
      rw [hblock, execStmt]
      simp only [declareFunctions_eq, hfuncs, declareAll, pure_bind]
    simp only [hexec, k.maxSteps]
    refine Meets.tick_right ?_
    have hfb := hf.quiet (a.later_countRight n (a.right.steps + 1) a.right.mistakes a.right.misses)
    refine Meets.extraScope ?_ (Touch.extra_within_stmt _ env env' p.names q.names aim)
    refine hst hl hsup htame (hfb.mono hq).insideExtra hsites fun hor => ?_
    rw [hclosed, hbraced.known hclosed] at hor
    cases hor

theorem runsStmt_branch (hS : S.Lowers sp) (span : Span) (htest : StagesExpr sp k test)
    (hyes : RunsStmt sp k yes) : RunsStmt sp k (.branch test yes none span) := by
  intro p q ss hl hsup htame n a env env' aim x hf hsites hflush
  have := k.rising
  obtain ⟨h, p₁, hl₁, hl⟩ := Lower.bind_eq_ok.1 hl
  obtain ⟨yes', rfl, hl₂⟩ := Lower.map_eq_ok.1 hl
  have hbraced : Braced S yes := by
    refine ⟨fun hc => ?_, fun ho => ?_⟩
    · simpa [Visit.isBraced] using htame.head.braced hc
    · have hflat := htame.head.flat ho
      simp only [Visit.isFlat, Bool.not_eq_true', Stmt.walk, meetsAttempt_cons, meetsAttempt_append,
        Bool.or_eq_false_iff] at hflat
      exact hflat.2.2
  have hw := hoistedWell_of_eq_ok hsup.fits htame.tail.left.lowerable hl₁
  have hg₁ := lowerExpr_grows hl₁
  have hsup₂ := hsup.second hg₁
  have hg₂ := lowerStmt_grows hl₂
  simp only [Stmt.walk, raiseSites_cons, Visit.raiseSite?, Option.toList_none, List.nil_append,
    raiseSites_append, raiseSites_expr] at hsites
  rw [storeAll_append, hw.before.storeAll x, storeAll, storeAll, Stmt.storeRaises, storeRaises_asBranch, execStmt]
  refine .ticked fun b hb => ?_
  have hfb := hf.quiet hb
  rw [Run.bind_apply]
  refine (htest hl₁ (fun h => by cases h) (hsup.first hg₂) htame.tail.left hfb.next
    hfb.stands.placed).finish (g := fun i v => if v.truthy then
      execStmt (k.right i) env' (asBranch yes.span (storeAll x yes')) else pure ()) hfb hg₂.issued
    (fun i => by rw [execStmt, k.maxSteps]) fun o v v' ho hv => ?_
  simp only [hv.truthy]
  split
  · exact runs_asBranch hS hyes hbraced hl₂ hsup₂ htame.tail.right (hfb.stays ho)
      hg₁.issued (List.Subset.refl _) hsites
      (fun h => (hflush (by rw [h, Bool.or_true])).mono (World.le_trans hb.world ho.world)) yes.span
  · exact .pure trivial

theorem runsStmt_branchElse (hS : S.Lowers sp) {no : Stmt} (span : Span) (htest : StagesExpr sp k test)
    (hyes : RunsStmt sp k yes) (hno : RunsStmt sp k no) : RunsStmt sp k (.branch test yes (some no) span) := by
  intro p q ss hl hsup htame n a env env' aim x hf hsites hflush
  have := k.rising
  obtain ⟨h, p₁, hl₁, hl⟩ := Lower.bind_eq_ok.1 hl
  obtain ⟨yes', p₂, hl₂, hl⟩ := Lower.bind_eq_ok.1 hl
  obtain ⟨no', rfl, hl₃⟩ := Lower.map_eq_ok.1 hl
  have hbraced : Braced S yes ∧ Braced S no := by
    have hb := htame.head.braced
    have hf := htame.head.flat
    simp only [Visit.isBraced, Option.any_some, Bool.and_eq_true, Bool.not_eq_true'] at hb
    simp only [Visit.isFlat, Bool.not_eq_true', Stmt.walk, meetsAttempt_cons, meetsAttempt_append,
      Bool.or_eq_false_iff] at hf
    exact ⟨⟨fun hc => (hb hc).1, fun ho => (hf ho).2.1.2⟩, ⟨fun hc => (hb hc).2, fun ho => (hf ho).2.2⟩⟩
  have hw := hoistedWell_of_eq_ok hsup.fits htame.tail.left.left.lowerable hl₁
  have hg₁ := lowerExpr_grows hl₁
  have hsup₂ := hsup.second hg₁
  have hg₂ := lowerStmt_grows hl₂
  have hsup₃ := hsup₂.second hg₂
  have hg₃ := lowerStmt_grows hl₃
  simp only [Stmt.walk, raiseSites_cons, Visit.raiseSite?, Option.toList_none, List.nil_append,
    raiseSites_append, raiseSites_expr, List.append_eq_nil_iff] at hsites
  rw [storeAll_append, hw.before.storeAll x, storeAll, storeAll, Stmt.storeRaises,
    storeRaises_asBranch, storeRaises_asBranch, execStmt]
  refine .ticked fun b hb => ?_
  have hfb := hf.quiet hb
  rw [Run.bind_apply]
  refine (htest hl₁ (fun h => by cases h) (hsup.first (hg₂.trans hg₃)) htame.tail.left.left hfb.next
    hfb.stands.placed).finish (g := fun i v => if v.truthy then
      execStmt (k.right i) env' (asBranch yes.span (storeAll x yes')) else
      execStmt (k.right i) env' (asBranch no.span (storeAll x no'))) hfb (hg₂.trans hg₃).issued
    (fun i => by rw [execStmt, k.maxSteps]) fun o v v' ho hv => ?_
  have hfo := hfb.stays ho
  have hflush' (h : S.surroundings.isOpen = true) :=
    (hflush (by rw [h, Bool.or_true])).mono (World.le_trans hb.world ho.world)
  simp only [hv.truthy]
  split
  · exact runs_asBranch hS hyes hbraced.1 hl₂ (hsup₂.first hg₃) htame.tail.left.right hfo hg₁.issued
      hg₃.issued (fun h => (hsites h).1) hflush' yes.span
  · exact runs_asBranch hS hno hbraced.2 hl₃ hsup₃ htame.tail.right hfo (hg₁.trans hg₂).issued
      (List.Subset.refl _) (fun h => (hsites h).2) hflush' no.span

theorem runsStmt_loop (hS : S.Lowers sp) {body : Stmt} (span : Span) (htest : StagesExpr sp k test)
    (hbody : RunsStmt sp k body) : RunsStmt sp k (.loop test body span) := by
  intro p q ss hl hsup htame n a env env' aim x hf hsites hflush
  have := k.rising
  have hroom : test.hasAttempt = false := by simpa [Visit.leavesRoom] using htame.head.room
  have hbraced : Braced S body := by
    refine ⟨fun hc => ?_, fun ho => ?_⟩
    · simpa [Visit.isBraced] using htame.head.braced hc
    · have hflat := htame.head.flat ho
      simp only [Visit.isFlat, Bool.not_eq_true', Stmt.walk, meetsAttempt_cons, meetsAttempt_append,
        Bool.or_eq_false_iff] at hflat
      exact hflat.2.2
  obtain ⟨h, p₁, hl₁, hl⟩ := Lower.bind_eq_ok.1 hl
  obtain ⟨body', p₂, hl₂, hl⟩ := Lower.bind_eq_ok.1 hl
  simp only [hroom, Bool.false_eq_true, if_false] at hl
  cases Lower.pure_eq_ok.1 hl
  have hg₁ := lowerExpr_grows hl₁
  have hsup₂ := hsup.second hg₁
  have hg₂ := lowerStmt_grows hl₂
  simp only [Stmt.walk, raiseSites_cons, Visit.raiseSite?, Option.toList_none, List.nil_append,
    raiseSites_append, raiseSites_expr] at hsites
  have hround (b : Twin S) (hb : Later n (.stmt env env' p.names q.names aim) a b) :
      Meets n (.stmt env env' p.names q.names aim) b
        ((tick k.left.maxSteps >>= fun _ => evalExpr k.left env test >>= fun v => if v.truthy then
          outcome (execStmt k.left env body) >>= goesOn else pure false) b.left)
        (fun i => tick i >>= fun _ => evalExpr (k.right i) env' h.value >>= fun v => if v.truthy then
          outcome (execStmt (k.right i) env' (asBranch body.span (storeAll x body'))) >>= goesOn
          else pure false) (fun _ go go' => go' = go) := by
    refine .ticked fun c hc => Meets.tick_right ?_
    have hfd := ((hf.stays hb).quiet hc).quiet
      (c.later_countRight n (c.right.steps + 1) c.right.mistakes c.right.misses)
    have heval := (htest.flat hl₁ hroom (hsup.first hg₂) htame.tail.left hfd.next hfd.stands.placed).2
    refine (heval.within .none).seq fun o v v' ho hv => ?_
    simp only [hv.truthy]
    split
    · refine (runs_asBranch hS hbody hbraced hl₂ hsup₂ htame.tail.right (hfd.stays ho)
        hg₁.issued (List.Subset.refl _) hsites (fun h => ?_) body.span).outcome .refl
        (fun _ _ => rfl) fun _ _ _ _ => meets_goesOn
      exact (hflush (by rw [h, Bool.or_true])).mono (World.le_trans hb.world (World.le_trans hc.world ho.world))
    · exact .pure rfl
  simp only [storeAll, Stmt.storeRaises, storeRaises_asBranch, execAll_single]
  rw [execStmt]
  refine .ticked fun b hb => ?_
  have hlb : Later n (.stmt env env' p.names q.names aim) a b := hb.within .none
  refine Meets.congr (y := fun i => tick i >>= fun _ => get >>= fun m => rounds (tick i >>= fun _ =>
    evalExpr (k.right i) env' h.value >>= fun v => if v.truthy then
      outcome (execStmt (k.right i) env' (asBranch body.span (storeAll x body'))) >>= goesOn
      else pure false) (i + 1 - m.steps)) ?_ fun i => by rw [execStmt, k.maxSteps]
  refine Meets.tick_right ?_
  have hl₀ := (b.later_countRight n (b.right.steps + 1) b.right.mistakes b.right.misses).within
    (.none (t := .stmt env env' p.names q.names aim))
  refine Meets.congr (meets_rounds (fun d hd => hround d ((hlb.trans hl₀ .refl).trans hd
    .refl)) (k.left.maxSteps + 1 - b.left.steps) b.right.steps) fun i => ?_
  show rounds _ (i + 1 - (b.right.steps + 1)) _ = _
  rw [Nat.add_sub_add_right]

end

end RaiseScript
