import RaiseScript.Proofs.Clauses

/-!
# Logical operators and try expressions

Two kinds of expressions become statements that leave their value in a temporary. The right operand
of a logical operator runs in a branch that overwrites the value of the left one. A try expression
becomes a try statement : what its clauses raise goes into a slot on the left and into the temporary
on the right, and the two hold the same value as long as the clauses run (`Touch.raises`).
-/

namespace RaiseScript

variable {S : Setting} {sp : Spelling} {k : Engines S} {n : Nat} {a b c d : Twin S} {env env' : Env}
  {r : Result Value} {e : Expr} {t : Touch} {x : String}
variable {p₁ p₂ p₃ : Progress} {m : Aim} {v : Value} {e₂ : Expr} {s : Surroundings}
  {body catchBody : List Stmt} {finallyBody : Option (List Stmt)}

/-- A value in a temporary is all that is left. -/
theorem Meets.ripe {y : Nat → Run Unit} {names : Names} (x : String) (isMutable : Bool)
    (hx : x ∈ names.issued) (h : Meets n t a r y (BoundTo env' x isMutable)) :
    Stage n t a r y fun c => Ripe k n names c env env' r (.ident x) :=
  (h.done hx).imp fun _ _ hc => Or.inl hc

/-! ## Logical operators -/

/-- Temporaries of an extra scope, and one that is there already. -/
def Touch.refill (inner env' : Env) (p q : Names) (x : String) : Touch where
  scope _ := False
  cell i y := (i = inner.here ∧ p.Between q y) ∨ (i = env'.here ∧ y = x)
  slot _ := False
  aim := .none

theorem Touch.temps_within_refill (a : Twin S) (inner env' : Env) (p q : Names) (x : String) :
    (Touch.temps inner p q).Within a (.refill inner env' p q x) where
  scope _ h := h.elim
  cell _ h := Or.inl h
  slot _ h := h.elim
  aim _ h := by cases h

theorem Touch.refill_within_temps (a : Twin S) (env' : Env) {p q p₁ q₁ : Names} (h : p.Between q x) :
    (Touch.refill (env'.inside a.right false) env' p₁ q₁ x).Within a (.temps env' p q) where
  scope _ h := h.elim
  cell hi he := by
    rcases he with he | ⟨rfl, rfl⟩
    · exact absurd hi (he.1 ▸ Nat.lt_irrefl _)
    · exact ⟨rfl, h⟩
  slot _ h := h.elim
  aim _ h := by cases h

theorem execStmt_assign (k : Engine) (env : Env) (x : String) (e : Expr) (span : Span) :
    execStmt k env (.expr (.assign (.ident x) e) span) =
      tick k.maxSteps >>= fun _ => evalExpr k env e >>= fun v => assignName env x v := by
  simp only [execStmt, evalExpr, bind_assoc, pure_bind, bind_pure_unit]

/-- The value of some code on the right goes into a temporary that is there already. -/
theorem Meets.assign {y : Nat → Run Value} (h : Meets n .none c r y AlikeIn) (hp : Placed c.world env env')
    (hx : S.temp x) {i : Nat} {u : Value} (hfind : c.right.find? x env'.chain = some (i, ⟨u, true⟩))
    (hlt : i < c.right.scopes.size) (hcell : t.cell i x) (haim : t.aim = none) :
    Meets n t c r (fun j => y j >>= fun v => assignName env' x v) fun b v _ =>
      ∃ v', lookupIn b.right.scopes i x = some ⟨v', true⟩ ∧ Alike S b.world v v' := by
  cases h with
  | excused h => exact .excused h
  | exits b e e' hl he hy hr => exact .exits b e e' (hl.within .none) he hy.bind_error hr
  | gives b v v' hl hv hy hr =>
    have hkeep : b.right.find? x env'.chain = c.right.find? x env'.chain :=
      Machine.find?_congr fun l hlc => hl.right.cell (hp.chains.lt_right l hlc) hx id
    have hassign : assignName env' x v' b.right = .ok () (b.right.declare i x ⟨v', true⟩) := by
      rw [assignName_apply, hkeep, hfind]
      rfl
    refine .gives (b.declareTemp i x ⟨v', true⟩ hx) v ()
      ((hl.within .none).trans (Twin.later_declareTemp n _ hx hcell haim) .refl) hv
      (hy.bind (.of_eq fun _ => hassign)) ⟨v', ?_, hr⟩
    exact (Machine.lookupIn_declare _ _ _ _ _ _).trans
      (if_pos ⟨rfl, rfl, Nat.lt_of_lt_of_le hlt hl.right.scopes⟩)

/-- The condition of the branch asks whether the left operand decides. -/
theorem evalExpr_guard (op : LogicalOp) {m : Machine} (h : readName env x m = .ok v m) :
    ∃ g : Value, g.truthy = (!op.decides v) ∧
      ∀ k : Engine, evalExpr k env (op.guard (.ident x)) m = .ok g m := by
  cases op with
  | and =>
    refine ⟨v, by simp [LogicalOp.decides], fun k => ?_⟩
    simpa only [LogicalOp.guard, evalExpr] using h
  | or =>
    refine ⟨.bool !v.truthy, rfl, fun k => ?_⟩
    simp only [LogicalOp.guard, evalExpr, Run.bind_apply, h]
    rfl
  | nullish =>
    refine ⟨.bool v.isNullish, by simp [LogicalOp.decides, Value.truthy], fun k => ?_⟩
    simp only [LogicalOp.guard, evalExpr, Run.bind_apply, h, Result.andThen_ok]
    cases v <;> rfl

/-- The right operand runs in an extra scope and its value goes into the temporary. -/
theorem meets_otherwise (h₂ : StagesExpr sp k e₂) {right : Hoisted} {p q : Progress} {p₀ : Names}
    (hl : lowerExpr S.surroundings true e₂ p = .ok (right, q)) (hsup : Supplied sp S.temp p q)
    (htame : S.Tames sp (e₂.walk .all)) (hn : n ≤ a.left.nextId) (hp : Placed a.world env env')
    (hx : lookupIn a.right.scopes env'.here x = some ⟨v, true⟩) (hissued : x ∈ p.names.issued)
    (hbetween : p₀.Between q.names x) : Meets n (.temps env' p₀ q.names) a
      (evalExpr k.left env e₂ a.left) (fun i => execStmt (k.right i) env'
        (.block (right.before ++ [.expr (.assign (.ident x) right.value) .none]) .none))
      (BoundTo env' x true) := by
  have htemp : S.temp x := hsup.temps x hbetween.1
  have hexec (k : Engine) : execStmt k env'
      (.block (right.before ++ [.expr (.assign (.ident x) right.value) .none]) .none) =
      tick k.maxSteps >>= fun _ => newScope env' false >>= fun inner => execAll k inner right.before >>= fun _ =>
        tick k.maxSteps >>= fun _ => evalExpr k inner right.value >>= fun v => assignName inner x v := by
    rw [execStmt]
    simp only [declareFunctions_eq, funcsOf_append, (lowerExpr_ahead hl).funcs, funcsOf,
      declareAll, pure_bind, execAll_append, execAll_single, execStmt_assign, List.append_nil]
  simp only [hexec, k.maxSteps]
  refine Meets.tick_right ?_
  generalize hb : a.countRight (a.right.steps + 1) a.right.mistakes a.right.misses = b
  have hl₀ : Later n .none a b := hb ▸ a.later_countRight n _ _ _
  have hleft : a.left = b.left := hb ▸ rfl
  have hscopes : a.right.scopes = b.right.scopes := hb ▸ rfl
  rw [hscopes] at hx
  have hpb := hp.mono hl₀.world
  have hpi := (hpb.stands.insideExtra).placed
  rw [hleft]
  refine Meets.extraScope (u := .refill (env'.inside b.right false) env' p.names q.names x) ?_
    (Touch.refill_within_temps b env' hbetween)
  have hst := (h₂ hl (fun h => by cases h) hsup htame (hleft ▸ hn) hpi).imp fun c hc hripe =>
    And.intro hc hripe
  refine (hst.within (Touch.temps_within_refill _ _ env' _ _ x)).next .refl
    fun c _ hready => ?_
  obtain ⟨hc, hripe⟩ := hready
  -- The temporary is found behind the extra scope, where nothing has its name.
  have hlt : env'.here < b.right.scopes.size := lt_of_lookupIn hx
  have hkeep {i : Nat} (hi : i < b.pushExtra.right.scopes.size) :
      lookupIn c.right.scopes i x = lookupIn b.right.scopes i x :=
    (hc.right.cell hi htemp fun h => h.2.2 hissued).trans (lookupIn_push _ _ _)
  have hsize : b.pushExtra.right.scopes.size = b.right.scopes.size + 1 := Array.size_push _
  have hfind (m : Machine) (hm : m.scopes = c.right.scopes) :
      m.find? x (env'.inside b.right false).chain = some (env'.here, ⟨v, true⟩) := by
    have hnone : lookupIn c.right.scopes b.right.scopes.size x = none :=
      (hkeep (by omega)).trans (lookupIn_of_size_le (Nat.le_refl _) x)
    rw [Env.inside, Machine.find?_cons, hm, hnone]
    exact Machine.find?_here hp.nonempty (hm ▸ (hkeep (by omega)).trans hx)
  refine Meets.tick_right ?_
  have hpc := hpi.mono hc.world
  exact (hripe.active hpc _ (.tick n c)).assign hpc htemp (hfind _ rfl)
    (Nat.lt_of_lt_of_le hlt (Nat.le_trans (by omega) hc.right.scopes)) (Or.inr ⟨rfl, rfl⟩) rfl

theorem stagesExpr_logical (op : LogicalOp) {e₁ : Expr} (h₁ : StagesExpr sp k e₁)
    (h₂ : StagesExpr sp k e₂) : StagesExpr sp k (.logical op e₁ e₂) := by
  intro hoists p q h hlow hroom hsup htame n a env env' hn hp
  have := k.rising
  rw [lowerExpr] at hlow
  obtain ⟨left, p₁, hl₁, hlow⟩ := Lower.bind_eq_ok.1 hlow
  rw [Expr.hasAttempt_logical] at hroom
  have hg₁ := lowerExpr_grows hl₁
  rw [evalExpr, Run.bind_apply]
  cases hfollows : hoists && e₂.hasAttempt with
  | false =>
    simp only [hfollows, Bool.false_eq_true, if_false] at hlow
    obtain ⟨right, p₂, hl₂, hlow⟩ := Lower.bind_eq_ok.1 hlow
    cases Lower.pure_eq_ok.1 hlow
    have hsup₂ := hsup.second hg₁
    have hg₂ := lowerExpr_grows hl₂
    have hno : e₂.hasAttempt = false := by
      cases hoists with
      | false => exact (Bool.or_eq_false_iff.1 (hroom rfl)).2
      | true => simpa using hfollows
    have hst := h₁ hl₁ (fun h => (Bool.or_eq_false_iff.1 (hroom h)).1) (hsup.first hg₂) htame.tail.left hn hp
    have hbefore : right.before = [] := (lowerExpr_ahead hl₂).flat hfollows
    simp only [hbefore, List.append_nil]
    refine (hst.within (Touch.temps_within (List.Subset.refl _) hg₂.issued)).map _ fun c hl hc =>
      Or.inr ⟨rfl, fun d hd => ?_⟩
    have hpd := (hp.mono hl.world).mono hd.world
    simp only [evalExpr]
    refine (hc.active (hp.mono hl.world) d hd).bind .refl fun b v v' hb _ hv => ?_
    rw [hv.decides]
    split
    · exact .pure hv
    · have hnb : n ≤ b.left.nextId :=
        Nat.le_trans hn (Nat.le_trans hl.left.nextId (hd.left ▸ hb.left.nextId))
      exact (h₂.flat hl₂ hno hsup₂ htame.tail.right hnb (hpd.mono hb.world)).2
  | true =>
    obtain ⟨rfl, hhas⟩ := Bool.and_eq_true_iff.1 hfollows
    simp only [hfollows, if_true] at hlow
    obtain ⟨x, p₂, hl₂, hlow⟩ := Lower.bind_eq_ok.1 hlow
    obtain ⟨right, rfl, hl₃⟩ := Lower.map_eq_ok.1 hlow
    rw [freshName_apply] at hl₂
    cases hl₂
    have hfresh : p₁.names.Grows (p₁.afterFresh "cond").names := .fresh _ "cond"
    have hsup₂ := hsup.second (hg₁.trans hfresh)
    have hg₃ := lowerExpr_grows hl₃
    have hissued : (p₁.names.fresh "cond").1 ∈ (p₁.afterFresh "cond").names.issued := List.mem_cons_self
    have hnew : (p₁.names.fresh "cond").1 ∉ p.names.issued :=
      fun hm => p₁.names.fresh_notMem "cond" (hg₁.kept hsup.kept (hg₁.issued hm))
    have hst := h₁ hl₁ (fun h => by cases h) (hsup.first (hfresh.trans hg₃)) htame.tail.left hn hp
    have hbound := (hst.imp fun c hl hc => (hc.active (hp.mono hl.world)).due).bindTemp
      hp hfresh.issued (hsup.temps _ (hg₃.issued hissued)) ⟨hissued, hnew⟩ true
    refine Meets.ripe (p₁.names.fresh "cond").1 true (hg₃.issued hissued) ?_
    have hsplit (k : Engine) : execAll k env' (shortCircuit op (p₁.names.fresh "cond").1 left
        right).before = execAll k env' (left.before ++
          [.declare .mutable [⟨(p₁.names.fresh "cond").1, some left.value⟩] .none]) >>= fun _ =>
        tick k.maxSteps >>= fun _ => evalExpr k env' (op.guard (.ident (p₁.names.fresh "cond").1)) >>= fun g =>
          if g.truthy then execStmt k env' (.block (right.before ++
            [.expr (.assign (.ident (p₁.names.fresh "cond").1) right.value) .none]) .none) else pure () := by
      rw [shortCircuit, List.append_cons, execAll_append, execAll_single]
      simp only [execStmt]
    simp only [hsplit, k.maxSteps]
    refine (hbound.within (Touch.temps_within (List.Subset.refl _) hg₃.issued)).bind
      .refl fun b v _ hb _ hv => ?_
    obtain ⟨v', hlook, hv⟩ := hv
    refine Meets.tick_right ?_
    have hpb := hp.mono hb.world
    generalize hc : b.countRight (b.right.steps + 1) b.right.mistakes b.right.misses = c
    have hl₀ : Later n .none b c := hc ▸ b.later_countRight n _ _ _
    have hleft : b.left = c.left := hc ▸ rfl
    have hlook' : lookupIn c.right.scopes env'.here (p₁.names.fresh "cond").1 = some ⟨v', true⟩ := hc ▸ hlook
    have hpc := hpb.mono hl₀.world
    have hread : readName env' (p₁.names.fresh "cond").1 c.right = .ok v' c.right := by
      rw [readName_apply, Machine.lookup?, Machine.find?_here hpc.nonempty hlook']
      rfl
    obtain ⟨g, hg, hguard⟩ := evalExpr_guard op hread
    rw [hleft]
    refine Meets.congr (y := fun i => if op.decides v' then pure () else execStmt (k.right i) env'
      (.block (right.before ++ [.expr (.assign (.ident (p₁.names.fresh "cond").1) right.value) .none]) .none))
      ?_ fun i => ?_
    · rw [hv.decides]
      split
      · exact .pure ⟨v', hlook', hv.mono hl₀.world⟩
      · exact meets_otherwise h₂ hl₃ hsup₂ htame.tail.right
          (hleft ▸ Nat.le_trans hn hb.left.nextId) hpc hlook' hissued ⟨hg₃.issued hissued, hnew⟩
    · rw [Run.bind_apply, hguard, Result.andThen_ok, hg]
      cases op.decides v' <;> rfl

/-! ## Try expressions -/

/-- A slot and the temporary that goes with it. -/
def Touch.raises (m : Aim) : Touch where
  scope _ := False
  cell i x := i = m.scope ∧ x = m.name
  slot i := i = m.slot
  aim := some m

namespace Touch

variable {p q : Names}

theorem inside_within_raises (a : Twin S) (env env' : Env) (p q : Names) (m : Aim) :
    (Touch.stmt (env.inside a.left false) (env'.inside a.right false) p q (some m)).Within a (.raises m) where
  scope hi he := absurd hi (he ▸ Nat.lt_irrefl _)
  cell hi he := by
    rcases he with he | ⟨m', hm, he⟩
    · exact absurd hi (he.1 ▸ Nat.lt_irrefl _)
    · cases hm
      exact he
  slot _ he := by
    obtain ⟨m', hm, he⟩ := he
    cases hm
    exact he
  aim _ hm := Or.inl hm

theorem respects_raises (m : Aim) : ∀ m' ∈ some m, (Touch.raises m).Respects m' := by
  rintro m' ⟨⟩
  exact Or.inl ⟨rfl, fun _ hi => hi.1⟩

/-- The slot and the temporary of a try expression are new. -/
theorem raises_within_temps (hslot : a.left.slots.size ≤ m.slot) (hscope : m.scope = env'.here)
    (hname : p.Between q m.name) : (Touch.raises m).Within a (.temps env' p q) where
  scope _ h := h.elim
  cell _ h := ⟨h.1.trans hscope, h.2 ▸ hname⟩
  slot hi h := absurd hi (h ▸ Nat.not_lt.2 hslot)
  aim _ h := by cases h

end Touch

theorem evalExpr_attempt {k : Engine} (hk : k.direct = true) (env : Env) (t : TryExpr) :
    evalExpr k env (.attempt t) = newSlot >>= fun slot =>
      attempted (execBlock k { env with slot := some slot } t.body)
        (execClause k { env with slot := some slot } t.catchParam t.catchBody)
        (execFinally k { env with slot := some slot } (t.finallyParam.map (·, slot)) t.finallyBody) >>= fun _ =>
      readSlot slot := by
  obtain ⟨_, body, catchParam, catchBody, finallyParam, finallyBody, _, _, _⟩ := t
  rw [evalExpr, if_pos hk]
  simp only [attempted, bind_assoc]
  rfl

/-- A try expression starts with a new slot and a new temporary. -/
theorem Placed.faces (hp : Placed a.world env env') (hn : n ≤ a.left.nextId) (hx : S.temp x) {q : Names}
    (hq : x ∉ q.issued) : Faces n (a.slotLeft.declareTemp env'.here x ⟨.undefined, true⟩ hx)
      { env with slot := some a.left.slots.size } env' (some ⟨a.left.slots.size, env'.here, x⟩) x q where
  next := hn
  stands := by
    refine ⟨⟨hp.chains, hp.nonempty⟩, ?_, ?_, ?_⟩
    · rintro m ⟨⟩
      rfl
    · rintro m ⟨⟩
      refine ⟨hx, ?_, fun j hj => Nat.lt_irrefl _ (a.agree.slots.lt_left hj), .undefined, ?_, ?_⟩
      · exact Nat.lt_of_lt_of_eq (Nat.lt_succ_self _) (Array.size_push _).symm
      · exact (Machine.lookupIn_declare _ _ _ _ _ _).trans (if_pos ⟨rfl, rfl, hp.here_lt⟩)
      · show Alike S a.world ((a.left.slots.push .undefined).getD a.left.slots.size .undefined) .undefined
        rw [getD_push, if_pos rfl]
        exact .undefined
    · rintro m ⟨⟩
      obtain ⟨chain, slot⟩ := env'
      cases chain with
      | nil => exact absurd rfl hp.nonempty
      | cons l ls => exact ⟨[], ls, l.isBody, rfl, fun _ hl => by cases hl⟩
  name := by
    rintro m ⟨⟩
    rfl
  apart := by
    rintro m ⟨⟩
    exact hq

/-- The slot and the temporary hold the same value. -/
theorem meets_readSlot (h : Stands a env env' (some m)) :
    Meets n t a (readSlot m.slot a.left) (fun _ => readName env' m.name) AlikeIn := by
  obtain ⟨v, hfind, hv⟩ := h.find? rfl
  have hread : readName env' m.name a.right = .ok v a.right := by
    rw [readName_apply, Machine.lookup?, hfind]
    rfl
  exact .gives a _ v (.refl n t a) rfl (.of_eq fun _ => hread) hv

/-- A finally block starts with what was raised. -/
theorem meets_execFinally (hS : S.Lowers sp) {ss ss' : List Stmt} (hss : RunsStmts sp k ss) {y : String}
    (hy : ¬ S.temp y) {p q : Progress} (hl : lowerStmts S.surroundings ss p = .ok (ss', q))
    (hsup : Supplied sp S.temp p q) (htame : S.Tames sp (walkStmts .all ss))
    (hf : Faces n a env env' (some m) m.name q.names) (span : Span) :
    Meets n (.raises m) a (execFinally k.left env (some (y, m.slot)) (some ss) a.left)
      (fun i => execBlock (k.right i) env'
        (.declare .mutable [⟨y, some (.ident m.name)⟩] span :: storeAll m.name ss')) Anything := by
  have := k.rising
  have hfi := hf.inside false
  have hflush := Flush.inside a env env' false
  have hdecl := declares_lowerStmts hS hl hsup htame
  rw [← funcsOf_storeAll m.name ss'] at hdecl
  have hleft : execFinally k.left env (some (y, m.slot)) (some ss) = newScope env false >>= fun inner =>
      declareFunctions inner ss >>= fun _ => readSlot m.slot >>= fun v => declareHere inner y v true >>= fun _ =>
        execAll k.left inner ss := by
    rw [execFinally]
  have hright (k : Engine) : execBlock k env'
      (.declare .mutable [⟨y, some (.ident m.name)⟩] span :: storeAll m.name ss') =
      newScope env' false >>= fun inner => declareFunctions inner (storeAll m.name ss') >>= fun _ =>
        tick k.maxSteps >>= fun _ => readName inner m.name >>= fun v => declareHere inner y v true >>= fun _ =>
          execAll k inner (storeAll m.name ss') := by
    have hbind (inner : Env) := execStmt_bind k inner true y (.ident m.name) span
    simp only [if_true] at hbind
    simp only [execBlock, declareFunctions, execAll, hbind, evalExpr, bind_assoc]
  simp only [hright, k.maxSteps]
  refine Meets.newScope ?_ (Touch.inside_within_raises a env env' p.names q.names m)
  refine (meets_declareFunctions hdecl hfi.next hfi.stands.placed.chains hflush).seq fun b _ _ hb _ => ?_
  refine Meets.tick_right ?_
  have hfb := (hfi.stays hb).quiet
    (b.later_countRight n (b.right.steps + 1) b.right.mistakes b.right.misses)
  have hflush := hflush.mono hb.world
  refine (meets_readSlot hfb.stands).seq fun c v v' hc hv => ?_
  have hfc := hfb.stays hc
  have hflush := hflush.mono hc.world
  refine (meets_declareHere true hflush hy hv fun _ => rfl).seq fun d _ _ hd _ => ?_
  exact hss hl hsup htame (hfc.stays hd) (fun h => by cases h) (hflush.mono hd.world)

/-- What lowering makes of a try expression whose statements can stand in front of it. -/
theorem lowerExpr_attempt_eq_ok {t : TryExpr} {p q : Progress} {h : Hoisted}
    (hl : lowerExpr s true (.attempt t) p = .ok (h, q)) :
    ∃ body p₁ catchBody p₂ finallyBody p₃, lowerStmts s t.body p = .ok (body, p₁) ∧
      lowerStmts s t.catchBody p₁ = .ok (catchBody, p₂) ∧
      lowerBlock s t.finallyBody p₂ = .ok (finallyBody, p₃) ∧
      let l := { t with body, catchBody, finallyBody }.stored (p₃.names.fresh "raise").1
      h = ⟨[l.declaration, l.statement], .ident l.temp⟩ ∧ q.names = (p₃.names.fresh "raise").2 := by
  obtain ⟨id, body, catchParam, catchBody, finallyParam, finallyBody, span, raises, verdict⟩ := t
  obtain ⟨body', p₁, hl₁, hl⟩ := Lower.bind_eq_ok.1 hl
  obtain ⟨catchBody', p₂, hl₂, hl⟩ := Lower.bind_eq_ok.1 hl
  obtain ⟨finallyBody', p₃, hl₃, hl⟩ := Lower.bind_eq_ok.1 hl
  rw [Lower.bind_ok (Lower.get_apply p₃)] at hl
  obtain ⟨⟨lowered, names⟩, p₄, hl₄, hl⟩ := Lower.bind_eq_ok.1 hl
  refine ⟨body', p₁, catchBody', p₂, finallyBody', p₃, hl₁, hl₂, hl₃, ?_⟩
  cases hn : lowerNode ⟨id, body', catchParam, catchBody', finallyParam, finallyBody', span, raises,
    verdict⟩ p₃.names with
  | error b =>
    rw [hn] at hl₄
    cases hl₄
  | ok r =>
    rw [hn] at hl₄
    cases hl₄
    obtain ⟨rfl, rfl⟩ := Prod.mk.inj (lowerNode_eq_ok hn)
    cases hl
    exact ⟨rfl, rfl⟩

theorem grows_clauses {t : TryExpr} {p : Progress} (hl₁ : lowerStmts s t.body p = .ok (body, p₁))
    (hl₂ : lowerStmts s t.catchBody p₁ = .ok (catchBody, p₂))
    (hl₃ : lowerBlock s t.finallyBody p₂ = .ok (finallyBody, p₃)) : p.names.Grows p₃.names := by
  have hg₁ := lowerStmts_grows hl₁
  have hg₂ := lowerStmts_grows hl₂
  exact hg₁.trans (hg₂.trans (lowerBlock_grows hl₃))

/-- The statements that bind the parameter of a finally block to a temporary. -/
def bindsParam (t : TryExpr) (x : String) : List Stmt :=
  t.finallyParam.toList.map fun y => .declare .mutable [⟨y, some (.ident x)⟩] t.span

/-- The clauses of a try expression are met by the clauses of the try statement. -/
theorem meets_clauses (hS : S.Lowers sp) {t : TryExpr} (hbody : RunsStmts sp k t.body)
    (hcatch : RunsStmts sp k t.catchBody) (hfinal : ∀ ss ∈ t.finallyBody, RunsStmts sp k ss) {p : Progress}
    (hl₁ : lowerStmts S.surroundings t.body p = .ok (body, p₁))
    (hl₂ : lowerStmts S.surroundings t.catchBody p₁ = .ok (catchBody, p₂))
    (hl₃ : lowerBlock S.surroundings t.finallyBody p₂ = .ok (finallyBody, p₃)) (hsup : Supplied sp S.temp p p₃)
    (htame : S.Tames sp (t.walk .all)) (hf : Faces n a env env' (some m) m.name p₃.names) :
    Meets n (.raises m) a (attempted (execBlock k.left env t.body)
        (execClause k.left env t.catchParam t.catchBody)
        (execFinally k.left env (t.finallyParam.map (·, m.slot)) t.finallyBody) a.left)
      (fun i => attempted (execBlock (k.right i) env' (storeAll m.name body))
        (execClause (k.right i) env' t.catchParam (storeAll m.name catchBody))
        (finalizing (k.right i) env' (finallyBody.map fun ss => bindsParam t m.name ++ storeAll m.name ss)))
      Anything := by
  have := k.rising
  rw [TryExpr.walk_all] at htame
  have htame₁ := htame.tail.left.left
  have htame₂ := htame.tail.left.right
  have htame₃ := htame.tail.right
  have hg₁ := lowerStmts_grows hl₁
  have hsup₂ := hsup.second hg₁
  have hg₂ := lowerStmts_grows hl₂
  have hsup₃ := hsup₂.second hg₂
  have hg₃ := lowerBlock_grows hl₃
  have hsome {P : Prop} (h : some m = none) : P := by cases h
  refine meets_attempted ?_ (fun d v v' hd hv => ?_) fun d hd => ?_
  · exact meets_execBlock hS hbody hl₁ (hsup.first (hg₂.trans hg₃)) htame₁
      (hf.mono (hg₂.trans hg₃).issued) hsome (Touch.inside_within_raises _ _ _ _ _ m)
  · have hfd := hf.later hd (Touch.respects_raises m)
    refine meets_execClause hS hcatch hl₂ (hsup₂.first hg₃) htame₂ (fun y hy => ?_)
      (hfd.mono hg₃.issued) hsome (Touch.inside_within_raises _ _ _ _ _ m) hv
    exact htame.head.names y (by simp [Visit.names, Option.mem_def.1 hy])
  · have hfd := hf.later hd (Touch.respects_raises m)
    cases hclause : t.finallyBody with
    | none =>
      rw [hclause, lowerBlock] at hl₃
      cases hl₃
      exact .pure trivial
    | some ss =>
      rw [hclause, lowerBlock] at hl₃
      obtain ⟨ss', rfl, hl₃'⟩ := Lower.map_eq_ok.1 hl₃
      rw [hclause, walkBlock] at htame₃
      unfold bindsParam
      cases hparam : t.finallyParam with
      | none =>
        exact meets_execBlock hS (hfinal ss hclause) hl₃' hsup₃ htame₃ hfd hsome
          (Touch.inside_within_raises _ _ _ _ _ m)
      | some y =>
        have hy : ¬ S.temp y := htame.head.names y (by simp [Visit.names, hparam])
        exact meets_execFinally hS (hfinal ss hclause) hy hl₃' hsup₃ htame₃ hfd t.span

/-- The statements that a try expression becomes. -/
theorem execAll_stored (k : Engine) (env : Env) (t : TryExpr) (x : String) :
    execAll k env [(t.stored x).declaration, (t.stored x).statement] =
      tick k.maxSteps >>= fun _ => declareHere env x .undefined true >>= fun _ => tick k.maxSteps >>= fun _ =>
        attempted (execBlock k env (storeAll x t.body)) (execClause k env t.catchParam (storeAll x t.catchBody))
          (finalizing k env (t.finallyBody.map fun ss => bindsParam t x ++ storeAll x ss)) := by
  simp only [TryExpr.stored, declareEmpty, execAll, execStmt_guarded, bind_pure_unit]
  simp only [execStmt, execDecls, bindDeclared, Option.getD_none, bind_assoc, pure_bind]
  rfl

/-- A try expression is evaluated by the statements that became of it. -/
theorem stagesExpr_attempt (hS : S.Lowers sp) {t : TryExpr} (hbody : RunsStmts sp k t.body)
    (hcatch : RunsStmts sp k t.catchBody) (hfinal : ∀ ss ∈ t.finallyBody, RunsStmts sp k ss) :
    StagesExpr sp k (.attempt t) := by
  intro hoists p q h hlow hroom hsup htame n a env env' hn hp
  have := k.rising
  obtain rfl : hoists = true := by
    cases hoists with
    | true => rfl
    | false => simp at hroom
  obtain ⟨body, p₁, catchBody, p₂, finallyBody, p₃, hl₁, hl₂, hl₃, rfl, hq⟩ := lowerExpr_attempt_eq_ok hlow
  have hg := grows_clauses hl₁ hl₂ hl₃
  generalize hx : (p₃.names.fresh "raise").1 = x
  have hissued : x ∈ q.names.issued := by
    rw [hq, ← hx]
    exact List.mem_cons_self
  have hfresh : x ∉ p₃.names.issued := fun hm => p₃.names.fresh_notMem "raise" (hg.kept hsup.kept (hx ▸ hm))
  have hbetween : p.names.Between q.names x := ⟨hissued, fun h => hfresh (hg.issued h)⟩
  have htemp : S.temp x := hsup.temps x hissued
  have hright (k : Engine) : execAll k env'
      [({ t with body, catchBody, finallyBody }.stored x).declaration,
        ({ t with body, catchBody, finallyBody }.stored x).statement] =
      tick k.maxSteps >>= fun _ => declareHere env' x .undefined true >>= fun _ => tick k.maxSteps >>= fun _ =>
        attempted (execBlock k env' (storeAll x body)) (execClause k env' t.catchParam (storeAll x catchBody))
          (finalizing k env' (finallyBody.map fun ss => bindsParam t x ++ storeAll x ss)) :=
    execAll_stored k env' { t with body, catchBody, finallyBody } x
  refine Meets.ripe x true hissued ?_
  rw [evalExpr_attempt k.direct, Run.bind_apply]
  simp only [hright, k.maxSteps]
  refine Meets.tick_right ?_
  generalize hb : a.countRight (a.right.steps + 1) a.right.mistakes a.right.misses = b
  have hl₀ : Later n .none a b := hb ▸ a.later_countRight n _ _ _
  have hleft : a.left = b.left := hb ▸ rfl
  have hpb := hp.mono hl₀.world
  have hfaces := hpb.faces (hleft ▸ hn) htemp hfresh
  rw [hleft]
  have hlater : Later n (.temps env' p.names q.names) b
      (b.slotLeft.declareTemp env'.here x ⟨.undefined, true⟩ htemp) := by
    refine ((b.later_slotLeft n).within .none).trans ?_ .refl
    exact Twin.later_declareTemp n _ htemp ⟨rfl, hbetween⟩ rfl
  refine Meets.after (u := .raises ⟨b.left.slots.size, env'.here, x⟩) ?_ hlater
    (Touch.raises_within_temps (Nat.le_refl _) rfl hbetween)
    (.of_eq fun _ => declareHere_apply hp.nonempty x .undefined true b.right) fun _ => rfl
  have hnew : newSlot b.left = .ok b.left.slots.size
      (b.slotLeft.declareTemp env'.here x ⟨.undefined, true⟩ htemp).left := rfl
  rw [hnew, Result.andThen_ok]
  generalize b.slotLeft.declareTemp env'.here x ⟨.undefined, true⟩ htemp = c at hfaces
  refine Meets.tick_right ?_
  have hf := hfaces.quiet (c.later_countRight n (c.right.steps + 1) c.right.mistakes c.right.misses)
  have hsup₃ : Supplied sp S.temp p p₃ :=
    hsup.first (hq ▸ .fresh p₃.names "raise")
  refine Meets.congr (Meets.seq (g := fun _ _ => pure ())
    (meets_clauses hS hbody hcatch hfinal hl₁ hl₂ hl₃ hsup₃ htame.tail hf) fun d _ _ hd _ => ?_)
    fun i => by rw [bind_pure_unit]
  obtain ⟨v, hv, ha⟩ := ((hf.later hd (Touch.respects_raises _)).stands.aimed _ rfl).stored
  exact .gives d _ () (.refl n _ d) rfl (.of_eq fun _ => rfl) ⟨v, hv, ha⟩

end RaiseScript
