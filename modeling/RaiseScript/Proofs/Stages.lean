import RaiseScript.Proofs.Staging
import RaiseScript.Proofs.LoweringConditions

/-!
# Expressions in stages

What lowering makes of an expression runs in two stages : first the statements in front of it, then
what is left of the expression. `StagesExpr` says that the two together do what the expression does
on the left, and `StagesExprs` says so of operands. Operands that have to wait are put into a
temporary (`Stage.spilled`), and the value is held there until its turn comes.

An operator that evaluates all its operands is staged when they are (`stagesExpr_strict`). Logical
operators, calls of methods and try expressions have rules of their own.
-/

namespace RaiseScript

variable {S : Setting} {sp : Spelling} {k : Engines S} {n : Nat} {a b c d : Twin S} {env env' : Env}
  {r : Result Value} {e : Expr} {t u : Touch}
variable {y : Nat → Run Unit} {x : String} {names : Names} {p q : Progress} {h : Hoisted}
  {hoists : Bool} {es : List Expr} {v : Value}

/-- All nodes of a walk are as lowering expects them in this setting. -/
abbrev Setting.Tames (S : Setting) (sp : Spelling) (vs : List Visit) : Prop :=
  AllTame sp S.surroundings S.temp vs

/-- Functions belong to what lowering makes of them. -/
def Setting.Lowers (S : Setting) (sp : Spelling) : Prop :=
  ∀ ⦃f f' : Func⦄ ⦃p q : Progress⦄, lowerFunc S.surroundings f p = .ok (f', q) →
    Supplied sp S.temp p q → S.Tames sp (f.walk .all) → S.code f f'

/-! ## Values in temporaries -/

/-- A temporary of the innermost scope is bound to the value. -/
def BoundTo (env' : Env) (x : String) (isMutable : Bool) (b : Twin S) (v : Value) (_ : Unit) : Prop :=
  ∃ v', lookupIn b.right.scopes env'.here x = some ⟨v', isMutable⟩ ∧ Alike S b.world v v'

theorem Placed.here_lt (h : Placed c.world env env') : env'.here < c.right.scopes.size := by
  obtain ⟨chain, slot⟩ := env'
  cases chain with
  | nil => exact absurd rfl h.nonempty
  | cons l ls => exact h.chains.lt_right l List.mem_cons_self

/-- The value of some code on the right goes into a temporary. -/
theorem Meets.store {y : Nat → Run Value} (h : Meets n .none c r y AlikeIn) (hp : Placed c.world env env')
    (hx : S.temp x) (isMutable : Bool) (hcell : t.cell env'.here x) (haim : t.aim = none) :
    Meets n t c r (fun i => y i >>= fun v => declareHere env' x v isMutable) (BoundTo env' x isMutable) := by
  have hnone (b : Twin S) : Touch.none.Within b t := .none
  cases h with
  | excused h => exact .excused h
  | exits b e e' hl he hy hr => exact .exits b e e' (hl.within (hnone c)) he hy.bind_error hr
  | gives b v v' hl hv hy hr =>
    have hpb := hp.mono hl.world
    refine .gives (b.declareTemp env'.here x ⟨v', isMutable⟩ hx) v ()
      ((hl.within (hnone c)).trans (Twin.later_declareTemp n _ hx hcell haim) .refl) hv
      (hy.bind (.of_eq fun _ => declareHere_apply hp.nonempty x v' isMutable b.right)) ⟨v', ?_, hr⟩
    exact (Machine.lookupIn_declare _ _ _ _ _ _).trans (if_pos ⟨rfl, rfl, hpb.here_lt⟩)

/-- A value in a temporary is held. -/
theorem Meets.done {isMutable : Bool} (h : Meets n t a r y (BoundTo env' x isMutable))
    (hx : x ∈ names.issued) : Stage n t a r y fun c => Done n names c env env' r (.ident x) := by
  cases h with
  | excused h => exact .excused h
  | exits b e e' hl he hy hr => exact .exits b e e' hl he hy hr
  | gives b v v' hl hv hy hr =>
    obtain ⟨w, hw, hvw⟩ := hr
    exact .stops b hl hy ⟨v, hv, .temp hx hw hvw⟩

/-- More code runs on the right while the left stays. -/
theorem Stage.next {α β : Type} {r : Result α} {K : Twin S → Prop} {g : Nat → Run β} {R : Twin S → α → β → Prop}
    (h : Stage n t a r y K) (hw : u.Within a t) (hg : ∀ c, Later n t a c → K c → Meets n u c r g R) :
    Meets n t a r (fun i => y i >>= fun _ => g i) R := by
  cases h with
  | excused h => exact .excused h
  | exits b e e' hl he hy hr => exact .exits b e e' hl he hy.bind_error hr
  | stops c hl hy hc => exact (hg c hl hc).after hl hw hy fun _ => rfl

theorem execStmt_bind (k : Engine) (env : Env) (isMutable : Bool) (x : String) (e : Expr) (span : Span) :
    execStmt k env (.declare (if isMutable then .mutable else .constant) [⟨x, some e⟩] span) =
      tick k.maxSteps >>= fun _ => evalExpr k env e >>= fun v => declareHere env x v isMutable := by
  cases isMutable <;> simp only [execStmt, execDecls, bindDeclared, Option.getD_some, if_true,
    Bool.false_eq_true, if_false, bind_pure_unit]

/-- What is left of an expression is evaluated for a temporary. -/
theorem Stage.bindTemp {p q q₁ : Names} {before : List Stmt}
    (h : Stage n (.temps env' p q) a r (fun i => execAll (k.right i) env' before) fun c => Due k n c env' r e)
    (hp : Placed a.world env env') (hq : q.issued ⊆ q₁.issued) (hx : S.temp x) (hb : p.Between q₁ x)
    (isMutable : Bool) : Meets n (.temps env' p q₁) a r (fun i => execAll (k.right i) env'
      (before ++ [.declare (if isMutable then .mutable else .constant) [⟨x, some e⟩] .none]))
      (BoundTo env' x isMutable) := by
  simp only [execAll_append, execAll_single, execStmt_bind, k.maxSteps]
  refine (h.within (Touch.temps_within (List.Subset.refl _) hq)).next .refl fun c hl hc => ?_
  refine Meets.tick_right ?_
  exact (hc _ (.tick 0 c)).store (hp.mono hl.world) hx isMutable ⟨rfl, hb⟩ rfl

/-- An operand that is spilled is held. -/
theorem Stage.spilled {p : Names} {q₁ : Progress} {h₁ : Hoisted}
    (hst : Stage n (.temps env' p q.names) a r (fun i => execAll (k.right i) env' h.before)
      fun c => Ripe k n q.names c env env' r h.value) (hs : spill S.surroundings h q = .ok (h₁, q₁))
    (hp : Placed a.world env env') (hpq : p.issued ⊆ q.names.issued) (hkept : q.names.issued ⊆ q.names.taken)
    (htemp : ∀ x ∈ q₁.names.issued, S.temp x) :
    Stage n (.temps env' p q₁.names) a r (fun i => execAll (k.right i) env' h₁.before)
      fun c => Done n q₁.names c env env' r h₁.value := by
  rcases spill_eq_ok.1 hs with ⟨hi, rfl, rfl⟩ | ⟨-, rfl, rfl⟩
  · exact hst.imp fun c _ hc => hc.done hi
  · have hfresh : (q.names.fresh "spill").1 ∈ (q.afterFresh "spill").names.issued := List.mem_cons_self
    have hnew : (q.names.fresh "spill").1 ∉ p.issued := fun hm => q.names.fresh_notMem "spill" (hkept (hpq hm))
    have hdue := hst.imp fun c hl hc => (hc.active (hp.mono hl.world)).due
    exact (hdue.bindTemp hp (q.names.fresh_issued "spill" ▸ List.subset_cons_self _ _)
      (htemp _ hfresh) ⟨hfresh, hnew⟩ false).done hfresh

/-! ## What is said of each part -/

/-- The same values, as far as the pair `b` can tell. -/
def AlikeAll (b : Twin S) (vs vs' : List Value) : Prop :=
  List.Forall₂ (Alike S b.world) vs vs'

/-- What is left of the operands has to run on both sides. -/
def ActiveAll (k : Engines S) (n : Nat) (c : Twin S) (env' : Env) (r : Result (List Value))
    (es : List Expr) : Prop :=
  ∀ d, Near n c d → Meets n .none d r (fun i => evalExprs (k.right i) env' es) AlikeAll

variable (sp k) in
/-- The expression is evaluated in stages. -/
def StagesExpr (e : Expr) : Prop :=
  ∀ ⦃hoists : Bool⦄ ⦃p q : Progress⦄ ⦃h :
    Hoisted⦄, lowerExpr S.surroundings hoists e p = .ok (h, q) →
    (hoists = false → e.hasAttempt = false) → Supplied sp S.temp p q → S.Tames sp (e.walk .all) →
    ∀ ⦃n : Nat⦄ ⦃a : Twin S⦄ ⦃env env' : Env⦄, n ≤ a.left.nextId → Placed a.world env env' →
    Stage n (.temps env' p.names q.names) a (evalExpr k.left env e a.left)
      (fun i => execAll (k.right i) env' h.before)
      fun c => Ripe k n q.names c env env' (evalExpr k.left env e a.left) h.value

variable (sp k) in
/-- The operands are evaluated in stages. -/
def StagesExprs (es : List Expr) : Prop :=
  ∀ ⦃hoists : Bool⦄ ⦃p q : Progress⦄ ⦃h : List Stmt × List Expr⦄,
    lowerOperands S.surroundings hoists es p = .ok (h, q) →
    (hoists = false → es.any Expr.hasAttempt = false) → Supplied sp S.temp p q →
    S.Tames sp (walkExprs .all es) →
    ∀ ⦃n : Nat⦄ ⦃a : Twin S⦄ ⦃env env' : Env⦄, n ≤ a.left.nextId → Placed a.world env env' →
    Stage n (.temps env' p.names q.names) a (evalExprs k.left env es a.left) (fun i => execAll
      (k.right i) env' h.1) fun c => ActiveAll k n c env' (evalExprs k.left env es a.left) h.2

/-- Without statements in front the expression runs on both sides. -/
theorem StagesExpr.flat (he : StagesExpr sp k e)
    (hl : lowerExpr S.surroundings hoists e p = .ok (h, q)) (ha : e.hasAttempt = false)
    (hs : Supplied sp S.temp p q) (ht : S.Tames sp (e.walk .all)) (hn : n ≤ a.left.nextId)
    (hp : Placed a.world env env') : h.before = [] ∧ Meets n .none a (evalExpr k.left env e a.left)
      (fun i => evalExpr (k.right i) env' h.value) AlikeIn := by
  have hb : h.before = [] := (lowerExpr_ahead hl).flat (by rw [ha, Bool.and_false])
  have hst := he hl (fun _ => ha) hs ht hn hp
  simp only [hb, execAll] at hst
  exact ⟨hb, hst.flat fun c hl hc => hc.active (hp.mono hl.world) c (.refl n c)⟩

/-- Without statements in front the operands run on both sides. -/
theorem StagesExprs.flat (he : StagesExprs sp k es) {h : List Stmt × List Expr}
    (hl : lowerOperands S.surroundings hoists es p = .ok (h, q))
    (hr : hoists = false → es.any Expr.hasAttempt = false) (hb : h.1 = []) (hs : Supplied sp S.temp p q)
    (ht : S.Tames sp (walkExprs .all es)) (hn : n ≤ a.left.nextId) (hp : Placed a.world env env') :
    Meets n .none a (evalExprs k.left env es a.left) (fun i => evalExprs (k.right i) env' h.2) AlikeAll := by
  have hst := he hl hr hs ht hn hp
  simp only [hb, execAll] at hst
  exact hst.flat fun c _ hc => hc c (.refl n c)

/-! ## Operands -/

theorem settle_grows {s : Surroundings} {follows : Bool} {h' : Hoisted}
    (hs : settle s follows h p = .ok (h', q)) : p.names.Grows q.names := by
  cases follows with
  | false =>
    cases hs
    exact .refl _
  | true =>
    rcases spill_eq_ok.1 hs with ⟨-, -, rfl⟩ | ⟨-, rfl, -⟩
    · exact .refl _
    · exact .fresh _ "spill"

/-- An operand that has to wait is evaluated first. The rest goes on with its value, which is
held. -/
theorem StagesExpr.spilledThen (he : StagesExpr sp k e) {p₁ p₂ : Progress} {h₁ : Hoisted}
    {rest : List Stmt} {β : Type} {f : Value → Run β} [∀ v, Rising (f v)] {K : Twin S → Prop}
    (hl : lowerExpr S.surroundings true e p = .ok (h, p₁)) (hs : settle S.surroundings true h p₁ = .ok (h₁, p₂))
    (hg : p₂.names.Grows q.names) (hsup : Supplied sp S.temp p q) (htame : S.Tames sp (e.walk .all))
    (hn : n ≤ a.left.nextId) (hp : Placed a.world env env')
    (hrest : ∀ c v, n ≤ c.left.nextId → Placed c.world env env' → Supplied sp S.temp p₂ q →
      evalExpr k.left env e a.left = .ok v c.left → Held n c.left.nextId p₂.names c env env' v h₁.value →
      Stage n (.temps env' p₂.names q.names) c (f v c.left) (fun i => execAll (k.right i) env' rest) K) :
    Stage n (.temps env' p.names q.names) a (Result.andThen (evalExpr k.left env e a.left) f)
      (fun i => execAll (k.right i) env' (h₁.before ++ rest)) K := by
  have hg₁ := lowerExpr_grows hl
  have hg₂ := settle_grows hs
  have hdone := (he hl (fun h => by cases h) (hsup.first (hg₂.trans hg)) htame hn hp).spilled
    hs hp hg₁.issued (hg₁.kept hsup.kept) fun x hx => hsup.temps x (hg.issued hx)
  simp only [execAll_append]
  refine (hdone.within (Touch.temps_within (List.Subset.refl _) hg.issued)).bind
    (Touch.temps_within (p := p₂.names) (hg₁.trans hg₂).issued (List.Subset.refl _)) fun c hc hheld => ?_
  obtain ⟨v, hv, hheld⟩ := hheld
  rw [hv, Result.andThen_ok]
  exact hrest c v (Nat.le_trans hn hc.left.nextId) (hp.mono hc.world) (hsup.second (hg₁.trans hg₂)) hv hheld

theorem stagesExprs_nil : StagesExprs sp k [] := by
  intro hoists p q h hlow _ _ _ n a env env' _ _
  cases hlow
  exact .nothing fun d hd => hd.left ▸ .pure .nil

/-- The value of the first operand is held while the statements of the others run. -/
theorem ActiveAll.cons_held {lo : Nat} {rest : Result (List Value)} (hes : ActiveAll k n c env' rest es)
    (hlo : lo ≤ n) (hv : Held lo n names c env env' v e) (hn : n ≤ c.left.nextId) (hp : Placed c.world env env')
    : ActiveAll k lo c env' (Result.andThen rest fun vs => pure (v :: vs)) (e :: es) := by
  intro d hd
  have hnext : n ≤ d.left.nextId := hd.left ▸ hn
  obtain ⟨b, v', hnear, hl, heval, ha⟩ := (hv.near hd).eval (hp.mono hd.world) hnext
  have hrest := (hes b ((hd.trans hnear hlo))).le hlo
  refine Meets.after (u := .none) (d := b) (y := fun i => evalExprs (k.right i) env' es >>= fun vs =>
    pure (v' :: vs)) ?_ hl .refl (.of_eq fun i => heval (k.right i)) fun _ => rfl
  refine hrest.bind .refl fun o vs vs' ho _ hvs => ?_
  exact .pure (.cons (ha.mono ho.world) hvs)

theorem stagesExprs_cons (he : StagesExpr sp k e) (hes : StagesExprs sp k es) : StagesExprs sp k (e :: es) := by
  intro hoists p q h hlow hroom hsup htame n a env env' hn hp
  have := k.rising
  obtain ⟨h₀, p₁, hlow₁, hlow⟩ := Lower.bind_eq_ok.1 hlow
  obtain ⟨h₁, p₂, hlow₂, hlow⟩ := Lower.bind_eq_ok.1 hlow
  obtain ⟨⟨before, rest⟩, p₃, hlow₃, hlow⟩ := Lower.bind_eq_ok.1 hlow
  cases Lower.pure_eq_ok.1 hlow
  simp only [List.any_cons, Bool.or_eq_false_iff] at hroom
  have hg₁ := lowerExpr_grows hlow₁
  have hg₂ := settle_grows hlow₂
  have hsup₂ := hsup.second (hg₁.trans hg₂)
  have hg₃ := lowerOperands_grows hlow₃
  have hsup₁ := hsup.first (hg₂.trans hg₃)
  have hst := he hlow₁ (fun h => (hroom h).1) hsup₁ htame.left hn hp
  rw [evalExprs, Run.bind_apply]
  cases hfollows : hoists && es.any Expr.hasAttempt with
  | false =>
    rw [hfollows] at hlow₂
    cases hlow₂
    obtain rfl : before = [] := (lowerOperands_ahead hlow₃).flat hfollows
    rw [List.append_nil]
    refine (hst.within (Touch.temps_within (List.Subset.refl _) hg₃.issued)).map _ fun c hl hc d hd => ?_
    refine (hc.active (hp.mono hl.world) d hd).bind .refl fun b v v' hb _ hv => ?_
    have hnb : n ≤ b.left.nextId := Nat.le_trans hn (Nat.le_trans hl.left.nextId (hd.left ▸ hb.left.nextId))
    have hpb := ((hp.mono hl.world).mono hd.world).mono hb.world
    refine (hes.flat hlow₃ (fun h => (hroom h).2) rfl hsup₂ htame.right hnb hpb).seq fun o vs vs' ho hvs => ?_
    exact .pure (.cons (hv.mono ho.world) hvs)
  | true =>
    rw [hfollows] at hlow₂
    obtain ⟨rfl, -⟩ := Bool.and_eq_true_iff.1 hfollows
    refine he.spilledThen hlow₁ hlow₂ hg₃ hsup htame.left hn hp fun c v hnc hpc hsup₂ hv hheld => ?_
    rw [hv, Result.andThen_ok, Run.bind_apply]
    refine ((hes hlow₃ (fun h => (hroom h).2) hsup₂ htame.right (Nat.le_refl _) hpc).map _
      fun b hb hrest => ?_).le hnc
    refine hrest.cons_held hnc (hheld.later hb (Nat.le_refl _) hpc.chains (fun _ => id) ?_)
      hb.left.nextId (hpc.mono hb.world)
    exact fun x hx => ⟨hsup.temps x (hg₃.issued hx), fun hcell => hcell.2.2 hx⟩

/-! ## Operators -/

/-- What an operator does once all its operands are evaluated. -/
def operate (k : Engine) : Expr → List Value → Run Value
  | .array _, vs => newArray vs.toArray
  | .unary op _, [v] => applyUnary op v
  | .binary op _ _, [x, y] => applyBinary op x y
  | .assign (.member _ property) _, [o, v] => do
    setIndex o (.string property) v
    return v
  | .assign (.index _ _) _, [o, i, v] => do
    setIndex o i v
    return v
  | .member _ property, [o] => getProperty o property
  | .index _ _, [o, i] => getIndex o i
  | .call _ _, f :: vs => k.call f .undefined vs
  | .await _, [v] => return v
  | _, _ => return .undefined

/-- The operator looks at the values of its operands only. -/
def Expr.IsPlain (e : Expr) : Prop :=
  (∀ a, e ≠ .unary .typeName a) ∧ ∀ a delegate, e ≠ .yield a delegate

instance rising_operate (k : Engine) [k.Rising] (e : Expr) (vs : List Value) : Rising (operate k e vs) := by
  unfold operate
  split <;> infer_instance

theorem evalExpr_strict (k : Engine) (env : Env) (he : e.Strict es) (hp : e.IsPlain) :
    evalExpr k env e = evalExprs k env es >>= operate k e := by
  cases he with
  | unary op a =>
    cases op with
    | typeName => exact absurd rfl (hp.1 a)
    | _ => simp [evalExpr, evalExprs, operate]
  | yield a delegate => exact absurd rfl (hp.2 _ _)
  | call callee args hm hi =>
    cases callee with
    | member o q => exact absurd rfl (hm o q)
    | index o i => exact absurd rfl (hi o i)
    | _ => simp [evalExpr, evalExprs, operate]
  | array items =>
    rfl
  | _ => simp [evalExpr, evalExprs, operate]

namespace Expr.Strict

variable {vs : List Expr}

/-- The operator has the new operands, if the callee of a call has not become a method. -/
theorem withOperands (he : e.Strict es) (hl : vs.length = es.length)
    (hm : ∀ a ∈ es.head?, ∀ a' ∈ vs.head?, a'.isPlace = true → a.isPlace = true) :
    (e.withOperands vs).Strict vs := by
  cases he.refills hl with
  | call callee a args vs =>
    cases he with
    | call _ _ hcm hci =>
      have hnot : callee.isPlace = false := by
        cases callee with
        | member o q => exact absurd rfl (hcm o q)
        | index o i => exact absurd rfl (hci o i)
        | _ => rfl
      have hplace : a.isPlace = true → callee.isPlace = true := hm callee rfl a rfl
      rw [hnot] at hplace
      refine .call a vs ?_ ?_
      · rintro o q rfl
        exact absurd (hplace rfl) Bool.false_ne_true
      · rintro o i rfl
        exact absurd (hplace rfl) Bool.false_ne_true
  | _ => constructor

/-- The operator does the same with other operands. -/
theorem operate_withOperands (k : Engine) (he : e.Strict es) (hl : vs.length = es.length) :
    operate k (e.withOperands vs) = operate k e := by
  cases he.refills hl with
  | array => rfl
  | _ =>
    funext us
    obtain _ | ⟨x, _ | ⟨y, _ | ⟨z, _ | _⟩⟩⟩ := us <;> rfl

theorem isPlain_withOperands (he : e.Strict es) (hl : vs.length = es.length) (hp : e.IsPlain) :
    (e.withOperands vs).IsPlain := by
  cases he.refills hl with
  | @unary op a =>
    refine ⟨fun a' h => ?_, by simp [Expr.withOperands]⟩
    cases h
    exact hp.1 a rfl
  | yield => exact absurd rfl (hp.2 _ _)
  | _ => exact ⟨by simp [Expr.withOperands], by simp [Expr.withOperands]⟩

theorem isInert (he : e.Strict es) (s : Surroundings) (names : Names) : s.isInert names e = false := by
  cases he <;> rfl

end Expr.Strict

/-- An operator does the same to values that are the same. -/
theorem meets_operate (he : e.Strict es) (hp : e.IsPlain)
    (hwrites : ∀ q ∈ (Visit.expr e).writes, S.surroundings.isStable q = false)
    (hcomputed : (Visit.expr e).writesComputed = true → ∀ q, S.surroundings.isStable q = false)
    {vs vs' : List Value} (hl : vs.length = es.length) (hv : AlikeAll c vs vs') (hn : n ≤ c.left.nextId) :
    Meets n .none c (operate k.left e vs c.left) (fun i => operate (k.right i) e vs') AlikeIn := by
  cases he with
  | array => exact meets_newArray hv
  | unary op a =>
    obtain _ | ⟨hx, _ | _⟩ := hv <;> simp at hl
    exact meets_applyUnary op hx
  | binary op a b =>
    obtain _ | ⟨hx, _ | ⟨hy, _ | _⟩⟩ := hv <;> simp at hl
    exact meets_applyBinary op hx hy
  | assignMember object property value =>
    obtain _ | ⟨ho, _ | ⟨hx, _ | _⟩⟩ := hv <;> simp at hl
    have hfree : S.surroundings.isStable property = false := hwrites property (by simp [Visit.writes])
    have hw : WritesFreely S (.string property) :=
      Or.inl ⟨property, rfl, by rw [Setting.Stable, hfree]; exact Bool.false_ne_true⟩
    refine (meets_setIndex ho (.string property) hx hw).seq fun b _ _ hb _ => ?_
    exact .pure (hx.mono hb.world)
  | assignIndex object key value =>
    obtain _ | ⟨ho, _ | ⟨hi, _ | ⟨hx, _ | _⟩⟩⟩ := hv <;> simp at hl
    have hw (i : Value) : WritesFreely S i := Or.inr fun q hq => by
      rw [Setting.Stable, hcomputed rfl q] at hq
      cases hq
    refine (meets_setIndex ho hi hx (hw _)).seq fun b _ _ hb _ => ?_
    exact .pure (hx.mono hb.world)
  | member object property =>
    obtain _ | ⟨ho, _ | _⟩ := hv <;> simp at hl
    exact meets_getProperty hn ho property
  | index object key =>
    obtain _ | ⟨ho, _ | ⟨hi, _ | _⟩⟩ := hv <;> simp at hl
    exact meets_getIndex hn ho hi
  | call callee args =>
    obtain _ | ⟨hf, hvs⟩ := hv
    · simp at hl
    · exact k.call hn hf .undefined hvs
  | await a =>
    obtain _ | ⟨hx, _ | _⟩ := hv <;> simp at hl
    exact .pure hx
  | yield => exact absurd rfl (hp.2 _ _)

theorem length_of_evalExprs (k : Engine) (env : Env) : ∀ (es : List Expr) {m m' : Machine}
    {vs : List Value}, evalExprs k env es m = .ok vs m' → vs.length = es.length
  | [], m, m', vs, h => by
    cases h
    rfl
  | e :: es, m, m', vs, h => by
    rw [evalExprs, Run.bind_apply] at h
    cases hv : evalExpr k env e m with
    | error x n =>
      rw [hv] at h
      cases h
    | ok v n =>
      rw [hv, Result.andThen_ok, Run.bind_apply] at h
      cases hvs : evalExprs k env es n with
      | error x o =>
        rw [hvs] at h
        cases h
      | ok us o =>
        rw [hvs] at h
        cases h
        simp [length_of_evalExprs k env es hvs]

/-- What became of the first operand is a method only if the operand is one. -/
theorem isPlace_of_lowerOperands {h : List Stmt × List Expr}
    (hl : lowerOperands S.surroundings hoists es p = .ok (h, q)) (hf : sp.Fits p.names)
    (ht : Lowerable sp (walkExprs .all es)) :
    ∀ a ∈ es.head?, ∀ a' ∈ h.2.head?, a'.isPlace = true → a.isPlace = true := by
  cases es with
  | nil => exact fun a ha => by cases ha
  | cons e es =>
    rintro a ⟨⟩ a' ha' hplace
    obtain ⟨h₀, p₁, hlow₁, hl⟩ := Lower.bind_eq_ok.1 hl
    obtain ⟨h₁, p₂, hlow₂, hl⟩ := Lower.bind_eq_ok.1 hl
    obtain ⟨⟨before, rest⟩, p₃, -, hl⟩ := Lower.bind_eq_ok.1 hl
    cases Lower.pure_eq_ok.1 hl
    obtain rfl : h₁.value = a' := by simpa using ha'
    rw [walkExprs, lowerable_append] at ht
    have hw := hoistedWell_of_eq_ok hf ht.1 hlow₁
    cases hfollows : hoists && es.any Expr.hasAttempt with
    | false =>
      rw [hfollows] at hlow₂
      cases hlow₂
      exact hw.form.place hplace
    | true =>
      rw [hfollows] at hlow₂
      rcases spill_eq_ok.1 hlow₂ with ⟨-, rfl, -⟩ | ⟨-, -, rfl⟩
      · exact hw.form.place hplace
      · cases hplace

/-- An operator is staged when its operands are. -/
theorem stagesExpr_strict (he : e.Strict es) (hplain : e.IsPlain) (hes : StagesExprs sp k es) :
    StagesExpr sp k e := by
  intro hoists p q h hlow hroom hsup htame n a env env' hn hp
  have := k.rising
  rw [lowerExpr_strict _ _ he] at hlow
  obtain ⟨⟨before, vs⟩, q', hlow, hr⟩ := Lower.bind_eq_ok.1 hlow
  cases Lower.pure_eq_ok.1 hr
  have htame' : S.Tames sp (walkExprs .all es) := fun v hv => htame v (he.mem_walk hv)
  have hlen := lowerOperands_length hlow
  have hstrict := he.withOperands hlen (isPlace_of_lowerOperands hlow hsup.fits htame'.lowerable)
  rw [evalExpr_strict _ _ he hplain, Run.bind_apply]
  refine (hes hlow (fun h => he.hasAttempt ▸ hroom h) hsup htame' hn hp).map _ fun c hl hc =>
    Or.inr ⟨hstrict.isInert _ _, fun d hd => ?_⟩
  simp only [evalExpr_strict _ _ hstrict (he.isPlain_withOperands hlen hplain), he.operate_withOperands _ hlen]
  refine (hc d hd).bind .refl fun b us us' hb heval hus => ?_
  have hnb : n ≤ b.left.nextId := Nat.le_trans hn (Nat.le_trans hl.left.nextId (hd.left ▸ hb.left.nextId))
  have hnode := htame (.expr e) (he.self_mem_walk _)
  exact meets_operate he hplain hnode.writes hnode.computed (length_of_evalExprs _ _ _ heval) hus hnb

/-- A bound name has the type of its value. -/
theorem evalExpr_typeName_of_readName {env : Env} {m m' : Machine} (h : readName env x m = .ok v m')
    (k : Engine) : evalExpr k env (.unary .typeName (.ident x)) m = .ok (.string v.typeName) m := by
  rw [readName_apply] at h
  have heval : evalExpr k env (.unary .typeName (.ident x)) m =
      .ok (.string ((m.lookup? x env.chain).elim "undefined" Value.typeName)) m := by
    rfl
  rw [heval]
  cases hl : m.lookup? x env.chain with
  | none =>
    rw [hl] at h
    cases h
  | some u =>
    rw [hl] at h
    cases h
    rfl

theorem evalExpr_typeName (k : Engine) (env : Env) {e : Expr} (hx : ∀ x, e ≠ .ident x) :
    evalExpr k env (.unary .typeName e) = evalExpr k env e >>= applyUnary .typeName := by
  cases e with
  | ident x => exact absurd rfl (hx x)
  | _ => simp only [evalExpr]

theorem stagesExpr_typeName (he : StagesExpr sp k e) : StagesExpr sp k (.unary .typeName e) := by
  intro hoists p q h hlow hroom hsup htame n a env env' hn hp
  have := k.rising
  obtain ⟨h₀, rfl, hl₀⟩ := Lower.map_eq_ok.1 hlow
  have hst := he hl₀ (fun h => by simpa using hroom h) hsup htame.tail hn hp
  have hform := (hoistedWell_of_eq_ok hsup.fits htame.tail.lowerable hl₀).form
  by_cases hident : ∃ x, e = .ident x
  · obtain ⟨x, rfl⟩ := hident
    cases hl₀
    have hx : ¬ S.temp x := htame.tail.head.names x (by simp [Visit.names])
    refine .nothing (Or.inr ⟨rfl, fun d hd => ?_⟩)
    have hlook := d.lookup? hx (hp.mono hd.world).chains
    rw [← hd.left]
    refine .gives d _ _ (.refl n _ d) (by rw [evalExpr]; rfl) (.of_eq fun i => by rw [evalExpr]; rfl) ?_
    generalize d.left.lookup? x env.chain = v, d.right.lookup? x env'.chain = v' at hlook
    cases hlook with
    | none => exact .string _
    | some h =>
      simp only [Option.elim_some, h.typeName]
      exact .string _
  · rw [evalExpr_typeName k.left env fun x hx => hident ⟨x, hx⟩, Run.bind_apply]
    refine hst.map _ fun c hl hc => Or.inr ⟨rfl, fun d hd => ?_⟩
    by_cases hvalue : ∃ x, h₀.value = .ident x
    · -- Only a temporary can have taken the place of something else, and a temporary is bound.
      obtain ⟨x, hx⟩ := hvalue
      rw [hx] at hc ⊢
      have hissued := (hform.name x hx).resolve_left fun h => hident ⟨x, h⟩
      obtain ⟨v, hv, hheld⟩ := hc.done (by simp [Surroundings.isInert, Names.isIssued, hissued])
      have hnext : c.left.nextId = d.left.nextId := by rw [hd.left]
      obtain ⟨b, v', hnear, hb, heval, ha⟩ :=
        (hheld.near hd).eval ((hp.mono hl.world).mono hd.world) (Nat.le_of_eq hnext)
      have hread : readName env' x d.right = .ok v' b.right := by simpa only [evalExpr] using heval k.left
      rw [hv, Result.andThen_ok, ← hd.left]
      refine .gives d (.string v.typeName) (.string v'.typeName) (.refl n _ d) rfl
        (.of_eq fun i => evalExpr_typeName_of_readName hread (k.right i)) ?_
      rw [ha.typeName]
      exact .string _
    · simp only [evalExpr_typeName _ env' fun x hx => hvalue ⟨x, hx⟩]
      exact (hc.active (hp.mono hl.world) d hd).bind .refl
        fun b v v' _ _ hv => meets_applyUnary .typeName hv

/-! ## Leaves -/

/-- What has no parts is left as it is. -/
theorem stagesExpr_leaf (hlow : ∀ hoists, lowerExpr S.surroundings hoists e = pure ⟨[], e⟩)
    (h : S.Tames sp (e.walk .all) → ∀ {n : Nat} {names : Names} {a : Twin S} {env env' : Env},
      (∀ x ∈ names.issued, S.temp x) → Placed a.world env env' →
      Excused S a.left (evalExpr k.left env e a.left) ∨
        Ripe k n names a env env' (evalExpr k.left env e a.left) e) : StagesExpr sp k e := by
  intro hoists p q h₀ hlow' _ hsup htame n a env env' _ hp
  rw [hlow] at hlow'
  cases hlow'
  rcases h htame hsup.temps hp with hex | hripe
  · exact .excused hex
  · exact .nothing hripe

theorem stagesExpr_ident (x : String) : StagesExpr sp k (.ident x) := by
  refine stagesExpr_leaf (fun _ => by rw [lowerExpr] <;> simp) fun htame n names a env env' hnames hp => ?_
  have hx : ¬ S.temp x := htame.head.names x (by simp [Visit.names])
  have hactive : Active k n a env' (evalExpr k.left env (.ident x) a.left) (.ident x) := by
    intro d hd
    rw [← hd.left]
    exact meets_readName (hp.mono hd.world).chains hx
  cases hi : S.surroundings.isInert names (.ident x) with
  | false => exact Or.inr (Or.inr ⟨hi, hactive⟩)
  | true =>
    -- The name is no temporary, so it is one that is never bound anew.
    have hissued : names.isIssued x = false := by
      simpa [Names.isIssued] using fun hm => hx (hnames x hm)
    rw [Surroundings.isInert, hissued, Bool.false_or, Bool.not_eq_true', Bool.or_eq_false_iff] at hi
    have hsteady : S.Steady x := ⟨hi.1, by simpa using hi.2⟩
    rw [evalExpr, readName_apply]
    cases hlook : a.left.lookup? x env.chain with
    | none => exact Or.inl (excused_mistake (S.closed_faultless hi.1) _ _)
    | some v => exact Or.inr (Or.inl ⟨v, rfl, .steady hsteady hx hlook⟩)

theorem stagesExpr_number (x : Float) : StagesExpr sp k (.number x) :=
  stagesExpr_leaf (fun _ => by rw [lowerExpr] <;> simp) fun _ _ _ _ _ _ _ _ =>
    Or.inr (Or.inl ⟨.number x, by rw [evalExpr]; rfl, .number x⟩)

theorem stagesExpr_string (x : String) : StagesExpr sp k (.string x) :=
  stagesExpr_leaf (fun _ => by rw [lowerExpr] <;> simp) fun _ _ _ _ _ _ _ _ =>
    Or.inr (Or.inl ⟨.string x, by rw [evalExpr]; rfl, .string x⟩)

theorem stagesExpr_bool (x : Bool) : StagesExpr sp k (.bool x) :=
  stagesExpr_leaf (fun _ => by rw [lowerExpr] <;> simp) fun _ _ _ _ _ _ _ _ =>
    Or.inr (Or.inl ⟨.bool x, by rw [evalExpr]; rfl, .bool x⟩)

theorem stagesExpr_null : StagesExpr sp k .null :=
  stagesExpr_leaf (fun _ => by rw [lowerExpr] <;> simp) fun _ _ _ _ _ _ _ _ =>
    Or.inr (Or.inl ⟨.null, by rw [evalExpr]; rfl, .null⟩)

theorem stagesExpr_undefined : StagesExpr sp k .undefined :=
  stagesExpr_leaf (fun _ => by rw [lowerExpr] <;> simp) fun _ _ _ _ _ _ _ _ =>
    Or.inr (Or.inl ⟨.undefined, by rw [evalExpr]; rfl, .undefined⟩)

theorem stagesExpr_this : StagesExpr sp k .this :=
  stagesExpr_leaf (fun _ => by rw [lowerExpr] <;> simp) fun _ _ _ a _ _ _ _ =>
    Or.inr (Or.inl ⟨a.left.this, by rw [evalExpr]; rfl, .this⟩)

/-- Both sides give up at a `yield`. -/
theorem active_yield (n : Nat) (a : Twin S) (env env' : Env) (arg arg' : Option Expr) (delegate : Bool) :
    Active k n a env' (evalExpr k.left env (.yield arg delegate) a.left) (.yield arg' delegate) := by
  intro d hd
  rw [← hd.left]
  exact .fail _

theorem stagesExpr_yieldNone (delegate : Bool) : StagesExpr sp k (.yield none delegate) :=
  stagesExpr_leaf (fun _ => by rw [lowerExpr] <;> simp) fun _ _ _ a env env' _ _ =>
    Or.inr (Or.inr ⟨rfl, active_yield _ a env env' none none delegate⟩)

theorem stagesExpr_yieldSome (e : Expr) (delegate : Bool) : StagesExpr sp k (.yield (some e) delegate) := by
  intro hoists p q h hlow _ hsup htame n a env env' _ _
  obtain ⟨h₀, rfl, hl⟩ := Lower.map_eq_ok.1 hlow
  have hroom : e.hasAttempt = false := by simpa [Visit.yieldsPlain] using htame.head.yields
  have hb : h₀.before = [] := (lowerExpr_ahead hl).flat (by rw [hroom, Bool.and_false])
  simp only [hb, execAll]
  exact .nothing (Or.inr ⟨rfl, active_yield n a env env' _ _ delegate⟩)

/-- A function is made on the right when its turn comes. -/
theorem stagesExpr_func (hS : S.Lowers sp) (f : Func) : StagesExpr sp k (.func f) := by
  intro hoists p q h hlow _ hsup htame n a env env' hn _
  obtain ⟨f', rfl, hl⟩ := Lower.map_eq_ok.1 hlow
  have hfree (j : Nat) : ¬ a.world.ids a.left.nextId j := fun hj => Nat.lt_irrefl _ (a.agree.ids.lt_left hj)
  refine .stops a.nameLeft ((a.later_nameLeft n).within .none) (.of_eq fun _ => rfl)
    (Or.inl ⟨_, by rw [evalExpr]; rfl, ?_⟩)
  exact .func hn (Nat.lt_succ_self _) hfree (hS hl hsup htame.tail)

/-! ## Assignments to names and logical operators -/

theorem stagesExpr_assignIdent (x : String) (he : StagesExpr sp k e) : StagesExpr sp k (.assign (.ident x) e) := by
  intro hoists p q h hlow hroom hsup htame n a env env' hn hp
  have := k.rising
  obtain ⟨h₀, rfl, hl₀⟩ := Lower.map_eq_ok.1 hlow
  have hx : ¬ S.temp x := htame.tail.left.head.names x (by simp [Visit.names])
  have hsteady : ¬ S.Steady x := fun hs => hs.2 (htame.head.rebinds hs.1 x (by simp [Visit.rebinds]))
  rw [evalExpr, Run.bind_apply]
  rw [Expr.hasAttempt_assign] at hroom
  refine (he hl₀ (fun h => (Bool.or_eq_false_iff.1 (hroom h)).2) hsup htame.tail.right hn hp).map _
    fun c hl hc => Or.inr ⟨rfl, fun d hd => ?_⟩
  have hpd := (hp.mono hl.world).mono hd.world
  refine (hc.active (hp.mono hl.world) d hd).bind .refl fun b v v' hb _ hv => ?_
  refine (meets_assignName (hpd.mono hb.world).chains hx hsteady hv).seq fun o _ _ ho _ => ?_
  exact .pure (hv.mono ho.world)

end RaiseScript
