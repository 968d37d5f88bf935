import RaiseScript.Proofs.Drawn
import RaiseScript.Proofs.Spelled

/-!
# What lowering gives

Lowering a tree that is ready for it succeeds, and what comes out is clean (`lowerStmts_well` and
its companions). Beside that the induction keeps three facts that it needs itself : the supply of
names has grown, the count went up by the number of try expressions met, and the raises that stand
directly in a list of statements are the same before and after, so the notes on a try expression
still fit when its clauses have been lowered.

Statements are clean only once their raises are stored, because the temporary that a raise belongs
to is chosen after the clause around it was lowered.
-/

namespace RaiseScript

variable {e o : Expr} {p q : Progress} {s : Surroundings} {h : Hoisted} {args : List Expr}
  {ss : List Stmt} {noted : RaiseSites} {t : TryExpr} {st last : Stmt}

/-! ## Bookkeeping -/

/-- How many try expressions a walk meets. -/
def countAttempts (vs : List Visit) : Nat :=
  (vs.filterMap Visit.attempt?).length

@[simp] theorem countAttempts_nil : countAttempts [] = 0 := rfl

@[simp] theorem countAttempts_append (us vs : List Visit) :
    countAttempts (us ++ vs) = countAttempts us + countAttempts vs := by
  simp [countAttempts]

@[simp] theorem countAttempts_cons (v : Visit) (vs : List Visit) :
    countAttempts (v :: vs) = v.attempt?.toList.length + countAttempts vs := by
  cases h : v.attempt? <;> simp [countAttempts, h, Nat.add_comm]

attribute [simp] Visit.attempt?

theorem Expr.Strict.countAttempts {es : List Expr} (he : e.Strict es) :
    countAttempts (e.walk .all) = countAttempts (walkExprs .all es) := by
  cases he <;> simp [Expr.walk, walkExprs]

/-- What happens to the progress of a lowering that meets `n` try expressions. -/
structure Progress.Met (n : Nat) (p q : Progress) : Prop where
  grows : p.names.Grows q.names
  count : q.lowered = p.lowered + n

namespace Progress.Met

theorem refl (p : Progress) : Met 0 p p := ⟨.refl _, rfl⟩

theorem fresh (p : Progress) (role : String) : Met 0 p (p.afterFresh role) :=
  ⟨.fresh _ role, rfl⟩

theorem trans {m n : Nat} {r : Progress} (h : Met m p q) (h' : Met n q r) : Met (m + n) p r :=
  ⟨h.grows.trans h'.grows, by rw [h'.count, h.count, Nat.add_assoc]⟩

end Progress.Met

/-- All nodes of a walk are ready and spelled. -/
def Lowerable (sp : Spelling) (vs : List Visit) : Prop :=
  ∀ v ∈ vs, v.Ready ∧ v.Spelled sp

section

variable {sp : Spelling}

@[simp] theorem lowerable_nil : Lowerable sp [] := by
  simp [Lowerable]

@[simp] theorem lowerable_cons (v : Visit) (vs : List Visit) :
    Lowerable sp (v :: vs) ↔ (v.Ready ∧ v.Spelled sp) ∧ Lowerable sp vs := by
  simp [Lowerable]

@[simp] theorem lowerable_append (us vs : List Visit) :
    Lowerable sp (us ++ vs) ↔ Lowerable sp us ∧ Lowerable sp vs :=
  List.forall_mem_append

end

/-! ## Lowerings that succeed -/

section

variable (sp : Spelling)

/-- When the nodes are ready, the lowering succeeds and counts the try expressions among them, and
the result has the property. -/
def Lowers {α : Type} (vs : List Visit) (x : Lower α) (P : α → Progress → Prop) : Prop :=
  Lowerable sp vs → ∀ p : Progress, sp.Fits p.names →
    ∃ r q, x p = .ok (r, q) ∧ Progress.Met (countAttempts vs) p q ∧ P r q

end

namespace Lowers

variable {sp : Spelling} {α β : Type} {us vs : List Visit} {x : Lower α} {f : α → Lower β}
  {P : α → Progress → Prop} {Q : β → Progress → Prop}

theorem pure {r : α} (h : ∀ p, P r p) : Lowers sp [] (Pure.pure r) P :=
  fun _ p _ => ⟨r, p, rfl, .refl p, h p⟩

theorem bind (hx : Lowers sp us x P) (hf : ∀ r q, P r q → Lowers sp vs (f r) Q) :
    Lowers sp (us ++ vs) (x >>= f) Q := by
  intro hl p hp
  rw [lowerable_append] at hl
  obtain ⟨r, q, hr, hm, hP⟩ := hx hl.1 p hp
  obtain ⟨b, q', hb, hn, hQ⟩ := hf r q hP hl.2 q (hp.grows hm.grows)
  exact ⟨b, q', by rw [Lower.bind_ok hr, hb], countAttempts_append us vs ▸ hm.trans hn, hQ⟩

theorem of_eq_ok (hx : Lowers sp vs x P) {r : α} (hp : sp.Fits p.names) (hl : Lowerable sp vs)
    (hr : x p = .ok (r, q)) : P r q := by
  obtain ⟨r', q', hr', -, h⟩ := hx hl p hp
  cases hr.symm.trans hr'
  exact h

/-- A last step. -/
theorem map (hx : Lowers sp vs x P) (hf : ∀ r q, P r q → ∃ b, f r = Pure.pure b ∧ Q b q) :
    Lowers sp vs (x >>= f) Q := by
  intro hl p hp
  obtain ⟨r, q, hr, hm, hP⟩ := hx hl p hp
  obtain ⟨b, hb, hQ⟩ := hf r q hP
  exact ⟨b, q, by rw [Lower.bind_ok hr, hb]; rfl, hm, hQ⟩

/-- A node above the others. -/
theorem node {v : Visit} (hv : v.attempt? = none) (hx : v.Ready → v.Spelled sp → Lowers sp vs x P) :
    Lowers sp (v :: vs) x P := by
  intro hl p hp
  rw [lowerable_cons] at hl
  have hcount : countAttempts (v :: vs) = countAttempts vs := by
    rw [countAttempts_cons, hv, Option.toList_none, List.length_nil, Nat.zero_add]
  exact hcount ▸ hx hl.1.1 hl.1.2 hl.2 p hp

/-- What every supply that fits brings along. -/
theorem fits (hx : ∀ names, sp.Fits names → Lowers sp vs x P) : Lowers sp vs x P :=
  fun hl p hp => hx p.names hp hl p hp

/-- An operand is clean after it was settled. -/
theorem settle (follows : Bool) (hb : Clean sp (walkStmts .all h.before))
    (hv : Clean sp (h.value.walk .all)) : Lowers sp [] (RaiseScript.settle s follows h) fun h' _ =>
      Clean sp (walkStmts .all h'.before) ∧ Clean sp (h'.value.walk .all) := by
  intro _ p hf
  cases follows with
  | false => exact ⟨h, p, rfl, .refl p, hb, hv⟩
  | true =>
    cases hi : s.isInert p.names h.value with
    | true => exact ⟨h, p, spill_eq_ok.2 (Or.inl ⟨hi, rfl, rfl⟩), .refl p, hb, hv⟩
    | false =>
      have hn : sp.name (p.names.fresh "spill").1 := hf.fresh (by simp)
      refine ⟨_, _, spill_eq_ok.2 (Or.inr ⟨hi, rfl, rfl⟩), .fresh p "spill", ?_, ?_⟩
      · simp [walkStmts, Stmt.walk, walkDecls, hb, hv, Visit.Clean, Visit.extension?, Visit.Spelled, hn]
      · simp [Expr.walk, Visit.Clean, Visit.extension?, Visit.Spelled, hn]

end Lowers

/-! ## What is said of each part -/

variable (sp : Spelling) (s : Surroundings)

/-- The outcome of lowering an expression. -/
structure HoistedWell (e : Expr) (h : Hoisted) (q : Progress) : Prop where
  before : Clean sp (walkStmts .all h.before)
  value : Clean sp (h.value.walk .all)
  form : KeepsForm e h.value q.names

/-- The outcome of lowering operands. -/
structure OperandsWell (es : List Expr) (r : List Stmt × List Expr) : Prop where
  before : Clean sp (walkStmts .all r.1)
  values : Clean sp (walkExprs .all r.2)
  length : r.2.length = es.length

/-- The outcome of lowering statements. -/
structure StmtsWell (ss : List Stmt) (ss' : List Stmt) : Prop where
  sites : ∀ c, raiseSites c (walkStmts .surface ss') = raiseSites c (walkStmts .surface ss)
  clean : ∀ t, sp.name t → Clean sp (walkStmts .all (storeAll t ss'))

/-- The outcome of lowering the cases of a switch. -/
structure CasesWell (cs : List Case) (cs' : List Case) : Prop where
  sites : ∀ c, raiseSites c (walkCases .surface cs') = raiseSites c (walkCases .surface cs)
  clean : ∀ t, sp.name t → Clean sp (walkCases .all (storeInCases t cs'))
  defaults : ∀ t, (storeInCases t cs').countP (·.test.isNone) = cs.countP (·.test.isNone)

/-- The outcome of lowering a catch clause. -/
structure HandlerWell (h : Option Handler) (h' : Option Handler) : Prop where
  sites : ∀ c, raiseSites c (walkHandler .surface h') = raiseSites c (walkHandler .surface h)
  clean : ∀ t, sp.name t → Clean sp (walkHandler .all (storeInHandler t h'))
  params : ∀ t, (storeInHandler t h').map (·.param) = h.map (·.param)

/-- The outcome of lowering a finally block. -/
structure BlockWell (b : Option (List Stmt)) (b' : Option (List Stmt)) : Prop where
  sites : ∀ c, raiseSites c (walkBlock .surface b') = raiseSites c (walkBlock .surface b)
  clean : ∀ t, sp.name t → Clean sp (walkBlock .all (storeInBlock t b'))
  isSome : b'.isSome = b.isSome

/-- The expression can be lowered. -/
def LowersExpr (e : Expr) : Prop :=
  ∀ hoists, Lowers sp (e.walk .all) (lowerExpr s hoists e) (HoistedWell sp e)

/-- The operands can be lowered. -/
def LowersExprs (es : List Expr) : Prop :=
  ∀ hoists, Lowers sp (walkExprs .all es) (lowerOperands s hoists es) fun r _ => OperandsWell sp es r

/-- The function can be lowered. -/
def LowersFunc (f : Func) : Prop :=
  Lowers sp (f.walk .all) (lowerFunc s f) fun f' _ =>
    Clean sp (f'.walk .all) ∧ f'.name = f.name ∧ f'.form = f.form

/-- The statement can be lowered. -/
def LowersStmt (st : Stmt) : Prop :=
  Lowers sp (st.walk .all) (lowerStmt s st) fun ss _ => StmtsWell sp [st] ss

/-- The statements can be lowered. -/
def LowersStmts (ss : List Stmt) : Prop :=
  Lowers sp (walkStmts .all ss) (lowerStmts s ss) fun ss' _ => StmtsWell sp ss ss'

/-- The rest of a declaration can be lowered, whatever is ready of it. -/
def LowersDecls (kind : BindingKind) (span : Span) (ds : List Declarator) : Prop :=
  ∀ ready : List Declarator, ready ++ ds ≠ [] → Clean sp (walkDecls .all ready) →
    (∀ d ∈ ready ++ ds, sp.name d.name ∧ (kind = .constant → d.init.isSome)) →
    Lowers sp (walkDecls .all ds) (lowerDecls s kind span ready ds) fun ss _ =>
      Clean sp (walkStmts .all ss)

/-- The finally block can be lowered. -/
def LowersBlock (b : Option (List Stmt)) : Prop :=
  Lowers sp (walkBlock .all b) (lowerBlock s b) fun b' _ => BlockWell sp b b'

/-! ## Expressions -/

section

variable {sp s}

attribute [local simp] Visit.Clean Visit.extension? Visit.Spelled

theorem clean_guard (op : LogicalOp) {x : String} (hx : sp.name x) :
    Clean sp ((op.guard (.ident x)).walk .all) := by
  cases op <;> simp [LogicalOp.guard, Expr.walk, hx]

theorem lowersExpr_logical (op : LogicalOp) {a b : Expr} (ha : LowersExpr sp s a)
    (hb : LowersExpr sp s b) : LowersExpr sp s (.logical op a b) := by
  intro hoists
  refine .node rfl fun _ _ => (ha hoists).bind fun h _ hh => ?_
  split
  · intro hl p hf
    have hn : sp.name (p.names.fresh "cond").1 := hf.fresh (by simp)
    have hm := Progress.Met.fresh p "cond"
    obtain ⟨h', q, hq, hm', hh'⟩ := hb hoists hl _ (hf.grows hm.grows)
    refine ⟨shortCircuit op (p.names.fresh "cond").1 h h', q, ?_, ?_, ?_, ?_, ?_⟩
    · rw [Lower.bind_ok (freshName_apply "cond" p), Lower.bind_ok hq]
      rfl
    · simpa using hm.trans hm'
    · simp [shortCircuit, walkStmts, Stmt.walk, walkDecls, Expr.walk, hh.before, hh.value,
        hh'.before, hh'.value, clean_guard op hn, hn,
        Expr.isTarget]
    · simp [shortCircuit, Expr.walk, hn]
    · refine ⟨by simp [shortCircuit, Expr.isPlace], ?_⟩
      rintro x ⟨⟩
      exact Or.inr (hm'.grows.issued List.mem_cons_self)
  · refine (hb hoists).map fun h' _ hh' => ⟨_, rfl, ?_, ?_, id, by simp⟩
    · simp [hh.before, hh'.before]
    · simp [Expr.walk, hh.value, hh'.value]

theorem clean_callWith {callee receiver : Expr} (hcall : sp.property "call")
    (hc : Clean sp (callee.walk .all)) (hr : Clean sp (receiver.walk .all))
    (ha : Clean sp (walkExprs .all args)) :
    Clean sp ((callWith callee receiver args).walk .all) := by
  simp [callWith, Expr.walk, walkExprs, hcall, hc, hr, ha]

theorem lowers_lowerBound {f object : Expr} {callee : Hoisted} (hoists waits : Bool)
    (hcall : sp.property "call") (ha : LowersExprs sp s args) (ho : Clean sp (object.walk .all))
    (hc : Clean sp (walkStmts .all callee.before) ∧ Clean sp (callee.value.walk .all)) :
    Lowers sp (walkExprs .all args) (lowerBound s hoists waits callee object args)
      (HoistedWell sp (.call f args)) := by
  unfold lowerBound
  split
  · refine (Lowers.settle true hc.1 hc.2).bind fun c _ hc => (ha hoists).map fun r _ hr => ⟨_, rfl, ?_, ?_, ?_⟩
    · simp [hc.1, hr.before]
    · exact clean_callWith hcall hc.2 ho hr.values
    · exact ⟨by simp [callWith, Expr.isPlace], by simp [callWith]⟩
  · refine (ha hoists).map fun r _ hr => ⟨_, rfl, ?_, ?_, id, by simp⟩
    · simp [hc.1, hr.before]
    · rw [Expr.walk, clean_cons, clean_append]
      exact ⟨⟨rfl, trivial⟩, hc.2, hr.values⟩

theorem lowersExpr_callMember (x : String) (ho : LowersExpr sp s o) (ha : LowersExprs sp s args) :
    LowersExpr sp s (.call (.member o x) args) := by
  intro hoists
  refine .fits fun names hf => .node rfl fun _ _ => .node rfl fun _ hx => (ho hoists).bind fun h _ hh => ?_
  refine (Lowers.settle _ hh.before hh.value).bind fun h _ hh => lowers_lowerBound hoists _ hf.call ha hh.2 ?_
  have hx : sp.property x := hx
  simp [Expr.walk, hh, hx]

theorem lowersExpr_callIndex {i : Expr} (ho : LowersExpr sp s o) (hi : LowersExpr sp s i)
    (ha : LowersExprs sp s args) : LowersExpr sp s (.call (.index o i) args) := by
  intro hoists
  rw [lowerExpr, Expr.walk, Expr.walk, List.cons_append, List.append_assoc]
  refine .fits fun names hf => .node rfl fun _ _ => .node rfl fun _ _ => (ho hoists).bind fun h _ hh => ?_
  refine (Lowers.settle _ hh.before hh.value).bind fun h _ hh => (hi hoists).bind fun h' _ hh' => ?_
  refine lowers_lowerBound hoists _ hf.call ha hh.2 ?_
  simp [Expr.walk, hh, hh'.before, hh'.value]

/-! ## Functions and try expressions -/

/-- The body of a function raises nothing, so there is nothing to store in it. -/
theorem StmtsWell.clean_of_sites {ss' : List Stmt} {names : Names} (h : StmtsWell sp ss ss')
    (hf : sp.Fits names) (hs : sitesIn .body ss = []) : Clean sp (walkStmts .all ss') := by
  have hself : storeAll (names.fresh "raise").1 ss' = ss' :=
    storeAll_eq_self _ .body ss' ((h.sites .body).trans hs)
  rw [← hself]
  exact h.clean _ (hf.fresh (by simp))

theorem checkOwned_of_sites (h : t.sites = noted) : checkOwned noted t = .ok () := by
  have hnone : noted.all.find? (fun site => !noted.all.any (·.id == site.id)) = none := by
    rw [List.find?_eq_none]
    intro site hsite
    simp only [Bool.not_eq_true', Bool.not_eq_false, List.any_eq_true, beq_iff_eq]
    exact ⟨site, hsite, rfl⟩
  simp [checkOwned, h, hnone]

/-- Valid try expressions whose raises are those noted can be lowered. -/
theorem lowerNode_ok (names : Names) (hv : t.verdict = some .valid) (hr : t.raises = some noted)
    (hs : t.sites = noted) :
    lowerNode t names = .ok (t.stored (names.fresh "raise").1, (names.fresh "raise").2) := by
  simp only [lowerNode, hv, hr, Option.getD_some, checkOwned_of_sites hs]
  rfl

/-- The statements that stand for a try expression are clean. -/
theorem clean_stored {temp : String} (hn : sp.name temp) (ht : (Visit.attempt t).Spelled sp)
    (hb : Clean sp (walkStmts .all (storeAll temp t.body)))
    (hc : Clean sp (walkStmts .all (storeAll temp t.catchBody)))
    (hf : Clean sp (walkBlock .all (storeInBlock temp t.finallyBody))) :
    Clean sp (walkStmts .all [(t.stored temp).declaration, (t.stored temp).statement]) := by
  have hdecl : (Visit.stmt (declareEmpty temp t.span)).Clean sp := ⟨rfl, by simp, by simp [hn]⟩
  have hguarded : (Visit.stmt (t.stored temp).statement).Clean sp := ⟨rfl, Or.inl rfl, by simpa using ht.1⟩
  have hfinal : Clean sp (walkBlock .all (t.finallyBody.map fun body =>
      (t.finallyParam.toList.map fun param =>
        Stmt.declare .mutable [⟨param, some (.ident temp)⟩] t.span) ++ storeAll temp body)) := by
    cases hbody : t.finallyBody with
    | none => simp [walkBlock]
    | some body =>
      rw [hbody] at hf
      cases hparam : t.finallyParam with
      | none => simpa [walkBlock, storeInBlock] using hf
      | some param =>
        have hp : sp.name param := ht.2.1 param (by simp [hparam])
        simpa [walkBlock, storeInBlock, walkStmts, Stmt.walk, walkDecls, Expr.walk, hp, hn] using hf
  simp only [walkStmts, TryExpr.stored, declareEmpty, Stmt.walk, walkDecls, walkHandler,
    List.append_nil, clean_append, clean_cons]
  exact ⟨⟨hdecl, clean_nil⟩, hguarded, ⟨hb, hc⟩, hfinal⟩

/-- A wrapped try expression is clean when its statements are. -/
theorem clean_wrapped {l : LoweredAttempt} (span : Span) (hcall : sp.property "call")
    (hn : sp.name l.temp) (hl : Clean sp (walkStmts .all [l.declaration, l.statement])) :
    Clean sp ((l.wrapped span).walk .all) := by
  have hfunc (isAsync : Bool) (form : FuncForm) : Clean sp ((Expr.func ⟨none, [],
      .block [l.declaration, l.statement, .ret (some l.reference) span], isAsync, form, span⟩).walk
        .all) := by
    simp only [walkStmts, List.append_nil, clean_append] at hl
    simp [Expr.walk, Func.walk, walkStmts, Stmt.walk, LoweredAttempt.reference, hl, hn]
  have hthis : Clean sp (Expr.this.walk .all) := by
    simp [Expr.walk]
  simp only [LoweredAttempt.wrapped]
  split
  · rw [Expr.walk, clean_cons]
    exact ⟨⟨rfl, by simp [Visit.Spelled]⟩, clean_callWith hcall (hfunc _ _) hthis (by simp [walkExprs])⟩
  · have hcalled (isAsync : Bool) (form : FuncForm) : Clean sp ((Expr.call (.func ⟨none, [],
        .block [l.declaration, l.statement, .ret (some l.reference) span], isAsync, form, span⟩)
          []).walk .all) := by
      rw [Expr.walk, clean_cons, clean_append]
      exact ⟨⟨rfl, trivial⟩, hfunc _ _, by simp [walkExprs]⟩
    split
    · rw [Expr.walk, clean_cons]
      exact ⟨⟨rfl, trivial⟩, hcalled _ _⟩
    · exact hcalled _ _

/-- A wrapped try expression is a call, awaited or yielded. -/
theorem keepsForm_wrapped (e : Expr) (l : LoweredAttempt) (span : Span) (names : Names) :
    KeepsForm e (l.wrapped span) names := by
  unfold LoweredAttempt.wrapped
  dsimp only
  split
  · exact ⟨by simp [Expr.isPlace], by simp⟩
  · split <;> exact ⟨by simp [Expr.isPlace], by simp⟩

theorem sitesIn_getD (c : Clause) (b : Option (List Stmt)) :
    sitesIn c (b.getD []) = raiseSites c (walkBlock .surface b) := by
  cases b <;> rfl

theorem lowerAttempt_ok (p : Progress) (hv : t.verdict = some .valid) (hr : t.raises = some noted)
    (hs : t.sites = noted) :
    lowerAttempt t p = .ok (t.stored (p.names.fresh "raise").1, ⟨(p.names.fresh "raise").2, p.lowered + 1⟩) := by
  rw [lowerAttempt_apply, lowerNode_ok p.names hv hr hs]
  rfl

theorem lowersExpr_attempt (t : TryExpr) (hb : LowersStmts sp s t.body) (hc : LowersStmts sp s t.catchBody)
    (hfin : LowersBlock sp s t.finallyBody) : LowersExpr sp s (.attempt t) := by
  intro hoists hl p hf
  simp only [Expr.walk, TryExpr.walk_all, lowerable_cons, lowerable_append] at hl
  obtain ⟨-, ⟨⟨hvalid, hnoted⟩, hspelled⟩, ⟨hlb, hlc⟩, hlf⟩ := hl
  obtain ⟨body, q₁, hq₁, hm₁, hw₁⟩ := hb hlb p hf
  obtain ⟨catchBody, q₂, hq₂, hm₂, hw₂⟩ := hc hlc q₁ (hf.grows hm₁.grows)
  obtain ⟨finallyBody, q₃, hq₃, hm₃, hw₃⟩ := hfin hlf q₂ (hf.grows (hm₁.trans hm₂).grows)
  have hmet := (hm₁.trans hm₂).trans hm₃
  have hsites : TryExpr.sites { t with body, catchBody, finallyBody } = t.sites := by
    simp only [TryExpr.sites, sitesIn_getD, hw₃.sites .finalizer]
    rw [sitesIn_eq, sitesIn_eq, hw₁.sites .body, hw₂.sites .handler]
    rfl
  have hn : sp.name (q₃.names.fresh "raise").1 := (hf.grows hmet.grows).fresh (by simp)
  have hspelled' : (Visit.attempt { t with body, catchBody, finallyBody }).Spelled sp :=
    ⟨hspelled.1, hspelled.2.1, fun hp => hw₃.isSome.trans (hspelled.2.2 hp)⟩
  have hclean := clean_stored hn hspelled' (hw₁.clean _ hn) (hw₂.clean _ hn) (hw₃.clean _ hn)
  have hnode := lowerAttempt_ok q₃ (t := { t with body, catchBody, finallyBody }) hvalid hnoted hsites
  have hmet : Progress.Met (countAttempts ((Expr.attempt t).walk .all)) p
      ⟨(q₃.names.fresh "raise").2, q₃.lowered + 1⟩ := by
    refine ⟨hmet.grows.trans (.fresh _ "raise"), ?_⟩
    simp only [Expr.walk, TryExpr.walk_all, countAttempts_cons, countAttempts_append,
      Visit.attempt?, Option.toList_none, Option.toList_some, List.length_nil, List.length_singleton, hmet.count]
    omega
  rw [lowerExpr_attempt, Lower.bind_ok hq₁, Lower.bind_ok hq₂, Lower.bind_ok hq₃, Lower.bind_ok hnode]
  cases hoists with
  | true =>
    refine ⟨_, _, rfl, hmet, hclean, ?_, by simp [Expr.isPlace, LoweredAttempt.reference], ?_⟩
    · simp [LoweredAttempt.reference, TryExpr.stored, Expr.walk, hn]
    · rintro x ⟨⟩
      exact Or.inr List.mem_cons_self
  | false =>
    exact ⟨_, _, rfl, hmet, by simp [walkStmts], clean_wrapped _ hf.call hn hclean, keepsForm_wrapped _ _ _ _⟩

/-! ## Statements -/

/-- A statement with clean ones in front of it. -/
theorem StmtsWell.of_last {before : List Stmt} (hb : Clean sp (walkStmts .all before))
    (hs : ∀ c, raiseSites c (last.walk .surface) = raiseSites c (st.walk .surface))
    (hc : ∀ t, sp.name t → Clean sp ((last.storeRaises t).walk .all)) :
    StmtsWell sp [st] (before ++ [last]) where
  sites c := by simp [walkStmts, hb.sites c, hs c]
  clean t ht := by simp [walkStmts, storeAll, hb.storeAll t, hb, hc t ht]

theorem StmtsWell.of_single (hs : ∀ c, raiseSites c (last.walk .surface) = raiseSites c (st.walk .surface))
    (hc : ∀ t, sp.name t → Clean sp ((last.storeRaises t).walk .all)) : StmtsWell sp [st] [last] :=
  StmtsWell.of_last (show Clean sp (walkStmts .all []) from clean_nil) hs hc

theorem StmtsWell.asBranch_sites (span : Span) (h : StmtsWell sp [st] ss) (c : Clause) :
    raiseSites c ((asBranch span ss).walk .surface) = raiseSites c (st.walk .surface) := by
  simpa [walkStmts] using h.sites c

theorem lowersDecls_some {kind : BindingKind} {span : Span} {x : String} {ds : List Declarator}
    (he : LowersExpr sp s e) (hds : LowersDecls sp s kind span ds) :
    LowersDecls sp s kind span (⟨x, some e⟩ :: ds) := by
  intro ready hne hc hd
  obtain ⟨hr, hd⟩ := List.forall_mem_append.1 hd
  rw [List.forall_mem_cons] at hd
  refine (he true).bind fun h _ hh => ?_
  split
  · refine (hds [⟨x, some h.value⟩] (by simp) (by simp [walkDecls, hh.value])
      (List.forall_mem_cons.2 ⟨by simpa using hd.1, hd.2⟩)).map fun ss _ hss => ⟨_, rfl, ?_⟩
    rw [walkStmts_append, walkStmts_append, clean_append, clean_append]
    refine ⟨⟨?_, hh.before⟩, hss⟩
    cases ready with
    | nil => exact clean_nil
    | cons d ready =>
      simp only [List.isEmpty_cons, Bool.false_eq_true, if_false, walkStmts, Stmt.walk,
        List.append_nil, clean_cons]
      exact ⟨⟨rfl, by simp, hr⟩, hc⟩
  · refine hds (ready ++ [⟨x, some h.value⟩]) (by simp) (by simp [walkDecls, hc, hh.value]) ?_
    rw [List.append_assoc, List.forall_mem_append]
    exact ⟨hr, List.forall_mem_cons.2 ⟨by simpa using hd.1, hd.2⟩⟩

theorem lowersStmt_guarded {body : List Stmt} {handler : Option Handler}
    {finalizer : Option (List Stmt)} (span : Span) (hb : LowersStmts sp s body)
    (hh : Lowers sp (walkHandler .all handler) (lowerHandler s handler) fun h' _ =>
      HandlerWell sp handler h') (hfin : LowersBlock sp s finalizer) :
    LowersStmt sp s (.guarded body handler finalizer span) := by
  unfold LowersStmt
  rw [lowerStmt, Stmt.walk, List.append_assoc]
  refine .node rfl fun _ hspelled => hb.bind fun body' _ hw₁ => hh.bind fun handler' _ hw₂ =>
    hfin.map fun finalizer' _ hw₃ => ⟨_, rfl, .of_single (fun c => ?_) fun t ht => ?_⟩
  · simp [Stmt.walk, hw₁.sites c, hw₂.sites c, hw₃.sites c]
  · have hsome : (storeInHandler t handler').isSome = handler.isSome := by
      simpa using congrArg Option.isSome (hw₂.params t)
    have hfin' : (storeInBlock t finalizer').isSome = finalizer.isSome := by
      rw [← hw₃.isSome]
      cases finalizer' <;> rfl
    rw [Stmt.storeRaises, Stmt.walk, clean_cons, clean_append, clean_append]
    refine ⟨⟨rfl, by simpa only [hsome, hfin'] using hspelled.1, ?_⟩,
      ⟨hw₁.clean t ht, hw₂.clean t ht⟩, hw₃.clean t ht⟩
    intro h hmem x hx
    have hmap := hw₂.params t
    rw [hmem, Option.map_some, eq_comm, Option.map_eq_some_iff] at hmap
    obtain ⟨h₀, hh₀, hp⟩ := hmap
    exact hspelled.2 h₀ hh₀ x (hp ▸ hx)

end

/-! ## The walk -/

attribute [local simp] Stmt.storeRaises storeAll Stmt.walk Expr.walk walkStmts walkCases Visit.Clean
  Visit.extension? Visit.Spelled Expr.isTarget

/-- Every part can be lowered when its own parts can. -/
theorem lowersRules : LoweringRules (LowersExpr sp s) (LowersExprs sp s) (LowersFunc sp s)
    (LowersStmt sp s) (LowersDecls sp s)
    (fun cs => Lowers sp (walkCases .all cs) (lowerCases s cs) fun cs' _ => CasesWell sp cs cs')
    (fun h => Lowers sp (walkHandler .all h) (lowerHandler s h) fun h' _ => HandlerWell sp h h')
    (LowersBlock sp s) (LowersStmts sp s) where
  leaf he hoists := by
    rw [lowerExpr_leaf s hoists he, he.walk]
    refine .node (by cases he <;> rfl) fun _ hspelled => .pure fun p => ⟨clean_nil, ?_, id, fun _ => Or.inl⟩
    rw [he.walk]
    simpa using hspelled
  strict {e es} he _ hes hoists := by
    rw [lowerExpr_strict s hoists he]
    intro hl p hf
    have hspelled : ∀ v ∈ e.walk .all, v.Spelled sp := fun v hv => (hl v hv).2
    rw [he.countAttempts]
    refine (hes hoists).map (fun r q hr => ⟨_, rfl, hr.before, ?_, ?_⟩) (fun v hv => hl v (he.mem_walk hv)) p hf
    · exact he.clean_withOperands hspelled hr.length hr.values
    · exact he.keepsForm hr.length _
  logical op := lowersExpr_logical op
  assignIdent x he hoists := by
    refine .node rfl fun _ _ => .node rfl fun _ hx => (he hoists).map fun h _ hh =>
      ⟨_, rfl, hh.before, ?_, id, by simp⟩
    have hx : sp.name x := hx
    simp [hh.value, hx]
  assign {target e} htarget _ _ _ hl := by
    -- Nothing else is a target.
    have ht : target.isTarget = true := (hl (.expr (.assign target e)) (by simp)).2
    rw [htarget] at ht
    cases ht
  callMember x := lowersExpr_callMember x
  callIndex := lowersExpr_callIndex
  func hfunc hoists := by
    rw [lowerExpr, Expr.walk]
    refine .node rfl fun _ _ => hfunc.map fun f' _ hf => ⟨_, rfl, clean_nil, ?_, id, by simp⟩
    simp [hf.1]
  attempt := lowersExpr_attempt
  nilExprs _ := .pure fun _ => ⟨clean_nil, clean_nil, rfl⟩
  consExprs he hes hoists := by
    rw [lowerOperands, walkExprs]
    refine (he hoists).bind fun h _ hh => (Lowers.settle _ hh.before hh.value).bind fun h _ hh =>
      (hes hoists).map fun r _ hr => ⟨_, rfl, ?_, ?_, ?_⟩
    · simp [hh.1, hr.before]
    · simp [walkExprs, hh.2, hr.values]
    · simp [hr.length]
  funcBlock hbody := by
    unfold LowersFunc
    rw [lowerFunc, Func.walk]
    refine .fits fun names hf => .node rfl fun hready hspelled => hbody.map fun ss _ hss => ⟨_, rfl, ?_, rfl, rfl⟩
    simp only [Func.walk, Reach.functions_all, if_true, clean_cons]
    refine ⟨⟨rfl, hspelled.1, hspelled.2.1, hspelled.2.2.1, by simp⟩, ?_⟩
    exact hss.clean_of_sites hf (hready .body)
  funcExpr {_ _ value _ _ _} hvalue := by
    unfold LowersFunc
    rw [lowerFunc, Func.walk]
    refine .node rfl fun _ hspelled => (hvalue false).map fun h _ hh => ⟨_, rfl, ?_, rfl, rfl⟩
    simp only [Func.walk, Reach.functions_all, if_true, clean_cons]
    refine ⟨⟨rfl, hspelled.1, hspelled.2.1, hspelled.2.2.1, fun _ _ => ?_⟩, hh.value⟩
    exact hspelled.2.2.2 value rfl
  leafStmt {st} hst := by
    unfold LowersStmt
    rw [lowerStmt_leaf s hst, hst.walk]
    refine .node (by cases hst <;> rfl) fun _ hspelled => .pure fun _ => .of_single (fun _ => rfl) fun t _ => ?_
    have hstore : st.storeRaises t = st := by cases hst <;> rfl
    have hext : (Visit.stmt st).extension? = none := by cases hst <;> rfl
    rw [hstore, hst.walk, clean_cons]
    exact ⟨⟨hext, hspelled⟩, clean_nil⟩
  around {make e} hm he := by
    unfold LowersStmt
    rw [lowerStmt_around s hm, hm.walk]
    refine .node (by cases hm <;> rfl) fun _ _ => (he true).map fun h _ hh =>
      ⟨_, rfl, .of_last hh.before (fun c => ?_) fun t ht => ?_⟩
    · have hsites : (Visit.stmt (make h.value)).raiseSite? c = (Visit.stmt (make e)).raiseSite? c := by
        cases hm <;> rfl
      rw [hm.walk, hm.walk, raiseSites_cons, raiseSites_cons, hsites, raiseSites_expr, raiseSites_expr]
    · have hvalue := hh.value
      cases hm <;> simp [hvalue, ht]
  declare hds := by
    unfold LowersStmt
    rw [lowerStmt, Stmt.walk]
    refine .node rfl fun _ hspelled hl p hf => ?_
    obtain ⟨ss, q, hq, hm, hc⟩ := hds [] (by simpa using hspelled.1) clean_nil (by simpa using hspelled.2) hl p hf
    exact ⟨ss, q, hq, hm, fun c => by simp [hc.sites c], fun t _ => by rwa [hc.storeAll t]⟩
  block span hb := by
    unfold LowersStmt
    rw [lowerStmt, Stmt.walk]
    refine .node rfl fun _ _ => hb.map fun ss _ hss => ⟨_, rfl, .of_single (fun c => ?_) fun t ht => ?_⟩
    · simp [hss.sites c]
    · simp [hss.clean t ht]
  branch {e yes} span he hy := by
    unfold LowersStmt
    rw [lowerStmt, Stmt.walk]
    refine .node rfl fun _ _ => (he true).bind fun h _ hh => hy.map fun ss _ hss =>
      ⟨_, rfl, .of_last hh.before (fun c => ?_) fun t ht => ?_⟩
    · simp [← hss.asBranch_sites yes.span c]
    · simp [hh.value, hss.clean t ht]
  branchElse {e yes no} span he hy hn := by
    unfold LowersStmt
    rw [lowerStmt, Stmt.walk, List.append_assoc]
    refine .node rfl fun _ _ => (he true).bind fun h _ hh => hy.bind fun ss _ hss => hn.map fun ss' _ hss' =>
      ⟨_, rfl, .of_last hh.before (fun c => ?_) fun t ht => ?_⟩
    · simp [← hss.asBranch_sites yes.span c, ← hss'.asBranch_sites no.span c]
    · simp [hh.value, hss.clean t ht, hss'.clean t ht]
  loop {e body} span he hb := by
    unfold LowersStmt
    rw [lowerStmt, Stmt.walk]
    refine .node rfl fun _ _ => (he true).bind fun h _ hh => hb.map fun ss _ hss => ?_
    split
    · refine ⟨_, rfl, .of_single (fun c => ?_) fun t ht => ?_⟩
      · simp [testedInside, hh.before.sites c, ← hss.asBranch_sites body.span c]
      · simp [testedInside, hh.before.storeAll t, hh.before, hh.value, hss.clean t ht]
    · refine ⟨_, rfl, .of_single (fun c => ?_) fun t ht => ?_⟩
      · simp [← hss.asBranch_sites body.span c]
      · simp [hh.value, hss.clean t ht]
  switch {e cs} span he hcs := by
    unfold LowersStmt
    rw [lowerStmt, Stmt.walk]
    refine .node rfl fun _ hone => (he true).bind fun h _ hh => hcs.map fun cs' _ hw =>
      ⟨_, rfl, .of_last hh.before (fun c => ?_) fun t ht => ?_⟩
    · simp [hw.sites c]
    · have hone : cs.countP (·.test.isNone) ≤ 1 := hone
      simp [hh.value, hw.clean t ht, hw.defaults t, hone]
  guarded span := lowersStmt_guarded span
  funcStmt {f} hfunc := by
    unfold LowersStmt
    rw [lowerStmt, Stmt.walk]
    refine .node rfl fun _ hspelled => hfunc.map fun f' _ hf =>
      ⟨_, rfl, .of_single (fun c => by simp) fun t _ => ?_⟩
    have hs : f.name.isSome ∧ f.form ≠ .arrow := hspelled
    simp [hf, hs]
  nilDecls kind span ready hne hc hd := by
    rw [List.append_nil] at hne hd
    refine .pure fun _ => ?_
    simp only [walkStmts, Stmt.walk, List.append_nil, clean_cons]
    exact ⟨⟨rfl, hne, hd⟩, hc⟩
  bareDecl hds ready hne hc hd := by
    rw [lowerDecls, walkDecls]
    exact hds _ (by simp) (by simp [walkDecls, hc]) (by simpa using hd)
  consDecls := lowersDecls_some
  nilCases := .pure fun _ => ⟨fun _ => rfl, fun _ _ => clean_nil, fun _ => rfl⟩
  defaultCase hb hcs := by
    rw [lowerCases, walkCases]
    refine hb.bind fun ss _ hss => hcs.map fun cs' _ hw => ⟨_, rfl, fun c => ?_, fun t ht => ?_, fun t => ?_⟩
    · simp [hss.sites c, hw.sites c]
    · simp [storeInCases, hss.clean t ht, hw.clean t ht]
    · simp [storeInCases, hw.defaults t]
  consCases he hb hcs := by
    rw [lowerCases, walkCases, List.append_assoc]
    refine (he false).bind fun h _ hh => hb.bind fun ss _ hss => hcs.map fun cs' _ hw =>
      ⟨_, rfl, fun c => ?_, fun t ht => ?_, fun t => ?_⟩
    · simp [hss.sites c, hw.sites c]
    · simp [storeInCases, hh.value, hss.clean t ht, hw.clean t ht]
    · simp [storeInCases, hw.defaults t]
  noHandler := .pure fun _ => ⟨fun _ => rfl, fun _ _ => clean_nil, fun _ => rfl⟩
  handler param hb := by
    rw [lowerHandler]
    exact hb.map fun ss _ hss => ⟨_, rfl, hss.sites, hss.clean, fun _ => rfl⟩
  noBlock := .pure fun _ => ⟨fun _ => rfl, fun _ _ => clean_nil, rfl⟩
  finalizer hb := by
    unfold LowersBlock
    rw [lowerBlock]
    exact hb.map fun ss _ hss => ⟨_, rfl, hss.sites, hss.clean, rfl⟩
  nilStmts := .pure fun _ => ⟨fun _ => rfl, fun _ _ => clean_nil⟩
  consStmts hst hss := by
    unfold LowersStmts
    rw [lowerStmts, walkStmts]
    refine hst.bind fun ss _ hw => hss.map fun ss' _ hw' => ⟨_, rfl, fun c => ?_, fun t ht => ?_⟩
    · have hfirst := hw.sites c
      simp [hfirst, hw'.sites c]
    · simp [hw.clean t ht, hw'.clean t ht]

theorem lowersExpr (e : Expr) : LowersExpr sp s e :=
  (lowersRules sp s).onExpr e

theorem lowersStmt (st : Stmt) : LowersStmt sp s st :=
  (lowersRules sp s).onStmt st

/-- Statements that are ready can be lowered, and what comes of them is clean once their raises are
stored. -/
theorem lowersStmts (ss : List Stmt) : LowersStmts sp s ss :=
  (lowersRules sp s).onStmts ss

theorem hoistedWell_of_eq_ok {sp : Spelling} {s : Surroundings} {hoists : Bool}
    (hf : sp.Fits p.names) (he : Lowerable sp (e.walk .all))
    (hl : lowerExpr s hoists e p = .ok (h, q)) : HoistedWell sp e h q :=
  (lowersExpr sp s e hoists).of_eq_ok hf he hl

end RaiseScript
