import RaiseScript.Proofs.Transpiled

/-!
# Two lowerings in step

A tree is lowered beside the same tree at other places, with fewer notes, and with another supply of
names. As long as the names of the tree are taken in both supplies, the two lowerings ask for the
same temporaries in the same order, and they make the same choices. What comes out is the same but
for the places and for the names of the temporaries (`Lockstep.steps_stmts`).

Which name stands for which is known only at the end. So `Lockstep.Same` says of two results that
the second is the first one recast by every renaming that takes the names issued so far to those
issued on the other side.
-/

namespace RaiseScript

variable {r : String → String} {p p' : Progress} {b : Breach × Span} {x' : String} {t : TryExpr}
  {names : Names} {h h' : Hoisted} {o : Expr} {args : List Expr} {span : Span}

/-- What two lowerings have in common. -/
structure Lockstep where
  left : Names
  right : Names
  /-- The names of the tree. -/
  known : List String
  span : Span → Span
  keeps : NodeId → Bool
  nowhere : span .none = .none
  leftTaken : known ⊆ left.taken
  rightTaken : known ⊆ right.taken
  leftIssued : left.issued = []
  rightIssued : right.issued = []

namespace Lockstep

/-- What the renaming makes of the left tree. -/
def recast (w : Lockstep) (r : String → String) : Recast :=
  ⟨r, id, w.span, w.keeps⟩

variable (w : Lockstep)

/-- As far as the two sides have come, they are in step. -/
structure At (p p' : Progress) : Prop where
  names : w.left.InStep w.right p.names p'.names
  lowered : p'.lowered = p.lowered

/-- The renaming leaves the names of the tree and takes the names issued on the left to those issued
on the right. -/
structure Fits (r : String → String) (p p' : Progress) : Prop where
  known : ∀ x ∈ w.known, r x = x
  issued : p.names.issued.map r = p'.names.issued

variable {w}

/-- The two sides go on in step. -/
abbrev Later (p p' q q' : Progress) : Prop :=
  p.names.InStep p'.names q.names q'.names

theorem Fits.earlier {q q' : Progress} (h : w.Fits r q q') (hl : Later p p' q q') : w.Fits r p p' :=
  ⟨h.known, hl.map_issued h.issued⟩

theorem At.exists_fits (h : w.At p p') : ∃ r, w.Fits r p p' := by
  obtain ⟨r, htaken, hissued⟩ := h.names.exists_renaming w.leftIssued w.rightIssued
  exact ⟨r, fun x hx => htaken x (w.leftTaken hx), hissued⟩

/-- The names of the tree are not issued. -/
theorem At.isIssued (h : w.At p p') {x : String} (hx : x ∈ w.known) :
    p.names.isIssued x = false ∧ p'.names.isIssued x = false := by
  have hfree {a b : Names} (hd : a.Draws b) (ha : a.issued = []) (hx : x ∈ a.taken) : b.isIssued x = false := by
    rw [Names.isIssued, Bool.eq_false_iff]
    intro hmem
    exact hd.grows.free x (by simpa using hmem) (by simp [ha]) hx
  exact ⟨hfree h.names.left w.leftIssued (w.leftTaken hx), hfree h.names.right w.rightIssued (w.rightTaken hx)⟩

/-! ## Steps -/

variable {α β : Type} {ρ : Recast → α → α} {q q' : Progress}

variable (w) in
/-- The second result is the first one, recast. -/
def Same (ρ : Recast → α → α) (p p' : Progress) (a a' : α) : Prop :=
  ∀ r, w.Fits r p p' → a' = ρ (w.recast r) a

theorem Same.later {a a' : α} (h : w.Same ρ p p' a a') (hl : Later p p' q q') : w.Same ρ q q' a a' :=
  fun r hr => h r (hr.earlier hl)

variable (w) in
/-- What the left side does at one point, the right side does at the other. -/
structure StepsAt (p p' : Progress) (x y : Lower α) (R : Progress → Progress → α → α → Prop) : Prop where
  ok : ∀ a q, x p = .ok (a, q) → ∃ a' q', y p' = .ok (a', q') ∧ Later p p' q q' ∧ w.At q q' ∧ R q q' a a'
  error : ∀ b, x p = .error b → (∀ i, w.keeps i = true) → y p' = .error (b.1, w.span b.2)

variable {R : Progress → Progress → α → α → Prop} {R' : Progress → Progress → β → β → Prop}
  {x y : Lower α} {f g : α → Lower β}

theorem StepsAt.pure {a a' : α} (hat : w.At p p') (h : R p p' a a') : w.StepsAt p p' (pure a) (pure a') R := by
  refine ⟨fun b q hb => ?_, fun b hb => by cases hb⟩
  cases hb
  exact ⟨a', p', rfl, .refl, hat, h⟩

theorem StepsAt.bind (hx : w.StepsAt p p' x y R)
    (hf : ∀ {a a' q q'}, Later p p' q q' → w.At q q' → R q q' a a' → w.StepsAt q q' (f a) (g a') R') :
    w.StepsAt p p' (x >>= f) (y >>= g) R' := by
  have hbind (z : Lower α) (k : α → Lower β) (p : Progress) : (z >>= k) p = z p >>= fun r => k r.1 r.2 := rfl
  cases hxp : x p with
  | error e =>
    refine ⟨fun b q hb => ?_, fun b hb hall => ?_⟩
    · rw [hbind, hxp] at hb
      cases hb
    · rw [hbind, hxp] at hb
      cases hb
      rw [hbind, hx.error e hxp hall]
      rfl
  | ok z =>
    obtain ⟨a', q', hy, hl, hat, hr⟩ := hx.ok z.1 z.2 hxp
    have hrest := hf hl hat hr
    have hright : (y >>= g) p' = g a' q' := by
      rw [hbind, hy]
      rfl
    refine ⟨fun b q hb => ?_, fun b hb hall => ?_⟩
    · rw [hbind, hxp] at hb
      obtain ⟨b', q₂', hg, hl₂, hat₂, hr₂⟩ := hrest.ok b q hb
      exact ⟨b', q₂', hright.trans hg, hl.trans hl₂, hat₂, hr₂⟩
    · rw [hbind, hxp] at hb
      rw [hright, hrest.error b hb hall]

theorem StepsAt.ite {b : Bool} {x' y' : Lower α} (hx : b = true → w.StepsAt p p' x y R)
    (hy : b = false → w.StepsAt p p' x' y' R) :
    w.StepsAt p p' (if b = true then x else x') (if b = true then y else y') R := by
  cases b with
  | true => exact hx rfl
  | false => exact hy rfl

/-- The names are issued at the same place on both sides. -/
structure SameName (w : Lockstep) (p p' : Progress) (x x' : String) : Prop where
  same : w.Same (·.name) p p' x x'
  left : x ∈ p.names.issued
  right : x' ∈ p'.names.issued

theorem SameName.later {x : String} (h : SameName w p p' x x') (hl : Later p p' q q') : SameName w q q' x x' :=
  ⟨h.same.later hl, hl.left.grows.issued h.left, hl.right.grows.issued h.right⟩

theorem sameName_fresh (role : String) {n n' : Nat} :
    SameName w ⟨(p.names.fresh role).2, n⟩ ⟨(p'.names.fresh role).2, n'⟩ (p.names.fresh role).1
      (p'.names.fresh role).1 :=
  ⟨fun _ hr => (List.cons.inj hr.issued).1.symm, List.mem_cons_self, List.mem_cons_self⟩

theorem At.fresh (hat : w.At p p') (role : String) : w.At (p.afterFresh role) (p'.afterFresh role) :=
  ⟨.fresh hat.names role, hat.lowered⟩

theorem steps_freshName (hat : w.At p p') (role : String) :
    w.StepsAt p p' (freshName role) (freshName role) (SameName w) := by
  refine ⟨fun a q ha => ?_, fun b hb => by cases hb⟩
  cases ha
  exact ⟨_, _, rfl, .fresh .refl role, hat.fresh role, sameName_fresh role⟩

/-! ## What is said of each part -/

end Lockstep

/-- An expression and the statements in front of it, recast. -/
def Hoisted.recast (m : Recast) (h : Hoisted) : Hoisted :=
  ⟨recastStmts m h.before, h.value.recast m⟩

namespace Lockstep

variable (w : Lockstep) (s : Surroundings)

/-- The expressions stand for each other, and both of them are inert or neither is. -/
structure SameHoisted (p p' : Progress) (h h' : Hoisted) : Prop where
  same : w.Same Hoisted.recast p p' h h'
  inert : s.isInert p'.names h'.value = s.isInert p.names h.value

/-- The operands stand for each other, and none is missing. -/
structure SameOperands (es : List Expr) (p p' : Progress) (h h' : List Stmt × List Expr) : Prop where
  same : w.Same (fun m r => (recastStmts m r.1, recastExprs m r.2)) p p' h h'
  length : h.2.length = es.length

/-- The names in the tree are known. -/
abbrev Knows (vs : List Visit) : Prop :=
  Each (fun v => ∀ x ∈ v.names, x ∈ w.known) vs

/-- What is lowered on the left is lowered on the right. -/
abbrev Steps {α : Type} (x y : Lower α) (R : Progress → Progress → α → α → Prop) : Prop :=
  ∀ {p p'}, w.At p p' → w.StepsAt p p' x y R

/-- An expression is lowered alike on both sides. -/
def StepsExpr (e : Expr) : Prop :=
  w.Knows (e.walk .all) → ∀ hoists,
    w.Steps (lowerExpr s hoists e) (lowerExpr s hoists (e.recast (w.recast id))) (w.SameHoisted s)

/-- So are operands. -/
def StepsExprs (es : List Expr) : Prop :=
  w.Knows (walkExprs .all es) → ∀ hoists,
    w.Steps (lowerOperands s hoists es) (lowerOperands s hoists (recastExprs (w.recast id) es)) (w.SameOperands es)

/-- So is a function. -/
def StepsFunc (f : Func) : Prop :=
  w.Knows (f.walk .all) →
    w.Steps (lowerFunc s f) (lowerFunc s (f.recast (w.recast id))) (w.Same fun m f => f.recast m)

/-- So is a statement. -/
def StepsStmt (st : Stmt) : Prop :=
  w.Knows (st.walk .all) →
    w.Steps (lowerStmt s st) (lowerStmt s (st.recast (w.recast id))) (w.Same recastStmts)

/-- So are declarators, behind such as are ready alike. -/
def StepsDecls (kind : BindingKind) (span : Span) (ds : List Declarator) : Prop :=
  w.Knows (walkDecls .all ds) → (∀ d ∈ ds, d.name ∈ w.known) → ∀ {ready ready' p p'}, w.At p p' →
    w.Same recastDecls p p' ready ready' →
    w.StepsAt p p' (lowerDecls s kind span ready ds)
      (lowerDecls s kind (w.span span) ready' (recastDecls (w.recast id) ds)) (w.Same recastStmts)

/-- So are cases. -/
def StepsCases (cs : List Case) : Prop :=
  w.Knows (walkCases .all cs) →
    w.Steps (lowerCases s cs) (lowerCases s (recastCases (w.recast id) cs)) (w.Same recastCases)

/-- So is a handler with a known parameter. -/
def StepsHandler (o : Option Handler) : Prop :=
  w.Knows (walkHandler .all o) → (∀ h ∈ o, ∀ x ∈ h.param.toList, x ∈ w.known) →
    w.Steps (lowerHandler s o) (lowerHandler s (recastHandler (w.recast id) o)) (w.Same recastHandler)

/-- So is a block that may be missing. -/
def StepsBlock (o : Option (List Stmt)) : Prop :=
  w.Knows (walkBlock .all o) →
    w.Steps (lowerBlock s o) (lowerBlock s (recastBlock (w.recast id) o)) (w.Same recastBlock)

/-- So are statements. -/
def StepsStmts (ss : List Stmt) : Prop :=
  w.Knows (walkStmts .all ss) →
    w.Steps (lowerStmts s ss) (lowerStmts s (recastStmts (w.recast id) ss)) (w.Same recastStmts)

end Lockstep

/-! ## Recast results -/

section

variable (m : Recast)

@[simp] theorem recastStmts_append (ss ts : List Stmt) :
    recastStmts m (ss ++ ts) = recastStmts m ss ++ recastStmts m ts := by
  induction ss with
  | nil => rfl
  | cons s ss ih => simp [ih]

@[simp] theorem recastDecls_append (ds es : List Declarator) :
    recastDecls m (ds ++ es) = recastDecls m ds ++ recastDecls m es := by
  induction ds with
  | nil => rfl
  | cons d ds ih =>
    cases d
    simp [ih]

@[simp] theorem isEmpty_recastDecls (ds : List Declarator) : (recastDecls m ds).isEmpty = ds.isEmpty := by
  cases ds with
  | nil => rfl
  | cons d ds =>
    cases d
    rfl

theorem Stmt.span_recast (st : Stmt) : (st.recast m).span = m.span st.span := by
  cases st with
  | func f =>
    cases f
    rfl
  | _ => rfl

theorem asBranch_recast (span : Span) (ss : List Stmt) :
    (asBranch span ss).recast m = asBranch (m.span span) (recastStmts m ss) := by
  obtain _ | ⟨st, _ | ⟨st', ss⟩⟩ := ss <;> simp [asBranch]

theorem LogicalOp.guard_recast (op : LogicalOp) (e : Expr) : (op.guard e).recast m = op.guard (e.recast m) := by
  cases op <;> simp [LogicalOp.guard]

theorem Phrase.storeRaises_recast (x : String) (p : Phrase) :
    (p.storeRaises x).recast m = (p.recast m).storeRaises (m.name x) := by
  induction p with
  | _ => simp_all [Stmt.storeRaises, storeInCases, storeInHandler, storeInBlock, storeAll]

theorem storeAll_recast (x : String) (ss : List Stmt) :
    recastStmts m (storeAll x ss) = storeAll (m.name x) (recastStmts m ss) :=
  Phrase.stmts.inj (Phrase.storeRaises_recast m x (.stmts ss))

/-- A lowered try expression, recast. -/
def LoweredAttempt.recast (l : LoweredAttempt) : LoweredAttempt :=
  ⟨m.name l.temp, l.declaration.recast m, l.statement.recast m⟩

theorem TryExpr.stored_recast (t : TryExpr) (x : String) :
    (t.recast m).stored (m.name x) = (t.stored x).recast m := by
  obtain ⟨id, body, catchParam, catchBody, _ | param, _ | finallyBody, span, raises, verdict⟩ := t <;>
    simp [TryExpr.stored, LoweredAttempt.recast, declareEmpty, storeAll_recast]

theorem LoweredAttempt.wrapped_recast (l : LoweredAttempt) (span : Span) (hm : m.property "call" = "call") :
    (l.wrapped span).recast m = (l.recast m).wrapped (m.span span) := by
  have hneeds : suspension [l.statement.recast m] = suspension [l.statement] := by
    simpa using suspension_recast m [l.statement]
  simp only [LoweredAttempt.wrapped, LoweredAttempt.recast, LoweredAttempt.reference, callWith, hneeds]
  split
  · simp [hm]
  · split <;> simp

theorem LoweredAttempt.isInert_wrapped (s : Surroundings) (names : Names) (l : LoweredAttempt)
    (span : Span) : s.isInert names (l.wrapped span) = false := by
  unfold LoweredAttempt.wrapped
  dsimp only
  split
  · rfl
  · split <;> rfl

theorem checkOwned_recast (noted : RaiseSites) (t : TryExpr) :
    checkOwned (noted.recast m) (t.recast m) = (checkOwned noted t).mapError fun b => (b.1, m.span b.2) := by
  have hall (s : RaiseSites) : (s.recast m).all = s.all.map (·.recast m) := by
    simp [RaiseSites.all, RaiseSites.recast]
  have hspan : (t.recast m).span = m.span t.span := by
    cases t
    rfl
  have hsize (s : RaiseSites) : (s.recast m).size = s.size := by
    rw [RaiseSites.size, hall, List.length_map, RaiseSites.size]
  have hstray : (fun site : RaiseSite => !(noted.recast m).all.any (·.id == site.id)) ∘
      (RaiseSite.recast m) = fun site => !noted.all.any (·.id == site.id) := by
    funext site
    simp [hall, RaiseSite.recast, Function.comp_def]
  unfold checkOwned
  simp only [TryExpr.sites_recast, hsize, hspan]
  rw [hall t.sites, List.find?_map, hstray]
  cases t.sites.all.find? fun site => !noted.all.any (·.id == site.id) with
  | some stray => rfl
  | none =>
    dsimp only [Option.map_none]
    split <;> rfl

/-- A note that is dropped is made good by the raises themselves. -/
theorem checkOwned_raises_recast (t : TryExpr) :
    checkOwned ((t.recast m).raises.getD (t.recast m).sites) (t.recast m) =
      if m.keeps t.id = true then (checkOwned (t.raises.getD t.sites) t).mapError fun b => (b.1, m.span b.2)
      else .ok () := by
  split
  · rename_i hkeeps
    rw [TryExpr.getD_raises_recast (.inl hkeeps), checkOwned_recast]
  · rename_i hkeeps
    have hnone : (t.recast m).raises = none := by
      cases t
      simp [hkeeps]
    rw [hnone]
    exact checkOwned_of_sites rfl

theorem lowerNode_recast {l : LoweredAttempt × Names} (h : lowerNode t names = .ok l)
    (names' : Names) : lowerNode (t.recast m) names' =
      .ok ((t.recast m).stored (names'.fresh "raise").1, (names'.fresh "raise").2) := by
  have hverdict : (t.recast m).verdict = t.verdict.map (·.recast m) := by
    cases t
    rfl
  have howned := checkOwned_raises_recast m t
  unfold lowerNode at h ⊢
  rw [hverdict]
  split at h
  · cases h
  · cases h
  · rename_i hvalid
    rw [hvalid]
    cases hc : checkOwned (t.raises.getD t.sites) t with
    | error b => rw [hc] at h; cases h
    | ok _ =>
      have hok : checkOwned ((t.recast m).raises.getD (t.recast m).sites) (t.recast m) = .ok () := by
        rw [howned, hc]
        split <;> rfl
      simp only [Option.map_some, Verdict.recast, hok]
      rfl

theorem lowerNode_recast_error (h : lowerNode t names = .error b) (hkeeps : m.keeps t.id = true)
    (names' : Names) : lowerNode (t.recast m) names' = .error (b.1, m.span b.2) := by
  have hverdict : (t.recast m).verdict = t.verdict.map (·.recast m) := by
    cases t
    rfl
  have hspan : (t.recast m).span = m.span t.span := by
    cases t
    rfl
  have howned := checkOwned_raises_recast m t
  rw [if_pos hkeeps] at howned
  unfold lowerNode at h ⊢
  rw [hverdict]
  split at h
  · rename_i hnone
    cases h
    rw [hnone, hspan]
    rfl
  · rename_i hinvalid
    cases h
    rw [hinvalid, hspan]
    rfl
  · rename_i hvalid
    rw [hvalid]
    cases hc : checkOwned (t.raises.getD t.sites) t with
    | ok _ => rw [hc] at h; cases h
    | error b =>
      rw [hc] at h howned
      cases h
      simp only [Option.map_some, Verdict.recast, howned]
      rfl

end

namespace Expr.Strict

variable {e : Expr} {es : List Expr}

theorem recast (he : e.Strict es) (m : Recast) : (e.recast m).Strict (recastExprs m es) := by
  cases he with
  | call callee args hm hi =>
    refine .call _ _ (fun o q h => ?_) fun o i h => ?_
    · cases callee <;> first | exact hm _ _ rfl | cases h
    · cases callee <;> first | exact hi _ _ rfl | cases h
  | _ =>
    constructor

theorem withOperands_recast {vs : List Expr} {m m' : Recast} (he : e.Strict es)
    (hm : m'.property = m.property) (hl : vs.length = es.length) : (e.withOperands vs).recast m' =
      (e.recast m).withOperands (recastExprs m' vs) := by
  cases he.refills hl <;> simp [Expr.withOperands, hm]

theorem isInert_withOperands (he : e.Strict es) (s : Surroundings) (names : Names)
    (vs : List Expr) : s.isInert names (e.withOperands vs) = false := by
  cases he <;> obtain _ | ⟨a, _ | ⟨b, _ | ⟨c, _ | _⟩⟩⟩ := vs <;> rfl

end Expr.Strict

namespace Lockstep

variable {w : Lockstep} {s : Surroundings} {q q' : Progress}

attribute [local simp] Lockstep.recast Hoisted.recast

/-! ## Expressions -/

theorem SameHoisted.of_reference {x : String} {ss ss' : List Stmt} (hname : SameName w p p' x x')
    (hbefore : w.Same recastStmts p p' ss ss') : w.SameHoisted s p p' ⟨ss, .ident x⟩ ⟨ss', .ident x'⟩ := by
  refine ⟨fun r hr => ?_, ?_⟩
  · rw [hbefore r hr, hname.same r hr]
    simp
  · simp [Surroundings.isInert, Names.isIssued, hname.left, hname.right]

theorem steps_spill (hat : w.At p p') (hh : w.SameHoisted s p p' h h') :
    w.StepsAt p p' (spill s h) (spill s h') (w.SameHoisted s) := by
  have hspill (h : Hoisted) (p : Progress) : spill s h p = if s.isInert p.names h.value = true then .ok (h, p)
      else .ok (⟨h.before ++ [.declare .constant [⟨(p.names.fresh "spill").1, some h.value⟩] .none],
        .ident (p.names.fresh "spill").1⟩, p.afterFresh "spill") := by
    unfold spill
    rw [Lower.bind_ok (Lower.get_apply p)]
    split <;> rfl
  refine ⟨fun a q ha => ?_, fun b hb => ?_⟩
  · rw [hspill] at ha
    split at ha
    · rename_i hi
      cases ha
      exact ⟨h', p', by rw [hspill, hh.inert, if_pos hi], .refl, hat, hh⟩
    · rename_i hi
      cases ha
      have hl : Later p p' (p.afterFresh "spill") (p'.afterFresh "spill") := .fresh .refl "spill"
      have hname : SameName w (p.afterFresh "spill") (p'.afterFresh "spill") _ _ := sameName_fresh "spill"
      refine ⟨_, _, by rw [hspill, hh.inert, if_neg hi], hl, hat.fresh "spill", .of_reference hname fun r hr => ?_⟩
      rw [hh.same r (hr.earlier hl), hname.same r hr]
      simp [w.nowhere]
  · rw [hspill] at hb
    split at hb <;> cases hb

theorem steps_settle (follows : Bool) (hat : w.At p p') (hh : w.SameHoisted s p p' h h') :
    w.StepsAt p p' (settle s follows h) (settle s follows h') (w.SameHoisted s) := by
  cases follows with
  | true => exact steps_spill hat hh
  | false => exact .pure hat hh

theorem stepsExpr_logical (op : LogicalOp) {a b : Expr} (ha : w.StepsExpr s a)
    (hb : w.StepsExpr s b) : w.StepsExpr s (.logical op a b) := by
  intro hk hoists p p' hat
  simp only [Expr.recast, lowerExpr, Expr.hasAttempt_recast]
  refine (ha hk.tail.left hoists hat).bind fun _ hat hleft => .ite (fun _ => ?_) fun _ => ?_
  · refine (steps_freshName hat "cond").bind fun hl hat hname => ?_
    refine (hb hk.tail.right hoists hat).bind fun hl' hat hright => .pure hat ?_
    refine .of_reference (hname.later hl') fun r hr => ?_
    rw [hright.same r hr, hleft.same r ((hr.earlier hl').earlier hl), hname.same r (hr.earlier hl')]
    simp [LogicalOp.guard_recast, w.nowhere]
  · refine (hb hk.tail.right hoists hat).bind fun hl hat hright => .pure hat ⟨fun r hr => ?_, rfl⟩
    rw [hright.same r hr, hleft.same r (hr.earlier hl)]
    simp

theorem steps_lowerBound {callee callee' : Hoisted} {object object' : Expr} (hoists waits : Bool)
    (hargs : w.StepsExprs s args) (hk : w.Knows (walkExprs .all args)) (hat : w.At p p')
    (hc : w.SameHoisted s p p' callee callee') (ho : w.Same (fun m e => e.recast m) p p' object object') :
    w.StepsAt p p' (lowerBound s hoists waits callee object args)
      (lowerBound s hoists waits callee' object' (recastExprs (w.recast id) args)) (w.SameHoisted s) := by
  refine .ite (fun _ => ?_) fun _ => ?_
  · refine (steps_spill hat hc).bind fun hl hat hc => (hargs hk hoists hat).bind fun hl' hat hvs => ?_
    refine .pure hat ⟨fun r hr => ?_, rfl⟩
    rw [hvs.same r hr, hc.same r (hr.earlier hl'), ho r ((hr.earlier hl').earlier hl)]
    simp [callWith]
  · refine (hargs hk hoists hat).bind fun hl hat hvs => .pure hat ⟨fun r hr => ?_, rfl⟩
    rw [hvs.same r hr, hc.same r (hr.earlier hl)]
    simp

theorem stepsExpr_callMember (x : String) (ho : w.StepsExpr s o) (hargs : w.StepsExprs s args) :
    w.StepsExpr s (.call (.member o x) args) := by
  intro hk hoists p p' hat
  simp only [Expr.recast, lowerExpr, any_hasAttempt_recast]
  refine (ho hk.tail.left.tail hoists hat).bind fun _ hat ha =>
    (steps_settle _ hat ha).bind fun _ hat hobject => ?_
  refine steps_lowerBound hoists _ hargs hk.tail.right hat ⟨fun r hr => ?_, rfl⟩ fun r hr => ?_
  · rw [hobject.same r hr]
    simp
  · rw [hobject.same r hr]
    rfl

theorem stepsExpr_callIndex {i : Expr} (ho : w.StepsExpr s o) (hi : w.StepsExpr s i)
    (hargs : w.StepsExprs s args) : w.StepsExpr s (.call (.index o i) args) := by
  intro hk hoists p p' hat
  simp only [Expr.recast, lowerExpr, any_hasAttempt_recast, Expr.hasAttempt_recast]
  refine (ho hk.tail.left.tail.left hoists hat).bind fun _ hat ha => ?_
  refine (steps_settle _ hat ha).bind fun _ hat hobject =>
    (hi hk.tail.left.tail.right hoists hat).bind fun hl hat hkey => ?_
  refine steps_lowerBound hoists _ hargs hk.tail.right hat ⟨fun r hr => ?_, rfl⟩ fun r hr => ?_
  · rw [hkey.same r hr, hobject.same r (hr.earlier hl)]
    simp
  · rw [hobject.same r (hr.earlier hl)]
    rfl

/-- Names of the tree are not renamed. -/
theorem Fits.map_option (hr : w.Fits r p p') {o : Option String}
    (ho : ∀ x ∈ o.toList, x ∈ w.known) : o.map r = o := by
  cases o with
  | none => rfl
  | some x => exact congrArg some (hr.known x (ho x List.mem_cons_self))

theorem Fits.map_list (hr : w.Fits r p p') {xs : List String} (hxs : ∀ x ∈ xs, x ∈ w.known) : xs.map r = xs :=
  (List.map_congr_left fun x hx => hr.known x (hxs x hx)).trans (List.map_id' xs)

/-- A try expression whose clauses are lowered already. -/
theorem steps_lowerAttempt {t' : TryExpr} (hat : w.At p p') (ht : w.Same (fun m t => t.recast m) p p' t t') :
    w.StepsAt p p' (lowerAttempt t) (lowerAttempt t') fun q q' l l' =>
      SameName w q q' l.temp l'.temp ∧ w.Same (fun m l => l.recast m) q q' l l' := by
  obtain ⟨r, hr⟩ := hat.exists_fits
  refine ⟨fun a q ha => ?_, fun b hb hall => ?_⟩
  · rw [lowerAttempt_apply] at ha
    cases hl : lowerNode t p.names with
    | error b => rw [hl] at ha; cases ha
    | ok l =>
      have hl' : lowerNode t' p'.names = .ok (t'.stored (p'.names.fresh "raise").1,
        (p'.names.fresh "raise").2) := by
        rw [ht r hr]
        exact lowerNode_recast _ hl p'.names
      rw [hl] at ha
      cases ha
      obtain rfl := lowerNode_eq_ok hl
      let q : Progress := ⟨(p.names.fresh "raise").2, p.lowered + 1⟩
      let q' : Progress := ⟨(p'.names.fresh "raise").2, p'.lowered + 1⟩
      have hlater : Later p p' q q' := .fresh .refl "raise"
      have hname : SameName w q q' (p.names.fresh "raise").1 (p'.names.fresh "raise").1 := sameName_fresh "raise"
      refine ⟨t'.stored (p'.names.fresh "raise").1, q', by rw [lowerAttempt_apply, hl']; rfl, hlater,
        ⟨.fresh hat.names "raise", congrArg (· + 1) hat.lowered⟩, hname, fun r hr => ?_⟩
      rw [ht r (hr.earlier hlater), hname.same r hr]
      exact TryExpr.stored_recast _ _ _
  · rw [lowerAttempt_apply] at hb ⊢
    cases hl : lowerNode t p.names with
    | ok l => rw [hl] at hb; cases hb
    | error e =>
      rw [hl] at hb
      cases hb
      rw [ht r hr, lowerNode_recast_error _ hl (hall _)]
      rfl

theorem stepsExpr_attempt (t : TryExpr) (hbody : w.StepsStmts s t.body) (hcatch : w.StepsStmts s t.catchBody)
    (hfinally : w.StepsBlock s t.finallyBody) : w.StepsExpr s (.attempt t) := by
  intro hk hoists p p' hat
  obtain ⟨id, body, catchParam, catchBody, finallyParam, finallyBody, span, raises, verdict⟩ := t
  rw [Expr.walk, TryExpr.walk_all] at hk
  have hnames := hk.tail.head
  rw [Expr.recast, TryExpr.recast, lowerExpr_attempt, lowerExpr_attempt]
  refine (hbody hk.tail.tail.left.left hat).bind fun hl₁ hat hb => ?_
  refine (hcatch hk.tail.tail.left.right hat).bind fun hl₂ hat hc => ?_
  refine (hfinally hk.tail.tail.right hat).bind fun hl₃ hat hf => ?_
  refine (steps_lowerAttempt hat fun r hr => ?_).bind fun _ hat hl =>
    .ite (fun _ => .pure hat ?_) fun _ => .pure hat ?_
  · rw [hb r ((hr.earlier hl₃).earlier hl₂), hc r (hr.earlier hl₃), hf r hr]
    have hcatchParam : catchParam.map r = catchParam :=
      hr.map_option fun x hx => hnames x (List.mem_append_left _ hx)
    have hfinallyParam : finallyParam.map r = finallyParam :=
      hr.map_option fun x hx => hnames x (List.mem_append_right _ hx)
    simp only [TryExpr.recast, Lockstep.recast, hcatchParam, hfinallyParam, Option.map_id_fun]
    rfl
  · exact .of_reference hl.1 fun r hr => by simp [hl.2 r hr, LoweredAttempt.recast]
  · exact ⟨fun r hr => by simp [hl.2 r hr, LoweredAttempt.wrapped_recast], by simp [LoweredAttempt.isInert_wrapped]⟩

/-! ## Functions and statements -/

theorem same_func {name : Option String} {params : List String} {body body' : FuncBody}
    {isAsync : Bool} {form : FuncForm} (hnames : ∀ x ∈ name.toList ++ params, x ∈ w.known)
    (hbody : w.Same (fun m b => b.recast m) p p' body body') :
    w.Same (fun m (f : Func) => f.recast m) p p' ⟨name, params, body, isAsync, form, span⟩
      ⟨name.map id, params.map id, body', isAsync, form, w.span span⟩ := by
  intro r hr
  have hname : name.map r = name := hr.map_option fun x hx => hnames x (List.mem_append_left _ hx)
  have hparams : params.map r = params := hr.map_list fun x hx => hnames x (List.mem_append_right _ hx)
  rw [hbody r hr]
  simp [hname, hparams]

theorem stepsDecls_some {kind : BindingKind} {x : String} {e : Expr} {ds : List Declarator}
    (he : w.StepsExpr s e) (hds : w.StepsDecls s kind span ds) :
    w.StepsDecls s kind span (⟨x, some e⟩ :: ds) := by
  intro hk hnames ready ready' p p' hat hready
  have hx : x ∈ w.known := hnames ⟨x, some e⟩ List.mem_cons_self
  have hrest : ∀ d ∈ ds, d.name ∈ w.known := fun d hd => hnames d (List.mem_cons_of_mem _ hd)
  simp only [recastDecls, recastExpr?, lowerDecls, Expr.hasAttempt_recast]
  refine (he hk.left true hat).bind fun hl hat ha => .ite (fun _ => ?_) fun _ => ?_
  · refine (hds hk.right hrest hat fun r hr => ?_).bind fun hl' hat hb => .pure hat fun r hr => ?_
    · rw [ha.same r hr]
      simp [hr.known x hx]
    · rw [hready r ((hr.earlier hl').earlier hl), ha.same r (hr.earlier hl'), hb r hr]
      cases ready <;> simp
  · refine hds hk.right hrest hat fun r hr => ?_
    rw [hready r (hr.earlier hl), ha.same r hr]
    simp [hr.known x hx]

theorem stepsRules : LoweringRules (w.StepsExpr s) (w.StepsExprs s) (w.StepsFunc s) (w.StepsStmt s)
    (w.StepsDecls s) (w.StepsCases s) (w.StepsHandler s) (w.StepsBlock s) (w.StepsStmts s) where
  leaf {e} he hk hoists _ _ hat := by
    have hknown : ∀ x, e = .ident x → x ∈ w.known := by
      rintro x rfl
      exact hk.head x List.mem_cons_self
    have hleaf : (e.recast (w.recast id)).Leaf := by
      cases he <;> (simp; constructor)
    rw [lowerExpr_leaf s hoists he, lowerExpr_leaf s hoists hleaf]
    refine .pure hat ⟨fun r hr => ?_, ?_⟩
    · cases he with
      | ident x => simp [hr.known x (hknown x rfl)]
      | _ => simp
    · cases he with
      | ident x => simp [Surroundings.isInert, hat.isIssued (hknown x rfl)]
      | _ => rfl
  strict {e es} he _ hes hk hoists _ _ hat := by
    rw [lowerExpr_strict s hoists he, lowerExpr_strict s hoists (he.recast _)]
    refine (hes (fun v hv => hk v (he.mem_walk hv)) hoists hat).bind fun {vs vs' _ _} _ hat hvs =>
      .pure hat ⟨fun r hr => ?_, ?_⟩
    · have hvalue : (e.withOperands vs.2).recast (w.recast r) =
          (e.recast (w.recast id)).withOperands (recastExprs (w.recast r) vs.2) :=
        he.withOperands_recast rfl hvs.length
      rw [hvs.same r hr]
      simp only [Hoisted.recast, hvalue]
    · rw [he.isInert_withOperands, (he.recast _).isInert_withOperands]
  logical op := stepsExpr_logical op
  assignIdent x he hk hoists _ _ hat := by
    have hx : x ∈ w.known := hk.tail.left.head x List.mem_cons_self
    simp only [Expr.recast, lowerExpr]
    refine (he hk.tail.right hoists hat).bind fun _ hat ha => .pure hat ⟨fun r hr => ?_, rfl⟩
    rw [ha.same r hr]
    simp [hr.known x hx]
  assign {target e} hn ht he hk hoists _ _ hat := by
    have hn' : (target.recast (w.recast id)).isTarget = false := by
      cases target <;> first | rfl | cases hn
    rw [Expr.recast, lowerExpr_assign s hoists hn, lowerExpr_assign s hoists hn', Expr.hasAttempt_recast]
    refine (ht hk.tail.left hoists hat).bind fun _ hat ha => (steps_settle _ hat ha).bind fun _ hat hb => ?_
    refine (he hk.tail.right hoists hat).bind fun hl hat hc => .pure hat ⟨fun r hr => ?_, rfl⟩
    rw [hc.same r hr, hb.same r (hr.earlier hl)]
    simp
  callMember x := stepsExpr_callMember x
  callIndex := stepsExpr_callIndex
  func hf hk hoists _ _ hat := by
    simp only [Expr.recast, lowerExpr]
    refine (hf hk.tail hat).bind fun _ hat hf' => .pure hat ⟨fun r hr => ?_, rfl⟩
    rw [hf' r hr]
    simp
  attempt := stepsExpr_attempt
  nilExprs _ hoists _ _ hat := by
    rw [recastExprs, lowerOperands]
    exact .pure hat ⟨fun _ _ => rfl, rfl⟩
  consExprs he hes hk hoists _ _ hat := by
    rw [walkExprs] at hk
    rw [recastExprs, lowerOperands, lowerOperands, any_hasAttempt_recast]
    refine (he hk.left hoists hat).bind fun _ hat ha => (steps_settle _ hat ha).bind fun _ hat hb => ?_
    refine (hes hk.right hoists hat).bind fun {vs vs' _ _} hl hat hc => .pure hat ⟨fun r hr => ?_, ?_⟩
    · rw [hc.same r hr, hb.same r (hr.earlier hl)]
      simp
    · simp [hc.length]
  funcBlock hbody hk _ _ hat := by
    simp only [Func.recast, FuncBody.recast, lowerFunc]
    refine (hbody hk.tail hat).bind fun _ hat hb => .pure hat (same_func hk.head fun r hr => ?_)
    rw [hb r hr]
    simp
  funcExpr he hk _ _ hat := by
    simp only [Func.recast, FuncBody.recast, lowerFunc]
    refine (he hk.tail false hat).bind fun _ hat hb => .pure hat (same_func hk.head fun r hr => ?_)
    rw [hb.same r hr]
    simp
  leafStmt {st} h _ _ _ hat := by
    have hleaf : (st.recast (w.recast id)).Leaf := by
      cases h <;> (simp; constructor)
    rw [lowerStmt_leaf s h, lowerStmt_leaf s hleaf]
    refine .pure hat fun r hr => ?_
    cases h <;> simp
  around {make e} h he hk _ _ hat := by
    rw [h.walk] at hk
    have hmake : ∃ make', Stmt.Around make' ∧ ∀ r a, (make a).recast (w.recast r) =
      make' (a.recast (w.recast r)) := by
      cases h with
      | expr span => exact ⟨_, .expr (w.span span), fun _ _ => rfl⟩
      | ret span => exact ⟨_, .ret (w.span span), fun _ _ => rfl⟩
      | throw span => exact ⟨_, .throw (w.span span), fun _ _ => rfl⟩
      | raise id span => exact ⟨_, .raise id (w.span span), fun _ _ => rfl⟩
    obtain ⟨make', h', hmake⟩ := hmake
    rw [hmake, lowerStmt_around s h, lowerStmt_around s h']
    refine (he hk.tail true hat).bind fun _ hat ha => .pure hat fun r hr => ?_
    rw [ha.same r hr, recastStmts_append, recastStmts, hmake]
    rfl
  declare hds hk _ _ hat := by
    simp only [Stmt.recast, lowerStmt]
    exact hds hk.tail (fun d hd => hk.head d.name (List.mem_map_of_mem hd)) hat fun _ _ => by simp
  block span hbody hk _ _ hat := by
    simp only [Stmt.recast, lowerStmt]
    refine (hbody hk.tail hat).bind fun _ hat hb => .pure hat fun r hr => ?_
    rw [hb r hr]
    simp
  branch span he hyes hk _ _ hat := by
    simp only [Stmt.recast, recastStmt?, lowerStmt]
    refine (he hk.tail.left true hat).bind fun _ hat ha => (hyes hk.tail.right hat).bind fun hl hat hb => ?_
    refine .pure hat fun r hr => ?_
    rw [ha.same r (hr.earlier hl), hb r hr]
    simp [asBranch_recast, Stmt.span_recast]
  branchElse span he hyes hno hk _ _ hat := by
    simp only [Stmt.recast, recastStmt?, lowerStmt]
    refine (he hk.tail.left.left true hat).bind fun _ hat ha => ?_
    refine (hyes hk.tail.left.right hat).bind fun hl hat hb => (hno hk.tail.right hat).bind fun hl' hat hc => ?_
    refine .pure hat fun r hr => ?_
    rw [ha.same r ((hr.earlier hl').earlier hl), hb r (hr.earlier hl'), hc r hr]
    simp [asBranch_recast, Stmt.span_recast]
  loop span he hbody hk _ _ hat := by
    simp only [Stmt.recast, lowerStmt, Expr.hasAttempt_recast]
    refine (he hk.tail.left true hat).bind fun _ hat ha => (hbody hk.tail.right hat).bind fun hl hat hb => ?_
    refine .ite (fun _ => .pure hat fun r hr => ?_) fun _ => .pure hat fun r hr => ?_
    all_goals
      rw [ha.same r (hr.earlier hl), hb r hr]
      simp [asBranch_recast, Stmt.span_recast, testedInside]
  switch span he hcs hk _ _ hat := by
    simp only [Stmt.recast, lowerStmt]
    refine (he hk.tail.left true hat).bind fun _ hat ha => (hcs hk.tail.right hat).bind fun hl hat hb => ?_
    refine .pure hat fun r hr => ?_
    rw [ha.same r (hr.earlier hl), hb r hr]
    simp
  guarded {_ handler _} span hbody hhandler hfinalizer hk _ _ hat := by
    have hparam : ∀ h ∈ handler, ∀ x ∈ h.param.toList, x ∈ w.known := by
      rintro h rfl
      exact hk.head
    simp only [Stmt.recast, lowerStmt]
    refine (hbody hk.tail.left.left hat).bind fun _ hat hb => ?_
    refine (hhandler hk.tail.left.right hparam hat).bind fun hl hat hh => ?_
    refine (hfinalizer hk.tail.right hat).bind fun hl' hat hf => .pure hat fun r hr => ?_
    rw [hb r ((hr.earlier hl').earlier hl), hh r (hr.earlier hl'), hf r hr]
    simp
  funcStmt hf hk _ _ hat := by
    simp only [Stmt.recast, lowerStmt]
    refine (hf hk.tail hat).bind fun _ hat hf' => .pure hat fun r hr => ?_
    rw [hf' r hr]
    simp
  nilDecls kind span _ _ _ _ _ _ hat hready := by
    simp only [recastDecls, lowerDecls]
    refine .pure hat fun r hr => ?_
    rw [hready r hr]
    simp
  bareDecl {_ _ x _} hds hk hnames _ _ _ _ hat hready := by
    have hx : x ∈ w.known := hnames ⟨x, none⟩ List.mem_cons_self
    simp only [recastDecls, recastExpr?, lowerDecls]
    refine hds hk (fun d hd => hnames d (List.mem_cons_of_mem _ hd)) hat fun r hr => ?_
    rw [hready r hr]
    simp [hr.known x hx]
  consDecls := stepsDecls_some
  nilCases _ _ _ hat := by
    simp only [recastCases, lowerCases]
    exact .pure hat fun _ _ => by simp
  defaultCase hbody hcs hk _ _ hat := by
    simp only [recastCases, recastExpr?, lowerCases]
    refine (hbody hk.left hat).bind fun _ hat hb => (hcs hk.right hat).bind fun hl hat hc =>
      .pure hat fun r hr => ?_
    rw [hb r (hr.earlier hl), hc r hr]
    simp
  consCases he hbody hcs hk _ _ hat := by
    simp only [recastCases, recastExpr?, lowerCases]
    refine (he hk.left.left false hat).bind fun _ hat ha => (hbody hk.left.right hat).bind fun hl hat hb => ?_
    refine (hcs hk.right hat).bind fun hl' hat hc => .pure hat fun r hr => ?_
    rw [ha.same r ((hr.earlier hl').earlier hl), hb r (hr.earlier hl'), hc r hr]
    simp
  noHandler _ _ _ _ hat := by
    simp only [recastHandler, lowerHandler]
    exact .pure hat fun _ _ => by simp
  handler param hbody hk hparam _ _ hat := by
    simp only [recastHandler, Handler.recast, lowerHandler]
    refine (hbody hk hat).bind fun _ hat hb => .pure hat fun r hr => ?_
    have hmap : param.map r = param := hr.map_option (hparam _ rfl)
    rw [hb r hr]
    simp [hmap]
  noBlock _ _ _ hat := by
    simp only [recastBlock, lowerBlock]
    exact .pure hat fun _ _ => by simp
  finalizer hbody hk _ _ hat := by
    simp only [recastBlock, lowerBlock]
    refine (hbody hk hat).bind fun _ hat hb => .pure hat fun r hr => ?_
    rw [hb r hr]
    simp
  nilStmts _ _ _ hat := by
    simp only [recastStmts, lowerStmts]
    exact .pure hat fun _ _ => by simp
  consStmts hst hss hk _ _ hat := by
    simp only [recastStmts, lowerStmts]
    refine (hst hk.left hat).bind fun _ hat ha => (hss hk.right hat).bind fun hl hat hb => .pure hat fun r hr => ?_
    rw [ha r (hr.earlier hl), hb r hr]
    simp

/-! ## Programs -/

/-- A program lowered with two beginnings, the second time at other places and with fewer notes. -/
def ofProgram (p : Program) (beginning beginning' : String) (span : Span → Span)
    (hspan : span .none = .none) (keeps : NodeId → Bool) : Lockstep :=
  ⟨.forProgram beginning p, .forProgram beginning' p, identifiers p, span, keeps, hspan,
    List.Subset.refl _, List.Subset.refl _, rfl, rfl⟩

variable {beginning : String} {prog lowered : Program} {progress : Progress}

theorem steps_ofProgram (p : Program) (beginning beginning' : String) (span : Span → Span)
    (hspan : span .none = .none) (keeps : NodeId → Bool) :
      (ofProgram p beginning beginning' span hspan keeps).StepsAt
      ⟨.forProgram beginning p, 0⟩ ⟨.forProgram beginning' p, 0⟩ (lowerStmts (.ofProgram p) p)
      (lowerStmts (.ofProgram p) (recastStmts ⟨id, id, span, keeps⟩ p))
      ((ofProgram p beginning beginning' span hspan keeps).Same recastStmts) :=
  stepsRules.onStmts p (fun _ hv _ hx => List.mem_flatMap.2 ⟨_, hv, hx⟩) ⟨.refl, rfl⟩

theorem lowerProgram_eq_recast (p : Program) (beginning : String) (span : Span → Span)
    (keeps : NodeId → Bool) : lowerProgram beginning (recastStmts ⟨id, id, span, keeps⟩ p) =
      lowerStmts (.ofProgram p) (recastStmts ⟨id, id, span, keeps⟩ p) ⟨.forProgram beginning p, 0⟩ >>= fun r =>
        (ensureLowered r.1).map fun _ => r := by
  rw [lowerProgram_eq, Surroundings.ofProgram_recast _ rfl rfl, Names.forProgram, identifiers_recast _ rfl]
  rfl

theorem ensureLowered_recast (m : Recast) (p : Program) :
    ensureLowered (recastStmts m p) = (ensureLowered p).mapError fun b => (b.1, m.span b.2) := by
  rw [ensureLowered, ensureLowered, firstExtension?_recast]
  cases firstExtension? p <;> rfl

/-- Where a program is lowered, the recast program is lowered as well, to the same result recast. -/
theorem lowerProgram_recast (span : Span → Span) (hspan : span .none = .none) (beginning' : String)
    (keeps : NodeId → Bool) (h : lowerProgram beginning prog = .ok (lowered, progress)) :
    ∃ progress', progress'.lowered = progress.lowered ∧
      (Names.forProgram beginning prog).InStep (.forProgram beginning' prog) progress.names progress'.names ∧
      ∀ r : String → String, (∀ x ∈ identifiers prog, r x = x) → progress.names.issued.map r =
        progress'.names.issued → lowerProgram beginning' (recastStmts ⟨id, id, span, keeps⟩ prog) =
          .ok (recastStmts ⟨r, id, span, keeps⟩ lowered, progress') := by
  obtain ⟨hlowered, hrest⟩ := lowerProgram_eq_ok.1 h
  obtain ⟨lowered', progress', hlowered', -, hat, hsame⟩ :=
    (steps_ofProgram prog beginning beginning' span hspan keeps).ok _ _ hlowered
  refine ⟨progress', hat.lowered, hat.names, fun r hknown hissued => ?_⟩
  rw [lowerProgram_eq_recast, hlowered', hsame r ⟨hknown, hissued⟩]
  change (ensureLowered (recastStmts _ lowered)).map _ = _
  rw [ensureLowered_recast, ensureLowered, hrest]
  rfl

/-- With the same beginning the same names are issued. -/
theorem lowerProgram_recast_same (span : Span → Span) (hspan : span .none = .none)
    (keeps : NodeId → Bool) (h : lowerProgram beginning prog = .ok (lowered, progress)) :
    lowerProgram beginning (recastStmts ⟨id, id, span, keeps⟩ prog) =
      .ok (recastStmts ⟨id, id, span, keeps⟩ lowered, progress) := by
  obtain ⟨progress', hcount, hstep, hrest⟩ := lowerProgram_recast span hspan beginning keeps h
  have hsame : progress' = progress := by
    obtain ⟨names, n⟩ := progress
    obtain ⟨names', n'⟩ := progress'
    obtain rfl := hstep.eq
    obtain rfl := hcount
    rfl
  subst hsame
  exact hrest id (fun _ _ => rfl) (List.map_id _)

/-- Where lowering breaks off, it breaks off for the recast program. -/
theorem lowerProgram_recast_error (span : Span → Span) (hspan : span .none = .none)
    (h : lowerProgram beginning prog = .error b) :
    lowerProgram beginning (recastStmts ⟨id, id, span, fun _ => true⟩ prog) = .error (b.1, span b.2) := by
  have hsteps := steps_ofProgram prog beginning beginning span hspan fun _ => true
  rw [lowerProgram_eq] at h
  rw [lowerProgram_eq_recast]
  cases hl : lowerStmts (.ofProgram prog) prog ⟨.forProgram beginning prog, 0⟩ with
  | error e =>
    rw [hl] at h
    cases h
    rw [hsteps.error _ hl fun _ => rfl]
    rfl
  | ok l =>
    rw [hl] at h
    change (ensureLowered l.1).map _ = _ at h
    obtain ⟨lowered', progress', hlowered', -, hat, hsame⟩ := hsteps.ok _ _ hl
    obtain ⟨r, hr⟩ := hat.exists_fits
    rw [hlowered', hsame r hr]
    change (ensureLowered (recastStmts _ l.1)).map _ = _
    rw [ensureLowered_recast]
    cases he : ensureLowered l.1 with
    | ok _ => rw [he] at h; cases h
    | error e =>
      rw [he] at h
      cases h
      rfl

end Lockstep

end RaiseScript
