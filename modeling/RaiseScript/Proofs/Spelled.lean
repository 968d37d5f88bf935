import RaiseScript.Proofs.Parts
import RaiseScript.Proofs.Stores

/-!
# Trees that have a text

Not every tree can be written down and read back : a name may be no word, a declaration may be
empty, an assignment may have no target. `Visit.Spelled` says of a node that nothing of the kind is
wrong with it, for a `Spelling` that says which texts are names, properties and numbers. A `Clean`
tree is spelled and standard.

`Visit.Ready` is what lowering relies on. Every try expression was found valid and carries the
raises it owns, and no raise stands directly in the body of a function.
-/

namespace RaiseScript

/-- Which texts are names and properties, and which numbers are written. -/
structure Spelling where
  name : String → Prop
  property : String → Prop
  number : Float → Prop

/-- A spelling that knows the property which lowering reads. -/
structure Spelling.Fits (sp : Spelling) (names : Names) : Prop where
  call : sp.property "call"
  candidate : ∀ role ∈ ["raise", "spill", "cond"], ∀ n, sp.name (names.candidate role n)

theorem Spelling.Fits.grows {sp : Spelling} {a b : Names} (h : sp.Fits a) (hg : a.Grows b) :
    sp.Fits b :=
  ⟨h.call, fun role hr n => hg.candidate role n ▸ h.candidate role hr n⟩

theorem Spelling.Fits.fresh {sp : Spelling} {a : Names} (h : sp.Fits a) {role : String}
    (hr : role ∈ ["raise", "spill", "cond"]) : sp.name (a.fresh role).1 :=
  h.candidate role hr _

namespace Visit

/-- The node can be written down and read back. -/
def Spelled (sp : Spelling) : Visit → Prop
  | .expr (.number x) => sp.number x
  | .expr (.ident x) => sp.name x
  | .expr (.member _ property) => sp.property property
  | .expr (.assign target _) => target.isTarget = true
  | .expr (.yield arg delegate) => arg = none → delegate = false
  | .stmt (.declare kind ds _) =>
    ds ≠ [] ∧ ∀ d ∈ ds, sp.name d.name ∧ (kind = .constant → d.init.isSome)
  | .stmt (.switch _ cs _) => cs.countP (·.test.isNone) ≤ 1
  | .stmt (.guarded _ handler finalizer _) =>
    (handler.isSome ∨ finalizer.isSome) ∧ ∀ h ∈ handler, ∀ x ∈ h.param, sp.name x
  | .stmt (.func f) => f.name.isSome ∧ f.form ≠ .arrow
  | .func f =>
    (∀ x ∈ f.params, sp.name x) ∧ (∀ x ∈ f.name, sp.name x) ∧ (f.form = .arrow → f.name = none) ∧
      ∀ e, f.body = .expr e → f.form = .arrow
  | .attempt t =>
    (∀ x ∈ t.catchParam, sp.name x) ∧ (∀ x ∈ t.finallyParam, sp.name x) ∧
      (t.finallyParam.isSome → t.finallyBody.isSome)
  | _ => True

/-- The node is spelled, and it is neither a try expression nor a raise. -/
def Clean (sp : Spelling) (v : Visit) : Prop :=
  v.extension? = none ∧ v.Spelled sp

/-- The node is as lowering expects it. -/
def Ready : Visit → Prop
  | .attempt t => t.verdict = some .valid ∧ t.raises = some t.sites
  | .func ⟨_, _, .block body, _, _, _⟩ => ∀ c, sitesIn c body = []
  | _ => True

end Visit

/-! ## Clean trees -/

/-- All nodes of a walk are clean. -/
def Clean (sp : Spelling) (vs : List Visit) : Prop :=
  ∀ v ∈ vs, v.Clean sp

variable {sp : Spelling}

@[simp] theorem clean_nil : Clean sp [] := by
  simp [Clean]

@[simp] theorem clean_cons (v : Visit) (vs : List Visit) :
    Clean sp (v :: vs) ↔ v.Clean sp ∧ Clean sp vs := by
  simp [Clean]

@[simp] theorem clean_append (us vs : List Visit) : Clean sp (us ++ vs) ↔ Clean sp us ∧ Clean sp vs := by
  simp [Clean, or_imp, forall_and]

theorem Clean.standard {vs : List Visit} (h : Clean sp vs) : Standard vs :=
  fun v hv => (h v hv).1

theorem Clean.storeAll (t : String) {ss : List Stmt} (h : Clean sp (walkStmts .all ss)) :
    storeAll t ss = ss :=
  storeAll_of_standard t h.standard

theorem Clean.sites (c : Clause) {ss : List Stmt} (h : Clean sp (walkStmts .all ss)) :
    raiseSites c (walkStmts .surface ss) = [] :=
  raiseSites_of_standard c ss h.standard

attribute [local simp] Visit.Clean Visit.extension? Visit.Spelled

@[simp] theorem clean_asBranch (span : Span) :
    ∀ ss : List Stmt, Clean sp ((asBranch span ss).walk .all) ↔
      Clean sp (walkStmts .all ss)
  | [] => by simp [asBranch, Stmt.walk]
  | [_] => by simp [asBranch, walkStmts]
  | _ :: _ :: _ => by simp [asBranch, Stmt.walk]

/-- Clean operands make a clean expression, if the operator was spelled. -/
theorem Expr.Strict.clean_withOperands {e : Expr} {es : List Expr} (he : e.Strict es)
    (hm : ∀ v ∈ e.walk .all, v.Spelled sp) {vs : List Expr} (hl : vs.length = es.length)
    (hvs : Clean sp (walkExprs .all vs)) :
    Clean sp ((e.withOperands vs).walk .all) := by
  cases he.refills hl with
  | @assignMember o _ _ _ q =>
    have hq : sp.property q := hm (.expr (.member o q)) (by simp [walk])
    simpa [withOperands, walk, walkExprs, Expr.isTarget, hq] using hvs
  | @member o _ q =>
    have hq : sp.property q := hm (.expr (.member o q)) (by simp [walk])
    simpa [withOperands, walk, walkExprs, hq] using hvs
  | _ =>
    simpa [withOperands, walk, walkExprs, Expr.isTarget, and_assoc] using hvs

end RaiseScript
