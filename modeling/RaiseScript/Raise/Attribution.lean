import RaiseScript.Syntax.Replace
import RaiseScript.Syntax.Visit
import RaiseScript.Diagnostic

/-!
# Whose raise it is, and whether it may stand there

A try expression owns the raises in its clauses, ordinary statements inside them included, but
not those inside functions or inside other try expressions. `annotate` notes the raises on every
try expression. `judge` applies the rules to one of them and `validate` to all of them, inner ones
first, up to a number of complaints.
-/

namespace RaiseScript

/-- The raise statement of a visit, as a site of the given clause. -/
def Visit.raiseSite? (clause : Clause) : Visit → Option RaiseSite
  | .stmt (.raise id _ span) => some ⟨clause, id, span⟩
  | _ => none

/-- The raises that stand directly in the statements of a clause, in source order. -/
def sitesIn (clause : Clause) (body : List Stmt) : List RaiseSite :=
  (walkStmts .surface body).filterMap (Visit.raiseSite? clause)

/-- The raises that a try expression owns. -/
def TryExpr.sites (t : TryExpr) : RaiseSites :=
  ⟨sitesIn .body t.body, sitesIn .handler t.catchBody, sitesIn .finalizer (t.finallyBody.getD [])⟩

/-- Notes on every try expression which raises it owns; also gives how many there are. -/
def annotate (p : Program) : Program × Nat :=
  (replaceStmts (fun t => do
    modify (· + 1)
    return { t with raises := some t.sites }) p).run 0

/-- The rules applied to one try expression. The body and the handler both raise or neither does;
a finally binding needs a finally block; and raises in a finally block need a binding. -/
def TryExpr.judge (t : TryExpr) : Verdict :=
  let sites := t.raises.getD t.sites
  if sites.body.isEmpty != sites.handler.isEmpty then .invalid .lopsided t.span
  else
    match t.finallyParam, t.finallyBody, sites.finalizer with
    | some _, none, _ => .invalid .boundNothing t.span
    | none, _, first :: _ => .invalid .unboundRaise first.span
    | _, _, _ => .valid

/-- The complaint about a try expression, if there is one. -/
def Verdict.diagnostic? (file : String) : Verdict → Option Diagnostic
  | .valid => none
  | .invalid fault span => some (.located 2 .structural (some fault.rule.name) file span fault.message)

/-- Judges one try expression, unless `limit` complaints have been made already. -/
def judgeUpTo (file : String) (limit : Nat) (t : TryExpr) : StateM (List Diagnostic) TryExpr := do
  let made ← get
  if limit ≤ made.length then return t
  else
    let verdict := t.judge
    set (made ++ (verdict.diagnostic? file).toList)
    return { t with verdict := some verdict }

/-- Notes the verdict on every try expression, inner ones first, and gives the complaints in that
order. After `limit` complaints the rest is left alone. -/
def validate (file : String) (limit : Nat) (p : Program) : Program × List Diagnostic :=
  (replaceStmts (judgeUpTo file limit) p).run []

end RaiseScript
