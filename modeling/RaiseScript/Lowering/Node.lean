import RaiseScript.Raise.Attribution
import RaiseScript.Names

/-!
# Lowering one try expression

A try expression becomes a temporary, a try statement whose clauses store into the temporary where
they raised, and a reference to the temporary. `lowerNode` does this for an expression whose
clauses hold no try expressions any more. What it needs from the stages before it (a valid verdict
and the right raises) it checks, and a `Breach` says what was missing.
-/

namespace RaiseScript

/-- What the stages before lowering may fail to provide. -/
inductive Breach where
  /-- The try expression was never judged. -/
  | unjudged
  /-- The try expression was judged and refused. -/
  | refused
  /-- A raise that is not among those noted on the try expression around it. -/
  | strayRaise
  /-- The number of raises differs from the number noted. -/
  | miscounted (found noted : Nat)
  /-- A try expression or a raise is left after lowering. -/
  | leftover
deriving DecidableEq, Repr

/-- The wording of a breach. -/
def Breach.message : Breach → String
  | .unjudged => "try expression reached lowering without validation"
  | .refused => "lowering reached a try expression that failed validation"
  | .strayRaise => "raise statement not owned by the enclosing try expression"
  | .miscounted found noted =>
    "rewrote " ++ toString found ++ " raise statements, expected " ++ toString noted
  | .leftover => "try expression or raise left in lowered output"

/-- A breach at a place, reported as a diagnostic. -/
def Breach.diagnostic (file : String) (b : Breach × Span) : Diagnostic :=
  .breach 3 file b.2 b.1.message

/-! ## Raises become assignments -/

mutual

/-- A statement whose own raises assign to the temporary. -/
def Stmt.storeRaises (temp : String) : Stmt → Stmt
  | .block body span => .block (storeAll temp body) span
  | .branch test yes none span => .branch test (yes.storeRaises temp) none span
  | .branch test yes (some no) span =>
    .branch test (yes.storeRaises temp) (some (no.storeRaises temp)) span
  | .loop test body span => .loop test (body.storeRaises temp) span
  | .switch subject cases span => .switch subject (storeInCases temp cases) span
  | .guarded body handler finalizer span =>
    .guarded (storeAll temp body) (storeInHandler temp handler) (storeInBlock temp finalizer) span
  | .raise _ value span => .expr (.assign (.ident temp) value) span
  | s => s

/-- Cases whose own raises assign to the temporary. -/
def storeInCases (temp : String) : List Case → List Case
  | [] => []
  | ⟨test, body⟩ :: cs => ⟨test, storeAll temp body⟩ :: storeInCases temp cs

/-- A catch clause whose own raises assign to the temporary. -/
def storeInHandler (temp : String) : Option Handler → Option Handler
  | none => none
  | some ⟨param, body⟩ => some ⟨param, storeAll temp body⟩

/-- A finally block whose own raises assign to the temporary. -/
def storeInBlock (temp : String) : Option (List Stmt) → Option (List Stmt)
  | none => none
  | some body => some (storeAll temp body)

/-- Statements whose own raises assign to the temporary. -/
def storeAll (temp : String) : List Stmt → List Stmt
  | [] => []
  | s :: ss => s.storeRaises temp :: storeAll temp ss

end

/-! ## The lowered form -/

/-- A lowered try expression. The temporary is declared, the statement runs, and a reference to the
temporary stands for the expression. -/
structure LoweredAttempt where
  temp : String
  declaration : Stmt
  statement : Stmt

/-- The reference to the temporary. -/
def LoweredAttempt.reference (l : LoweredAttempt) : Expr :=
  .ident l.temp

/-- The declaration of a name without a value. -/
def declareEmpty (name : String) (span : Span) : Stmt :=
  .declare .mutable [⟨name, none⟩] span

/-- The try expression with its raises stored in `temp`. The finally block starts by binding its
parameter to what is stored. -/
def TryExpr.stored (t : TryExpr) (temp : String) : LoweredAttempt where
  temp := temp
  declaration := declareEmpty temp t.span
  statement :=
    let binding := t.finallyParam.toList.map fun param =>
      Stmt.declare .mutable [⟨param, some (.ident temp)⟩] t.span
    .guarded (storeAll temp t.body) (some ⟨t.catchParam, storeAll temp t.catchBody⟩)
      (t.finallyBody.map fun body => binding ++ storeAll temp body) t.span

/-- Whether the raises of a try expression are those noted, by identity and in number. -/
def checkOwned (noted : RaiseSites) (t : TryExpr) : Except (Breach × Span) Unit :=
  let found := t.sites
  match found.all.find? fun site => !noted.all.any (·.id == site.id) with
  | some stray => .error (.strayRaise, stray.span)
  | none =>
    if found.size == noted.size then .ok ()
    else .error (.miscounted found.size noted.size, t.span)

/-- Lowers a try expression whose clauses are lowered already. The raises noted on it are those it
had before its clauses were lowered; without a note they are collected now. -/
def lowerNode (t : TryExpr) (names : Names) : Except (Breach × Span) (LoweredAttempt × Names) :=
  match t.verdict with
  | none => .error (.unjudged, t.span)
  | some (.invalid _ _) => .error (.refused, t.span)
  | some .valid => do
    checkOwned (t.raises.getD t.sites) t
    let (temp, names) := names.fresh "raise"
    return (t.stored temp, names)

end RaiseScript
