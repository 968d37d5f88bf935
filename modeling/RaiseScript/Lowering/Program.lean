import RaiseScript.Lowering.Hoist

/-!
# Lowering programs and fragments

`lowerProgram` lowers all try expressions of a program and then makes sure that none is left.
`lowerFragment` lowers one expression of which the surrounding code is not known.
-/

namespace RaiseScript

/-- The place of a try expression or a raise. -/
def Visit.extension? : Visit → Option Span
  | .attempt t => some t.span
  | .stmt (.raise _ _ span) => some span
  | _ => none

/-- The first try expression or raise of a program. -/
def firstExtension? (p : Program) : Option Span :=
  (walkStmts .all p).findSome? Visit.extension?

/-- Makes sure that no try expression and no raise is left. -/
def ensureLowered (p : Program) : Except (Breach × Span) Unit :=
  match firstExtension? p with
  | none => .ok ()
  | some span => .error (.leftover, span)

/-- A supply of names that avoids those of the program. -/
def Names.forProgram (beginning : String) (p : Program) : Names :=
  .avoiding beginning (identifiers p)

/-- What a whole program tells about its parts. -/
def Surroundings.ofProgram (p : Program) : Surroundings :=
  ⟨reassigned p, assignedProperties p, false⟩

/-- Anything may happen around a fragment. -/
def Surroundings.unknown : Surroundings :=
  ⟨[], none, true⟩

/-- A program with all its try expressions lowered, and what that took. -/
def lowerProgram (beginning : String) (p : Program) : Except (Breach × Span) (Program × Progress) := do
  let start := Progress.mk (.forProgram beginning p) 0
  let (lowered, progress) ← (lowerStmts (.ofProgram p) p).run start
  ensureLowered lowered
  return (lowered, progress)

/-- An expression lowered without knowledge of the code around it. -/
def lowerFragment (names : Names) (e : Expr) : Except (Breach × Span) (Hoisted × Progress) :=
  (lowerExpr .unknown true e).run ⟨names, 0⟩

end RaiseScript
