import RaiseScript.Span

/-!
# Raise sites and verdicts

Every try expression owns the `raise` statements that stand directly in its clauses. A `RaiseSite`
names one of them by its identity, and `RaiseSites` lists those of each clause in source order. A
`Verdict` says whether a try expression keeps the rules for where its raises stand.
-/

namespace RaiseScript

/-- The identity of a try expression or a raise statement within one program. -/
abbrev NodeId := Nat

/-- The clauses of a try expression. -/
inductive Clause where
  | body
  | handler
  | finalizer
deriving DecidableEq, Repr

/-- The keyword that opens a clause. -/
def Clause.keyword : Clause → String
  | .body => "try"
  | .handler => "catch"
  | .finalizer => "finally"

/-- A raise statement and the clause it belongs to. -/
structure RaiseSite where
  clause : Clause
  id : NodeId
  span : Span
deriving DecidableEq, Repr

/-- The raise statements of a try expression, clause by clause. -/
structure RaiseSites where
  body : List RaiseSite
  handler : List RaiseSite
  finalizer : List RaiseSite
deriving DecidableEq, Repr

namespace RaiseSites

/-- No raises at all. -/
def none : RaiseSites := ⟨[], [], []⟩

/-- All sites, in the order of the clauses. -/
def all (s : RaiseSites) : List RaiseSite :=
  s.body ++ s.handler ++ s.finalizer

/-- How many sites there are. -/
def size (s : RaiseSites) : Nat :=
  s.all.length

end RaiseSites

/-- The rules for where raises stand in a try expression. -/
inductive Rule where
  | symmetry
  | finallyBinding
deriving DecidableEq, Repr

/-- The name of a rule in reports. -/
def Rule.name : Rule → String
  | .symmetry => "symmetry"
  | .finallyBinding => "finally-binding"

/-- The ways to break a rule. -/
inductive Fault where
  /-- Exactly one of the body and the handler raises. -/
  | lopsided
  /-- A finally binding without a finally block. -/
  | boundNothing
  /-- A raise in a finally block without a binding. -/
  | unboundRaise
deriving DecidableEq, Repr

/-- The rule that a fault breaks. -/
def Fault.rule : Fault → Rule
  | .lopsided => .symmetry
  | .boundNothing => .finallyBinding
  | .unboundRaise => .finallyBinding

/-- The wording of a fault. -/
def Fault.message : Fault → String
  | .lopsided => "raise must appear in both try and catch, or neither"
  | .boundNothing => "finally binding requires a finally block"
  | .unboundRaise => "raise in a finally clause requires a finally binding"

/-- The outcome of checking one try expression. -/
inductive Verdict where
  | valid
  | invalid (fault : Fault) (span : Span)
deriving DecidableEq, Repr

end RaiseScript
