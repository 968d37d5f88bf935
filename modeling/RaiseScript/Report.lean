import RaiseScript.Text.Lines

/-!
# Test reports

A `Report` is a list of points in the order in which they were checked. `Report.render` writes it
in version 14 of the Test Anything Protocol: the plan, a line for every point, an indented block
after each failure, and comment lines that tally the points of each kind and of all kinds.
-/

namespace RaiseScript

/-- What a point checks. -/
inductive PointKind where
  /-- The lowered text of a program. -/
  | lowered
  /-- What the lowered program prints. -/
  | output
  /-- The complaint that a stage makes about a program. -/
  | rejected (stage : Nat)
deriving DecidableEq, Repr

namespace PointKind

/-- The name of a kind in reports. -/
def name : PointKind → String
  | .lowered => "lowered"
  | .output => "output"
  | .rejected stage => "rejected at pass " ++ toString stage

/-- The name of a point of this kind. -/
def pointName (stem : String) : PointKind → String
  | .lowered => "positive/" ++ stem
  | .output => "positive/" ++ stem ++ " (output)"
  | .rejected stage => "negative/pass" ++ toString stage ++ "/" ++ stem

/-- The place of a kind in the tally. -/
def rank : PointKind → Nat
  | .lowered => 0
  | .output => 1
  | .rejected stage => stage + 2

end PointKind

/-- One thing that was checked, and why it failed if it did. -/
structure Point where
  kind : PointKind
  stem : String
  failure : Option String
deriving DecidableEq, Repr

/-- Whether the point is fine. -/
def Point.passed (p : Point) : Bool :=
  p.failure.isNone

/-- The line of a point and, for a failure, the block that explains it. -/
def Point.render (number : Nat) (p : Point) : String :=
  let line := toString number ++ " - " ++ p.kind.pointName p.stem ++ "\n"
  match p.failure with
  | none => "ok " ++ line
  | some reason =>
    "not ok " ++ line ++ "  ---\n  kind: " ++ p.kind.name ++ "\n  message: |\n" ++
      String.join ((lines reason).map fun l => "    " ++ l ++ "\n") ++ "  ...\n"

/-- The points in the order in which they were checked. -/
abbrev Report := List Point

namespace Report

/-- How many points failed. -/
def failed (r : Report) : Nat :=
  r.countP (!·.passed)

/-- Puts a kind at its place among kinds in ascending order, once. -/
def insertKind (kind : PointKind) : List PointKind → List PointKind
  | [] => [kind]
  | k :: ks =>
    if kind.rank < k.rank then kind :: k :: ks
    else if kind = k then k :: ks
    else k :: insertKind kind ks

/-- The kinds that occur, in order. -/
def kinds (r : Report) : List PointKind :=
  r.foldr (insertKind ·.kind) []

/-- The tally of one kind. -/
def tally (r : Report) (kind : PointKind) : String :=
  let points := r.filter (·.kind = kind)
  "# " ++ kind.name ++ " " ++ toString (points.countP (·.passed)) ++ "/" ++ toString points.length ++ "\n"

/-- The points from a number on. -/
def renderFrom : Nat → Report → String
  | _, [] => ""
  | number, p :: ps => p.render number ++ renderFrom (number + 1) ps

/-- The report as text. -/
def render (r : Report) : String :=
  "TAP version 14\n1.." ++ toString r.length ++ "\n" ++ renderFrom 1 r ++
    String.join (r.kinds.map r.tally) ++
    "# tests " ++ toString r.length ++ "\n# pass  " ++ toString (r.length - r.failed) ++
    "\n# fail  " ++ toString r.failed ++ "\n"

end Report

end RaiseScript
