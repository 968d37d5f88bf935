/-!
# Places in a source text

A `Span` is a half-open range of character positions with the line it starts on. Positions count
characters from 0 and lines from 1; the empty span at 0 on line 0 marks what no source text holds.
-/

namespace RaiseScript

/-- The characters from `start` up to `stop`, starting on `line`. -/
structure Span where
  start : Nat
  stop : Nat
  line : Nat
deriving DecidableEq, Repr, Inhabited

namespace Span

/-- The span of what no source text holds. -/
def none : Span := ⟨0, 0, 0⟩

/-- From the start of `s` through the end of `t`. -/
def upTo (s t : Span) : Span :=
  ⟨s.start, max t.stop s.stop, s.line⟩

end Span

end RaiseScript
