/-!
# Sets of characters given by stretches

A property of characters that a standard publishes as a list of ranges is kept here as the lengths
of the stretches of code points that lie outside and inside of the set in turn: the first counts
the code points below the set, the second those of its first range, and so on. `Stretches.mem` uses
up the stretches before a code point.
-/

namespace RaiseScript

/-- The lengths of the stretches of code points that lie outside and inside of a set in turn. -/
abbrev Stretches := List Nat

namespace Stretches

/-- Whether a code point lies in the set, given whether the first stretch does. -/
def memFrom (inside : Bool) (code : Nat) : Stretches → Bool
  | [] => inside
  | n :: ns => if code < n then inside else memFrom (!inside) (code - n) ns

/-- Whether the character lies in the set. -/
def mem (ns : Stretches) (c : Char) : Bool :=
  memFrom false c.toNat ns

end Stretches

end RaiseScript
