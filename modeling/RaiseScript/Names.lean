/-!
# Names for temporaries

A `Names` supply hands out names made of a beginning, a role and a number. The number goes up with
every candidate, and candidates that are taken are passed over. Since the supply remembers what it
gave out, `Names.isIssued` tells temporaries from the names of the program.
-/

namespace RaiseScript

/-- A supply of names. -/
structure Names where
  beginning : String
  next : Nat
  taken : List String
  issued : List String
deriving Repr

namespace Names

/-- A supply that avoids the given names. -/
def avoiding (beginning : String) (taken : List String) : Names :=
  ⟨beginning, 0, taken, []⟩

/-- The candidate with the given role and number. -/
def candidate (ns : Names) (role : String) (n : Nat) : String :=
  ns.beginning ++ role ++ toString n

/-- The number of the first free candidate from `n` on, passing over at most `fuel` of them. -/
def firstFree (ns : Names) (role : String) : Nat → Nat → Nat
  | 0, n => n
  | fuel + 1, n => if ns.taken.contains (ns.candidate role n) then ns.firstFree role fuel (n + 1) else n

/-- A name that is not taken, and the supply after it. Among as many candidates as there are taken
names, and one more, at least one is free. -/
def fresh (ns : Names) (role : String) : String × Names :=
  let n := ns.firstFree role ns.taken.length ns.next
  let name := ns.candidate role n
  (name, { ns with next := n + 1, taken := name :: ns.taken, issued := name :: ns.issued })

/-- Whether the supply gave out the name. -/
def isIssued (ns : Names) (name : String) : Bool :=
  ns.issued.contains name

end Names

end RaiseScript
