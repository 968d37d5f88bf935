import RaiseScript.Proofs.Lowered

/-!
# Code that lowering keeps the meaning of

Lowering has to assume a few things of a tree to keep its meaning. The names of temporaries are not
used in it. What is known about the code around it is right (`Surroundings`). Try expressions stand
only where statements can be put in front of them without being run too often or too early
(`Visit.leavesRoom`, `Visit.yieldsPlain`). And no declaration is the whole body of a branch or of a
loop, where it would end up in a scope of its own (`Visit.isBraced`). Fragments are held to more
(`Visit.isFlat`), since nothing is known about the code around them.

All of this can be read off the nodes of the tree one by one (`Visit.Tame`).
-/

namespace RaiseScript

/-- The statement is a declaration. -/
def Stmt.isDeclare : Stmt → Bool
  | .declare _ _ _ => true
  | _ => false

namespace Visit

/-- No try expression stands in the body of an arrow function or in the test of a case or of a
loop. -/
def leavesRoom : Visit → Bool
  | .func ⟨_, _, .expr e, _, _, _⟩ => !e.hasAttempt
  | .stmt (.switch _ cs _) => cs.all fun c => !c.test.any Expr.hasAttempt
  | .stmt (.loop test _ _) => !test.hasAttempt
  | _ => true

/-- No try expression stands under a `yield`, which no machine gets to run. -/
def yieldsPlain : Visit → Bool
  | .expr (.yield (some e) _) => !e.hasAttempt
  | _ => true

/-- No declaration is the body of a branch or of a loop without being in a block. -/
def isBraced : Visit → Bool
  | .stmt (.branch _ yes no _) => !yes.isDeclare && !no.any Stmt.isDeclare
  | .stmt (.loop _ body _) => !body.isDeclare
  | _ => true

/-- Statements and functions hold no try expressions, and neither do the arguments of methods. -/
def isFlat : Visit → Bool
  | .stmt st => !meetsAttempt (st.walk .all)
  | .func f => !meetsAttempt (f.walk .all)
  | .expr (.call callee args) => !(callee.isPlace && args.any Expr.hasAttempt)
  | _ => true

/-- The node is as lowering expects it, given the surroundings and the names of temporaries. -/
structure Tame (sp : Spelling) (s : Surroundings) (temp : String → Prop) (v : Visit) : Prop where
  ready : v.Ready
  spelled : v.Spelled sp
  names : ∀ x ∈ v.names, ¬ temp x
  rebinds : s.isOpen = false → ∀ x ∈ v.rebinds, x ∈ s.rebindable
  writes : ∀ q ∈ v.writes, s.isStable q = false
  computed : v.writesComputed = true → ∀ q, s.isStable q = false
  room : v.leavesRoom = true
  yields : v.yieldsPlain = true
  braced : s.isOpen = false → v.isBraced = true
  flat : s.isOpen = true → v.isFlat = true

end Visit

/-- All nodes of a walk are as lowering expects them. -/
def AllTame (sp : Spelling) (s : Surroundings) (temp : String → Prop) (vs : List Visit) : Prop :=
  ∀ v ∈ vs, v.Tame sp s temp

namespace AllTame

variable {sp : Spelling} {s : Surroundings} {temp : String → Prop} {v : Visit} {us vs : List Visit}

theorem head (h : AllTame sp s temp (v :: vs)) : v.Tame sp s temp :=
  h v List.mem_cons_self

theorem tail (h : AllTame sp s temp (v :: vs)) : AllTame sp s temp vs :=
  fun _ hv => h _ (List.mem_cons_of_mem _ hv)

theorem left (h : AllTame sp s temp (us ++ vs)) : AllTame sp s temp us :=
  fun _ hv => h _ (List.mem_append_left _ hv)

theorem right (h : AllTame sp s temp (us ++ vs)) : AllTame sp s temp vs :=
  fun _ hv => h _ (List.mem_append_right _ hv)

theorem lowerable (h : AllTame sp s temp vs) : Lowerable sp vs :=
  fun v hv => ⟨(h v hv).ready, (h v hv).spelled⟩

end AllTame

/-- Names are handed out on the way from `p` to `q` that are known as temporaries. -/
structure Supplied (sp : Spelling) (temp : String → Prop) (p q : Progress) : Prop where
  fits : sp.Fits p.names
  kept : p.names.issued ⊆ p.names.taken
  temps : ∀ x ∈ q.names.issued, temp x

namespace Supplied

variable {sp : Spelling} {temp : String → Prop} {p q r : Progress}

theorem first (h : Supplied sp temp p r) (hq : q.names.Grows r.names) : Supplied sp temp p q :=
  ⟨h.fits, h.kept, fun x hx => h.temps x (hq.issued hx)⟩

theorem second (h : Supplied sp temp p r) (hp : p.names.Grows q.names) : Supplied sp temp q r :=
  ⟨h.fits.grows hp, hp.kept h.kept, h.temps⟩

end Supplied

end RaiseScript
