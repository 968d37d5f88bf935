import RaiseScript.Proofs.Spelled

/-!
# What the grammar accepts

A tree that was read from tokens is spelled as they are (`Visit.Spelled`), and no raise stands
directly in the body of a function or in a finally block without a binding (`Visit.Placed`), because
`raise` is a keyword only where a statement is read inside a clause that hands out values, and the
body of a function starts anew.
-/

namespace RaiseScript

/-! ## Tokens and cursors -/

/-- The token is a word or a number of the spelling, or a mark or a string. -/
def Token.Fits (sp : Spelling) : Token → Prop
  | .word w => sp.property w ∧ (isReserved w = false → sp.name w)
  | .number x => sp.number x
  | _ => True

/-- A spelling without any demands. -/
def Spelling.any : Spelling :=
  ⟨fun _ => True, fun _ => True, fun _ => True⟩

theorem Token.fits_any (t : Token) : t.Fits .any := by
  cases t <;> simp [Token.Fits, Spelling.any]

/-- The cursor sees only tokens of the spelling. -/
def Cursor.Fits (sp : Spelling) (c : Cursor) : Prop :=
  ∀ l ∈ c.ahead, l.token.Fits sp

namespace Cursor.Fits

variable {sp : Spelling} {c : Cursor}

theorem current (h : c.Fits sp) : c.current.token.Fits sp := by
  unfold Cursor.current
  cases ha : c.ahead with
  | nil => exact trivial
  | cons l rest => exact h l (by simp [ha])

theorem advance (h : c.Fits sp) : c.advance.Fits sp := by
  obtain ⟨before, _ | ⟨l, _ | ⟨m, rest⟩⟩, id⟩ := c
  · exact h
  · exact h
  · exact fun k hk => h k (List.mem_cons_of_mem l hk)

end Cursor.Fits

/-! ## Trees that were read -/

/-- No raise stands directly in the body of a function, nor in a finally block of a try expression
that has no binding for it. -/
def Visit.Placed : Visit → Prop
  | .func ⟨_, _, .block body, _, _, _⟩ => ∀ c, sitesIn c body = []
  | .attempt t => t.finallyParam = none → ∀ c, sitesIn c (t.finallyBody.getD []) = []
  | _ => True

/-- All nodes of a walk are spelled and placed. -/
def Parsed (sp : Spelling) (vs : List Visit) : Prop :=
  ∀ v ∈ vs, v.Spelled sp ∧ v.Placed

section

variable {sp : Spelling}

@[simp] theorem parsed_nil : Parsed sp [] := by
  simp [Parsed]

@[simp] theorem parsed_cons (v : Visit) (vs : List Visit) :
    Parsed sp (v :: vs) ↔ (v.Spelled sp ∧ v.Placed) ∧ Parsed sp vs := by
  simp [Parsed]

@[simp] theorem parsed_append (us vs : List Visit) :
    Parsed sp (us ++ vs) ↔ Parsed sp us ∧ Parsed sp vs :=
  List.forall_mem_append

end

/-- Nothing raises directly, unless raises are allowed. -/
def RaisesOnlyIf (raising : Bool) (vs : List Visit) : Prop :=
  raising = false → ∀ c, raiseSites c vs = []

end RaiseScript
