import RaiseScript.Text.Letter
import RaiseScript.Json.Basic

/-!
# Options

The two things that the user of the transpiler may choose, the check that they make sense, and the
form in which they are read from JSON.
-/

namespace RaiseScript

/-- What the user may choose. -/
structure Options where
  /-- The beginning of every temporary's name. -/
  tempPrefix : String := "__"
  /-- How many complaints are made at most. -/
  maxErrors : Nat := 50
deriving DecidableEq, Repr, Inhabited

/-- Why options are refused. -/
inductive OptionsError where
  | badPrefix (text : String)
  | noErrors
deriving DecidableEq, Repr

/-- The wording of a refusal. -/
def OptionsError.message : OptionsError → String
  | .badPrefix text => "temp_prefix '" ++ text ++ "' is not a valid identifier prefix"
  | .noErrors => "max_errors must be at least 1"

/-- Whether temporaries that start with the text are words. -/
def isNameStart (text : String) : Bool :=
  match text.toList with
  | [] => false
  | c :: cs => isWordStart c && cs.all isWordPart

namespace Options

/-- Temporaries have to be words, and at least one complaint has to be allowed. -/
def check (o : Options) : Except OptionsError Unit :=
  if !isNameStart o.tempPrefix then .error (.badPrefix o.tempPrefix)
  else if o.maxErrors == 0 then .error .noErrors
  else .ok ()

/-- Sets one option by name. -/
def setField? (o : Options) : String × Json → Option Options
  | ("temp_prefix", .string s) => some { o with tempPrefix := s }
  | ("max_errors", .whole n) => if 0 ≤ n then some { o with maxErrors := n.toNat } else none
  | _ => none

/-- Options from an object with their names, or from a list of them in order. What is missing takes
its default; what is unknown or of the wrong kind is refused. -/
def ofJson? : Json → Option Options
  | .object fields => fields.foldlM setField? {}
  | .array items =>
    if items.length ≤ 2 then (["temp_prefix", "max_errors"].zip items).foldlM setField? {} else none
  | _ => none

end Options

end RaiseScript
