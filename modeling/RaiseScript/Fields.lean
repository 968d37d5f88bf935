/-!
# Named fields in order

The fields of an object stand in ascending order of their names, and each name occurs once. That
holds of objects in data files and of objects in a running program alike.
-/

namespace RaiseScript

/-- Values by name, in ascending order of the names. -/
abbrev Fields (α : Type) := List (String × α)

/-- Puts a field at its place; a field of the same name is replaced. -/
def Fields.insert {α : Type} (name : String) (value : α) : Fields α → Fields α
  | [] => [(name, value)]
  | (k, v) :: rest =>
    if name < k then (name, value) :: (k, v) :: rest
    else if name = k then (k, value) :: rest
    else (k, v) :: Fields.insert name value rest

end RaiseScript
