import RaiseScript.Text.Ranges

/-!
# White space

`isBlank` is the Unicode property White_Space. Besides the six characters of the ASCII range it
holds of the next-line control, the no-break spaces, the typographic spaces and the two separators.
-/

namespace RaiseScript

/-- White space beyond the ASCII range. -/
def wideBlanks : Stretches := [
  133, 1, 26, 1, 5599, 1, 2431, 11, 29, 2, 5, 1, 47, 1, 4000, 1]

/-- White space: tab, the line and page controls, the space, and the wide blanks. -/
def isBlank (c : Char) : Bool :=
  c == ' ' || ('\t' ≤ c && c ≤ '\r') || wideBlanks.mem c

end RaiseScript
