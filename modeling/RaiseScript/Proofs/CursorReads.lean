import RaiseScript.Proofs.Written
import RaiseScript.Parse.Grammar

/-!
# What a cursor sees

A cursor sees the tokens from its place on and, before each of them, whether there is a line break.
`Cursor.Reads` says that this is what given pieces show. A reading step on a cursor is then a step
along the pieces.
-/

namespace RaiseScript

variable {m : Mark} {w : String}

open Piece

/-! ## Sights -/

/-- The tokens of lexemes after a line, each with whether a line break comes before it. -/
def sight (line : Nat) : List Lexeme → List (Bool × Token)
  | [] => []
  | l :: ls => (decide (line < l.span.line), l.token) :: sight l.span.line ls

/-- The tokens of pieces, each with whether a line break comes before it. -/
def signs (broken : Bool) : List Piece → List (Bool × Token)
  | [] => []
  | .token t :: ps => (broken, t) :: signs false ps
  | .gap cs :: ps => signs (broken || cs.contains '\n') ps

/-- The cursor sees what the pieces show, and then the end of the text. -/
def Cursor.Reads (c : Cursor) (broken : Bool) (ps : List Piece) : Prop :=
  sight c.before.line c.ahead = signs broken (ps ++ [.token .finish])

/-- The first token of pieces. -/
def firstToken : List Piece → Option Token
  | [] => none
  | .token t :: _ => some t
  | .gap _ :: ps => firstToken ps

@[simp] theorem firstToken_token (t : Token) (ps : List Piece) : firstToken (.token t :: ps) = some t := rfl

@[simp] theorem firstToken_gap (cs : List Char) (ps : List Piece) :
    firstToken (.gap cs :: ps) = firstToken ps := rfl

theorem signs_of_firstToken {t : Token} {ps : List Piece} (h : firstToken ps = some t)
    (qs : List Piece) (b : Bool) : ∃ b' us, signs b (ps ++ qs) = (b', t) :: us := by
  induction ps generalizing b with
  | nil => cases h
  | cons p ps ih =>
    cases p with
    | token t' =>
      cases h
      exact ⟨b, _, rfl⟩
    | gap cs => exact ih h _

theorem signs_ne_nil (b : Bool) (ps : List Piece) : signs b (ps ++ [.token .finish]) ≠ [] := by
  induction ps generalizing b with
  | nil => simp [signs]
  | cons p ps ih =>
    cases p with
    | token t => simp [signs]
    | gap cs => exact ih _

namespace Cursor

variable {c : Cursor} {b : Bool} {t : Token} {ps : List Piece}

@[simp] theorem reads_gap {cs : List Char} :
    c.Reads b (.gap cs :: ps) ↔ c.Reads (b || cs.contains '\n') ps := Iff.rfl

theorem Reads.blank (h : c.Reads b (blank :: ps)) : c.Reads b ps := by
  simpa using h

theorem Reads.ahead_ne_nil (h : c.Reads b ps) : c.ahead ≠ [] := by
  intro hnil
  rw [Reads, hnil] at h
  exact signs_ne_nil b ps h.symm

section

variable (h : c.Reads b (.token t :: ps))

include h

theorem Reads.cons :
    ∃ l ls, c.ahead = l :: ls ∧ l.token = t ∧ decide (c.before.line < l.span.line) = b ∧
      sight l.span.line ls = signs false (ps ++ [.token .finish]) := by
  rw [Reads] at h
  cases ha : c.ahead with
  | nil =>
    rw [ha] at h
    cases h
  | cons l ls =>
    rw [ha, sight, List.cons_append, signs] at h
    obtain ⟨hl, hls⟩ := List.cons.inj h
    obtain ⟨hb, ht⟩ := Prod.mk.inj hl
    exact ⟨l, ls, rfl, ht, hb, hls⟩

theorem Reads.current : c.current.token = t := by
  obtain ⟨l, ls, ha, ht, -, -⟩ := h.cons
  rw [Cursor.current, ha]
  exact ht

theorem Reads.afterBreak : c.afterBreak = b := by
  obtain ⟨l, ls, ha, -, hb, -⟩ := h.cons
  rw [Cursor.afterBreak, Cursor.current, ha]
  exact hb

theorem Reads.advance : c.advance.Reads false ps := by
  obtain ⟨l, ls, ha, -, -, hls⟩ := h.cons
  cases ls with
  | nil => exact absurd hls.symm (signs_ne_nil false ps)
  | cons l' ls =>
    rw [Cursor.advance, ha]
    exact hls

end

theorem Reads.first (h : c.Reads b ps) (ht : firstToken ps = some t) : c.current.token = t := by
  obtain ⟨b', us, hus⟩ := signs_of_firstToken ht [.token .finish] b
  rw [Reads, hus] at h
  cases ha : c.ahead with
  | nil =>
    rw [ha] at h
    cases h
  | cons l ls =>
    rw [ha, sight] at h
    rw [Cursor.current, ha]
    exact (Prod.mk.inj (List.cons.inj h).1).2

end Cursor

/-! ## Reading steps -/

namespace Parser

variable {α β : Type} {c c' : Cursor} {b : Bool} {t : Token} {ps : List Piece}

theorem bind_ok {x : Parser α} {f : α → Parser β} {a : α} (h : x c = .ok (a, c')) : (x >>= f) c = f a c' := by
  change (x c >>= fun y => f y.1 y.2) = f a c'
  rw [h]
  rfl

theorem peek_first (h : c.Reads b ps) (ht : firstToken ps = some t) : peek c = .ok (t, c) := by
  rw [peek, h.first ht]

theorem atMark_first (h : c.Reads b ps) (ht : firstToken ps = some t) (m : Mark) :
    atMark m c = .ok (t.isMark m, c) := by
  rw [atMark, h.first ht]

theorem atWord_first (h : c.Reads b ps) (ht : firstToken ps = some t) (w : String) :
    atWord w c = .ok (t.isWord w, c) := by
  rw [atWord, h.first ht]

theorem eat_mark (h : c.Reads b (mark m :: ps)) : eat m c = .ok (true, c.advance) := by
  simp [eat, h.current, Token.isMark]

theorem eat_other (h : c.Reads b ps) (ht : firstToken ps = some t) (hm : t.isMark m = false) :
    eat m c = .ok (false, c) := by
  simp [eat, h.first ht, hm]

theorem eatWord_word (h : c.Reads b (word w :: ps)) : eatWord w c = .ok (true, c.advance) := by
  simp [eatWord, h.current, Token.isWord]

theorem eatWord_other (h : c.Reads b ps) (ht : firstToken ps = some t) (hw : t.isWord w = false) :
    eatWord w c = .ok (false, c) := by
  simp [eatWord, h.first ht, hw]

theorem expect_mark (h : c.Reads b (mark m :: ps)) : expect m c = .ok ((), c.advance) := by
  rw [expect, bind_ok (eat_mark h)]
  rfl

theorem name_word {x : String} (h : c.Reads b (word x :: ps)) (hx : isReserved x = false) :
    name c = .ok (x, c.advance) := by
  rw [name, bind_ok (peek_first h rfl)]
  simp only [hx, Bool.false_eq_true, if_false]
  rfl

theorem semicolon_mark (h : c.Reads b (mark .semicolon :: ps)) : semicolon c = .ok ((), c.advance) := by
  simp [semicolon, h.current, Token.isMark]

end Parser

end RaiseScript
