import RaiseScript.Token
import RaiseScript.Diagnostic
import RaiseScript.Text.Blank
import RaiseScript.Text.Letter

/-!
# From text to tokens

`Token.next` takes one step from a place in the text: it skips a blank or a comment, or it reads
a token. `lex` repeats it to the end. Each step consumes a character (`Token.next_shorter`), so the
repetition ends, and the last lexeme is `Token.finish` at the end of the text.
-/

namespace RaiseScript

/-- What makes a text unreadable. -/
inductive LexError where
  | unterminatedComment
  | unterminatedString
  | unterminatedEscape
  | unexpected (c : Char)
deriving DecidableEq, Repr

/-- The wording of a lexical error. -/
def LexError.message : LexError → String
  | .unterminatedComment => "unterminated block comment"
  | .unterminatedString => "unterminated string literal"
  | .unterminatedEscape => "unterminated escape in string"
  | .unexpected c => "unexpected character '" ++ c.toString ++ "'"

/-- A place in a text: the characters ahead, how many are behind, and the line. -/
structure Place where
  ahead : List Char
  position : Nat
  line : Nat
deriving DecidableEq, Repr

/-- The outcome of one step. -/
inductive LexStep where
  | finished
  | skipped (rest : Place)
  | read (token : Token) (rest : Place)
  | failed (error : LexError) (span : Span)

/-- The place a step leads to. -/
def LexStep.rest? : LexStep → Option Place
  | .skipped rest => some rest
  | .read _ rest => some rest
  | _ => none

namespace Token

/-! ## Comments, strings, numbers -/

/-- The characters after the next `*/`, how many were passed, and how many of them end a line. -/
def skipComment : List Char → Nat → Nat → Option (List Char × Nat × Nat)
  | [], _, _ => none
  | '*' :: '/' :: cs, passed, lines => some (cs, passed + 2, lines)
  | c :: cs, passed, lines => skipComment cs (passed + 1) (if c = '\n' then lines + 1 else lines)

/-- What an escaped character stands for. -/
def unescape (c : Char) : Char :=
  match c with
  | 'n' => '\n'
  | 't' => '\t'
  | 'r' => '\r'
  | '0' => '\x00'
  | c => c

/-- The content of a string literal up to its closing quote, the characters after it and how many
were passed; or the error and how many were passed. -/
def readString (quote : Char) :
    List Char → Nat → Except (LexError × Nat) (List Char × List Char × Nat)
  | [], passed => .error (.unterminatedString, passed)
  | c :: cs, passed =>
    if c = '\n' then .error (.unterminatedString, passed)
    else if c = quote then .ok ([], cs, passed + 1)
    else if c = '\\' then
      match cs with
      | [] => .error (.unterminatedEscape, passed + 1)
      | e :: rest => (readString quote rest (passed + 2)).map fun (s, after) => (unescape e :: s, after)
    else (readString quote cs (passed + 1)).map fun (s, after) => (c :: s, after)

/-- The digits before the point, the digits after it and the characters that follow. The point
belongs to the number only if a digit comes after it. -/
def readNumber (cs : List Char) : List Char × List Char × List Char :=
  let whole := cs.takeWhile Char.isDigit
  match cs.dropWhile Char.isDigit with
  | '.' :: c :: rest =>
    if c.isDigit then (whole, (c :: rest).takeWhile Char.isDigit, (c :: rest).dropWhile Char.isDigit)
    else (whole, [], '.' :: c :: rest)
  | rest => (whole, [], rest)

/-- The first mark that the text starts with, and the characters after it. -/
def readMark? (cs : List Char) : Option (Mark × List Char) :=
  (Mark.byLength.find? fun m => m.text.isPrefixOf cs).map fun m => (m, cs.drop m.text.length)

/-! ## One step -/

/-- One step from a place in the text. -/
def next (p : Place) : LexStep :=
  match p.ahead with
  | [] => .finished
  | '/' :: '/' :: cs =>
    let comment := cs.takeWhile (· ≠ '\n')
    .skipped ⟨cs.dropWhile (· ≠ '\n'), p.position + 2 + comment.length, p.line⟩
  | '/' :: '*' :: cs =>
    match skipComment cs 2 0 with
    | some (rest, passed, lines) => .skipped ⟨rest, p.position + passed, p.line + lines⟩
    | none => .failed .unterminatedComment ⟨p.position, p.position + 2 + cs.length, p.line⟩
  | c :: cs =>
    if isBlank c then .skipped ⟨cs, p.position + 1, if c = '\n' then p.line + 1 else p.line⟩
    else if c = '"' ∨ c = '\'' then
      match readString c cs 1 with
      | .ok (s, rest, passed) => .read (.string (String.ofList s)) ⟨rest, p.position + passed, p.line⟩
      | .error (e, passed) => .failed e ⟨p.position, p.position + passed, p.line⟩
    else if c.isDigit then
      let (whole, fraction, rest) := readNumber (c :: cs)
      let length := whole.length + (if fraction.isEmpty then 0 else fraction.length + 1)
      .read (.number ((Decimal.ofDigits whole fraction).toFloat false)) ⟨rest, p.position + length, p.line⟩
    else if isWordStart c then
      let text := (c :: cs).takeWhile isWordPart
      .read (.word (String.ofList text)) ⟨(c :: cs).dropWhile isWordPart, p.position + text.length, p.line⟩
    else
      match readMark? (c :: cs) with
      | some (m, rest) => .read (.mark m) ⟨rest, p.position + m.text.length, p.line⟩
      | none => .failed (.unexpected c) ⟨p.position, p.position + 1, p.line⟩

/-! ## Progress -/

theorem length_dropWhile_le {α : Type} (p : α → Bool) (l : List α) :
    (l.dropWhile p).length ≤ l.length :=
  (List.dropWhile_sublist p).length_le

theorem length_skipComment {cs : List Char} {n k : Nat} {r : List Char × Nat × Nat}
    (h : skipComment cs n k = some r) : r.1.length < cs.length := by
  fun_induction skipComment cs n k with
  | case1 => simp at h
  | case2 cs => obtain rfl := Option.some.inj h; simp only [List.length_cons]; omega
  | case3 c cs passed lines _ ih => have := ih h; simp only [List.length_cons]; omega

theorem length_readString {quote : Char} {cs : List Char} {n : Nat}
    {r : List Char × List Char × Nat} (h : readString quote cs n = .ok r) :
    r.2.1.length < cs.length := by
  fun_induction readString quote cs n generalizing r with
  | case1 => simp at h
  | case2 => simp at h
  | case3 c cs => obtain rfl := Except.ok.inj h; simp
  | case4 => simp at h
  | case5 n e rest _ _ ih =>
    cases hr : readString quote rest (n + 2) with
    | error e => simp [hr, Except.map] at h
    | ok a =>
      have := ih hr
      rw [hr] at h
      obtain rfl := Except.ok.inj h
      simp only [List.length_cons]
      omega
  | case6 c cs n _ _ _ ih =>
    cases hr : readString quote cs (n + 1) with
    | error e => simp [hr, Except.map] at h
    | ok a =>
      have := ih hr
      rw [hr] at h
      obtain rfl := Except.ok.inj h
      simp only [List.length_cons]
      omega

theorem length_readNumber {c : Char} {cs : List Char} (h : c.isDigit = true) :
    (readNumber (c :: cs)).2.2.length < (c :: cs).length := by
  have drop : (c :: cs).dropWhile Char.isDigit = cs.dropWhile Char.isDigit := by
    rw [List.dropWhile_cons, if_pos h]
  have bound := length_dropWhile_le Char.isDigit cs
  unfold readNumber
  rw [drop]
  simp only [List.length_cons]
  split
  · rename_i d rest heq
    rw [heq] at bound
    simp only [List.length_cons] at bound
    split
    · have := length_dropWhile_le Char.isDigit (d :: rest)
      simp only [List.length_cons] at this ⊢
      omega
    · simp only [List.length_cons]; omega
  · simp only; omega

theorem length_text_pos (m : Mark) : 0 < m.text.length := by
  cases m <;> decide

theorem length_readMark {cs : List Char} {r : Mark × List Char} (h : readMark? cs = some r) :
    cs ≠ [] → r.2.length < cs.length := by
  intro ne
  obtain ⟨m, -, rfl⟩ := Option.map_eq_some_iff.1 h
  have := length_text_pos m
  have := List.length_pos_iff.2 ne
  simp only [List.length_drop]
  omega

/-- Every step that goes on consumes at least one character. -/
theorem next_shorter {p r : Place} (h : (next p).rest? = some r) :
    r.ahead.length < p.ahead.length := by
  unfold next at h
  split at h
  · simp [LexStep.rest?] at h
  · rename_i cs hp
    have := length_dropWhile_le (· ≠ '\n') cs
    obtain rfl := Option.some.inj h
    simp only [hp, List.length_cons]
    omega
  · rename_i cs hp
    split at h
    · rename_i r' passed lines hs
      have := length_skipComment hs
      obtain rfl := Option.some.inj h
      simp only [hp, List.length_cons] at *
      omega
    · simp [LexStep.rest?] at h
  · rename_i c cs _ _ hp
    split at h
    · obtain rfl := Option.some.inj h
      simp [hp]
    · split at h
      · split at h
        · rename_i hs
          have := length_readString hs
          obtain rfl := Option.some.inj h
          simp only [hp, List.length_cons] at *
          omega
        · simp [LexStep.rest?] at h
      · split at h
        · rename_i hd
          have := @length_readNumber c cs hd
          obtain rfl := Option.some.inj h
          rw [hp]
          exact this
        · split at h
          · rename_i hw
            have := length_dropWhile_le isWordPart cs
            obtain rfl := Option.some.inj h
            simp only [hp, List.dropWhile_cons, isWordPart_of_isWordStart hw, if_true, List.length_cons]
            omega
          · split at h
            · rename_i hm
              have := length_readMark hm (by simp)
              obtain rfl := Option.some.inj h
              rw [hp]
              exact this
            · simp [LexStep.rest?] at h

end Token

/-! ## The whole text -/

/-- The lexemes from a place to the end of the text. -/
def lexFrom (p : Place) : Except (LexError × Span) (List Lexeme) :=
  match h : Token.next p with
  | .finished => .ok [⟨.finish, ⟨p.position, p.position, p.line⟩⟩]
  | .skipped rest =>
    have : rest.ahead.length < p.ahead.length := Token.next_shorter (by rw [h]; rfl)
    lexFrom rest
  | .read token rest =>
    have : rest.ahead.length < p.ahead.length := Token.next_shorter (by rw [h]; rfl)
    match lexFrom rest with
    | .ok later => .ok (⟨token, ⟨p.position, rest.position, p.line⟩⟩ :: later)
    | .error e => .error e
  | .failed error span => .error (error, span)
termination_by p.ahead.length

/-- The lexemes of a text, or the first error in it. -/
def lexChars (cs : List Char) : Except (LexError × Span) (List Lexeme) :=
  lexFrom ⟨cs, 0, 1⟩

/-- The lexemes of a source text, or a diagnostic that names the file. -/
def lex (source file : String) : Except Diagnostic (List Lexeme) :=
  (lexChars source.toList).mapError fun (e, span) => .located 0 .lex none file span e.message

end RaiseScript
