import RaiseScript.Options
import RaiseScript.Text.Hex

/-!
# The settings file

A settings file is written in TOML. Only the two options can be set, each at most once and at the
top of the document, one by a string and the other by a whole number, so `readSettings` knows keys,
strings, whole numbers and comments. All else that TOML can hold could only be an unknown key or a
value of the wrong kind, and is refused.
-/

namespace RaiseScript

/-- Why a settings file is refused. -/
inductive SettingsError where
  | unreadable (line : Nat)
  | unknownKey (key : String) (line : Nat)
  | repeatedKey (key : String) (line : Nat)
  | wrongKind (key : String) (line : Nat)
deriving DecidableEq, Repr

/-- The wording of a refusal. -/
def SettingsError.message : SettingsError → String
  | .unreadable line => "line " ++ toString line ++ ": expected a key, an equals sign and a value"
  | .unknownKey key line => "line " ++ toString line ++ ": unknown key '" ++ key ++ "'"
  | .repeatedKey key line => "line " ++ toString line ++ ": repeated key '" ++ key ++ "'"
  | .wrongKind key line => "line " ++ toString line ++ ": wrong kind of value for '" ++ key ++ "'"

namespace Settings

/-! ## Characters -/

/-- Blanks within a line. -/
def isGap (c : Char) : Bool :=
  c == ' ' || c == '\t'

/-- Characters that comments and strings may hold: the tab and all but control characters. -/
def isPrintable (c : Char) : Bool :=
  c == '\t' || (' ' ≤ c && c ≤ '~') || 0x80 ≤ c.toNat

/-- Characters of a key without quotes. -/
def isKeyChar (c : Char) : Bool :=
  c.isAlphanum || c == '_' || c == '-'

/-- The text after the blanks at its start. -/
def skipGap (cs : List Char) : List Char :=
  cs.dropWhile isGap

/-! ## Strings -/

/-- The character with the code given by the first `count` characters, and the text after them. -/
def codePoint? (count : Nat) (cs : List Char) : Option (Char × List Char) := do
  let digits := cs.take count
  if digits.length < count then none
  else
    let n ← hexNumber? digits
    if n.isValidChar then some (Char.ofNat n, cs.drop count) else none

/-- The character that an escape stands for, after its backslash, and the text after it. -/
def escape? : List Char → Option (Char × List Char)
  | 'b' :: cs => some ('\x08', cs)
  | 't' :: cs => some ('\t', cs)
  | 'n' :: cs => some ('\n', cs)
  | 'f' :: cs => some ('\x0c', cs)
  | 'r' :: cs => some ('\r', cs)
  | '"' :: cs => some ('"', cs)
  | '\\' :: cs => some ('\\', cs)
  | 'u' :: cs => codePoint? 4 cs
  | 'U' :: cs => codePoint? 8 cs
  | _ => none

/-- The rest of a string in double quotes on one line. -/
def quotedBody : Nat → List Char → List Char → Option (String × List Char)
  | 0, _, _ => none
  | fuel + 1, acc, cs =>
    match cs with
    | '"' :: rest => some (String.ofList acc.reverse, rest)
    | '\\' :: rest =>
      match escape? rest with
      | some (c, rest) => quotedBody fuel (c :: acc) rest
      | none => none
    | c :: rest => if isPrintable c then quotedBody fuel (c :: acc) rest else none
    | [] => none

/-- The rest of a string in single quotes on one line; nothing in it is an escape. -/
def literalBody : List Char → List Char → Option (String × List Char)
  | acc, '\'' :: rest => some (String.ofList acc.reverse, rest)
  | acc, c :: rest => if isPrintable c then literalBody (c :: acc) rest else none
  | _, [] => none

/-- The text after a line break at its start. -/
def dropBreak : List Char → List Char
  | '\n' :: cs => cs
  | '\r' :: '\n' :: cs => cs
  | cs => cs

/-- The text after the blanks and line breaks at its start. -/
def skipSpace : List Char → List Char
  | '\r' :: '\n' :: cs => skipSpace cs
  | '\n' :: cs => skipSpace cs
  | c :: cs => if isGap c then skipSpace cs else c :: cs
  | [] => []

/-- The text after a backslash that ends a line, with the space that it swallows. -/
def continuation? (cs : List Char) : Option (List Char) :=
  match skipGap cs with
  | '\n' :: rest => some (skipSpace rest)
  | '\r' :: '\n' :: rest => some (skipSpace rest)
  | _ => none

/-- The end of a string over several lines: up to two quotes before the closing three belong to
the string. -/
def closing? (q : Char) (cs : List Char) : Option (List Char × List Char) :=
  let quotes := cs.takeWhile (· == q)
  if quotes.length < 3 then none
  else
    let inside := min (quotes.length - 3) 2
    some (List.replicate inside q, cs.drop (inside + 3))

/-- The rest of a string over several lines. Escapes count if `escapes` says so. -/
def longBody (q : Char) (escapes : Bool) : Nat → List Char → List Char → Option (String × List Char)
  | 0, _, _ => none
  | fuel + 1, acc, cs =>
    match closing? q cs with
    | some (inside, rest) => some (String.ofList (acc.reverse ++ inside), rest)
    | none =>
      match cs with
      | [] => none
      | '\r' :: '\n' :: rest => longBody q escapes fuel ('\n' :: acc) rest
      | '\n' :: rest => longBody q escapes fuel ('\n' :: acc) rest
      | c :: rest =>
        if escapes && c == '\\' then
          match continuation? rest with
          | some rest => longBody q escapes fuel acc rest
          | none =>
            match escape? rest with
            | some (c, rest) => longBody q escapes fuel (c :: acc) rest
            | none => none
        else if isPrintable c then longBody q escapes fuel (c :: acc) rest
        else none

/-- A string on one line. -/
def shortString? : List Char → Option (String × List Char)
  | '"' :: cs => quotedBody (cs.length + 1) [] cs
  | '\'' :: cs => literalBody [] cs
  | _ => none

/-- A string of any form. -/
def string? : List Char → Option (String × List Char)
  | '"' :: '"' :: '"' :: cs => longBody '"' true (cs.length + 1) [] (dropBreak cs)
  | '\'' :: '\'' :: '\'' :: cs => longBody '\'' false (cs.length + 1) [] (dropBreak cs)
  | cs => shortString? cs

/-! ## Whole numbers -/

/-- The digits of a number without the underscores between them: each underscore stands between two
digits. -/
def plainDigits? (isDigit : Char → Bool) : List Char → Option (List Char)
  | [] => none
  | [c] => if isDigit c then some [c] else none
  | c :: '_' :: cs => if isDigit c then (plainDigits? isDigit cs).map (c :: ·) else none
  | c :: cs => if isDigit c then (plainDigits? isDigit cs).map (c :: ·) else none

/-- The value of digits in a base up to sixteen. -/
def valueIn? (base : Nat) (cs : List Char) : Option Nat := do
  let value (c : Char) : Option Nat := (hexValue? c).filter (· < base)
  let digits ← plainDigits? (fun c => (value c).isSome) cs
  digits.foldlM (fun n c => (value c).map (base * n + ·)) 0

/-- A decimal number, which starts with a zero only if that is all of it. -/
def decimal? (cs : List Char) : Option Nat :=
  match cs with
  | '0' :: _ :: _ => none
  | _ => valueIn? 10 cs

/-- A whole number; the sign goes with decimal digits only. -/
def whole? : List Char → Option Int
  | '+' :: cs => (decimal? cs).map Int.ofNat
  | '-' :: cs => (decimal? cs).map (-Int.ofNat ·)
  | '0' :: 'x' :: cs => (valueIn? 16 cs).map Int.ofNat
  | '0' :: 'o' :: cs => (valueIn? 8 cs).map Int.ofNat
  | '0' :: 'b' :: cs => (valueIn? 2 cs).map Int.ofNat
  | cs => (decimal? cs).map Int.ofNat

/-! ## Documents -/

/-- A value that an option can take, as JSON. A whole number has to fit into 64 bits. -/
def value? (cs : List Char) : Option (Json × List Char) :=
  match string? cs with
  | some (s, rest) => some (.string s, rest)
  | none => do
    let word := cs.takeWhile fun c => isKeyChar c || c == '+'
    let n ← whole? word
    if -0x8000000000000000 ≤ n ∧ n < 0x8000000000000000 then some (.whole n, cs.drop word.length) else none

/-- A key, with or without quotes. -/
def key? (cs : List Char) : Option (String × List Char) :=
  match shortString? cs with
  | some found => some found
  | none =>
    let word := cs.takeWhile isKeyChar
    if word.isEmpty then none else some (String.ofList word, cs.drop word.length)

/-- The text after the end of a line, past blanks and a comment; nothing else may stand there. -/
def endOfLine? (cs : List Char) : Option (List Char) :=
  let rest := match skipGap cs with
    | '#' :: comment => comment.dropWhile isPrintable
    | rest => rest
  match rest with
  | [] => some []
  | '\n' :: rest => some rest
  | '\r' :: '\n' :: rest => some rest
  | _ => none

/-- The lines of a document, one setting on each. -/
def settings : Nat → Nat → List String → Options → List Char → Except SettingsError Options
  | 0, line, _, _, _ => .error (.unreadable line)
  | fuel + 1, line, seen, options, cs =>
    if cs.isEmpty then .ok options
    else
      match endOfLine? cs with
      | some rest => settings fuel (line + 1) seen options rest
      | none =>
        match key? (skipGap cs) with
        | none => .error (.unreadable line)
        | some (key, rest) =>
          if key ≠ "temp_prefix" ∧ key ≠ "max_errors" then .error (.unknownKey key line)
          else if seen.contains key then .error (.repeatedKey key line)
          else
            match skipGap rest with
            | '=' :: rest =>
              match value? (skipGap rest) with
              | none => .error (.wrongKind key line)
              | some (v, rest) =>
                match endOfLine? rest, options.setField? (key, v) with
                | some rest, some options => settings fuel (line + 1) (key :: seen) options rest
                | none, _ => .error (.unreadable line)
                | _, none => .error (.wrongKind key line)
            | _ => .error (.unreadable line)

end Settings

/-- The options that a settings file sets; the others take their defaults. A byte order mark in
front does not matter. -/
def readSettings (text : String) : Except SettingsError Options :=
  let cs := match text.toList with
    | '\ufeff' :: cs => cs
    | cs => cs
  Settings.settings (cs.length + 1) 1 [] {} cs

end RaiseScript
