import RaiseScript.Span
import RaiseScript.Text.Quoted
import RaiseScript.Number.Notation

/-!
# Tokens

The words and marks that a source text is made of. Keywords are not told apart from names here,
since `raise` is a keyword only inside the clauses of a try expression. A `Lexeme` is a token
with its place, and `Token.name` is how messages name it.
-/

namespace RaiseScript

/-- Punctuation marks and operators. -/
inductive Mark where
  | leftBrace | rightBrace | leftParen | rightParen | leftBracket | rightBracket
  | semicolon | comma | dot | colon | arrow | assign
  | equal | strictEqual | notEqual | strictNotEqual | less | lessEqual | greater | greaterEqual
  | plus | minus | star | slash | percent
  | bang | andAnd | orOr | nullish
deriving DecidableEq, Repr

/-- A token of the language. -/
inductive Token where
  | word (text : String)
  | string (value : String)
  | number (value : Float)
  | mark (m : Mark)
  | finish
deriving Repr, Inhabited

/-- A token and the place it stands at. -/
structure Lexeme where
  token : Token
  span : Span
deriving Repr, Inhabited

/-- The name of a mark in messages. -/
def Mark.name : Mark → String
  | .leftBrace => "LBrace"
  | .rightBrace => "RBrace"
  | .leftParen => "LParen"
  | .rightParen => "RParen"
  | .leftBracket => "LBracket"
  | .rightBracket => "RBracket"
  | .semicolon => "Semi"
  | .comma => "Comma"
  | .dot => "Dot"
  | .colon => "Colon"
  | .arrow => "Arrow"
  | .assign => "Assign"
  | .equal => "EqEq"
  | .strictEqual => "EqEqEq"
  | .notEqual => "NotEq"
  | .strictNotEqual => "NotEqEq"
  | .less => "Lt"
  | .lessEqual => "LtEq"
  | .greater => "Gt"
  | .greaterEqual => "GtEq"
  | .plus => "Plus"
  | .minus => "Minus"
  | .star => "Star"
  | .slash => "Slash"
  | .percent => "Percent"
  | .bang => "Bang"
  | .andAnd => "AndAnd"
  | .orOr => "OrOr"
  | .nullish => "Nullish"

/-- The characters of a mark. -/
def Mark.text : Mark → List Char
  | .leftBrace => ['\x7b']
  | .rightBrace => ['\x7d']
  | .leftParen => ['(']
  | .rightParen => [')']
  | .leftBracket => ['[']
  | .rightBracket => [']']
  | .semicolon => [';']
  | .comma => [',']
  | .dot => ['.']
  | .colon => [':']
  | .arrow => ['=', '>']
  | .assign => ['=']
  | .equal => ['=', '=']
  | .strictEqual => ['=', '=', '=']
  | .notEqual => ['!', '=']
  | .strictNotEqual => ['!', '=', '=']
  | .less => ['<']
  | .lessEqual => ['<', '=']
  | .greater => ['>']
  | .greaterEqual => ['>', '=']
  | .plus => ['+']
  | .minus => ['-']
  | .star => ['*']
  | .slash => ['/']
  | .percent => ['%']
  | .bang => ['!']
  | .andAnd => ['&', '&']
  | .orOr => ['|', '|']
  | .nullish => ['?', '?']

/-- The marks in the order in which they are tried, longer ones before their beginnings. -/
def Mark.byLength : List Mark :=
  [.strictEqual, .strictNotEqual,
    .arrow, .equal, .notEqual, .lessEqual, .greaterEqual, .andAnd, .orOr, .nullish,
    .leftBrace, .rightBrace, .leftParen, .rightParen, .leftBracket, .rightBracket,
    .semicolon, .comma, .dot, .colon, .assign, .less, .greater,
    .plus, .minus, .star, .slash, .percent, .bang]

/-- A token as messages name it. -/
def Token.name : Token → String
  | .word text => "Word(" ++ quoted text ++ ")"
  | .string value => "Str(" ++ quoted value ++ ")"
  | .number value => "Num(" ++ literalText value ++ ")"
  | .mark m => m.name
  | .finish => "Eof"

end RaiseScript
