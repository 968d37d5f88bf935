import RaiseScript.Token
import RaiseScript.Syntax.Basic

/-!
# Reading a list of lexemes

A `Cursor` stands at a lexeme: it knows the lexemes from there on, the place of the one before,
and the identity that the next try expression or raise gets. The last lexeme is never passed. A
`Parser` moves a cursor and gives a result, or it refuses the text with a reason (`SyntaxError`) and
the place where it stands.
-/

namespace RaiseScript

/-- Why a list of tokens is no program. -/
inductive SyntaxError where
  | expected (what : String) (got : Token)
  | expectedIdentifier (got : Token)
  | expectedProperty (got : Token)
  | expectedExpression (got : Token)
  | expectedCase (got : Token)
  | expectedCatch (got : Token)
  | unclosedBlock
  | missingInitializer (name : String)
  | secondDefault
  | loneTry
  | raiseWithoutValue
  | unexpectedKeyword (word : String)
  | badTarget
  | trailing (got : Token)
  /-- The recursion budget ran out. -/
  | exhausted

/-- The wording of a syntax error. -/
def SyntaxError.message : SyntaxError → String
  | .expected what got => "expected '" ++ what ++ "', got " ++ got.name
  | .expectedIdentifier got => "expected identifier, got " ++ got.name
  | .expectedProperty got => "expected property name, got " ++ got.name
  | .expectedExpression got => "expected expression, got " ++ got.name
  | .expectedCase got => "expected 'case' or 'default', got " ++ got.name
  | .expectedCatch got => "expected 'catch' after try expression block, got " ++ got.name
  | .unclosedBlock => "unexpected end of input, expected '\x7d'"
  | .missingInitializer name => "missing initializer in const '" ++ name ++ "'"
  | .secondDefault => "more than one default clause in switch statement"
  | .loneTry => "missing catch or finally after try"
  | .raiseWithoutValue => "raise requires a value"
  | .unexpectedKeyword word => "unexpected keyword '" ++ word ++ "'"
  | .badTarget => "invalid assignment target"
  | .trailing got => "unexpected " ++ got.name ++ " after expression"
  | .exhausted => "input nests too deeply"

/-- A place in a list of lexemes. -/
structure Cursor where
  /-- The place of the lexeme before, or of the first one at the start. -/
  before : Span
  ahead : List Lexeme
  nextId : NodeId

/-- A reading step: a result and the cursor after it, or the reason for a refusal and its place. -/
abbrev Parser (α : Type) := StateT Cursor (Except (SyntaxError × Span)) α

/-- Words that are never names. `raise` and `async` are not among them. -/
def reservedWords : List String :=
  ["let", "const", "var", "if", "else", "while", "switch", "case", "default", "break", "continue",
    "return", "throw", "try", "catch", "finally", "function", "true", "false", "null", "undefined",
    "this", "typeof", "await", "yield"]

/-- Whether a word is never a name. -/
def isReserved (word : String) : Bool :=
  reservedWords.contains word

/-- Whether a token is the given mark. -/
def Token.isMark (m : Mark) : Token → Bool
  | .mark m' => m' == m
  | _ => false

/-- Whether a token is the given word. -/
def Token.isWord (w : String) : Token → Bool
  | .word w' => w' == w
  | _ => false

/-- Whether a token is a word that may be a name. -/
def Token.isName : Token → Bool
  | .word w => !isReserved w
  | _ => false

/-- Whether a token ends the input. -/
def Token.isFinish : Token → Bool
  | .finish => true
  | _ => false

namespace Cursor

/-- The cursor at the first of the given lexemes. -/
def start (lexemes : List Lexeme) : Cursor :=
  ⟨(lexemes.head?.map (·.span)).getD .none, lexemes, 0⟩

/-- The lexeme that the cursor stands at. -/
def current (c : Cursor) : Lexeme :=
  c.ahead.headD ⟨.finish, c.before⟩

/-- The token some places ahead; behind the last lexeme it is that of the last. -/
def peekAt (c : Cursor) (offset : Nat) : Token :=
  match (c.ahead.drop offset).head?, c.ahead.getLast? with
  | some l, _ => l.token
  | none, some l => l.token
  | none, none => .finish

/-- One lexeme on, unless the cursor stands at the last. -/
def advance (c : Cursor) : Cursor :=
  match c.ahead with
  | l :: next :: rest => ⟨l.span, next :: rest, c.nextId⟩
  | _ => c

/-- Whether a line break comes before the lexeme that the cursor stands at. -/
def afterBreak (c : Cursor) : Bool :=
  c.before.line < c.current.span.line

/-- Whether a statement may end here without a semicolon being read: at one, before a closing
brace, at the end, or after a line break. -/
def atStatementEnd (c : Cursor) : Bool :=
  let t := c.current.token
  t.isMark .semicolon || t.isMark .rightBrace || t.isFinish || c.afterBreak

end Cursor

namespace Parser

/-- The token that the cursor stands at. -/
def peek : Parser Token := fun c => .ok (c.current.token, c)

/-- The place of the lexeme that the cursor stands at. -/
def here : Parser Span := fun c => .ok (c.current.span, c)

/-- From the given place through the last lexeme read. -/
def through (start : Span) : Parser Span := fun c => .ok (start.upTo c.before, c)

/-- One lexeme on. -/
def advance : Parser Unit := fun c => .ok ((), c.advance)

/-- Refuses the text where the cursor stands. -/
def refuse {α : Type} (e : SyntaxError) : Parser α := fun c => .error (e, c.current.span)

/-- Refuses the text, naming the token where the cursor stands. -/
def refuseToken {α : Type} (e : Token → SyntaxError) : Parser α :=
  fun c => .error (e c.current.token, c.current.span)

/-- A new identity. -/
def freshId : Parser NodeId := fun c => .ok (c.nextId, { c with nextId := c.nextId + 1 })

/-- Whether the cursor stands at the given word. -/
def atWord (w : String) : Parser Bool := fun c => .ok (c.current.token.isWord w, c)

/-- Whether the cursor stands at the given mark. -/
def atMark (m : Mark) : Parser Bool := fun c => .ok (c.current.token.isMark m, c)

/-- Passes the given mark if the cursor stands at it. -/
def eat (m : Mark) : Parser Bool := fun c =>
  if c.current.token.isMark m then .ok (true, c.advance) else .ok (false, c)

/-- Passes the given word if the cursor stands at it. -/
def eatWord (w : String) : Parser Bool := fun c =>
  if c.current.token.isWord w then .ok (true, c.advance) else .ok (false, c)

/-- Passes the given mark. -/
def expect (m : Mark) : Parser Unit := do
  unless ← eat m do refuseToken (.expected (String.ofList m.text))

/-- Passes a name. -/
def name : Parser String := do
  match ← peek with
  | .word w =>
    if isReserved w then refuseToken .expectedIdentifier
    else
      advance
      return w
  | _ => refuseToken .expectedIdentifier

/-- Passes the semicolon that ends a statement, or finds that none is needed: before a closing
brace, at the end, or at a line break. -/
def semicolon : Parser Unit := fun c =>
  if c.current.token.isMark .semicolon then .ok ((), c.advance)
  else if c.atStatementEnd then .ok ((), c)
  else .error (.expected ";" c.current.token, c.current.span)

/-- Whether a statement may end here. -/
def atStatementEnd : Parser Bool := fun c => .ok (c.atStatementEnd, c)

/-- The names between parentheses, separated by commas. -/
def namesUpTo : Nat → Parser (List String)
  | 0 => refuse .exhausted
  | n + 1 => do
    if ← atMark .rightParen then return []
    let first ← name
    if ← eat .comma then return first :: (← namesUpTo n) else return [first]

/-- The parameters of a function. -/
def params : Parser (List String) := do
  expect .leftParen
  let names ← fun c => namesUpTo (c.ahead.length + 1) c
  expect .rightParen
  return names

/-- The optional binding of a catch clause. -/
def binding? : Parser (Option String) := do
  if ← eat .leftParen then
    let x ← name
    expect .rightParen
    return some x
  else return none

end Parser

end RaiseScript
