import RaiseScript.Parse.Cursor
import RaiseScript.Token.Lexer

/-!
# The grammar

Recursive descent over a `Cursor`. Every function takes a budget that bounds the depth of its
recursion; `budgetFor` is enough for any list of lexemes, because between two visits to the same
function a lexeme is passed. Statements also take whether `raise` is a keyword where they stand: it
is in the clauses of a try expression that hand out a value, and in no function inside them.
-/

namespace RaiseScript

/-! ## Operators -/

/-- The levels of operators between two operands, loosest first. -/
inductive Level where
  | nullish | or | and | equality | order | sum | product
deriving DecidableEq, Repr

/-- The next tighter level; operands of the tightest have only operators in front. -/
def Level.tighter : Level → Option Level
  | .nullish => some .or
  | .or => some .and
  | .and => some .equality
  | .equality => some .order
  | .order => some .sum
  | .sum => some .product
  | .product => none

/-- How a mark joins two operands at a level. -/
def Level.join? : Level → Mark → Option (Expr → Expr → Expr)
  | .nullish, .nullish => some (.logical .nullish)
  | .or, .orOr => some (.logical .or)
  | .and, .andAnd => some (.logical .and)
  | .equality, .equal => some (.binary .equal)
  | .equality, .notEqual => some (.binary .notEqual)
  | .equality, .strictEqual => some (.binary .strictEqual)
  | .equality, .strictNotEqual => some (.binary .strictNotEqual)
  | .order, .less => some (.binary .less)
  | .order, .lessEqual => some (.binary .lessEqual)
  | .order, .greater => some (.binary .greater)
  | .order, .greaterEqual => some (.binary .greaterEqual)
  | .sum, .plus => some (.binary .add)
  | .sum, .minus => some (.binary .subtract)
  | .product, .star => some (.binary .multiply)
  | .product, .slash => some (.binary .divide)
  | .product, .percent => some (.binary .remainder)
  | _, _ => none

/-- How a token joins two operands at a level. -/
def Level.joinToken? (level : Level) : Token → Option (Expr → Expr → Expr)
  | .mark m => level.join? m
  | _ => none

/-- Whether an expression may stand on the left of an assignment. -/
def Expr.isTarget : Expr → Bool
  | .ident _ => true
  | .member _ _ => true
  | .index _ _ => true
  | _ => false

/-! ## Looking ahead for an arrow -/

/-- How the parameters of an arrow function are written. -/
inductive ArrowParams where
  | single
  | list

/-- Whether the parenthesis that closes the one opened `depth` levels up is followed by an arrow. -/
def arrowAfterParens (depth : Nat) : List Lexeme → Bool
  | [] => false
  | l :: rest =>
    match l.token with
    | .finish => false
    | .mark .leftParen => arrowAfterParens (depth + 1) rest
    | .mark .rightParen =>
      if depth = 1 then (rest.head?.map (·.token.isMark .arrow)).getD false
      else arrowAfterParens (depth - 1) rest
    | _ => arrowAfterParens depth rest

namespace Cursor

/-- The arrow parameters that start some places ahead. -/
def arrowParamsAt (c : Cursor) (offset : Nat) : Option ArrowParams :=
  if (c.peekAt offset).isName && (c.peekAt (offset + 1)).isMark .arrow then some .single
  else if (c.peekAt offset).isMark .leftParen && arrowAfterParens 0 (c.ahead.drop offset) then some .list
  else none

/-- Whether an arrow function starts here: whether it is asynchronous, and its parameters. -/
def arrowAhead (c : Cursor) : Option (Bool × ArrowParams) :=
  match c.current.token.isWord "async", c.arrowParamsAt 1 with
  | true, some ps => some (true, ps)
  | _, _ => (c.arrowParamsAt 0).map (false, ·)

end Cursor

namespace Parser

/-- The arrow function that starts here, if one does. -/
def arrowAhead : Parser (Option (Bool × ArrowParams)) := fun c => .ok (c.arrowAhead, c)

/-- Whether the word `function` follows the current token. -/
def functionFollows : Parser Bool := fun c => .ok ((c.peekAt 1).isWord "function", c)

/-- Whether a block opens after the current token. -/
def braceFollows : Parser Bool := fun c => .ok ((c.peekAt 1).isMark .leftBrace, c)

/-- Whether nothing that could be an operand of `yield` follows. -/
def atYieldEnd : Parser Bool := fun c =>
  let t := c.current.token
  .ok (t.isMark .rightParen || t.isMark .rightBracket || t.isMark .rightBrace || t.isMark .comma
    || t.isMark .semicolon || t.isMark .colon || t.isFinish || c.afterBreak, c)

/-! ## Where a list of statements ends -/

/-- What ends a list of statements. -/
inductive Ending where
  | program
  | block
  | case

/-- Whether a token ends a list of statements. -/
def Ending.endsAt : Ending → Token → Bool
  | .program, t => t.isFinish
  | .block, t => t.isMark .rightBrace || t.isFinish
  | .case, t => t.isWord "case" || t.isWord "default" || t.isMark .rightBrace || t.isFinish

/-! ## The rules -/

mutual

/-- An expression, assignments and arrow functions included. -/
def assignment : Nat → Parser Expr
  | 0 => refuse .exhausted
  | n + 1 => do
    match ← arrowAhead with
    | some (isAsync, ps) => arrow n isAsync ps
    | none =>
      if ← atWord "yield" then yieldExpr n
      else
        let left ← level n .nullish
        if ← atMark .assign then
          if left.isTarget then
            advance
            let value ← assignment n
            return .assign left value
          else refuse .badTarget
        else return left

/-- An arrow function. -/
def arrow : Nat → Bool → ArrowParams → Parser Expr
  | 0, _, _ => refuse .exhausted
  | n + 1, isAsync, ps => do
    let start ← here
    if isAsync then advance
    let names ← match ps with
      | .single => (fun x => [x]) <$> name
      | .list => params
    expect .arrow
    let body ← if ← atMark .leftBrace then .block <$> block n false else .expr <$> assignment n
    return .func ⟨none, names, body, isAsync, .arrow, ← through start⟩

/-- A `yield` with or without an operand. -/
def yieldExpr : Nat → Parser Expr
  | 0 => refuse .exhausted
  | n + 1 => do
    advance
    let delegate ← eat .star
    if (← atYieldEnd) && !delegate then return .yield none delegate
    else return .yield (some (← assignment n)) delegate

/-- Operands of one level of operators and the operators between them. -/
def level : Nat → Level → Parser Expr
  | 0, _ => refuse .exhausted
  | n + 1, l => do
    let first ← operand n l
    operators n l first

/-- An operand of a level. -/
def operand : Nat → Level → Parser Expr
  | 0, _ => refuse .exhausted
  | n + 1, l =>
    match l.tighter with
    | some l' => level n l'
    | none => unary n

/-- The operators of a level after an operand; they group to the left. -/
def operators : Nat → Level → Expr → Parser Expr
  | 0, _, _ => refuse .exhausted
  | n + 1, l, left => do
    match l.joinToken? (← peek) with
    | some join =>
      advance
      let right ← operand n l
      operators n l (join left right)
    | none => return left

/-- An operand with the operators in front of it. -/
def unary : Nat → Parser Expr
  | 0 => refuse .exhausted
  | n + 1 => do
    match ← peek with
    | .mark .bang =>
      advance
      return .unary .not (← unary n)
    | .mark .minus =>
      advance
      return .unary .negate (← unary n)
    | .word w =>
      if w = "typeof" then
        advance
        return .unary .typeName (← unary n)
      else if w = "await" then
        advance
        return .await (← unary n)
      else suffixes n (← primary n)
    | _ => suffixes n (← primary n)

/-- The properties, indices and calls after an expression. -/
def suffixes : Nat → Expr → Parser Expr
  | 0, _ => refuse .exhausted
  | n + 1, e => do
    match ← peek with
    | .mark .dot =>
      advance
      match ← peek with
      | .word w =>
        advance
        suffixes n (.member e w)
      | _ => refuseToken .expectedProperty
    | .mark .leftBracket =>
      advance
      let key ← assignment n
      expect .rightBracket
      suffixes n (.index e key)
    | .mark .leftParen =>
      advance
      let args ← items n .rightParen
      expect .rightParen
      suffixes n (.call e args)
    | _ => return e

/-- Expressions separated by commas up to a closing mark; a last comma is allowed. -/
def items : Nat → Mark → Parser (List Expr)
  | 0, _ => refuse .exhausted
  | n + 1, closing => do
    if ← atMark closing then return []
    let first ← assignment n
    if ← eat .comma then return first :: (← items n closing) else return [first]

/-- An expression without operators around it. -/
def primary : Nat → Parser Expr
  | 0 => refuse .exhausted
  | n + 1 => do
    let start ← here
    match ← peek with
    | .number v =>
      advance
      return .number v
    | .string s =>
      advance
      return .string s
    | .mark .leftParen =>
      advance
      let e ← assignment n
      expect .rightParen
      return e
    | .mark .leftBracket =>
      advance
      let es ← items n .rightBracket
      expect .rightBracket
      return .array es
    | .word w =>
      if w = "try" && (← braceFollows) then
        advance
        return .attempt (← attempt n start)
      else if w = "true" then
        advance
        return .bool true
      else if w = "false" then
        advance
        return .bool false
      else if w = "null" then
        advance
        return .null
      else if w = "undefined" then
        advance
        return .undefined
      else if w = "this" then
        advance
        return .this
      else if w = "function" then
        advance
        return .func (← funcExpr n start false)
      else if w = "async" && (← functionFollows) then
        advance
        advance
        return .func (← funcExpr n start true)
      else if isReserved w then refuse (.unexpectedKeyword w)
      else
        advance
        return .ident w
    | _ => refuseToken .expectedExpression

/-- A function expression after its keyword. -/
def funcExpr : Nat → Span → Bool → Parser Func
  | 0, _, _ => refuse .exhausted
  | n + 1, start, isAsync => do
    let generator ← eat .star
    let called ← if ← atMark .leftParen then pure none else some <$> name
    funcRest n start called isAsync generator

/-- The parameters and the body of a function. -/
def funcRest : Nat → Span → Option String → Bool → Bool → Parser Func
  | 0, _, _, _, _ => refuse .exhausted
  | n + 1, start, called, isAsync, generator => do
    let names ← params
    let body ← block n false
    return ⟨called, names, .block body, isAsync, if generator then .generator else .plain,
      ← through start⟩

/-- A try expression after its keyword. The handler is required. `raise` is a keyword in all
clauses except a finally block without a binding. -/
def attempt : Nat → Span → Parser TryExpr
  | 0, _ => refuse .exhausted
  | n + 1, start => do
    let id ← freshId
    let body ← block n true
    unless ← eatWord "catch" do refuseToken .expectedCatch
    let catchParam ← binding?
    let catchBody ← block n true
    if ← eatWord "finally" then
      let finallyParam ← binding?
      let finallyBody ← block n finallyParam.isSome
      return ⟨id, body, catchParam, catchBody, finallyParam, some finallyBody, ← through start, none, none⟩
    else
      return ⟨id, body, catchParam, catchBody, none, none, ← through start, none, none⟩

/-- A statement. `raising` is whether `raise` is a keyword here. -/
def statement : Nat → Bool → Parser Stmt
  | 0, _ => refuse .exhausted
  | n + 1, raising => do
    let start ← here
    match ← peek with
    | .mark .leftBrace =>
      let body ← block n raising
      return .block body (← through start)
    | .word w =>
      if w = "let" then declaration n .mutable start
      else if w = "const" then declaration n .constant start
      else if w = "var" then declaration n .functionWide start
      else if w = "if" then
        advance
        let test ← inParens n
        let yes ← statement n raising
        let no ← if ← eatWord "else" then some <$> statement n raising else pure none
        return .branch test yes no (← through start)
      else if w = "while" then
        advance
        let test ← inParens n
        let body ← statement n raising
        return .loop test body (← through start)
      else if w = "switch" then
        advance
        let subject ← inParens n
        expect .leftBrace
        let cs ← cases n raising false
        return .switch subject cs (← through start)
      else if w = "break" then
        advance
        semicolon
        return .jump .leave start
      else if w = "continue" then
        advance
        semicolon
        return .jump .again start
      else if w = "return" then
        advance
        let arg ← if ← atStatementEnd then pure none else some <$> assignment n
        semicolon
        return .ret arg (← through start)
      else if w = "throw" then
        advance
        let arg ← assignment n
        semicolon
        return .throw arg (← through start)
      else if w = "try" then
        advance
        guarded n raising start
      else if w = "function" then
        advance
        funcDeclaration n start false
      else if w = "async" && (← functionFollows) then
        advance
        advance
        funcDeclaration n start true
      else if w = "raise" && raising then
        advance
        if ← atStatementEnd then refuse .raiseWithoutValue
        let value ← assignment n
        semicolon
        let id ← freshId
        return .raise id value (← through start)
      else expressionStatement n start
    | _ => expressionStatement n start

/-- An expression as a statement. -/
def expressionStatement : Nat → Span → Parser Stmt
  | 0, _ => refuse .exhausted
  | n + 1, start => do
    let value ← assignment n
    semicolon
    return .expr value (← through start)

/-- A declaration from its keyword on. -/
def declaration : Nat → BindingKind → Span → Parser Stmt
  | 0, _, _ => refuse .exhausted
  | n + 1, kind, start => do
    advance
    let ds ← declarators n kind
    semicolon
    return .declare kind ds (← through start)

/-- The names of a declaration with their initial values; a constant needs one. -/
def declarators : Nat → BindingKind → Parser (List Declarator)
  | 0, _ => refuse .exhausted
  | n + 1, kind => do
    let x ← name
    let init ← if ← eat .assign then some <$> assignment n else pure none
    if kind = .constant && init.isNone then refuse (.missingInitializer x)
    if ← eat .comma then return ⟨x, init⟩ :: (← declarators n kind) else return [⟨x, init⟩]

/-- An expression between parentheses. -/
def inParens : Nat → Parser Expr
  | 0 => refuse .exhausted
  | n + 1 => do
    expect .leftParen
    let e ← assignment n
    expect .rightParen
    return e

/-- The cases of a switch through its closing brace. -/
def cases : Nat → Bool → Bool → Parser (List Case)
  | 0, _, _ => refuse .exhausted
  | n + 1, raising, hasDefault => do
    if ← eat .rightBrace then return []
    else if ← eatWord "case" then
      let test ← assignment n
      expect .colon
      let body ← statements n raising .case
      return ⟨some test, body⟩ :: (← cases n raising hasDefault)
    else if ← atWord "default" then
      if hasDefault then refuse .secondDefault
      advance
      expect .colon
      let body ← statements n raising .case
      return ⟨none, body⟩ :: (← cases n raising true)
    else refuseToken .expectedCase

/-- A try statement after its keyword. -/
def guarded : Nat → Bool → Span → Parser Stmt
  | 0, _, _ => refuse .exhausted
  | n + 1, raising, start => do
    let body ← block n raising
    let handler ← if ← eatWord "catch" then some <$> handler n raising else pure none
    let finalizer ← if ← eatWord "finally" then some <$> block n raising else pure none
    if handler.isNone && finalizer.isNone then refuse .loneTry
    return .guarded body handler finalizer (← through start)

/-- A catch clause after its keyword. -/
def handler : Nat → Bool → Parser Handler
  | 0, _ => refuse .exhausted
  | n + 1, raising => do
    let param ← binding?
    let body ← block n raising
    return ⟨param, body⟩

/-- A function declaration after its keyword. -/
def funcDeclaration : Nat → Span → Bool → Parser Stmt
  | 0, _, _ => refuse .exhausted
  | n + 1, start, isAsync => do
    let generator ← eat .star
    let called ← name
    return .func (← funcRest n start (some called) isAsync generator)

/-- Statements between braces. -/
def block : Nat → Bool → Parser (List Stmt)
  | 0, _ => refuse .exhausted
  | n + 1, raising => do
    expect .leftBrace
    let body ← statements n raising .block
    unless ← eat .rightBrace do refuse .unclosedBlock
    return body

/-- Statements up to an ending; empty ones are left out. -/
def statements : Nat → Bool → Ending → Parser (List Stmt)
  | 0, _, _ => refuse .exhausted
  | n + 1, raising, ending => do
    if ending.endsAt (← peek) then return []
    else if ← eat .semicolon then statements n raising ending
    else
      let first ← statement n raising
      return first :: (← statements n raising ending)

end

end Parser

/-! ## Whole texts -/

/-- A budget that is enough for the given lexemes. -/
def budgetFor (lexemes : List Lexeme) : Nat :=
  32 * (lexemes.length + 1)

/-- The program that a list of lexemes spells. -/
def parseLexemes (lexemes : List Lexeme) : Except (SyntaxError × Span) Program :=
  ((Parser.statements (budgetFor lexemes) false .program).run (.start lexemes)).map (·.1)

/-- A single expression, with or without a semicolon after it. -/
def Parser.wholeExpression (n : Nat) : Parser Expr := do
  let e ← assignment n
  let _ ← eat .semicolon
  if (← peek).isFinish then return e else refuseToken .trailing

/-- The expression that a list of lexemes spells. -/
def parseExprLexemes (lexemes : List Lexeme) : Except (SyntaxError × Span) Expr :=
  ((Parser.wholeExpression (budgetFor lexemes)).run (.start lexemes)).map (·.1)

/-- A syntax error as a diagnostic that names the file. -/
def syntaxDiagnostic (file : String) : SyntaxError × Span → Diagnostic
  | (e, span) => .located 0 .syntactic none file span e.message

/-- The program in a source text. -/
def parse (source file : String) : Except Diagnostic Program := do
  (parseLexemes (← lex source file)).mapError (syntaxDiagnostic file)

/-- The expression in a source text. -/
def parseExpr (source file : String) : Except Diagnostic Expr := do
  (parseExprLexemes (← lex source file)).mapError (syntaxDiagnostic file)

end RaiseScript
