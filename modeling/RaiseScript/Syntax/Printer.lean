import RaiseScript.Syntax.Basic
import RaiseScript.Number.Notation
import RaiseScript.Diagnostic

/-!
# Writing a tree as source text

Two blanks of indentation for each level, one statement on a line, braces around every body, and
only the parentheses that the strength of operators asks for. Only standard programs have a text:
at a try expression or a raise statement the printer stops with an `Unlowered`.
-/

namespace RaiseScript

/-- A construct in a tree that should be standard, and its place. -/
structure Unlowered where
  construct : Extension
  span : Span
deriving DecidableEq, Repr

/-- The diagnostic for a construct that reached the printer. -/
def Unlowered.diagnostic (u : Unlowered) (file : String) : Diagnostic :=
  .breach 4 file u.span ("unlowered " ++ u.construct.name ++ " reached emission")

/-! ## Strings -/

/-- One character inside a string literal. -/
def literalChar (c : Char) : List Char :=
  match c with
  | '"' => ['\\', '"']
  | '\\' => ['\\', '\\']
  | '\n' => ['\\', 'n']
  | '\r' => ['\\', 'r']
  | '\t' => ['\\', 't']
  | c => [c]

/-- A string literal in double quotes. -/
def stringLiteral (s : String) : String :=
  String.ofList ('"' :: (s.toList.flatMap literalChar ++ ['"']))

/-! ## Binding strength -/

/-- How strongly a binary operator binds. -/
def BinaryOp.strength : BinaryOp → Nat
  | .equal | .notEqual | .strictEqual | .strictNotEqual => 5
  | .less | .lessEqual | .greater | .greaterEqual => 6
  | .add | .subtract => 7
  | .multiply | .divide | .remainder => 8

/-- How strongly a logical operator binds. -/
def LogicalOp.strength : LogicalOp → Nat
  | .nullish => 2
  | .or => 3
  | .and => 4

/-- How strongly the outermost operator of an expression binds. -/
def Expr.strength : Expr → Nat
  | .assign _ _ | .yield _ _ | .func _ | .attempt _ => 1
  | .logical op _ _ => op.strength
  | .binary op _ _ => op.strength
  | .unary _ _ | .await _ => 9
  | .member _ _ | .index _ _ | .call _ _ => 10
  | _ => 11

/-- Whether an operand of a logical operator needs parentheses because it mixes `??` with `&&` or
`||`. -/
def LogicalOp.mixes (op : LogicalOp) : Expr → Bool
  | .logical inner _ _ => (op == .nullish) != (inner == .nullish)
  | _ => false

/-- Whether an expression is a negation. -/
def Expr.isNegation : Expr → Bool
  | .unary .negate _ => true
  | _ => false

/-- Whether an expression starts with the word `function`. -/
def Expr.isFunctionWord : Expr → Bool
  | .func f => f.form != .arrow
  | _ => false

/-! ## Layout -/

/-- Parentheses where they are needed. -/
def parens (needed : Bool) (text : String) : String :=
  if needed then "(" ++ text ++ ")" else text

/-- The indentation of a level. -/
def indentation (depth : Nat) : String :=
  String.ofList (List.replicate (2 * depth) ' ')

/-- A statement on a line of its own. -/
def lineAt (depth : Nat) (text : String) : String :=
  indentation depth ++ text ++ "\n"

/-- Lines between braces; the closing brace stands at the given level. -/
def braces (depth : Nat) (lines : String) : String :=
  if lines.isEmpty then "\x7b\x7d" else "\x7b\n" ++ lines ++ indentation depth ++ "\x7d"

/-- Whether a statement is a block. -/
def Stmt.isBlock : Stmt → Bool
  | .block _ _ => true
  | _ => false

/-- Whether a statement is a branch. -/
def Stmt.isBranch : Stmt → Bool
  | .branch _ _ _ _ => true
  | _ => false

/-- What stands before the parameters of a function. -/
def Func.opening (f : Func) : String :=
  let word := if f.isAsync then "async " else ""
  let name := match f.name with
    | some x => " " ++ x
    | none => " "
  match f.form with
  | .arrow => word
  | .plain => word ++ "function" ++ name
  | .generator => word ++ "function*" ++ name

/-- What stands before the body of a function. -/
def Func.header (f : Func) : String :=
  f.opening ++ "(" ++ ", ".intercalate f.params ++ ") " ++ (if f.form = .arrow then "=> " else "")

/-! ## Expressions and statements -/

mutual

/-- The text of an expression, without parentheses around it. -/
def Expr.print (depth : Nat) : Expr → Except Unlowered String
  | .number v => .ok (numberText v)
  | .string s => .ok (stringLiteral s)
  | .bool b => .ok (if b then "true" else "false")
  | .null => .ok "null"
  | .undefined => .ok "undefined"
  | .this => .ok "this"
  | .ident name => .ok name
  | .array items => do return "[" ++ ", ".intercalate (← printList depth items) ++ "]"
  | .unary op arg => do
    let inner ← arg.print depth
    let tight := if op = .negate && arg.isNegation then 10 else 9
    return (if op = .typeName then "typeof " else op.text) ++ parens (arg.strength < tight) inner
  | .await arg => do
    return "await " ++ parens (arg.strength < 9) (← arg.print depth)
  | .binary op a b => do
    let left ← a.print depth
    let right ← b.print depth
    return parens (a.strength < op.strength) left ++ " " ++ op.text ++ " "
      ++ parens (b.strength < op.strength + 1) right
  | .logical op a b => do
    let left ← a.print depth
    let right ← b.print depth
    return parens (op.mixes a || a.strength < op.strength) left ++ " " ++ op.text ++ " "
      ++ parens (op.mixes b || b.strength < op.strength + 1) right
  | .assign target value => do
    let left ← target.print depth
    let right ← value.print depth
    return parens (target.strength < 10) left ++ " = " ++ right
  | .member object property => do
    return parens (object.strength < 10) (← object.print depth) ++ "." ++ property
  | .index object key => do
    let left ← object.print depth
    let inner ← key.print depth
    return parens (object.strength < 10) left ++ "[" ++ inner ++ "]"
  | .call callee args => do
    let left ← callee.print depth
    return parens (callee.strength < 10) left ++ "(" ++ ", ".intercalate (← printList depth args) ++ ")"
  | .yield none delegate => .ok (if delegate then "yield*" else "yield")
  | .yield (some arg) delegate => do
    return (if delegate then "yield* " else "yield ") ++ (← arg.print depth)
  | .func f => f.print depth
  | .attempt t => .error ⟨.attempt, t.span⟩

/-- The texts of expressions that stand between commas. -/
def printList (depth : Nat) : List Expr → Except Unlowered (List String)
  | [] => .ok []
  | e :: es => do
    let first ← e.print depth
    return first :: (← printList depth es)

/-- The text of a function. -/
def Func.print (depth : Nat) : Func → Except Unlowered String
  | ⟨name, params, .block body, isAsync, form, span⟩ => do
    let lines ← printLines (depth + 1) body
    return (Func.mk name params (.block []) isAsync form span).header ++ braces depth lines
  | ⟨name, params, .expr value, isAsync, form, span⟩ => do
    let text ← value.print depth
    return (Func.mk name params (.block []) isAsync form span).header ++ text

/-- The text of a statement, without indentation and line break. -/
def Stmt.print (depth : Nat) : Stmt → Except Unlowered String
  | .declare kind decls _ => do
    return kind.keyword ++ " " ++ ", ".intercalate (← printDecls depth decls) ++ ";"
  | .expr value _ => do
    return parens value.isFunctionWord (← value.print depth) ++ ";"
  | .block body _ => do
    return braces depth (← printLines (depth + 1) body)
  | .branch test yes none _ => do
    let head ← test.print depth
    let inner ← yes.print (if yes.isBlock then depth else depth + 1)
    return "if (" ++ head ++ ") " ++ (if yes.isBlock then inner else braces depth (lineAt (depth + 1) inner))
  | .branch test yes (some no) _ => do
    let head ← test.print depth
    let inner ← yes.print (if yes.isBlock then depth else depth + 1)
    let other ← no.print (if no.isBlock || no.isBranch then depth else depth + 1)
    return "if (" ++ head ++ ") " ++ (if yes.isBlock then inner else braces depth (lineAt (depth + 1) inner))
      ++ " else " ++ (if no.isBlock || no.isBranch then other else braces depth (lineAt (depth + 1) other))
  | .loop test body _ => do
    let head ← test.print depth
    let inner ← body.print (if body.isBlock then depth else depth + 1)
    return "while (" ++ head ++ ") " ++ (if body.isBlock then inner else braces depth (lineAt (depth + 1) inner))
  | .switch subject cases _ => do
    let head ← subject.print depth
    return "switch (" ++ head ++ ") \x7b\n" ++ (← printCases (depth + 1) cases) ++ indentation depth ++ "\x7d"
  | .jump kind _ => .ok (kind.keyword ++ ";")
  | .ret none _ => .ok "return;"
  | .ret (some arg) _ => do return "return " ++ (← arg.print depth) ++ ";"
  | .throw arg _ => do return "throw " ++ (← arg.print depth) ++ ";"
  | .guarded body handler finalizer _ => do
    let first ← printLines (depth + 1) body
    return "try " ++ braces depth first ++ (← printHandler depth handler) ++ (← printFinalizer depth finalizer)
  | .func f => f.print depth
  | .raise _ _ span => .error ⟨.raise, span⟩

/-- The declarators of a declaration. -/
def printDecls (depth : Nat) : List Declarator → Except Unlowered (List String)
  | [] => .ok []
  | ⟨name, none⟩ :: ds => do return name :: (← printDecls depth ds)
  | ⟨name, some init⟩ :: ds => do
    let value ← init.print depth
    return (name ++ " = " ++ value) :: (← printDecls depth ds)

/-- The lines of the cases of a switch. -/
def printCases (depth : Nat) : List Case → Except Unlowered String
  | [] => .ok ""
  | ⟨none, body⟩ :: cs => do
    let lines ← printLines (depth + 1) body
    return lineAt depth "default:" ++ lines ++ (← printCases depth cs)
  | ⟨some test, body⟩ :: cs => do
    let label ← test.print depth
    let lines ← printLines (depth + 1) body
    return lineAt depth ("case " ++ label ++ ":") ++ lines ++ (← printCases depth cs)

/-- The catch clause of a try statement. -/
def printHandler (depth : Nat) : Option Handler → Except Unlowered String
  | none => .ok ""
  | some ⟨none, body⟩ => do return " catch " ++ braces depth (← printLines (depth + 1) body)
  | some ⟨some param, body⟩ => do
    return " catch (" ++ param ++ ") " ++ braces depth (← printLines (depth + 1) body)

/-- The finally clause of a try statement. -/
def printFinalizer (depth : Nat) : Option (List Stmt) → Except Unlowered String
  | none => .ok ""
  | some body => do return " finally " ++ braces depth (← printLines (depth + 1) body)

/-- Statements, one on a line. -/
def printLines (depth : Nat) : List Stmt → Except Unlowered String
  | [] => .ok ""
  | s :: ss => do
    let first ← s.print depth
    return lineAt depth first ++ (← printLines depth ss)

end

/-- The text of a standard program. -/
def emit (p : Program) (file : String) : Except Diagnostic String :=
  (printLines 0 p).mapError (·.diagnostic file)

/-- The text of a standard expression. -/
def emitExpr (e : Expr) (file : String) : Except Diagnostic String :=
  (e.print 0).mapError (·.diagnostic file)

end RaiseScript
