import RaiseScript.Raise.Site

/-!
# Syntax trees

Programs are lists of statements. Besides the standard expressions there is `Expr.attempt`, a `try`
that stands where an expression stands; its clauses hand a value out with `Stmt.raise`. Such an
expression carries the notes that later stages leave on it: the raises it owns and the verdict on
it. Statements, functions and try expressions know their place in the source text.
-/

namespace RaiseScript

/-- How a declaration binds its names. -/
inductive BindingKind where
  | mutable
  | constant
  | functionWide
deriving DecidableEq, Repr

/-- The keyword of a declaration. -/
def BindingKind.keyword : BindingKind → String
  | .mutable => "let"
  | .constant => "const"
  | .functionWide => "var"

/-- Statements that leave the enclosing loop or its current round. -/
inductive Jump where
  | leave
  | again
deriving DecidableEq, Repr

/-- The keyword of a jump. -/
def Jump.keyword : Jump → String
  | .leave => "break"
  | .again => "continue"

/-- Operators before an operand. -/
inductive UnaryOp where
  | not
  | negate
  | typeName
deriving DecidableEq, Repr

/-- The spelling of a unary operator. -/
def UnaryOp.text : UnaryOp → String
  | .not => "!"
  | .negate => "-"
  | .typeName => "typeof"

/-- Operators that evaluate both operands. -/
inductive BinaryOp where
  | add | subtract | multiply | divide | remainder
  | equal | notEqual | strictEqual | strictNotEqual
  | less | lessEqual | greater | greaterEqual
deriving DecidableEq, Repr

/-- The spelling of a binary operator. -/
def BinaryOp.text : BinaryOp → String
  | .add => "+"
  | .subtract => "-"
  | .multiply => "*"
  | .divide => "/"
  | .remainder => "%"
  | .equal => "=="
  | .notEqual => "!="
  | .strictEqual => "==="
  | .strictNotEqual => "!=="
  | .less => "<"
  | .lessEqual => "<="
  | .greater => ">"
  | .greaterEqual => ">="

/-- Operators that evaluate the right operand only when the left one does not decide. -/
inductive LogicalOp where
  | and
  | or
  | nullish
deriving DecidableEq, Repr

/-- The spelling of a logical operator. -/
def LogicalOp.text : LogicalOp → String
  | .and => "&&"
  | .or => "||"
  | .nullish => "??"

/-- The three ways to write a function. -/
inductive FuncForm where
  | plain
  | generator
  | arrow
deriving DecidableEq, Repr

/-- The constructs that standard programs do not have. -/
inductive Extension where
  | attempt
  | raise
deriving DecidableEq, Repr

/-- The name of an extension in messages. -/
def Extension.name : Extension → String
  | .attempt => "try expression"
  | .raise => "raise statement"

mutual

/-- An expression. -/
inductive Expr where
  | number (value : Float)
  | string (value : String)
  | bool (value : Bool)
  | null
  | undefined
  | this
  | ident (name : String)
  | array (items : List Expr)
  | unary (op : UnaryOp) (arg : Expr)
  | binary (op : BinaryOp) (left right : Expr)
  | logical (op : LogicalOp) (left right : Expr)
  | assign (target value : Expr)
  | member (object : Expr) (property : String)
  | index (object key : Expr)
  | call (callee : Expr) (args : List Expr)
  | await (arg : Expr)
  | yield (arg : Option Expr) (delegate : Bool)
  | func (f : Func)
  | attempt (t : TryExpr)

/-- A statement. -/
inductive Stmt where
  | declare (kind : BindingKind) (decls : List Declarator) (span : Span)
  | expr (value : Expr) (span : Span)
  | block (body : List Stmt) (span : Span)
  | branch (test : Expr) (yes : Stmt) (no : Option Stmt) (span : Span)
  | loop (test : Expr) (body : Stmt) (span : Span)
  | switch (subject : Expr) (cases : List Case) (span : Span)
  | jump (kind : Jump) (span : Span)
  | ret (arg : Option Expr) (span : Span)
  | throw (arg : Expr) (span : Span)
  | guarded (body : List Stmt) (handler : Option Handler) (finalizer : Option (List Stmt)) (span : Span)
  | func (f : Func)
  | raise (id : NodeId) (value : Expr) (span : Span)

/-- One name of a declaration and its initial value. -/
structure Declarator where
  name : String
  init : Option Expr

/-- A case of a switch statement; the default case has no test. -/
structure Case where
  test : Option Expr
  body : List Stmt

/-- The catch clause of a try statement. -/
structure Handler where
  param : Option String
  body : List Stmt

/-- The body of a function. Only an arrow function has an expression for its body. -/
inductive FuncBody where
  | block (body : List Stmt)
  | expr (value : Expr)

/-- A function. -/
structure Func where
  name : Option String
  params : List String
  body : FuncBody
  isAsync : Bool
  form : FuncForm
  span : Span

/-- A try expression with the notes of the stages that looked at it. -/
structure TryExpr where
  id : NodeId
  body : List Stmt
  catchParam : Option String
  catchBody : List Stmt
  finallyParam : Option String
  finallyBody : Option (List Stmt)
  span : Span
  raises : Option RaiseSites
  verdict : Option Verdict

end

instance : Inhabited Expr := ⟨.undefined⟩
instance : Inhabited Stmt := ⟨.block [] .none⟩

/-- A program is the list of its statements. -/
abbrev Program := List Stmt

/-- The place of a statement. -/
def Stmt.span : Stmt → Span
  | .declare _ _ span => span
  | .expr _ span => span
  | .block _ span => span
  | .branch _ _ _ span => span
  | .loop _ _ span => span
  | .switch _ _ span => span
  | .jump _ span => span
  | .ret _ span => span
  | .throw _ span => span
  | .guarded _ _ _ span => span
  | .func f => f.span
  | .raise _ _ span => span

/-- Whether raises in the finally block belong to the try expression. -/
def TryExpr.finallyReceives (t : TryExpr) : Bool :=
  t.finallyBody.isSome && t.finallyParam.isSome

end RaiseScript
