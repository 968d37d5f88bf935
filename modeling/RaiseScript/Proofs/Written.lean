import RaiseScript.Proofs.Stores
import RaiseScript.Syntax.Printer
import RaiseScript.Token

/-!
# The tokens of a printed tree

The text of a tree is made of tokens and of the blanks and line breaks between them. `write` gives
these `Piece`s, and the printer gives their characters (`print_eq_write` and its companions). Every
standard tree has a text, and what is in front of a token, behind it and around it can be read off
the pieces without taking strings apart.
-/

namespace RaiseScript

/-! ## Pieces -/

/-- A token, or what stands between two of them. -/
inductive Piece where
  | token (t : Token)
  | gap (cs : List Char)

/-- The characters of a token. -/
def Token.chars : Token → List Char
  | .word w => w.toList
  | .string s => (stringLiteral s).toList
  | .number x => (numberText x).toList
  | .mark m => m.text
  | .finish => []

/-- The characters of a piece. -/
def Piece.chars : Piece → List Char
  | .token t => t.chars
  | .gap cs => cs

/-- The characters of a list of pieces. -/
def render (ps : List Piece) : List Char :=
  ps.flatMap Piece.chars

@[simp] theorem render_nil : render [] = [] := rfl

@[simp] theorem render_cons (p : Piece) (ps : List Piece) : render (p :: ps) = p.chars ++ render ps :=
  rfl

@[simp] theorem render_append (ps qs : List Piece) : render (ps ++ qs) = render ps ++ render qs := by
  simp [render]

attribute [simp] Piece.chars Token.chars Mark.text

/-- The text of a list of pieces. -/
def shown (ps : List Piece) : String :=
  String.ofList (render ps)

theorem eq_shown {x : String} {ps : List Piece} (h : x.toList = render ps) : x = shown ps := by
  rw [shown, ← h, String.ofList_toList]

@[simp] theorem toList_shown (ps : List Piece) : (shown ps).toList = render ps := by
  simp [shown]

namespace Piece

/-- A word. -/
abbrev word (w : String) : Piece := .token (.word w)

/-- A mark. -/
abbrev mark (m : Mark) : Piece := .token (.mark m)

/-- A blank. -/
abbrev blank : Piece := .gap [' ']

/-- A line break. -/
abbrev break_ : Piece := .gap ['\n']

/-- The indentation of a level. -/
abbrev indent (depth : Nat) : Piece := .gap (List.replicate (2 * depth) ' ')

end Piece

open Piece

/-! ## Layout -/

/-- Parentheses where they are needed. -/
def wrap (needed : Bool) (ps : List Piece) : List Piece :=
  if needed then mark .leftParen :: (ps ++ [mark .rightParen]) else ps

/-- Pieces with commas between them. -/
def commas : List (List Piece) → List Piece
  | [] => []
  | [ps] => ps
  | ps :: qs :: rest => ps ++ mark .comma :: blank :: commas (qs :: rest)

/-- A statement on a line of its own. -/
def lineOf (depth : Nat) (ps : List Piece) : List Piece :=
  indent depth :: (ps ++ [break_])

/-- Lines between braces. -/
def braced (depth : Nat) (lines : List Piece) : List Piece :=
  if lines.isEmpty then [mark .leftBrace, mark .rightBrace]
  else mark .leftBrace :: break_ :: (lines ++ [indent depth, mark .rightBrace])

theorem render_wrap (needed : Bool) (ps : List Piece) :
    render (wrap needed ps) = (parens needed (shown ps)).toList := by
  cases needed <;> simp [wrap, parens]

theorem render_commas : ∀ qs : List (List Piece),
    render (commas qs) = (", ".intercalate (qs.map shown)).toList
  | [] => rfl
  | [ps] => by simp [commas]
  | ps :: qs :: rest => by
    have ih := render_commas (qs :: rest)
    simp only [String.toList_intercalate, List.map_cons, toList_shown] at ih ⊢
    rw [List.intercalate_cons_cons, commas, render_append, render_cons, render_cons, ih]
    simp

theorem render_lineOf (depth : Nat) (ps : List Piece) :
    render (lineOf depth ps) = (lineAt depth (shown ps)).toList := by
  simp [lineOf, lineAt, indentation]

theorem shown_lineOf (depth : Nat) (ps : List Piece) :
    shown (lineOf depth ps) = lineAt depth (shown ps) :=
  (eq_shown (render_lineOf depth ps).symm).symm

/-- Lines are written between braces as the printer does it, if they have characters. -/
theorem render_braced (depth : Nat) {lines : List Piece} (h : lines = [] ∨ render lines ≠ []) :
    render (braced depth lines) = (braces depth (shown lines)).toList := by
  rcases h with rfl | h
  · simp [braced, braces, shown]
  · have hne : lines.isEmpty = false := by
      cases lines with
      | nil => exact absurd rfl h
      | cons => rfl
    have hs : (shown lines).isEmpty = false := by
      simpa [shown, String.isEmpty_iff] using h
    simp [braced, braces, hne, hs, indentation]

/-! ## Trees -/

/-- The mark of a binary operator. -/
def BinaryOp.mark : BinaryOp → Mark
  | .add => .plus
  | .subtract => .minus
  | .multiply => .star
  | .divide => .slash
  | .remainder => .percent
  | .equal => .equal
  | .notEqual => .notEqual
  | .strictEqual => .strictEqual
  | .strictNotEqual => .strictNotEqual
  | .less => .less
  | .lessEqual => .lessEqual
  | .greater => .greater
  | .greaterEqual => .greaterEqual

/-- The mark of a logical operator. -/
def LogicalOp.mark : LogicalOp → Mark
  | .and => .andAnd
  | .or => .orOr
  | .nullish => .nullish

/-- What stands before the operand of a unary operator. -/
def UnaryOp.pieces : UnaryOp → List Piece
  | .not => [Piece.mark .bang]
  | .negate => [Piece.mark .minus]
  | .typeName => [word "typeof", blank]

/-- What stands before the body of a function. -/
def headerPieces (name : Option String) (params : List String) (isAsync : Bool) (form : FuncForm) :
    List Piece :=
  (if isAsync then [word "async", blank] else []) ++
  (match form with
    | .arrow => []
    | .plain => word "function" :: blank :: (name.map word).toList
    | .generator => word "function" :: Piece.mark .star :: blank :: (name.map word).toList) ++
  Piece.mark .leftParen :: (commas (params.map fun x => [word x]) ++ [Piece.mark .rightParen, blank]) ++
  if form = .arrow then [Piece.mark .arrow, blank] else []

mutual

/-- The pieces of an expression. -/
def Expr.write (depth : Nat) : Expr → List Piece
  | .number v => [.token (.number v)]
  | .string s => [.token (.string s)]
  | .bool b => [word (if b then "true" else "false")]
  | .null => [word "null"]
  | .undefined => [word "undefined"]
  | .this => [word "this"]
  | .ident name => [word name]
  | .array items =>
    Piece.mark .leftBracket :: (commas (writeList depth items) ++ [Piece.mark .rightBracket])
  | .unary op arg =>
    op.pieces ++ wrap (arg.strength < if op = .negate && arg.isNegation then 10 else 9) (arg.write depth)
  | .await arg => word "await" :: blank :: wrap (arg.strength < 9) (arg.write depth)
  | .binary op a b =>
    wrap (a.strength < op.strength) (a.write depth) ++ blank :: Piece.mark op.mark :: blank ::
      wrap (b.strength < op.strength + 1) (b.write depth)
  | .logical op a b =>
    wrap (op.mixes a || a.strength < op.strength) (a.write depth) ++
      blank :: Piece.mark op.mark :: blank ::
      wrap (op.mixes b || b.strength < op.strength + 1) (b.write depth)
  | .assign target value =>
    wrap (target.strength < 10) (target.write depth) ++ blank :: Piece.mark .assign :: blank ::
      value.write depth
  | .member object property =>
    wrap (object.strength < 10) (object.write depth) ++ [Piece.mark .dot, word property]
  | .index object key =>
    wrap (object.strength < 10) (object.write depth) ++ Piece.mark .leftBracket ::
      (key.write depth ++ [Piece.mark .rightBracket])
  | .call callee args =>
    wrap (callee.strength < 10) (callee.write depth) ++ Piece.mark .leftParen ::
      (commas (writeList depth args) ++ [Piece.mark .rightParen])
  | .yield none delegate => word "yield" :: if delegate then [Piece.mark .star] else []
  | .yield (some arg) delegate =>
    word "yield" :: ((if delegate then [Piece.mark .star] else []) ++ blank :: arg.write depth)
  | .func f => f.write depth
  | .attempt _ => []

/-- The pieces of each of the expressions. -/
def writeList (depth : Nat) : List Expr → List (List Piece)
  | [] => []
  | e :: es => e.write depth :: writeList depth es

/-- The pieces of a function. -/
def Func.write (depth : Nat) : Func → List Piece
  | ⟨name, params, .block body, isAsync, form, _⟩ =>
    headerPieces name params isAsync form ++ braced depth (writeLines (depth + 1) body)
  | ⟨name, params, .expr value, isAsync, form, _⟩ =>
    headerPieces name params isAsync form ++ value.write depth

/-- The pieces of a statement. -/
def Stmt.write (depth : Nat) : Stmt → List Piece
  | .declare kind decls _ =>
    word kind.keyword :: blank :: (commas (writeDecls depth decls) ++ [Piece.mark .semicolon])
  | .expr value _ => wrap value.isFunctionWord (value.write depth) ++ [Piece.mark .semicolon]
  | .block body _ => braced depth (writeLines (depth + 1) body)
  | .branch test yes none _ =>
    word "if" :: blank :: Piece.mark .leftParen :: (test.write depth ++
      Piece.mark .rightParen :: blank ::
      (if yes.isBlock then yes.write depth else braced depth (lineOf (depth + 1) (yes.write (depth + 1)))))
  | .branch test yes (some no) _ =>
    word "if" :: blank :: Piece.mark .leftParen :: (test.write depth ++
      Piece.mark .rightParen :: blank ::
      ((if yes.isBlock then yes.write depth
        else braced depth (lineOf (depth + 1) (yes.write (depth + 1)))) ++
      blank :: word "else" :: blank ::
      (if no.isBlock || no.isBranch then no.write depth
        else braced depth (lineOf (depth + 1) (no.write (depth + 1))))))
  | .loop test body _ =>
    word "while" :: blank :: Piece.mark .leftParen :: (test.write depth ++
      Piece.mark .rightParen :: blank ::
      (if body.isBlock then body.write depth
        else braced depth (lineOf (depth + 1) (body.write (depth + 1)))))
  | .switch subject cases _ =>
    word "switch" :: blank :: Piece.mark .leftParen :: (subject.write depth ++
      Piece.mark .rightParen :: blank :: Piece.mark .leftBrace :: break_ ::
      (writeCases (depth + 1) cases ++ [indent depth, Piece.mark .rightBrace]))
  | .jump kind _ => [word kind.keyword, Piece.mark .semicolon]
  | .ret none _ => [word "return", Piece.mark .semicolon]
  | .ret (some arg) _ => word "return" :: blank :: (arg.write depth ++ [Piece.mark .semicolon])
  | .throw arg _ => word "throw" :: blank :: (arg.write depth ++ [Piece.mark .semicolon])
  | .guarded body handler finalizer _ =>
    word "try" :: blank :: (braced depth (writeLines (depth + 1) body) ++
      writeHandler depth handler ++ writeFinalizer depth finalizer)
  | .func f => f.write depth
  | .raise _ _ _ => []

/-- The pieces of each of the declarators. -/
def writeDecls (depth : Nat) : List Declarator → List (List Piece)
  | [] => []
  | ⟨name, none⟩ :: ds => [word name] :: writeDecls depth ds
  | ⟨name, some init⟩ :: ds =>
    (word name :: blank :: Piece.mark .assign :: blank :: init.write depth) :: writeDecls depth ds

/-- The pieces of the cases of a switch. -/
def writeCases (depth : Nat) : List Case → List Piece
  | [] => []
  | ⟨none, body⟩ :: cs =>
    lineOf depth [word "default", Piece.mark .colon] ++ writeLines (depth + 1) body ++ writeCases depth cs
  | ⟨some test, body⟩ :: cs =>
    lineOf depth (word "case" :: blank :: (test.write depth ++ [Piece.mark .colon])) ++
      writeLines (depth + 1) body ++ writeCases depth cs

/-- The pieces of a catch clause. -/
def writeHandler (depth : Nat) : Option Handler → List Piece
  | none => []
  | some ⟨none, body⟩ =>
    blank :: word "catch" :: blank :: braced depth (writeLines (depth + 1) body)
  | some ⟨some param, body⟩ =>
    blank :: word "catch" :: blank :: Piece.mark .leftParen :: word param ::
      Piece.mark .rightParen :: blank :: braced depth (writeLines (depth + 1) body)

/-- The pieces of a finally clause. -/
def writeFinalizer (depth : Nat) : Option (List Stmt) → List Piece
  | none => []
  | some body => blank :: word "finally" :: blank :: braced depth (writeLines (depth + 1) body)

/-- The pieces of statements, one on a line. -/
def writeLines (depth : Nat) : List Stmt → List Piece
  | [] => []
  | s :: ss => lineOf depth (s.write depth) ++ writeLines depth ss

end

/-- The pieces of a phrase, or of each of its parts if commas go between them. -/
@[simp] def Phrase.write (depth : Nat) : Phrase → List (List Piece)
  | .expr e => [e.write depth]
  | .exprs es => writeList depth es
  | .func f => [f.write depth]
  | .attempt _ => []
  | .stmt s => [s.write depth]
  | .decls ds => writeDecls depth ds
  | .cases cs => [writeCases depth cs]
  | .handler h => [writeHandler depth h]
  | .block b => [writeFinalizer depth b]
  | .stmts ss => [writeLines depth ss]

/-! ## The printer writes the pieces -/

theorem toList_text_binary (op : BinaryOp) : op.text.toList = op.mark.text := by
  cases op <;> simp [BinaryOp.text, BinaryOp.mark]

theorem toList_text_logical (op : LogicalOp) : op.text.toList = op.mark.text := by
  cases op <;> simp [LogicalOp.text, LogicalOp.mark]

theorem render_headerPieces (name : Option String) (params : List String) (body : FuncBody)
    (isAsync : Bool) (form : FuncForm) (span : Span) :
    render (headerPieces name params isAsync form) =
      (Func.mk name params body isAsync form span).header.toList := by
  have hparams : render (commas (params.map fun x => [word x])) = (", ".intercalate params).toList := by
    rw [render_commas, List.map_map]
    congr 2
    simp [Function.comp_def, shown]
  cases form <;> cases isAsync <;> cases name <;>
    simp [headerPieces, Func.header, Func.opening, hparams]

theorem render_writeLines_ne_nil (depth : Nat) (ss : List Stmt) :
    writeLines depth ss = [] ∨ render (writeLines depth ss) ≠ [] := by
  cases ss with
  | nil => exact Or.inl rfl
  | cons s ss => exact Or.inr (by simp [writeLines, lineOf])

theorem render_lineOf_ne_nil (depth : Nat) (ps : List Piece) :
    lineOf depth ps = [] ∨ render (lineOf depth ps) ≠ [] :=
  Or.inr (by simp [lineOf])

theorem render_braced_lines (depth d : Nat) (ss : List Stmt) :
    render (braced depth (writeLines d ss)) = (braces depth (shown (writeLines d ss))).toList :=
  render_braced depth (render_writeLines_ne_nil d ss)

/-- A body that is written between braces if it has none. -/
theorem render_body (depth : Nat) (fine : Bool) (s : Stmt) :
    render (if fine then s.write depth else braced depth (lineOf (depth + 1) (s.write (depth + 1))))
      = (if fine then shown (s.write (if fine then depth else depth + 1))
        else braces depth (lineAt (depth + 1) (shown (s.write (if fine then depth else depth + 1))))).toList := by
  cases fine with
  | false => simp [render_braced depth (render_lineOf_ne_nil _ _), shown_lineOf]
  | true => simp

/-- The printer writes the pieces of the phrase. -/
def Phrase.Printed (depth : Nat) : Phrase → Prop
  | .expr e => e.print depth = .ok (shown (e.write depth))
  | .exprs es => printList depth es = .ok ((writeList depth es).map shown)
  | .func f => f.print depth = .ok (shown (f.write depth))
  | .attempt _ => False
  | .stmt s => s.print depth = .ok (shown (s.write depth))
  | .decls ds => printDecls depth ds = .ok ((writeDecls depth ds).map shown)
  | .cases cs => printCases depth cs = .ok (shown (writeCases depth cs))
  | .handler h => printHandler depth h = .ok (shown (writeHandler depth h))
  | .block b => printFinalizer depth b = .ok (shown (writeFinalizer depth b))
  | .stmts ss => printLines depth ss = .ok (shown (writeLines depth ss))

section

attribute [local simp] render_wrap render_commas render_lineOf render_braced_lines
  lineAt indentation toList_text_binary toList_text_logical Expr.write Func.write Stmt.write
  writeList writeDecls writeCases writeHandler writeFinalizer writeLines Phrase.Printed

/-- The printer writes the pieces of every standard phrase. -/
theorem Phrase.printed (p : Phrase) (depth : Nat) (h : Standard (p.walk .all)) : p.Printed depth := by
  induction p generalizing depth with
  | number | string | bool | null | undefined | this | ident => simp [Expr.print, shown]
  | yieldNone d => cases d <;> simp [Expr.print, shown]
  | retNone => simp [Stmt.print, shown]
  | jump kind => cases kind <;> simp [Stmt.print, shown, Jump.keyword]
  | nilExprs | nilDecls | nilCases | noHandler | noBlock | nilStmts => rfl
  | clauses => simp [TryExpr.walk_all, Visit.extension?] at h
  | attempt t ih =>
    simp only [Phrase.walk, Expr.walk, standard_cons] at h
    exact (ih depth h.2).elim
  | raise => simp [Stmt.walk, Visit.extension?] at h
  | func | funcStmt => simp_all [Expr.walk, Expr.print, Stmt.walk, Stmt.print]
  | array | binary | logical | assign | member | index | call | await =>
    simp_all only [Phrase.Printed, Phrase.walk, Expr.walk, standard_cons, standard_append,
      Expr.print, forall_const]
    refine congrArg Except.ok (eq_shown ?_)
    simp
  | unary op =>
    simp_all only [Phrase.Printed, Phrase.walk, Expr.walk, standard_cons, Expr.print, forall_const]
    refine congrArg Except.ok (eq_shown ?_)
    cases op <;> simp [UnaryOp.pieces, UnaryOp.text]
  | yield _ d =>
    simp_all only [Phrase.Printed, Phrase.walk, Expr.walk, standard_cons, Expr.print, forall_const]
    refine congrArg Except.ok (eq_shown ?_)
    cases d <;> simp
  | funcBlock _ _ _ _ _ span | funcExpr _ _ _ _ _ span =>
    simp_all only [Phrase.Printed, Phrase.walk, Func.walk, Reach.functions_all, if_true,
      standard_cons, Func.print, forall_const]
    refine congrArg Except.ok (eq_shown ?_)
    simp [render_headerPieces _ _ (.block []) _ _ span]
  | declare | exprStmt | blockStmt | branch | branchElse | loop | switch | ret | throw | guarded =>
    simp_all only [Phrase.Printed, Phrase.walk, Stmt.walk, standard_cons, standard_append,
      Stmt.print, forall_const]
    refine congrArg Except.ok (eq_shown ?_)
    simp only [Stmt.write, render_cons, render_append, render_body]
    simp
  | consExprs =>
    simp_all only [Phrase.Printed, Phrase.walk, walkExprs, standard_append, printList, forall_const]
    rfl
  | bareDecl =>
    simp_all only [Phrase.Printed, Phrase.walk, walkDecls, printDecls, forall_const]
    refine congrArg Except.ok ?_
    simp [shown]
  | consDecls x e =>
    simp_all only [Phrase.Printed, Phrase.walk, walkDecls, standard_append, printDecls, forall_const]
    refine congrArg Except.ok ?_
    rw [writeDecls, List.map_cons, eq_shown (x := x ++ " = " ++ shown (e.write depth))]
    simp
  | defaultCase | consCases | consStmts =>
    simp_all only [Phrase.Printed, Phrase.walk, walkCases, walkStmts, standard_append,
      printCases, printLines, forall_const]
    refine congrArg Except.ok (eq_shown ?_)
    simp
  | handler param body ih =>
    have hbody : printLines (depth + 1) body = .ok (shown (writeLines (depth + 1) body)) := ih (depth + 1) h
    cases param <;> rw [Phrase.Printed, printHandler, hbody] <;> exact congrArg Except.ok (eq_shown (by simp))
  | finalizer body ih =>
    have hbody : printLines (depth + 1) body = .ok (shown (writeLines (depth + 1) body)) := ih (depth + 1) h
    rw [Phrase.Printed, printFinalizer, hbody]
    exact congrArg Except.ok (eq_shown (by simp))

end

/-- The printer writes the lines of a standard program. -/
theorem emit_eq_write {p : Program} (file : String) (h : Standard (walkStmts .all p)) :
    emit p file = .ok (shown (writeLines 0 p)) := by
  have hlines : printLines 0 p = .ok (shown (writeLines 0 p)) := Phrase.printed (.stmts p) 0 h
  rw [emit, hlines]
  rfl

end RaiseScript
