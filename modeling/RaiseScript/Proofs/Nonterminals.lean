import RaiseScript.Parse.Grammar
import Mathlib.Data.List.Basic

/-!
# Rules and the calls between them

A rule of the grammar takes reading steps and calls other rules. `Nonterminal.code` says which, with
the calls left open, and a rule with a budget does what its code does with one less (`read_succ`).
So it can be said which rules are called, and at which places (`RuleCall.Calls`), and a budget that
was enough for a rule is as good as any larger one (`read_of_le`).
-/

namespace RaiseScript

variable {l : Level} {c c' : Cursor}

open RaiseScript.Parser

/-! ## Operators -/

/-- How strongly the operators of a level bind. -/
def Level.rank : Level → Nat
  | .nullish => 2
  | .or => 3
  | .and => 4
  | .equality => 5
  | .order => 6
  | .sum => 7
  | .product => 8

theorem Level.rank_tighter {l' : Level} (h : l.tighter = some l') : l'.rank = l.rank + 1 := by
  cases l <;> cases h <;> rfl

theorem Level.rank_le (l : Level) : 2 ≤ l.rank ∧ l.rank ≤ 8 := by
  cases l <;> decide

theorem join_cases {t : Token} {join : Expr → Expr → Expr} (hj : l.joinToken? t = some join) :
    (∃ op, join = .logical op) ∨ ∃ op, join = .binary op := by
  unfold Level.joinToken? at hj
  split at hj
  · unfold Level.join? at hj
    split at hj <;> cases hj <;> first | exact Or.inl ⟨_, rfl⟩ | exact Or.inr ⟨_, rfl⟩
  · cases hj

/-! ## The rules -/

/-- The rules of the grammar, with what each is told. -/
inductive Nonterminal where
  | assignment
  | arrow (isAsync : Bool) (ps : ArrowParams)
  | yieldExpr
  | level (l : Level)
  | operand (l : Level)
  | operators (l : Level) (left : Expr)
  | unary
  | suffixes (e : Expr)
  | items (closing : Mark)
  | primary
  | funcExpr (start : Span) (isAsync : Bool)
  | funcRest (start : Span) (called : Option String) (isAsync generator : Bool)
  | attempt (start : Span)
  | statement (raising : Bool)
  | expressionStatement (start : Span)
  | declaration (kind : BindingKind) (start : Span)
  | declarators (kind : BindingKind)
  | inParens
  | cases (raising hasDefault : Bool)
  | guarded (raising : Bool) (start : Span)
  | handler (raising : Bool)
  | funcDeclaration (start : Span) (isAsync : Bool)
  | block (raising : Bool)
  | statements (raising : Bool) (ending : Ending)
  | names

namespace Nonterminal

/-- What a rule gives. -/
abbrev Result : Nonterminal → Type
  | .items _ => List Expr
  | .funcExpr .. | .funcRest .. => Func
  | .attempt _ => TryExpr
  | .statement _ | .expressionStatement _ | .declaration .. | .guarded .. | .funcDeclaration .. => Stmt
  | .declarators _ => List Declarator
  | .cases .. => List Case
  | .handler _ => Handler
  | .block _ | .statements .. => List Stmt
  | .names => List String
  | _ => Expr

/-- A rule of the grammar with a budget. -/
def read (n : Nat) : (r : Nonterminal) → Parser r.Result
  | .assignment => Parser.assignment n
  | .arrow isAsync ps => Parser.arrow n isAsync ps
  | .yieldExpr => Parser.yieldExpr n
  | .level l => Parser.level n l
  | .operand l => Parser.operand n l
  | .operators l left => Parser.operators n l left
  | .unary => Parser.unary n
  | .suffixes e => Parser.suffixes n e
  | .items closing => Parser.items n closing
  | .primary => Parser.primary n
  | .funcExpr start isAsync => Parser.funcExpr n start isAsync
  | .funcRest start called isAsync generator => Parser.funcRest n start called isAsync generator
  | .attempt start => Parser.attempt n start
  | .statement raising => Parser.statement n raising
  | .expressionStatement start => Parser.expressionStatement n start
  | .declaration kind start => Parser.declaration n kind start
  | .declarators kind => Parser.declarators n kind
  | .inParens => Parser.inParens n
  | .cases raising hasDefault => Parser.cases n raising hasDefault
  | .guarded raising start => Parser.guarded n raising start
  | .handler raising => Parser.handler n raising
  | .funcDeclaration start isAsync => Parser.funcDeclaration n start isAsync
  | .block raising => Parser.block n raising
  | .statements raising ending => Parser.statements n raising ending
  | .names => namesUpTo n

end Nonterminal

/-- Code that takes reading steps and calls rules. A rule may be called with a budget of its own. -/
inductive Code (α : Type) : Type 1 where
  | done (a : α)
  | step {β : Type} (x : Parser β) (k : β → Code α)
  | call (r : Nonterminal) (own : Option (Cursor → Nat)) (k : r.Result → Code α)

namespace Code

variable {α β : Type}

/-- One piece of code after the other. -/
def andThen : Code α → (α → Code β) → Code β
  | .done a, f => f a
  | .step x k, f => .step x fun b => (k b).andThen f
  | .call r own k, f => .call r own fun b => (k b).andThen f

instance : Monad Code where
  pure := .done
  bind := andThen

instance : MonadLift Parser Code where
  monadLift x := .step x .done

/-- The budget of a call. -/
def budget (own : Option (Cursor → Nat)) (n : Nat) (c : Cursor) : Nat :=
  own.elim n (· c)

/-- What the code does with a budget for its calls. -/
def run (n : Nat) : Code α → Parser α
  | .done a => pure a
  | .step x k => x >>= fun b => (k b).run n
  | .call r own k => (fun c => r.read (budget own n c) c) >>= fun b => (k b).run n

section

variable (n : Nat)

@[simp] theorem run_pure (a : α) : (pure a : Code α).run n = pure a := rfl

@[simp] theorem run_call (r : Nonterminal) (k : r.Result → Code α) :
    (call r none k).run n = r.read n >>= fun b => (k b).run n := rfl

@[simp] theorem run_done (a : α) : (done a).run n = pure a := rfl

@[simp] theorem run_lift (x : Parser α) : (liftM x : Code α).run n = x :=
  bind_pure (m := Parser) x

@[simp] theorem run_bind (p : Code α) (f : α → Code β) : (p >>= f).run n = p.run n >>= fun a => (f a).run n := by
  change (p.andThen f).run n = _
  induction p with
  | done a => exact (pure_bind (m := Parser) a fun a => (f a).run n).symm
  | step x k ih => simp only [andThen, run, ih, bind_assoc]
  | call r own k ih => simp only [andThen, run, ih, bind_assoc]

@[simp] theorem run_ite (c : Prop) [Decidable c] (p q : Code α) :
    (if c then p else q).run n = if c then p.run n else q.run n := by
  split <;> rfl

@[simp] theorem run_map (f : α → β) (p : Code α) : (f <$> p).run n = f <$> p.run n :=
  (run_bind n p fun a => pure (f a)).trans (map_eq_pure_bind (m := Parser) f _).symm

end

end Code

namespace Nonterminal

/-- Calls a rule. -/
abbrev get (r : Nonterminal) : Code r.Result :=
  .call r none .done

/-- Reads the parameters of a function. -/
def paramList : Code (List String) := do
  expect .leftParen
  let xs ← .call .names (some fun c => c.ahead.length + 1) .done
  expect .rightParen
  return xs

@[simp] theorem run_paramList (n : Nat) : paramList.run n = params := rfl

/-- Reads the parameters of an arrow function. -/
def arrowNames : ArrowParams → Code (List String)
  | .single => (fun x => [x]) <$> name
  | .list => paramList

/-- Reads the body of an arrow function. -/
def arrowBody : Code FuncBody := do
  if ← atMark .leftBrace then .block <$> get (.block false) else .expr <$> get .assignment

/-- Reads an `if` statement. -/
def branchCode (raising : Bool) (start : Span) : Code Stmt := do
  advance
  let test ← get .inParens
  let yes ← get (.statement raising)
  let no ← if ← eatWord "else" then some <$> get (.statement raising) else pure none
  return .branch test yes no (← through start)

/-- Reads a loop. -/
def loopCode (raising : Bool) (start : Span) : Code Stmt := do
  advance
  let test ← get .inParens
  let body ← get (.statement raising)
  return .loop test body (← through start)

/-- Reads a `switch` statement. -/
def switchCode (raising : Bool) (start : Span) : Code Stmt := do
  advance
  let subject ← get .inParens
  expect .leftBrace
  let cs ← get (.cases raising false)
  return .switch subject cs (← through start)

/-- Reads a jump. -/
def jumpCode (kind : Jump) (start : Span) : Code Stmt := do
  advance
  semicolon
  return .jump kind start

/-- Reads a `return` statement. -/
def retCode (start : Span) : Code Stmt := do
  advance
  let arg ← if ← atStatementEnd then pure none else some <$> get .assignment
  semicolon
  return .ret arg (← through start)

/-- Reads a `throw` statement. -/
def throwCode (start : Span) : Code Stmt := do
  advance
  let arg ← get .assignment
  semicolon
  return .throw arg (← through start)

/-- Reads a `raise` statement. -/
def raiseCode (start : Span) : Code Stmt := do
  advance
  if ← atStatementEnd then refuse .raiseWithoutValue
  let value ← get .assignment
  semicolon
  let id ← freshId
  return .raise id value (← through start)

/-- What a rule does. -/
def code : (r : Nonterminal) → Code r.Result
  | .assignment => do
    match ← arrowAhead with
    | some (isAsync, ps) => get (.arrow isAsync ps)
    | none =>
      if ← atWord "yield" then get .yieldExpr
      else
        let left ← get (.level .nullish)
        if ← atMark .assign then
          if left.isTarget then
            advance
            return .assign left (← get .assignment)
          else refuse .badTarget
        else return left
  | .arrow isAsync ps => do
    let start ← here
    if isAsync then advance
    let names ← arrowNames ps
    expect .arrow
    let body ← arrowBody
    return .func ⟨none, names, body, isAsync, .arrow, ← through start⟩
  | .yieldExpr => do
    advance
    let delegate ← eat .star
    if (← atYieldEnd) && !delegate then return .yield none delegate
    else return .yield (some (← get .assignment)) delegate
  | .level l => do
    get (.operators l (← get (.operand l)))
  | .operand l =>
    match l.tighter with
    | some l' => get (.level l')
    | none => get .unary
  | .operators l left => do
    match l.joinToken? (← peek) with
    | some join =>
      advance
      get (.operators l (join left (← get (.operand l))))
    | none => return left
  | .unary => do
    match ← peek with
    | .mark .bang =>
      advance
      return .unary .not (← get .unary)
    | .mark .minus =>
      advance
      return .unary .negate (← get .unary)
    | .word w =>
      if w = "typeof" then
        advance
        return .unary .typeName (← get .unary)
      else if w = "await" then
        advance
        return .await (← get .unary)
      else get (.suffixes (← get .primary))
    | _ => get (.suffixes (← get .primary))
  | .suffixes e => do
    match ← peek with
    | .mark .dot =>
      advance
      match ← peek with
      | .word w =>
        advance
        get (.suffixes (.member e w))
      | _ => refuseToken .expectedProperty
    | .mark .leftBracket =>
      advance
      let key ← get .assignment
      expect .rightBracket
      get (.suffixes (.index e key))
    | .mark .leftParen =>
      advance
      let args ← get (.items .rightParen)
      expect .rightParen
      get (.suffixes (.call e args))
    | _ => return e
  | .items closing => do
    if ← atMark closing then return []
    let first ← get .assignment
    if ← eat .comma then return first :: (← get (.items closing)) else return [first]
  | .primary => do
    let start ← here
    match ← peek with
    | .number v =>
      advance
      return .number v
    | .string s =>
      advance
      return .string s
    | .mark .leftParen =>
      advance
      let e ← get .assignment
      expect .rightParen
      return e
    | .mark .leftBracket =>
      advance
      let es ← get (.items .rightBracket)
      expect .rightBracket
      return .array es
    | .word w =>
      if w = "try" && (← braceFollows) then
        advance
        return .attempt (← get (.attempt start))
      else if w = "true" then
        advance
        return .bool true
      else if w = "false" then
        advance
        return .bool false
      else if w = "null" then
        advance
        return .null
      else if w = "undefined" then
        advance
        return .undefined
      else if w = "this" then
        advance
        return .this
      else if w = "function" then
        advance
        return .func (← get (.funcExpr start false))
      else if w = "async" && (← functionFollows) then
        advance
        advance
        return .func (← get (.funcExpr start true))
      else if isReserved w then refuse (.unexpectedKeyword w)
      else
        advance
        return .ident w
    | _ => refuseToken .expectedExpression
  | .funcExpr start isAsync => do
    let generator ← eat .star
    let called ← if ← atMark .leftParen then pure none else some <$> name
    get (.funcRest start called isAsync generator)
  | .funcRest start called isAsync generator => do
    let names ← paramList
    let body ← get (.block false)
    return ⟨called, names, .block body, isAsync, if generator then .generator else .plain, ← through start⟩
  | .attempt start => do
    let id ← freshId
    let body ← get (.block true)
    unless ← eatWord "catch" do refuseToken .expectedCatch
    let catchParam ← binding?
    let catchBody ← get (.block true)
    if ← eatWord "finally" then
      let finallyParam ← binding?
      let finallyBody ← get (.block finallyParam.isSome)
      return ⟨id, body, catchParam, catchBody, finallyParam, some finallyBody, ← through start, none, none⟩
    else
      return ⟨id, body, catchParam, catchBody, none, none, ← through start, none, none⟩
  | .statement raising => do
    let start ← here
    match ← peek with
    | .mark .leftBrace =>
      let body ← get (.block raising)
      return .block body (← through start)
    | .word w =>
      if w = "let" then get (.declaration .mutable start)
      else if w = "const" then get (.declaration .constant start)
      else if w = "var" then get (.declaration .functionWide start)
      else if w = "if" then branchCode raising start
      else if w = "while" then loopCode raising start
      else if w = "switch" then switchCode raising start
      else if w = "break" then jumpCode .leave start
      else if w = "continue" then jumpCode .again start
      else if w = "return" then retCode start
      else if w = "throw" then throwCode start
      else if w = "try" then
        advance
        get (.guarded raising start)
      else if w = "function" then
        advance
        get (.funcDeclaration start false)
      else if w = "async" && (← functionFollows) then
        advance
        advance
        get (.funcDeclaration start true)
      else if w = "raise" && raising then raiseCode start
      else get (.expressionStatement start)
    | _ => get (.expressionStatement start)
  | .expressionStatement start => do
    let value ← get .assignment
    semicolon
    return .expr value (← through start)
  | .declaration kind start => do
    advance
    let ds ← get (.declarators kind)
    semicolon
    return .declare kind ds (← through start)
  | .declarators kind => do
    let x ← name
    let init ← if ← eat .assign then some <$> get .assignment else pure none
    if kind = .constant && init.isNone then refuse (.missingInitializer x)
    if ← eat .comma then return ⟨x, init⟩ :: (← get (.declarators kind)) else return [⟨x, init⟩]
  | .inParens => do
    expect .leftParen
    let e ← get .assignment
    expect .rightParen
    return e
  | .cases raising hasDefault => do
    if ← eat .rightBrace then return []
    else if ← eatWord "case" then
      let test ← get .assignment
      expect .colon
      let body ← get (.statements raising .case)
      return ⟨some test, body⟩ :: (← get (.cases raising hasDefault))
    else if ← atWord "default" then
      if hasDefault then refuse .secondDefault
      advance
      expect .colon
      let body ← get (.statements raising .case)
      return ⟨none, body⟩ :: (← get (.cases raising true))
    else refuseToken .expectedCase
  | .guarded raising start => do
    let body ← get (.block raising)
    let handler ← if ← eatWord "catch" then some <$> get (.handler raising) else pure none
    let finalizer ← if ← eatWord "finally" then some <$> get (.block raising) else pure none
    if handler.isNone && finalizer.isNone then refuse .loneTry
    return .guarded body handler finalizer (← through start)
  | .handler raising => do
    let param ← binding?
    let body ← get (.block raising)
    return ⟨param, body⟩
  | .funcDeclaration start isAsync => do
    let generator ← eat .star
    let called ← name
    return .func (← get (.funcRest start (some called) isAsync generator))
  | .block raising => do
    expect .leftBrace
    let body ← get (.statements raising .block)
    unless ← eat .rightBrace do refuse .unclosedBlock
    return body
  | .statements raising ending => do
    if ending.endsAt (← peek) then return []
    else if ← eat .semicolon then get (.statements raising ending)
    else
      let first ← get (.statement raising)
      return first :: (← get (.statements raising ending))
  | .names => do
    if ← atMark .rightParen then return []
    let first ← name
    if ← eat .comma then return first :: (← get .names) else return [first]

theorem read_zero (r : Nonterminal) : r.read 0 = refuse .exhausted := by
  cases r <;> rfl

theorem read_succ (n : Nat) (r : Nonterminal) : r.read (n + 1) = r.code.run n := by
  cases r with
  | assignment =>
    simp only [read, Parser.assignment, code, Code.run_bind, Code.run_lift]
    refine bind_congr fun o => ?_
    obtain _ | ⟨isAsync, ps⟩ := o
    · simp [read]
    · simp [read]
  | arrow isAsync ps =>
    have hite {α β : Type} (b : Bool) (x y : Parser α) (k : α → Parser β) :
        (if b then x else y) >>= k = if b then x >>= k else y >>= k := by
      cases b <;> rfl
    cases isAsync <;> cases ps <;> simp [read, Parser.arrow, code, arrowNames, arrowBody, hite]
  | operand l =>
    cases h : l.tighter <;> simp [read, Parser.operand, code, h]
  | operators l left =>
    simp only [read, Parser.operators, code, Code.run_bind, Code.run_lift]
    refine bind_congr fun t => ?_
    cases l.joinToken? t <;> simp [read]
  | unary =>
    simp only [read, Parser.unary, code, Code.run_bind, Code.run_lift]
    refine bind_congr fun t => ?_
    split <;> simp [read]
  | suffixes =>
    simp only [read, Parser.suffixes, code, Code.run_bind, Code.run_lift]
    refine bind_congr fun t => ?_
    split <;> simp [read]
    refine bind_congr fun _ => bind_congr fun t => ?_
    split <;> simp [read]
  | primary =>
    simp only [read, Parser.primary, code, Code.run_bind, Code.run_lift]
    refine bind_congr fun _ => bind_congr fun t => ?_
    split <;> simp [read]
  | statement raising =>
    simp only [read, Parser.statement, code, Code.run_bind, Code.run_lift]
    refine bind_congr fun _ => bind_congr fun t => ?_
    split <;> simp [read, branchCode, loopCode, switchCode, jumpCode, retCode, throwCode, raiseCode]
  | _ => simp [read, code, Parser.yieldExpr, Parser.level, Parser.items, Parser.funcExpr, Parser.funcRest,
      Parser.attempt, Parser.expressionStatement, Parser.declaration, Parser.declarators, Parser.inParens,
      Parser.cases, Parser.guarded, Parser.handler, Parser.funcDeclaration, Parser.block, Parser.statements,
      namesUpTo]

end Nonterminal

/-! ## Budgets -/

/-- The budget ran out. -/
def Exhausted {α : Type} (r : Except (SyntaxError × Span) α) : Prop :=
  ∃ s, r = .error (.exhausted, s)

namespace Code

variable {α : Type} {n m : Nat}

/-- Rules that give more with the second budget than with the first leave the code what it did. -/
theorem run_of_le (h : ∀ (r : Nonterminal) c, ¬Exhausted (r.read n c) → r.read m c = r.read n c)
    (p : Code α) (hp : ¬Exhausted (p.run n c)) : p.run m c = p.run n c := by
  have hbind {β : Type} (x : Parser β) (k : β → Parser α) (c : Cursor) :
      (x >>= k) c = x c >>= fun r => k r.1 r.2 := rfl
  induction p generalizing c with
  | done a => rfl
  | step x k ih =>
    rw [run, hbind] at hp
    rw [run, run, hbind, hbind]
    cases hx : x c with
    | error e => rfl
    | ok r =>
      rw [hx] at hp
      exact ih r.1 hp
  | call r own k ih =>
    rw [run, hbind] at hp
    rw [run, run, hbind, hbind]
    have hread : r.read (budget own m c) c = r.read (budget own n c) c := by
      cases own with
      | some b => rfl
      | none =>
        refine h r c fun ⟨s, hs⟩ => hp ⟨s, ?_⟩
        rw [show r.read (budget none n c) c = _ from hs]
        rfl
    rw [hread]
    cases hx : r.read (budget own n c) c with
    | error e => rfl
    | ok a =>
      rw [hx] at hp
      exact ih a.1 hp

end Code

/-- A budget that is enough for a rule is as good as any larger one. -/
theorem Nonterminal.read_of_le {n m : Nat} (h : n ≤ m) (r : Nonterminal)
    (hr : ¬Exhausted (r.read n c)) : r.read m c = r.read n c := by
  induction n generalizing m r c with
  | zero => exact absurd ⟨_, congrFun (read_zero r) c⟩ hr
  | succ n ih =>
    obtain ⟨m, rfl⟩ : ∃ k, m = k + 1 := ⟨m - 1, by omega⟩
    rw [read_succ] at hr
    rw [read_succ, read_succ]
    exact Code.run_of_le (fun r c hr => ih (by omega) r hr) _ hr

/-! ## Where a cursor goes -/

namespace Cursor

/-- The last lexeme ahead ends the input. -/
def Ends (c : Cursor) : Prop :=
  ∃ l, c.ahead.getLast? = some l ∧ l.token.isFinish = true

/-- The cursor goes to `c'` past the lexemes `read`. -/
structure Goes (c : Cursor) (read : List Lexeme) (c' : Cursor) : Prop where
  ahead : c.ahead = read ++ c'.ahead
  before : c'.before = (read.getLast?.map (·.span)).getD c.before
  ends : c'.Ends

variable {c'' : Cursor} {read read' : List Lexeme}

theorem Goes.refl (h : c.Ends) : c.Goes [] c :=
  ⟨rfl, rfl, h⟩

theorem Goes.trans (h : c.Goes read c') (h' : c'.Goes read' c'') : c.Goes (read ++ read') c'' where
  ahead := by rw [h.ahead, h'.ahead, List.append_assoc]
  before := by
    rw [h'.before, h.before, List.getLast?_append]
    cases read'.getLast? <;> rfl
  ends := h'.ends

theorem Goes.length (h : c.Goes read c') : c.ahead.length = read.length + c'.ahead.length := by
  rw [h.ahead, List.length_append]

/-- A lexeme that does not end the input is passed. -/
theorem Ends.advance (h : c.Ends) (ht : c.current.token.isFinish = false) : c.Goes [c.current] c.advance := by
  obtain ⟨k, hk, hfinish⟩ := h
  obtain ⟨before, _ | ⟨l, _ | ⟨m, rest⟩⟩, id⟩ := c
  · cases hk
  · cases hk
    exact absurd (hfinish.symm.trans ht) (by simp)
  · exact ⟨rfl, rfl, k, by rwa [List.getLast?_cons_cons] at hk, hfinish⟩

theorem Ends.advance_goes (h : c.Ends) : ∃ read, c.Goes read c.advance := by
  obtain ⟨before, _ | ⟨l, _ | ⟨m, rest⟩⟩, id⟩ := c
  · exact ⟨[], .refl h⟩
  · exact ⟨[], .refl h⟩
  · obtain ⟨k, hk, hfinish⟩ := h
    exact ⟨[l], rfl, rfl, k, by rwa [List.getLast?_cons_cons] at hk, hfinish⟩

theorem Goes.current (h : c.Goes read c') (hread : read ≠ []) : read.head? = some c.current := by
  obtain ⟨l, ls, rfl⟩ := List.exists_cons_of_ne_nil hread
  rw [Cursor.current, h.ahead]
  rfl

theorem Goes.ne_nil (h : c.Goes read c') (hlt : c'.ahead.length < c.ahead.length) : read ≠ [] := by
  rintro rfl
  rw [h.ahead] at hlt
  exact absurd hlt (Nat.lt_irrefl _)

theorem Goes.getLast (h : c.Goes read c') (hread : read ≠ []) : ∃ l, read.getLast? = some l ∧
    c'.before = l.span := by
  have hl := List.getLast?_eq_some_getLast hread
  exact ⟨_, hl, by rw [h.before, hl]; rfl⟩

end Cursor

/-! ## Calls -/

/-- A call of a rule at a place, with its budget. -/
structure RuleCall where
  budget : Nat
  rule : Nonterminal
  cursor : Cursor

/-- The code comes to a call if it starts at the cursor with a budget for its calls. -/
def Code.ComesTo {α : Type} (n : Nat) (t : RuleCall) : Code α → Cursor → Prop
  | .done _, _ => False
  | .step x k, c => ∃ b c', x c = .ok (b, c') ∧ (k b).ComesTo n t c'
  | .call r own k, c => t = ⟨budget own n c, r, c⟩ ∨
    ∃ b c', r.read (budget own n c) c = .ok (b, c') ∧ (k b).ComesTo n t c'

/-- The rule of the first call makes the second. -/
def RuleCall.Calls (s t : RuleCall) : Prop :=
  ∃ n, s.budget = n + 1 ∧ s.rule.code.ComesTo n t s.cursor

/-- In a run of the code that starts at the cursor, a step or a call takes it from `c₁` to `c₂`. -/
def Code.Steps {α : Type} (n : Nat) (c₁ c₂ : Cursor) : Code α → Cursor → Prop
  | .done _, _ => False
  | .step x k, c => ∃ b c', x c = .ok (b, c') ∧ (c = c₁ ∧ c' = c₂ ∨ (k b).Steps n c₁ c₂ c')
  | .call r own k, c => ∃ b c', r.read (budget own n c) c = .ok (b, c') ∧
      (c = c₁ ∧ c' = c₂ ∨ (k b).Steps n c₁ c₂ c')

/-- In the call, a step or another call takes the cursor from `c₁` to `c₂`. -/
def RuleCall.Steps (s : RuleCall) (c₁ c₂ : Cursor) : Prop :=
  ∃ n, s.budget = n + 1 ∧ s.rule.code.Steps n c₁ c₂ s.cursor

/-! ## Reasoning about code -/

/-- What a rule gives from one cursor to another. -/
def Nonterminal.Gives (r : Nonterminal) (c : Cursor) (a : r.Result) (c' : Cursor) : Prop :=
  ∃ n, r.read n c = .ok (a, c')

namespace Code

/-- The code makes calls as `P` allows, its steps go on, and if the calls give what `Q` says then
the result is as `R` says. -/
def Holds {α : Type} (P : (r : Nonterminal) → Option (Cursor → Nat) → Cursor → Prop)
    (Q : (r : Nonterminal) → Cursor → r.Result → Cursor → Prop) :
    Code α → Cursor → (α → Cursor → Prop) → Prop
  | .done a, c, R => R a c
  | .step x k, c, R => ¬Exhausted (x c) ∧ ∀ b c', x c = .ok (b, c') →
    (c.Ends → ∃ read, c.Goes read c') ∧ (k b).Holds P Q c' R
  | .call r own k, c, R => P r own c ∧ ∀ b c', Q r c b c' → (k b).Holds P Q c' R

namespace Holds

variable {α β : Type} {P : (r : Nonterminal) → Option (Cursor → Nat) → Cursor → Prop}
  {Q : (r : Nonterminal) → Cursor → r.Result → Cursor → Prop} {p : Code α} {R : α → Cursor → Prop}
  {n : Nat}

/-- One piece of code after the other. -/
theorem bind {S : α → Cursor → Prop} {f : α → Code β} {R : β → Cursor → Prop} (h : p.Holds P Q c S)
    (hf : ∀ a c', S a c' → (f a).Holds P Q c' R) : (p >>= f).Holds P Q c R := by
  induction p generalizing c with
  | done a => exact hf a c h
  | step x k ih => exact ⟨h.1, fun b c' hb => ⟨(h.2 b c' hb).1, ih b (h.2 b c' hb).2⟩⟩
  | call r own k ih => exact ⟨h.1, fun b c' hb => ih b (h.2 b c' hb)⟩

theorem map {f : α → β} {R : β → Cursor → Prop} (h : p.Holds P Q c fun a => R (f a)) : (f <$> p).Holds P Q c R :=
  h.bind fun _ _ ha => ha

/-- What the code gives. -/
theorem ok (h : p.Holds P Q c R) (hq : ∀ r own c b c', P r own c → r.Gives c b c' → Q r c b c')
    {a : α} (ha : p.run n c = .ok (a, c')) : R a c' := by
  induction p generalizing c with
  | done b =>
    cases ha
    exact h
  | step x k ih =>
    change (x c >>= fun r => (k r.1).run n r.2) = _ at ha
    cases hx : x c with
    | error e => rw [hx] at ha; cases ha
    | ok r =>
      rw [hx] at ha
      exact ih r.1 (h.2 r.1 r.2 hx).2 ha
  | call r own k ih =>
    change (r.read (budget own n c) c >>= fun r => (k r.1).run n r.2) = _ at ha
    cases hx : r.read (budget own n c) c with
    | error e => rw [hx] at ha; cases ha
    | ok b =>
      rw [hx] at ha
      exact ih b.1 (h.2 b.1 b.2 (hq r own c b.1 b.2 h.1 ⟨_, hx⟩)) ha

/-- The budget is enough if it is enough for all calls. -/
theorem unexhausted (h : p.Holds P Q c R) (hq : ∀ r own c b c', P r own c → r.Gives c b c' → Q r c b c')
    (hn : ∀ r own c, P r own c → ¬Exhausted (r.read (budget own n c) c)) : ¬Exhausted (p.run n c) := by
  induction p generalizing c with
  | done b =>
    rintro ⟨s, hs⟩
    cases hs
  | step x k ih =>
    change ¬Exhausted (x c >>= fun r => (k r.1).run n r.2)
    cases hx : x c with
    | error e =>
      rintro ⟨s, hs⟩
      cases hs
      exact h.1 ⟨s, hx⟩
    | ok r => exact ih r.1 (h.2 r.1 r.2 hx).2
  | call r own k ih =>
    change ¬Exhausted (r.read (budget own n c) c >>= fun r => (k r.1).run n r.2)
    cases hx : r.read (budget own n c) c with
    | error e =>
      rintro ⟨s, hs⟩
      cases hs
      exact hn r own c h.1 ⟨s, hx⟩
    | ok b => exact ih b.1 (h.2 b.1 b.2 (hq r own c b.1 b.2 h.1 ⟨_, hx⟩))

/-- The calls that are made. -/
theorem comesTo {t : RuleCall} (h : p.Holds P Q c R) (hq : ∀ r own c b c', P r own c → r.Gives c b c' → Q r c b c')
    (ht : p.ComesTo n t c) : ∃ own, P t.rule own t.cursor ∧ t.budget = budget own n t.cursor := by
  induction p generalizing c with
  | done b => exact ht.elim
  | step x k ih =>
    obtain ⟨b, c₁, hx, ht⟩ := ht
    exact ih b (h.2 b c₁ hx).2 ht
  | call r own k ih =>
    obtain rfl | ⟨b, c₁, hx, ht⟩ := ht
    · exact ⟨own, h.1, rfl⟩
    · exact ih b (h.2 b c₁ (hq r own c b c₁ h.1 ⟨_, hx⟩)) ht

/-- Steps and calls go on. -/
theorem steps {c₁ c₂ : Cursor} (h : p.Holds P Q c R)
    (hq : ∀ r own c b c', P r own c → r.Gives c b c' → Q r c b c')
    (hgoes : ∀ r c b c', Q r c b c' → ∃ read, c.Goes read c') (hc : c.Ends) (hs : p.Steps n c₁ c₂ c) :
    ∃ read, c₁.Goes read c₂ := by
  induction p generalizing c with
  | done b => exact hs.elim
  | step x k ih =>
    obtain ⟨b, c', hx, hs⟩ := hs
    obtain ⟨read, hread⟩ := (h.2 b c' hx).1 hc
    obtain ⟨rfl, rfl⟩ | hs := hs
    · exact ⟨read, hread⟩
    · exact ih b (h.2 b c' hx).2 hread.ends hs
  | call r own k ih =>
    obtain ⟨b, c', hx, hs⟩ := hs
    have hgives := hq r own c b c' h.1 ⟨_, hx⟩
    obtain ⟨read, hread⟩ := hgoes r c b c' hgives
    obtain ⟨rfl, rfl⟩ | hs := hs
    · exact ⟨read, hread⟩
    · exact ih b (h.2 b c' hgives) hread.ends hs

end Holds

end Code

/-! ## What code gives -/

/-- The code gives a result from one cursor to another with calls that give their results. -/
def Code.Gives {α : Type} : Code α → Cursor → α → Cursor → Prop
  | .done b, c, a, c' => b = a ∧ c = c'
  | .step x k, c, a, c' => ∃ b c₁, x c = .ok (b, c₁) ∧ (k b).Gives c₁ a c'
  | .call r none k, c, a, c' => ∃ b c₁, r.Gives c b c₁ ∧ (k b).Gives c₁ a c'
  | .call r (some own) k, c, a, c' => ∃ b c₁, r.read (own c) c = .ok (b, c₁) ∧ (k b).Gives c₁ a c'

/-- A rule that gives a result gives it with every larger budget. -/
theorem Nonterminal.Gives.eventually {r : Nonterminal} {a : r.Result} (h : r.Gives c a c') :
    ∃ n, ∀ m ≥ n, r.read m c = .ok (a, c') := by
  obtain ⟨n, hn⟩ := h
  refine ⟨n, fun m hm => ?_⟩
  rw [read_of_le hm r (by rw [hn]; rintro ⟨s, hs⟩; cases hs), hn]

namespace Code.Gives

variable {α β : Type} {p : Code α} {f : β → Code α} {c₁ : Cursor} {a : α} {b : β}

theorem eventually (h : p.Gives c a c') : ∃ n, ∀ m ≥ n, p.run m c = .ok (a, c') := by
  have hbind {γ : Type} {x : Parser γ} {k : γ → Parser α} {c c₁ : Cursor} {b : γ}
      (hx : x c = .ok (b, c₁)) : (x >>= k) c = k b c₁ := by
    change (x c >>= fun r => k r.1 r.2) = _
    rw [hx]
    rfl
  induction p generalizing c with
  | done b =>
    obtain ⟨rfl, rfl⟩ := h
    exact ⟨0, fun m _ => rfl⟩
  | step x k ih =>
    obtain ⟨b, c₁, hx, h⟩ := h
    obtain ⟨n, hn⟩ := ih b h
    exact ⟨n, fun m hm => (hbind hx).trans (hn m hm)⟩
  | call r own k ih =>
    cases own with
    | none =>
      obtain ⟨b, c₁, hr, h⟩ := h
      obtain ⟨n₁, hr⟩ := hr.eventually
      obtain ⟨n, hn⟩ := ih b h
      exact ⟨max n n₁, fun m hm => (hbind (hr m (by omega))).trans (hn m (by omega))⟩
    | some own =>
      obtain ⟨b, c₁, hr, h⟩ := h
      obtain ⟨n, hn⟩ := ih b h
      exact ⟨n, fun m hm => (hbind (x := fun c => r.read (own c) c) hr).trans (hn m hm)⟩

theorem done : (pure a : Code α).Gives c a c :=
  ⟨rfl, rfl⟩

theorem step {x : Parser β} (hx : x c = .ok (b, c₁)) (h : (f b).Gives c₁ a c') :
    ((liftM x : Code β) >>= f).Gives c a c' :=
  ⟨b, c₁, hx, h⟩

theorem call {r : Nonterminal} {f : r.Result → Code α} {b : r.Result} (hr : r.Gives c b c₁)
    (h : (f b).Gives c₁ a c') : (Nonterminal.get r >>= f).Gives c a c' :=
  ⟨b, c₁, hr, h⟩

theorem tail {r : Nonterminal} {a : r.Result} (hr : r.Gives c a c') : (Nonterminal.get r).Gives c a c' :=
  call hr done

theorem bind {q : Code β} (hq : q.Gives c b c₁) (h : (f b).Gives c₁ a c') : (q >>= f).Gives c a c' := by
  induction q generalizing c with
  | done b =>
    obtain ⟨rfl, rfl⟩ := hq
    exact h
  | step x k ih =>
    obtain ⟨b, c₂, hx, hq⟩ := hq
    exact ⟨b, c₂, hx, ih b hq⟩
  | call r own k ih =>
    cases own with
    | none =>
      obtain ⟨b, c₂, hr, hq⟩ := hq
      exact ⟨b, c₂, hr, ih b hq⟩
    | some own =>
      obtain ⟨b, c₂, hr, hq⟩ := hq
      exact ⟨b, c₂, hr, ih b hq⟩

theorem map {q : Code β} {f : β → α} (hq : q.Gives c b c') : (f <$> q).Gives c (f b) c' :=
  hq.bind done

end Code.Gives

theorem Nonterminal.Gives.of_code {r : Nonterminal} {a : r.Result} (h : r.code.Gives c a c') :
    r.Gives c a c' := by
  obtain ⟨n, hn⟩ := h.eventually
  exact ⟨n + 1, by rw [read_succ, hn n (Nat.le_refl n)]⟩

end RaiseScript
