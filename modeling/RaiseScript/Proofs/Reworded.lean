import RaiseScript.Proofs.Reparsed

/-!
# Trees with the same text

The places of a tree and the braces that the printer adds do not show in its text
(`writeLines_bare`). A number may be read as another one, or as a name. The pieces of the tree with
the numbers as they are read are the pieces as they are read (`writeLines_reread`), and such a tree
is as clean as the one that was written.
-/

namespace RaiseScript

open Piece

/-! ## Places do not matter for the text -/

section

-- Derives the equations of the walk once, ahead of the lemmas that unfold it.
attribute [local simp] Expr.bare bareExprs Func.bare Stmt.bare bareDecls bareCases
  bareHandler bareBlock bareStmts

section
variable (braces : Bool)

@[simp] theorem Expr.strength_bare (e : Expr) : (e.bare braces).strength = e.strength := by
  unfold Expr.bare
  split <;> rfl

@[simp] theorem LogicalOp.mixes_bare (op : LogicalOp) (e : Expr) : op.mixes (e.bare braces) = op.mixes e := by
  unfold Expr.bare
  split <;> rfl

@[simp] theorem Expr.isNegation_bare (e : Expr) : (e.bare braces).isNegation = e.isNegation := by
  unfold Expr.bare
  split <;> first | rfl | skip
  rename_i op _
  cases op <;> rfl

@[simp] theorem Func.form_bare (f : Func) : (f.bare braces).form = f.form := by
  unfold Func.bare
  split <;> rfl

@[simp] theorem Expr.isFunctionWord_bare (e : Expr) : (e.bare braces).isFunctionWord = e.isFunctionWord := by
  unfold Expr.bare
  split <;> simp [Expr.isFunctionWord]

@[simp] theorem Stmt.isBlock_bare (s : Stmt) : (s.bare braces).isBlock = s.isBlock := by
  unfold Stmt.bare
  split <;> rfl

@[simp] theorem Stmt.isBranch_bare (s : Stmt) : (s.bare braces).isBranch = s.isBranch := by
  unfold Stmt.bare
  split <;> rfl

end

/-- The pieces of a body, with braces around it if it needs them. -/
def writeBody (depth : Nat) (fine : Stmt → Bool) (s : Stmt) : List Piece :=
  if fine s then s.write depth else braced depth (lineOf (depth + 1) (s.write (depth + 1)))

/-- A body is written between braces whether they are in the tree or not. -/
theorem writeBody_bare (fine : Stmt → Bool) (hblock : ∀ body span, fine (.block body span) = true)
    {braces : Bool} {s : Stmt} (hs : fine (s.bare braces) = fine s)
      (ih : ∀ depth, (s.bare braces).write depth = s.write depth)
    (depth : Nat) :
    writeBody depth fine (if braces && !fine s then .block [s.bare braces] .none
      else s.bare braces) = writeBody depth fine s := by
  cases hf : fine s with
  | true => simp [writeBody, hf, hs, ih]
  | false =>
    cases braces with
    | false => simp [writeBody, hf, hs, ih]
    | true => simp [writeBody, hf, hblock, Stmt.write, writeLines, ih]

section

attribute [local simp] Expr.write writeList Func.write Stmt.write writeDecls writeCases writeHandler
  writeFinalizer writeLines

theorem Phrase.write_bare (braces : Bool) (p : Phrase) (depth : Nat) :
    (p.bare braces).write depth = p.write depth := by
  have hbody {s : Stmt} (hs : ∀ depth, (Phrase.stmt (s.bare braces)).write depth = (Phrase.stmt s).write depth) :=
    writeBody_bare Stmt.isBlock (fun _ _ => rfl) (Stmt.isBlock_bare braces s) fun depth =>
      List.singleton_inj.1 (hs depth)
  induction p generalizing depth with
  | branch _ _ _ ha hb | loop _ _ _ ha hb =>
    have hyes := hbody hb depth
    simp only [writeBody] at hyes
    simp_all
  | branchElse _ _ _ _ ha hb hc =>
    have hyes := hbody hb depth
    have hno := writeBody_bare (fun s => s.isBlock || s.isBranch) (fun _ _ => rfl) (by simp)
      (fun depth => List.singleton_inj.1 (hc depth)) depth
    simp only [writeBody] at hyes hno
    simp_all
  | handler param => cases param <;> simp_all
  | _ => simp_all

theorem writeLines_bare (braces : Bool) (ss : List Stmt) (depth : Nat) :
    writeLines depth (bareStmts braces ss) = writeLines depth ss :=
  List.singleton_inj.1 (Phrase.write_bare braces (.stmts ss) depth)

end

/-! ## Places do not matter for what a tree is made of -/

theorem standard_body_bare {braces : Bool} (fine : Stmt → Bool) {s : Stmt}
    (ih : Standard ((s.bare braces).walk .all) ↔ Standard (s.walk .all)) :
    Standard ((if braces && !fine s then Stmt.block [s.bare braces] .none else s.bare braces).walk
      .all) ↔ Standard (s.walk .all) := by
  split
  · simp [Stmt.walk, walkStmts, Visit.extension?, ih]
  · exact ih

section

attribute [local simp] Expr.walk walkExprs Func.walk Stmt.walk walkDecls walkCases
  walkHandler walkBlock walkStmts Visit.extension?

theorem Phrase.standard_bare (braces : Bool) (p : Phrase) :
    Standard ((p.bare braces).walk .all) ↔ Standard (p.walk .all) := by
  induction p with
  | branch _ _ _ ha hb | loop _ _ _ ha hb => simpa using and_congr ha (standard_body_bare Stmt.isBlock hb)
  | branchElse _ _ _ _ ha hb hc =>
    simpa using and_congr ha (and_congr (standard_body_bare Stmt.isBlock hb)
      (standard_body_bare (fun s => s.isBlock || s.isBranch) hc))
  | _ => simp_all

theorem standard_bareStmts (braces : Bool) (ss : List Stmt) :
    Standard (walkStmts .all (bareStmts braces ss)) ↔ Standard (walkStmts .all ss) :=
  Phrase.standard_bare braces (.stmts ss)

end

end

/-! ## Numbers as they are read -/

/-- What a number in a tree is read as. -/
def rereadNumber (x : Float) : Expr :=
  if magnitudeBits x = infinityBits then .ident "Infinity"
  else .number (floatOfBits false (rereadBits (magnitudeBits x)))

mutual

/-- An expression with its numbers as they are read. -/
def Expr.reread : Expr → Expr
  | .number x => rereadNumber x
  | .string s => .string s
  | .bool b => .bool b
  | .null => .null
  | .undefined => .undefined
  | .this => .this
  | .ident x => .ident x
  | .array items => .array (rereadExprs items)
  | .unary op a => .unary op a.reread
  | .binary op a b => .binary op a.reread b.reread
  | .logical op a b => .logical op a.reread b.reread
  | .assign a b => .assign a.reread b.reread
  | .member o p => .member o.reread p
  | .index o i => .index o.reread i.reread
  | .call f args => .call f.reread (rereadExprs args)
  | .await a => .await a.reread
  | .yield none d => .yield none d
  | .yield (some a) d => .yield (some a.reread) d
  | .func f => .func f.reread
  | .attempt t => .attempt t

/-- Expressions with their numbers as they are read. -/
def rereadExprs : List Expr → List Expr
  | [] => []
  | e :: es => e.reread :: rereadExprs es

/-- A function with its numbers as they are read. -/
def Func.reread : Func → Func
  | ⟨name, params, .block body, isAsync, form, span⟩ =>
    ⟨name, params, .block (rereadStmts body), isAsync, form, span⟩
  | ⟨name, params, .expr value, isAsync, form, span⟩ =>
    ⟨name, params, .expr value.reread, isAsync, form, span⟩

/-- A statement with its numbers as they are read. -/
def Stmt.reread : Stmt → Stmt
  | .declare kind ds span => .declare kind (rereadDecls ds) span
  | .expr e span => .expr e.reread span
  | .block body span => .block (rereadStmts body) span
  | .branch test yes none span => .branch test.reread yes.reread none span
  | .branch test yes (some no) span => .branch test.reread yes.reread (some no.reread) span
  | .loop test body span => .loop test.reread body.reread span
  | .switch subject cs span => .switch subject.reread (rereadCases cs) span
  | .jump kind span => .jump kind span
  | .ret none span => .ret none span
  | .ret (some e) span => .ret (some e.reread) span
  | .throw e span => .throw e.reread span
  | .guarded body handler finalizer span =>
    .guarded (rereadStmts body) (rereadHandler handler) (rereadBlock finalizer) span
  | .func f => .func f.reread
  | .raise id e span => .raise id e.reread span

/-- Declarators with their numbers as they are read. -/
def rereadDecls : List Declarator → List Declarator
  | [] => []
  | ⟨x, none⟩ :: ds => ⟨x, none⟩ :: rereadDecls ds
  | ⟨x, some e⟩ :: ds => ⟨x, some e.reread⟩ :: rereadDecls ds

/-- Cases with their numbers as they are read. -/
def rereadCases : List Case → List Case
  | [] => []
  | ⟨none, body⟩ :: cs => ⟨none, rereadStmts body⟩ :: rereadCases cs
  | ⟨some test, body⟩ :: cs => ⟨some test.reread, rereadStmts body⟩ :: rereadCases cs

/-- A catch clause with its numbers as they are read. -/
def rereadHandler : Option Handler → Option Handler
  | none => none
  | some ⟨x, body⟩ => some ⟨x, rereadStmts body⟩

/-- A block with its numbers as they are read. -/
def rereadBlock : Option (List Stmt) → Option (List Stmt)
  | none => none
  | some body => some (rereadStmts body)

/-- Statements with their numbers as they are read. -/
def rereadStmts : List Stmt → List Stmt
  | [] => []
  | s :: ss => s.reread :: rereadStmts ss

end

/-- A phrase with its numbers as they are read. -/
@[simp] def Phrase.reread : Phrase → Phrase
  | .expr e => .expr e.reread
  | .exprs es => .exprs (rereadExprs es)
  | .func f => .func f.reread
  | .attempt t => .attempt t
  | .stmt s => .stmt s.reread
  | .decls ds => .decls (rereadDecls ds)
  | .cases cs => .cases (rereadCases cs)
  | .handler h => .handler (rereadHandler h)
  | .block b => .block (rereadBlock b)
  | .stmts ss => .stmts (rereadStmts ss)

section

attribute [local simp] Expr.reread rereadExprs Func.reread Stmt.reread rereadDecls
  rereadCases rereadHandler rereadBlock rereadStmts

@[simp] theorem Expr.strength_reread (e : Expr) : e.reread.strength = e.strength := by
  unfold Expr.reread
  split <;> first | rfl | (unfold rereadNumber; split <;> rfl)

@[simp] theorem LogicalOp.mixes_reread (op : LogicalOp) (e : Expr) : op.mixes e.reread = op.mixes e := by
  unfold Expr.reread
  split <;> first | rfl | (unfold rereadNumber; split <;> rfl)

@[simp] theorem Expr.isNegation_reread (e : Expr) : e.reread.isNegation = e.isNegation := by
  unfold Expr.reread
  split
  case h_9 op _ => cases op <;> rfl
  all_goals first | rfl | (unfold rereadNumber; split <;> rfl)

@[simp] theorem Func.form_reread (f : Func) : f.reread.form = f.form := by
  unfold Func.reread
  split <;> rfl

@[simp] theorem Func.name_reread (f : Func) : f.reread.name = f.name := by
  unfold Func.reread
  split <;> rfl

@[simp] theorem Expr.isFunctionWord_reread (e : Expr) : e.reread.isFunctionWord = e.isFunctionWord := by
  unfold Expr.reread
  split <;> first | rfl | (unfold rereadNumber; split <;> rfl) | simp [Expr.isFunctionWord]

@[simp] theorem Stmt.isBlock_reread (s : Stmt) : s.reread.isBlock = s.isBlock := by
  unfold Stmt.reread
  split <;> rfl

@[simp] theorem Stmt.isBranch_reread (s : Stmt) : s.reread.isBranch = s.isBranch := by
  unfold Stmt.reread
  split <;> rfl

/-! ### The pieces -/

section

@[simp] theorem Piece.reread_word (w : String) : (word w).reread = word w := rfl

@[simp] theorem Piece.reread_mark (m : Mark) : (mark m).reread = mark m := rfl

@[simp] theorem Piece.reread_gap (cs : List Char) : (Piece.gap cs).reread = .gap cs := rfl

@[simp] theorem map_reread_wrap (needed : Bool) (ps : List Piece) :
    (wrap needed ps).map Piece.reread = wrap needed (ps.map Piece.reread) := by
  cases needed <;> simp [wrap]

@[simp] theorem map_reread_commas (qs : List (List Piece)) :
    (commas qs).map Piece.reread = commas (qs.map (List.map Piece.reread)) := by
  fun_induction commas qs with
  | case1 => rfl
  | case2 => rfl
  | case3 ps qs rest ih => simp_all [commas]

@[simp] theorem map_reread_lineOf (depth : Nat) (ps : List Piece) :
    (lineOf depth ps).map Piece.reread = lineOf depth (ps.map Piece.reread) := by
  simp [lineOf]

@[simp] theorem map_reread_braced (depth : Nat) (lines : List Piece) :
    (braced depth lines).map Piece.reread = braced depth (lines.map Piece.reread) := by
  unfold braced
  split <;> simp_all

@[simp] theorem map_reread_pieces (op : UnaryOp) : op.pieces.map Piece.reread = op.pieces := by
  cases op <;> rfl

@[simp] theorem map_reread_headerPieces (name : Option String) (params : List String)
    (isAsync : Bool) (form : FuncForm) : (headerPieces name params isAsync form).map Piece.reread =
      headerPieces name params isAsync form := by
  cases form <;> cases isAsync <;> cases name <;> simp [headerPieces, Function.comp_def]

theorem write_rereadNumber (depth : Nat) (x : Float) :
    (rereadNumber x).write depth = [Piece.reread (.token (.number x))] := by
  unfold rereadNumber
  split <;> simp_all [Expr.write, Piece.reread, Token.reread]

attribute [local simp] Expr.write writeList Func.write Stmt.write writeDecls writeCases writeHandler
  writeFinalizer writeLines write_rereadNumber

theorem Phrase.write_reread (p : Phrase) (depth : Nat) :
    p.reread.write depth = (p.write depth).map (List.map Piece.reread) := by
  induction p generalizing depth with
  | string => rfl
  | yieldNone d => cases d <;> simp
  | yield _ d => cases d <;> simp_all
  | branch | branchElse | loop => simp_all [apply_ite (List.map Piece.reread)]
  | handler param => cases param <;> simp_all
  | _ => simp_all

theorem writeLines_reread (ss : List Stmt) (depth : Nat) :
    writeLines depth (rereadStmts ss) = (writeLines depth ss).map Piece.reread :=
  List.singleton_inj.1 (Phrase.write_reread (.stmts ss) depth)

end

/-! ### The spelling -/

theorem rereadDecls_eq_map (ds : List Declarator) :
    rereadDecls ds = ds.map fun d => ⟨d.name, d.init.map Expr.reread⟩ := by
  induction ds with
  | nil => rfl
  | cons d ds ih =>
    obtain ⟨x, _ | e⟩ := d <;> simp [rereadDecls, ih]

theorem countP_rereadCases (cs : List Case) :
    (rereadCases cs).countP (·.test.isNone) = cs.countP (·.test.isNone) := by
  induction cs with
  | nil => rfl
  | cons c cs ih =>
    obtain ⟨_ | e, body⟩ := c <;> simp [rereadCases, ih]

theorem Expr.isTarget_reread {e : Expr} (h : e.isTarget = true) : e.reread.isTarget = true := by
  cases e <;> simp_all [Expr.isTarget, Expr.reread]

/-- The spelling allows what numbers are read as. -/
structure Spelling.Rereads (sp : Spelling) : Prop where
  infinity : sp.name "Infinity"
  number : ∀ x, sp.number x → sp.number (floatOfBits false (rereadBits (magnitudeBits x)))

section
variable {sp : Spelling}

theorem clean_rereadNumber (hsp : sp.Rereads) {x : Float} (hx : sp.number x) :
    Clean sp ((rereadNumber x).walk .all) := by
  unfold rereadNumber
  split
  · simp [Expr.walk, Visit.Clean, Visit.extension?, Visit.Spelled, hsp.infinity]
  · simp [Expr.walk, Visit.Clean, Visit.extension?, Visit.Spelled, hsp.number x hx]

attribute [local simp] Expr.walk walkExprs Func.walk Stmt.walk walkDecls walkCases
  walkHandler walkBlock walkStmts Visit.Clean Visit.extension? Visit.Spelled Reach.all

theorem Phrase.clean_reread (hsp : sp.Rereads) (p : Phrase) (h : Clean sp (p.walk .all)) :
    Clean sp (p.reread.walk .all) := by
  induction p with
  | number x => exact clean_rereadNumber hsp (by simpa using h)
  | assign => simp_all [Expr.isTarget_reread]
  | attempt => exact h
  | clauses => exact h
  | declare => simp_all [rereadDecls_eq_map]
  | switch => simp_all [countP_rereadCases]
  | guarded _ handler finalizer =>
    obtain _ | ⟨_, _⟩ := handler <;> obtain _ | _ := finalizer <;> simp_all
  | _ => simp_all

end

end

end RaiseScript
