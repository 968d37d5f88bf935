import RaiseScript.Proofs.Restated
import RaiseScript.Proofs.Spelled

/-!
# Written trees are read back

Every clean tree is read back from the pieces that are written for it. The parentheses that the
printer adds are the ones that a rule needs to come to the same tree (`Readable`).
-/

namespace RaiseScript

variable {ps : List Piece} {s : Stmt} {l : Level} {needed : Bool} {e : Expr} {depth : Nat}

open Piece
open RaiseScript.Parser

/-! ## Parentheses come in pairs -/

@[simp] theorem passes_wrap {ps : List Piece} (needed : Bool) (h : Passes (tokensOf ps)) :
    Passes (tokensOf (wrap needed ps)) := by
  cases needed <;> simp [wrap, h]

@[simp] theorem passes_braced {ps : List Piece} (depth : Nat) (h : Passes (tokensOf ps)) :
    Passes (tokensOf (braced depth ps)) := by
  unfold braced
  split <;> simp [h]

@[simp] theorem passes_lineOf {ps : List Piece} (depth : Nat) :
    Passes (tokensOf (lineOf depth ps)) ↔ Passes (tokensOf ps) := by
  simp [lineOf]

@[simp] theorem passes_word_parens (w : String) {ts : List Token} :
    Passes (.mark .leftParen :: .word w :: .mark .rightParen :: ts) ↔ Passes ts :=
  @Passes.parens_iff [.word w] ts (by simp)

@[simp] theorem passes_binary (op : BinaryOp) {ts : List Token} : Passes (.mark op.mark :: ts) ↔ Passes ts := by
  cases op <;> simp [BinaryOp.mark]

@[simp] theorem passes_logical (op : LogicalOp) {ts : List Token} : Passes (.mark op.mark :: ts) ↔ Passes ts := by
  cases op <;> simp [LogicalOp.mark]

theorem header_plain (called : Option String) (xs : List String) (isAsync : Bool) (ps : List Piece) :
    headerPieces called xs isAsync .plain ++ ps = functionPieces isAsync false called xs ps := by
  simp [headerPieces, functionPieces, calledPieces, namePieces]

theorem header_generator (called : Option String) (xs : List String) (isAsync : Bool) (ps : List Piece) :
    headerPieces called xs isAsync .generator ++ ps = functionPieces isAsync true called xs ps := by
  simp [headerPieces, functionPieces, calledPieces, namePieces]

theorem header_arrow (called : Option String) (xs : List String) (isAsync : Bool) (ps : List Piece) :
    headerPieces called xs isAsync .arrow ++ ps = arrowPieces isAsync xs ps := by
  simp [headerPieces, arrowPieces, namePieces]

theorem passes_header (called : Option String) (xs : List String) (isAsync : Bool) (form : FuncForm)
    (h : Passes (tokensOf ps)) : Passes (tokensOf (headerPieces called xs isAsync form ++ ps)) := by
  have hxs := passes_namePieces xs
  have hcalled (generator : Bool) := passes_calledPieces generator called
  cases form with
  | plain => cases isAsync <;> simp [header_plain, functionPieces, hxs, hcalled, h]
  | generator => cases isAsync <;> simp [header_generator, functionPieces, hxs, hcalled, h]
  | arrow => cases isAsync <;> simp [header_arrow, arrowPieces, hxs, h]

theorem passes_body (h : ∀ depth, Passes (tokensOf (s.write depth))) (own : Prop)
    [Decidable own] (depth : Nat) :
    Passes (tokensOf
      (if own then s.write depth else braced depth (lineOf (depth + 1) (s.write (depth + 1))))) := by
  split <;> simp [h]

section

attribute [local simp] Expr.write writeList Func.write Stmt.write writeDecls writeCases writeHandler
  writeFinalizer writeLines passes_body

/-- In every text that is written, parentheses come in pairs. -/
theorem Phrase.passes (p : Phrase) (depth : Nat) : ∀ ps ∈ p.write depth, Passes (tokensOf ps) := by
  induction p generalizing depth with
  | array items ih => simp [@passes_commas (writeList depth items) (ih depth)]
  | declare _ ds _ ih => simp [@passes_commas (writeDecls depth ds) (ih depth)]
  | unary op => cases op <;> simp_all [UnaryOp.pieces]
  | call _ args _ hargs => simp_all [@passes_commas (writeList depth args) (hargs depth)]
  | yieldNone d | yield _ d => cases d <;> simp_all
  | consExprs _ _ he hes | consDecls _ _ _ he hes => simpa using ⟨he depth _ List.mem_cons_self, hes depth⟩
  | bareDecl _ _ ih => simpa using ih depth
  | funcBlock name xs _ isAsync form _ ih =>
    have h := passes_braced depth (ih (depth + 1) _ List.mem_cons_self)
    simpa using passes_header name xs isAsync form h
  | funcExpr name xs _ isAsync form _ ih =>
    simpa using passes_header name xs isAsync form (ih depth _ List.mem_cons_self)
  | handler param => cases param <;> simp_all
  | _ => simp_all

end

/-! ## Expressions by strength -/

/-- The pieces of `e` are read back by every rule that its strength allows. -/
structure Readable (ps : List Piece) (e : Expr) : Prop where
  passes : Passes (tokensOf ps)
  whole : Whole ps e
  atLevel {l : Level} : l.rank ≤ e.strength → AtLevel l ps e
  operand : 9 ≤ e.strength → Operand ps e
  suffixable : 10 ≤ e.strength → Suffixable ps e

theorem Level.exists_tighter (h : l.rank < 8) : ∃ l', l.tighter = some l' := by
  cases l with
  | product => simp [Level.rank] at h
  | _ => exact ⟨_, rfl⟩

theorem Level.eq_of_rank {l' : Level} (h : l.rank = l'.rank) : l = l' := by
  cases l <;> cases l' <;> first | rfl | cases h

/-- What is read at a level is read at the looser ones. -/
theorem AtLevel.looser (h : AtLevel l ps e) : ∀ (k : Nat) {l' : Level}, l'.rank + k = l.rank →
    AtLevel l' ps e := by
  intro k
  induction k with
  | zero =>
    intro l' hk
    exact Level.eq_of_rank hk ▸ h
  | succ k ih =>
    intro l' hk
    have hle := l.rank_le
    obtain ⟨l'', hl''⟩ := Level.exists_tighter (l := l') (by omega)
    have hrank := Level.rank_tighter hl''
    have h'' : AtLevel l'' ps e := ih (by omega)
    exact (h''.inLooser hl'').atLevel h''.opens h''.calm

theorem Operand.atLevel (h : Operand ps e) (l : Level) : AtLevel l ps e := by
  have hle := l.rank_le
  exact (h.inProduct.atLevel h.opens h.calm).looser (8 - l.rank) (by change _ = 8; omega)

theorem Suffixable.readable (h : Suffixable ps e) (hp : Passes (tokensOf ps)) : Readable ps e where
  passes := hp
  whole := (h.operand.atLevel .nullish).whole
  atLevel _ := h.operand.atLevel _
  operand _ := h.operand
  suffixable _ := h

theorem Operand.readable (h : Operand ps e) (hp : Passes (tokensOf ps)) (hs : e.strength = 9) :
    Readable ps e where
  passes := hp
  whole := (h.atLevel .nullish).whole
  atLevel _ := h.atLevel _
  operand _ := h
  suffixable hs' := by omega

theorem AtLevel.readable (h : AtLevel l ps e) (hp : Passes (tokensOf ps))
    (hs : e.strength = l.rank) : Readable ps e where
  passes := hp
  whole := by
    have hle := l.rank_le
    exact (h.looser (l.rank - 2) (by change 2 + _ = _; omega)).whole
  atLevel {l'} hl' := h.looser (l.rank - l'.rank) (by omega)
  operand hs' := by have := l.rank_le; omega
  suffixable hs' := by have := l.rank_le; omega

theorem Whole.readable (h : Whole ps e) (hp : Passes (tokensOf ps)) (hs : e.strength = 1) : Readable ps e where
  passes := hp
  whole := h
  atLevel {l} hl := by have := l.rank_le; omega
  operand hs' := by omega
  suffixable hs' := by omega

namespace Readable

theorem wrapped (h : Readable ps e) : Suffixable (wrap true ps) e :=
  h.whole.wrapped h.passes

theorem wrapSuffixable (h : Readable ps e) : Suffixable (wrap (e.strength < 10) ps) e := by
  by_cases hs : e.strength < 10
  · rw [decide_eq_true hs]
    exact h.wrapped
  · rw [decide_eq_false hs]
    exact h.suffixable (by omega)

theorem wrapOperand (h : Readable ps e) {t : Nat} (ht : 9 ≤ t) : Operand (wrap (e.strength < t) ps) e := by
  by_cases hs : e.strength < t
  · rw [decide_eq_true hs]
    exact h.wrapped.operand
  · rw [decide_eq_false hs]
    exact h.operand (by omega)

theorem wrapAtLevel (h : Readable ps e) (hn : needed = false → l.rank ≤ e.strength) :
    AtLevel l (wrap needed ps) e := by
  cases needed with
  | true => exact h.wrapped.operand.atLevel l
  | false => exact h.atLevel (hn rfl)

theorem wrapInLevel (h : Readable ps e) (hn : needed = false → l.rank + 1 ≤ e.strength) :
    InLevel l (wrap needed ps) e := by
  have hle := l.rank_le
  rcases Nat.lt_or_ge l.rank 8 with hlt | hge
  · obtain ⟨l', hl'⟩ := Level.exists_tighter hlt
    have hrank := Level.rank_tighter hl'
    exact (h.wrapAtLevel (l := l') fun hne => by have := hn hne; omega).inLooser hl'
  · obtain rfl : l = .product := Level.eq_of_rank (by change _ = 8; omega)
    cases needed with
    | true => exact h.wrapped.operand.inProduct
    | false => exact (h.operand (hn rfl)).inProduct

end Readable

theorem BinaryOp.exists_level (op : BinaryOp) :
    ∃ l : Level, l.join? op.mark = some (.binary op) ∧ l.rank = op.strength := by
  cases op with
  | add | subtract => exact ⟨.sum, rfl, rfl⟩
  | multiply | divide | remainder => exact ⟨.product, rfl, rfl⟩
  | equal | notEqual | strictEqual | strictNotEqual => exact ⟨.equality, rfl, rfl⟩
  | less | lessEqual | greater | greaterEqual => exact ⟨.order, rfl, rfl⟩

theorem LogicalOp.exists_level (op : LogicalOp) :
    ∃ l : Level, l.join? op.mark = some (.logical op) ∧ l.rank = op.strength := by
  cases op with
  | and => exact ⟨.and, rfl, rfl⟩
  | or => exact ⟨.or, rfl, rfl⟩
  | nullish => exact ⟨.nullish, rfl, rfl⟩

/-! ## The start of a statement -/

theorem noFunction_cons {t : Token} (ts : List Token) (hf : t.isWord "function" = false)
    (ha : t.isWord "async" = false) : NoFunction (t :: ts) := by
  refine ⟨hf, fun h => ?_⟩
  rw [List.headD_cons, ha] at h
  cases h

/-- The tokens start no function, whatever mark comes behind them. -/
def Functionless (ts : List Token) : Prop :=
  ∀ m us, NoFunction (ts ++ .mark m :: us)

theorem functionless_wrap (h : needed = false → Functionless (tokensOf ps)) :
    Functionless (tokensOf (wrap needed ps)) := by
  cases needed with
  | false => exact h rfl
  | true => exact fun _ _ => noFunction_cons _ rfl rfl

theorem Functionless.append {ts : List Token} (h : Functionless ts) (m : Mark) (us : List Token) :
    Functionless (ts ++ .mark m :: us) := by
  intro m' us'
  rw [List.append_assoc]
  exact h m _

theorem Expr.isFunctionWord_of_strength (h : 2 ≤ e.strength) : e.isFunctionWord = false := by
  cases e with
  | func f => simp [Expr.strength] at h
  | _ => rfl

/-- Only names that may stand in a text are names of the spelling. -/
def Spelling.Unreserved (sp : Spelling) : Prop :=
  ∀ x, sp.name x → isReserved x = false

section
variable {sp : Spelling}

theorem BinaryOp.two_le_strength (op : BinaryOp) : 2 ≤ op.strength := by
  cases op <;> decide

theorem LogicalOp.two_le_strength (op : LogicalOp) : 2 ≤ op.strength := by
  cases op <;> decide

/-- What is written in front of a mark starts no function: one that does is weak, and in
parentheses. -/
theorem Functionless.left {m : Mark} {us : List Token}
    (h : e.isFunctionWord = false → Functionless (tokensOf (e.write depth)))
    (hn : needed = false → 2 ≤ e.strength) (hps : tokensOf ps = .mark m :: us) :
    Functionless (tokensOf (wrap needed (e.write depth) ++ ps)) := by
  rw [tokensOf_append, hps]
  exact (functionless_wrap fun hw => h (Expr.isFunctionWord_of_strength (hn hw))).append m us

theorem Expr.functionless (hsp : sp.Unreserved) (depth : Nat) : ∀ e : Expr, Clean sp (e.walk .all) →
    e.isFunctionWord = false → Functionless (tokensOf (e.write depth))
  | .number _, _, _ | .string _, _, _ | .array _, _, _ | .attempt _, _, _ => fun _ _ => noFunction_cons _ rfl rfl
  | .bool b, _, _ => fun _ _ => by cases b <;> exact noFunction_cons _ (by decide) (by decide)
  | .null, _, _ | .undefined, _, _ | .this, _, _ | .await _, _, _ | .yield none _, _,
      _ | .yield (some _) _, _, _ =>
    fun _ _ => noFunction_cons _ (by decide) (by decide)
  | .ident x, h, _ => fun _ _ => by
    simp only [Expr.walk, clean_cons] at h
    have hx := hsp x h.1.2
    refine ⟨?_, fun _ => rfl⟩
    rw [isReserved] at hx
    simp only [reservedWords, List.contains_cons, Bool.or_eq_false_iff] at hx
    simp [Expr.write, Token.isWord, hx]
  | .unary op _, _, _ => fun _ _ => by
    cases op with
    | typeName => exact noFunction_cons _ (by decide) (by decide)
    | _ => exact noFunction_cons _ rfl rfl
  | .binary op a b, h, _ => by
    simp only [Expr.walk, clean_cons, clean_append] at h
    have hop := op.two_le_strength
    exact .left (Expr.functionless hsp depth a h.2.1) (fun hw => by have := of_decide_eq_false hw; omega) rfl
  | .logical op a b, h, _ => by
    simp only [Expr.walk, clean_cons, clean_append] at h
    have hop := op.two_le_strength
    refine .left (Expr.functionless hsp depth a h.2.1) (fun hw => ?_) rfl
    have := of_decide_eq_false (Bool.or_eq_false_iff.1 hw).2
    omega
  | .assign a _, h, _ | .index a _, h, _ | .call a _, h, _ => by
    simp only [Expr.walk, clean_cons, clean_append] at h
    exact .left (Expr.functionless hsp depth a h.2.1) (fun hw => by have := of_decide_eq_false hw; omega) rfl
  | .member o _, h, _ => by
    simp only [Expr.walk, clean_cons] at h
    rw [Expr.write]
    exact .left (Expr.functionless hsp depth o h.2) (fun hw => by have := of_decide_eq_false hw; omega) rfl
  | .func f, _, hf => by
    obtain ⟨name, xs, body, isAsync, form, span⟩ := f
    obtain rfl : form = .arrow := by simpa [Expr.isFunctionWord] using hf
    cases body <;> cases isAsync <;> rw [Expr.write, Func.write, header_arrow] <;> intro m us
    · exact noFunction_cons _ rfl rfl
    · exact ⟨by simp [arrowPieces, Token.isWord], fun _ => rfl⟩
    · exact noFunction_cons _ rfl rfl
    · exact ⟨by simp [arrowPieces, Token.isWord], fun _ => rfl⟩

/-! ## Trees -/

theorem nextToken_lines (h : Stated ps s) (depth : Nat) (qs : List Piece) :
    ∀ w ∈ clauseWords, ∀ rest, (nextToken (lineOf depth ps ++ qs ++ rest)).isWord w = false := by
  obtain ⟨t, ts, rfl, ht⟩ := h.starts
  exact fun w hw _ => Token.starts_apart ht hw

/-- A body that is a block, and another one in braces. -/
theorem body_of_stated (hblock : ∀ {body sp}, s = .block body sp → Blocked (s.write depth) body)
    (hline : Stated (s.write (depth + 1)) s) :
    Body (if s.isBlock then s.write depth else braced depth (lineOf (depth + 1) (s.write (depth + 1)))) s where
  blocked := by
    cases hs : s.isBlock with
    | true =>
      cases s with
      | block body sp => exact ⟨body, hblock rfl, by rw [Stmt.bare]; rfl⟩
      | _ => cases hs
    | false =>
      have hlines : Lined (lineOf (depth + 1) (s.write (depth + 1))) [s] := by
        simpa using hline.lined lined_nil (Or.inl rfl) (depth + 1)
      exact ⟨[s], hlines.blocked depth, rfl⟩

/-- What follows an `else`: blocks and branches as they are, other statements in braces. -/
theorem readsAs_else (hs : Stated (s.write depth) s) (hline : Stated (s.write (depth + 1)) s) :
    ReadsAs (if s.isBlock || s.isBranch then s.write depth
        else braced depth (lineOf (depth + 1) (s.write (depth + 1))))
      (if !(s.isBlock || s.isBranch) then .block [s.bare true] .none else s.bare true) := by
  cases hkind : s.isBlock || s.isBranch with
  | true => exact hs.reads
  | false =>
    have hlines : Lined (lineOf (depth + 1) (s.write (depth + 1))) [s] := by
      simpa using hline.lined lined_nil (Or.inl rfl) (depth + 1)
    exact fun {_ _ _} hc _ => (hlines.blocked depth).statement hc

theorem Func.readable {name : Option String} {xs : List String} {body : List Stmt} {isAsync : Bool}
    {form : FuncForm}
    {span : Span} (depth : Nat) (hxs : ∀ x ∈ xs, isReserved x = false) (hname : ∀ x ∈ name, isReserved x = false)
    (harrow : form = .arrow → name = none) (hb : Blocked (braced depth (writeLines (depth + 1) body)) body) :
    Readable (Func.write depth ⟨name, xs, .block body, isAsync, form, span⟩)
      (.func ⟨name, xs, .block body, isAsync, form, span⟩) := by
  have hp := (Phrase.func ⟨name, xs, .block body, isAsync, form, span⟩).passes depth _ List.mem_cons_self
  rw [Func.write] at hp ⊢
  cases form with
  | plain =>
    rw [header_plain] at hp ⊢
    exact (suffixable_function hname hxs hb span isAsync false).readable hp
  | generator =>
    rw [header_generator] at hp ⊢
    exact (suffixable_function hname hxs hb span isAsync true).readable hp
  | arrow =>
    rw [header_arrow] at hp ⊢
    obtain rfl : name = none := harrow rfl
    exact (hb.arrow hxs isAsync span).readable hp rfl

variable (sp) in
/-- The phrase is read back from what is written for it, if the names that it binds are spelled. -/
def Phrase.ReadBack (depth : Nat) : Phrase → Prop
  | .expr e => Readable (e.write depth) e
  | .exprs es => List.Forall₂ Whole (writeList depth es) es
  | .func f => Readable (f.write depth) (.func f) ∧
    ((Visit.stmt (.func f)).Clean sp → Stated (f.write depth) (.func f))
  | .attempt _ => False
  | .stmt s => Stated (s.write depth) s ∧ ∀ {body span}, s = .block body span → Blocked (s.write depth) body
  | .decls ds => ∀ kind, (∀ d ∈ ds, sp.name d.name ∧ (kind = .constant → d.init.isSome)) →
    List.Forall₂ (Declared kind) (writeDecls depth ds) ds
  | .cases cs => Cased (writeCases depth cs) cs
  | .handler k => (∀ h ∈ k, ∀ x ∈ h.param, sp.name x) → Handled (writeHandler depth k) k
  | .block b => Finished (writeFinalizer depth b) b
  | .stmts ss => Lined (writeLines depth ss) ss ∧
    (writeLines depth ss = [] ∨
      ∀ w ∈ clauseWords, ∀ rest, (nextToken (writeLines depth ss ++ rest)).isWord w = false)

theorem Phrase.readBack (hsp : sp.Unreserved) (p : Phrase) (depth : Nat)
    (h : Clean sp (p.walk .all)) : p.ReadBack sp depth := by
  have hp (depth : Nat) (e : Expr) : Passes (tokensOf (e.write depth)) :=
    (Phrase.expr e).passes depth _ List.mem_cons_self
  induction p generalizing depth with
    (simp only [Phrase.walk, Expr.walk, walkExprs, Func.walk, Reach.functions_all, if_true,
      TryExpr.walk_all, Stmt.walk, walkDecls, walkCases, walkHandler, walkBlock,
      walkStmts, clean_cons, clean_append] at h)
  | number v => exact (suffixable_number v).readable (hp depth (.number v))
  | string s => exact (suffixable_string s).readable (hp depth (.string s))
  | bool b =>
    refine Suffixable.readable ?_ (hp depth (.bool b))
    cases b <;> exact suffixable_constant (by simp)
  | null => exact (suffixable_constant (by simp)).readable (hp depth .null)
  | undefined => exact (suffixable_constant (by simp)).readable (hp depth .undefined)
  | this => exact (suffixable_constant (by simp)).readable (hp depth .this)
  | ident x => exact (suffixable_ident (hsp x h.1.2)).readable (hp depth (.ident x))
  | array items ih => exact (suffixable_array (ih depth h.2)).readable (hp depth (.array items))
  | unary op a ih =>
    refine Operand.readable ?_ (hp depth (.unary op a)) rfl
    refine Operand.unary ((ih depth h.2).wrapOperand ?_) op
    split <;> omega
  | await a ih => exact ((ih depth h.2).wrapOperand (Nat.le_refl 9)).await.readable (hp depth (.await a)) rfl
  | binary op a b ha hb =>
    obtain ⟨l, hjoin, hrank⟩ := op.exists_level
    refine AtLevel.readable (l := l) ?_ (hp depth (.binary op a b)) hrank.symm
    refine AtLevel.join ((ha depth h.2.1).wrapAtLevel fun hw => ?_)
      ((hb depth h.2.2).wrapInLevel fun hw => ?_) hjoin
      fun a' b' ha hb => by rw [Expr.bare, ha, hb, Expr.bare]
    · have := of_decide_eq_false hw
      omega
    · have := of_decide_eq_false hw
      omega
  | logical op a b ha hb =>
    obtain ⟨l, hjoin, hrank⟩ := op.exists_level
    refine AtLevel.readable (l := l) ?_ (hp depth (.logical op a b)) hrank.symm
    refine AtLevel.join ((ha depth h.2.1).wrapAtLevel fun hw => ?_)
      ((hb depth h.2.2).wrapInLevel fun hw => ?_) hjoin
      fun a' b' ha hb => by rw [Expr.bare, ha, hb, Expr.bare]
    · have := of_decide_eq_false (Bool.or_eq_false_iff.1 hw).2
      omega
    · have := of_decide_eq_false (Bool.or_eq_false_iff.1 hw).2
      omega
  | assign a v ha hv =>
    exact (((ha depth h.2.1).wrapSuffixable.operand.atLevel .nullish).assign h.1.2
      (hv depth h.2.2).whole).readable (hp depth (.assign a v)) rfl
  | member o x ih => exact ((ih depth h.2).wrapSuffixable.member x).readable (hp depth (.member o x))
  | index o i ho hi =>
    exact ((ho depth h.2.1).wrapSuffixable.index (hi depth h.2.2).whole).readable (hp depth (.index o i))
  | call f args hf hargs =>
    exact ((hf depth h.2.1).wrapSuffixable.call (hargs depth h.2.2)
      (passes_commas ((Phrase.exprs args).passes depth))).readable (hp depth (.call f args))
  | yieldNone d =>
    obtain rfl : d = false := h.1.2 rfl
    exact whole_yield.readable (hp depth (.yield none false)) rfl
  | yield a d ih => exact ((ih depth h.2).whole.yield d).readable (hp depth (.yield (some a) d)) rfl
  | func f ih => exact (ih depth h.2).1
  | attempt => cases h.2.1.1
  | clauses | raise => cases h.1.1
  | nilExprs => exact .nil
  | consExprs e es he hes => exact .cons (he depth h.1).whole (hes depth h.2)
  | funcBlock name xs body isAsync form span ih =>
    obtain ⟨⟨-, hxs, hname, harrow, -⟩, hbody⟩ := h
    have hblock := (ih (depth + 1) hbody).1.blocked depth
    have hxs' : ∀ x ∈ xs, isReserved x = false := fun x hx => hsp x (hxs x hx)
    refine ⟨Func.readable depth hxs' (fun x hx => hsp x (hname x hx)) harrow hblock, ?_⟩
    rintro ⟨-, hsome, hform⟩
    obtain ⟨x, rfl⟩ := Option.isSome_iff_exists.mp hsome
    rw [Func.write]
    cases form with
    | plain =>
      rw [header_plain]
      exact stated_function (hsp x (hname x rfl)) hxs' hblock span isAsync false
    | generator =>
      rw [header_generator]
      exact stated_function (hsp x (hname x rfl)) hxs' hblock span isAsync true
    | arrow => exact absurd rfl hform
  | funcExpr name xs value isAsync form span ih =>
    obtain ⟨⟨-, hxs, -, harrow, hform⟩, hvalue⟩ := h
    obtain rfl : form = .arrow := hform value rfl
    obtain rfl : name = none := harrow rfl
    have hp := (Phrase.func ⟨none, xs, .expr value, isAsync, .arrow, span⟩).passes depth _ List.mem_cons_self
    refine ⟨?_, fun hs => absurd rfl hs.2.2⟩
    rw [Func.write, header_arrow] at hp ⊢
    exact ((ih depth hvalue).whole.arrow (fun x hx => hsp x (hxs x hx)) isAsync span).readable hp rfl
  | declare kind ds span ih =>
    obtain ⟨⟨-, hne, hds⟩, hvisits⟩ := h
    exact ⟨stated_declare (ih depth hvisits kind hds) hne span, fun h => by cases h⟩
  | exprStmt e span ih =>
    have hr := ih depth h.2
    refine ⟨?_, fun h => by cases h⟩
    cases hf : e.isFunctionWord with
    | true =>
      rw [Stmt.write, hf]
      exact (hr.wrapped.readable (passes_wrap true hr.passes)).whole.stated span fun us =>
        noFunction_cons _ rfl rfl
    | false =>
      rw [Stmt.write, hf]
      exact hr.whole.stated span fun us => Expr.functionless hsp depth e h.2 hf .semicolon us
  | blockStmt body span ih =>
    have hb := (ih (depth + 1) h.2).1.blocked depth
    exact ⟨stated_block hb span, fun heq => by cases heq; exact hb⟩
  | branch test yes span ht hyes =>
    exact ⟨stated_branch (ht depth h.2.1).whole
      (body_of_stated (hyes depth h.2.2).2 (hyes (depth + 1) h.2.2).1) span, fun h => by cases h⟩
  | branchElse test yes no span ht hyes hno =>
    obtain ⟨-, ⟨htest, hy⟩, hn⟩ := h
    exact ⟨stated_branchElse (ht depth htest).whole (body_of_stated (hyes depth hy).2 (hyes (depth + 1) hy).1)
      (readsAs_else (hno depth hn).1 (hno (depth + 1) hn).1) span, fun h => by cases h⟩
  | loop test body span ht hbody =>
    exact ⟨stated_loop (ht depth h.2.1).whole
      (body_of_stated (hbody depth h.2.2).2 (hbody (depth + 1) h.2.2).1) span, fun h => by cases h⟩
  | switch subject cs span hs hcs =>
    exact ⟨stated_switch (hs depth h.2.1).whole (hcs (depth + 1) h.2.2) h.1.2 depth span, fun h => by cases h⟩
  | jump kind span => exact ⟨stated_jump kind span, fun h => by cases h⟩
  | retNone span => exact ⟨stated_return span, fun h => by cases h⟩
  | ret e span ih => exact ⟨(ih depth h.2).whole.stated_return span, fun h => by cases h⟩
  | throw e span ih => exact ⟨(ih depth h.2).whole.stated_throw span, fun h => by cases h⟩
  | guarded body handler finalizer span hb hh hf =>
    obtain ⟨⟨-, hsome, hparam⟩, ⟨hbody, hhandler⟩, hfinalizer⟩ := h
    exact ⟨stated_guarded ((hb (depth + 1) hbody).1.blocked depth) (hh depth hhandler hparam)
      (hf depth hfinalizer) hsome span, fun h => by cases h⟩
  | funcStmt f ih => exact ⟨(ih depth h.2).2 h.1, fun h => by cases h⟩
  | nilDecls => exact fun _ _ => .nil
  | bareDecl x ds ih =>
    intro kind hds
    rw [List.forall_mem_cons] at hds
    exact .cons (.bare (hsp x hds.1.1) fun hk => by simpa using hds.1.2 hk) (ih depth h kind hds.2)
  | consDecls x init ds hinit ih =>
    intro kind hds
    rw [List.forall_mem_cons] at hds
    exact .cons (.init (hsp x hds.1.1) (hinit depth h.1).whole) (ih depth h.2 kind hds.2)
  | nilCases => exact cased_nil
  | defaultCase body cs hb ih => exact .otherwise (hb (depth + 1) h.1).1 (ih depth h.2) depth
  | consCases test body cs ht hb ih =>
    exact .case (ht depth h.1.1).whole (hb (depth + 1) h.1.2).1 (ih depth h.2) depth
  | noHandler => exact fun _ => .none
  | handler param body ih =>
    intro hx
    have hb := (ih (depth + 1) h).1.blocked depth
    cases param with
    | none => exact .plain hb
    | some x => exact .param (hsp x (hx ⟨some x, body⟩ rfl x rfl)) hb
  | noBlock => exact .none
  | finalizer body ih => exact .block ((ih (depth + 1) h).1.blocked depth)
  | nilStmts => exact ⟨lined_nil, .inl rfl⟩
  | consStmts s ss hs hss =>
    obtain ⟨hss, hnext⟩ := hss depth h.2
    exact ⟨(hs depth h.1).1.lined hss hnext depth, .inr (nextToken_lines (hs depth h.1).1 depth _)⟩

end

end RaiseScript
