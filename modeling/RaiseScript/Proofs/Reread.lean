import RaiseScript.Proofs.Lookahead
import RaiseScript.Proofs.Bare
import RaiseScript.Proofs.Headway
import Mathlib.Data.List.Forall2

/-!
# Reading an expression back

The pieces of an expression are read back by the rule for its outermost operator. A rule may go on
behind the expression, since operators of one strength group to the left. So for these rules it is
said where they go on (`LeadsTo`) : after the pieces of `e` the rule for a level stands before
the operators of the level with `e` in its hands. What comes next decides whether it stops there. A
mark has a `Mark.pull`, and it is left alone by all rules for stronger operators.
-/

namespace RaiseScript

variable {m : Mark} {s : Nat} {rest ps : List Piece} {t : Token} {pss : List (List Piece)}
  {es : List Expr} {c' : Cursor} {xs : List String} {body : List Stmt} {called : Option String}

-- derives the equations once, ahead of the lemmas that rewrite by them
attribute [local simp] Expr.bare Func.bare

open Piece

/-! ## Marks behind an expression -/

/-- How strongly a mark binds to an expression before it. -/
def Mark.pull : Mark → Nat
  | .arrow | .leftBrace | .bang => 11
  | .dot | .leftBracket | .leftParen => 10
  | .star | .slash | .percent => 8
  | .plus | .minus => 7
  | .less | .lessEqual | .greater | .greaterEqual => 6
  | .equal | .notEqual | .strictEqual | .strictNotEqual => 5
  | .andAnd => 4
  | .orOr => 3
  | .nullish => 2
  | .assign => 1
  | _ => 0

theorem Level.join?_eq_none {l : Level} (h : m.pull ≠ l.rank) : l.join? m = none := by
  cases l <;> cases m <;> first | rfl | exact absurd rfl h

/-- The pieces start with a mark that binds no more strongly. -/
def Follows (strength : Nat) (rest : List Piece) : Prop :=
  ∃ m, firstToken rest = some (.mark m) ∧ m.pull ≤ strength

theorem Follows.mono {s' : Nat} (h : Follows s rest) (hs : s ≤ s') : Follows s' rest := by
  obtain ⟨m, hm, hp⟩ := h
  exact ⟨m, hm, Nat.le_trans hp hs⟩

theorem tokensOf_of_firstToken (h : firstToken ps = some t) : ∃ us, tokensOf ps = t :: us := by
  induction ps with
  | nil => cases h
  | cons p ps ih =>
    cases p with
    | token t' =>
      cases h
      exact ⟨_, rfl⟩
    | gap cs => exact ih h

theorem Follows.quiet (h : Follows s rest) (hs : s ≤ 9) : Still (tokensOf rest) := by
  obtain ⟨m, hm, hp⟩ := h
  obtain ⟨us, hus⟩ := tokensOf_of_firstToken hm
  rw [hus]
  refine quiet_mark us ?_ ?_ <;> rintro rfl <;> simp [Mark.pull] at hp <;> omega

/-! ## First tokens -/

/-- Words that start a statement of their own or go on with one. -/
def statementWords : List String :=
  ["let", "const", "var", "if", "else", "while", "switch", "case", "default", "break", "continue",
    "return", "throw", "try", "catch", "finally"]

/-- Whether a token may start an expression. -/
def Token.opens : Token → Bool
  | .word w => !statementWords.contains w
  | .string _ => true
  | .number _ => true
  | .mark m => m == .leftParen || m == .leftBracket || m == .bang || m == .minus
  | .finish => false

/-- The pieces start with a token that may start an expression. -/
def Opens (ps : List Piece) : Prop :=
  ∃ t qs, ps = .token t :: qs ∧ t.opens = true

theorem firstToken_append (h : firstToken ps = some t) (qs : List Piece) : firstToken (ps ++ qs) = some t := by
  induction ps with
  | nil => cases h
  | cons p ps ih =>
    cases p with
    | token t' => exact h
    | gap cs => exact ih h

theorem Opens.append (h : Opens ps) (qs : List Piece) : Opens (ps ++ qs) := by
  obtain ⟨t, rs, rfl, ho⟩ := h
  exact ⟨t, rs ++ qs, rfl, ho⟩

/-! ## What rules do with pieces -/

open RaiseScript.Parser
open Nonterminal (paramList arrowBody)

/-- What is given is the expression, up to places, and the cursor has come to the rest. -/
def Gets (gives : Expr → Cursor → Prop) (e : Expr) (rest : List Piece) : Prop :=
  ∃ e' c', gives e' c' ∧ e'.bare false = e.bare true ∧ c'.Reads false rest

/-- What is given is what another rule gives with the expression in its hands, when the cursor has
come to the rest. -/
def LeadsTo (gives : Expr → Cursor → Prop) (next : Expr → Cursor → Expr → Cursor → Prop) (e : Expr)
    (rest : List Piece) : Prop :=
  ∃ e' c', (∀ a c'', next e' c' a c'' → gives a c'') ∧ e'.bare false = e.bare true ∧ c'.Reads false rest

/-- The pieces of `e` are read as an expression that suffixes may follow. -/
structure Suffixable (ps : List Piece) (e : Expr) : Prop where
  opens : Opens ps
  calm : Calm (tokensOf ps)
  reads {c b rest} : c.Reads b (ps ++ rest) → Follows 11 rest →
    LeadsTo (Nonterminal.unary.Gives c) (Nonterminal.Gives <| .suffixes ·) e rest

/-- The pieces of `e` are read as an operand. -/
structure Operand (ps : List Piece) (e : Expr) : Prop where
  opens : Opens ps
  calm : Calm (tokensOf ps)
  reads {c b rest} : c.Reads b (ps ++ rest) → Follows 9 rest → Gets (Nonterminal.unary.Gives c) e rest

/-- The pieces of `e` are read as the first operand of a level. -/
structure AtLevel (l : Level) (ps : List Piece) (e : Expr) : Prop where
  opens : Opens ps
  calm : Calm (tokensOf ps)
  reads {c b rest} : c.Reads b (ps ++ rest) → Follows l.rank rest →
    LeadsTo ((Nonterminal.level l).Gives c) (Nonterminal.Gives <| .operators l ·) e rest

/-- The pieces of `e` are read as an operand of a level. -/
structure InLevel (l : Level) (ps : List Piece) (e : Expr) : Prop where
  reads {c b rest} : c.Reads b (ps ++ rest) → Follows l.rank rest → Gets ((Nonterminal.operand l).Gives c) e rest

/-- The pieces of `e` are read as a whole expression. -/
structure Whole (ps : List Piece) (e : Expr) : Prop where
  opens : Opens ps
  reads {c b rest} : c.Reads b (ps ++ rest) → Follows 0 rest → Gets (Nonterminal.assignment.Gives c) e rest

variable {qs : List Piece} {a e v : Expr} {l : Level} {c : Cursor} {b : Bool}

theorem suffixes_stop (h : c.Reads b rest) (hrest : Follows 9 rest) (e : Expr) :
    (Nonterminal.suffixes e).Gives c e c := by
  obtain ⟨m, hm, hp⟩ := hrest
  refine .of_code (.step (peek_first h hm) ?_)
  cases m <;> first | exact .done | simp [Mark.pull] at hp

theorem operators_stop (h : c.Reads b rest) (hm : firstToken rest = some (.mark m))
    (hp : m.pull ≠ l.rank) (e : Expr) : (Nonterminal.operators l e).Gives c e c := by
  refine .of_code (.step (peek_first h hm) ?_)
  simp only [Level.joinToken?, Level.join?_eq_none hp]
  exact .done

theorem Suffixable.operand (h : Suffixable ps e) : Operand ps e where
  opens := h.opens
  calm := h.calm
  reads hc hrest := by
    obtain ⟨e', c', hlead, he, hc'⟩ := h.reads hc (hrest.mono (by decide))
    exact ⟨e', c', hlead _ _ (suffixes_stop hc' hrest e'), he, hc'⟩

theorem Operand.inProduct (h : Operand ps e) : InLevel .product ps e where
  reads hc hrest := by
    obtain ⟨e', c', hr, he, hc'⟩ := h.reads hc (hrest.mono (by decide))
    exact ⟨e', c', .of_code (.tail hr), he, hc'⟩

theorem AtLevel.inLooser {l' : Level} (h : AtLevel l' ps e) (hl : l.tighter = some l') : InLevel l ps e where
  reads hc hrest := by
    have hrank := Level.rank_tighter hl
    obtain ⟨e', c', hlead, he, hc'⟩ := h.reads hc (hrest.mono (by omega))
    obtain ⟨m, hm, hp⟩ := hrest
    refine ⟨e', c', .of_code ?_, he, hc'⟩
    simp only [Nonterminal.code, hl]
    exact .tail (hlead _ _ (operators_stop hc' hm (by omega) e'))

theorem InLevel.atLevel (h : InLevel l ps e) (ho : Opens ps) (hcalm : Calm (tokensOf ps)) : AtLevel l ps e where
  opens := ho
  calm := hcalm
  reads hc hrest := by
    obtain ⟨e', c', hr, he, hc'⟩ := h.reads hc hrest
    exact ⟨e', c', fun a c'' ha => .of_code (.call hr (.tail ha)), he, hc'⟩

/-- An operator between two operands. -/
theorem AtLevel.join {make : Expr → Expr → Expr} (ha : AtLevel l ps a) (hv : InLevel l qs v)
    (hm : l.join? m = some make) (hbare : ∀ a' v', a'.bare false = a.bare true → v'.bare false = v.bare true →
      (make a' v').bare false = e.bare true) : AtLevel l (ps ++ blank :: mark m :: blank :: qs) e where
  opens := ha.opens.append _
  calm := by
    rw [tokensOf_append]
    refine ha.calm.append fun us _ => quiet_mark _ ?_ ?_ <;> rintro rfl <;> cases l <;> cases hm
  reads {c b rest} hc hrest := by
    have hpull : m.pull = l.rank := Decidable.byContradiction fun hne => by
      rw [Level.join?_eq_none hne] at hm
      cases hm
    rw [List.append_assoc] at hc
    obtain ⟨a', c₁, hlead, ha', hc₁⟩ := ha.reads hc ⟨m, rfl, Nat.le_of_eq hpull⟩
    have hc₂ := hc₁.blank.advance
    obtain ⟨v', c₃, hr₃, hv', hc₃⟩ := hv.reads hc₂.blank hrest
    refine ⟨make a' v', c₃, fun x c₄ hx => hlead x c₄ (.of_code (.step (peek_first hc₁ rfl) ?_)),
      hbare a' v' ha' hv', hc₃⟩
    simp only [Level.joinToken?, hm]
    exact .step rfl (.call hr₃ (.tail hx))

/-! ## Suffixes -/

theorem follows_mark (qs : List Piece) (h : m.pull ≤ s) : Follows s (mark m :: qs) :=
  ⟨m, rfl, h⟩

theorem Suffixable.member (h : Suffixable ps e) (x : String) :
    Suffixable (ps ++ [mark .dot, word x]) (.member e x) where
  opens := h.opens.append _
  calm := by
    rw [tokensOf_append]
    exact h.calm.append fun us _ => quiet_mark _ (by decide) (by decide)
  reads {c b rest} hc hrest := by
    rw [List.append_assoc] at hc
    obtain ⟨e', c', hlead, he, hc'⟩ := h.reads hc (follows_mark _ (by decide))
    have hc₁ := hc'.advance
    refine ⟨.member e' x, _,
      fun a c'' ha => hlead a c'' (.of_code ?_), by rw [Expr.bare, he, Expr.bare], hc₁.advance⟩
    exact .step (peek_first hc' rfl) (.step rfl (.step (peek_first hc₁ rfl) (.step rfl (.tail ha))))

theorem Suffixable.index (h : Suffixable ps e) (hv : Whole qs v) :
    Suffixable (ps ++ mark .leftBracket :: (qs ++ [mark .rightBracket])) (.index e v) where
  opens := h.opens.append _
  calm := by
    rw [tokensOf_append]
    exact h.calm.append fun us _ => quiet_mark _ (by decide) (by decide)
  reads {c b rest} hc hrest := by
    rw [List.append_assoc, List.cons_append, List.append_assoc] at hc
    obtain ⟨e', c', hlead, he, hc'⟩ := h.reads hc (follows_mark _ (by decide))
    obtain ⟨v', c₂, hr₂, hv', hc₂⟩ := hv.reads hc'.advance (follows_mark _ (by decide))
    refine ⟨.index e' v', _,
      fun a c'' ha => hlead a c'' (.of_code ?_), by rw [Expr.bare, he, hv', Expr.bare], hc₂.advance⟩
    exact .step (peek_first hc' rfl) (.step rfl (.call hr₂ (.step (expect_mark hc₂) (.tail ha))))

/-! ## Lists of expressions -/

theorem Whole.not_isMark (h : Whole ps e) (hm : Token.opens (.mark m) = false) :
    ∃ t, firstToken ps = some t ∧ t.isMark m = false := by
  obtain ⟨t, qs, rfl, ho⟩ := h.opens
  refine ⟨t, rfl, ?_⟩
  cases t with
  | mark m' =>
    refine beq_false_of_ne ?_
    rintro rfl
    exact absurd (ho.symm.trans hm) (by decide)
  | _ => rfl

/-- The pieces of expressions between commas are read up to the closing mark. -/
theorem items_read {closing : Mark} (hclosing : closing = .rightParen ∨ closing = .rightBracket)
    (h : List.Forall₂ Whole pss es) : ∀ {c b rest}, c.Reads b (commas pss ++ mark closing :: rest) →
      ∃ es' c', (Nonterminal.items closing).Gives c es' c' ∧ bareExprs false es' =
        bareExprs true es ∧ c'.Reads (b && es.isEmpty) (mark closing :: rest) := by
  have hpull : closing.pull = 0 := by rcases hclosing with rfl | rfl <;> rfl
  have hcomma : Token.isMark .comma (.mark closing) = false := by rcases hclosing with rfl | rfl <;> rfl
  have hopens : Token.opens (.mark closing) = false := by rcases hclosing with rfl | rfl <;> rfl
  induction h with
  | nil =>
    intro c b rest hc
    refine ⟨[], c, .of_code (.step (atMark_first hc rfl closing) ?_),
      rfl, by rw [List.isEmpty_nil, Bool.and_true]; exact hc⟩
    simp only [Token.isMark, beq_self_eq_true, if_true]
    exact .done
  | @cons ps e pss es hw hrest ih =>
    intro c b rest hc
    obtain ⟨t, ht, hnot⟩ := hw.not_isMark hopens
    cases hrest with
    | nil =>
      obtain ⟨e', c', hr, he, hc'⟩ := hw.reads hc (follows_mark _ (Nat.le_of_eq hpull))
      refine ⟨[e'], c', .of_code (.step (atMark_first hc (firstToken_append ht _) closing) ?_),
        by simp [bareExprs, he], by simpa using hc'⟩
      rw [hnot]
      exact .call hr (.step (eat_other hc' rfl hcomma) .done)
    | @cons qs e₂ pss es hw₂ hrest =>
      rw [commas, List.append_assoc] at hc
      obtain ⟨e', c', hr, he, hc'⟩ := hw.reads hc (follows_mark _ (by decide))
      obtain ⟨es', c₂, hr₂, hes, hc₂⟩ := ih hc'.advance.blank
      refine ⟨e' :: es', c₂, .of_code (.step (atMark_first hc (firstToken_append ht _) closing) ?_),
        by simp only [bareExprs, he, hes], by simpa using hc₂⟩
      rw [hnot]
      exact .call hr (.step (eat_mark hc') (.call hr₂ .done))

theorem Suffixable.call (h : Suffixable ps e) (hes : List.Forall₂ Whole pss es)
    (hp : Passes (tokensOf (commas pss))) :
    Suffixable (ps ++ mark .leftParen :: (commas pss ++ [mark .rightParen])) (.call e es) where
  opens := h.opens.append _
  calm := by
    rw [tokensOf_append]
    refine h.calm.append fun us hu => ?_
    simpa using quiet_parens hp hu
  reads {c b rest} hc hrest := by
    rw [List.append_assoc, List.cons_append, List.append_assoc] at hc
    obtain ⟨e', c', hlead, he, hc'⟩ := h.reads hc (follows_mark _ (by decide))
    obtain ⟨es', c₂, hr₂, hes', hc₂⟩ := items_read (Or.inl rfl) hes hc'.advance
    refine ⟨.call e' es', _,
      fun a c'' ha => hlead a c'' (.of_code ?_), by rw [Expr.bare, he, hes', Expr.bare], hc₂.advance⟩
    exact .step (peek_first hc' rfl) (.step rfl (.call hr₂ (.step (expect_mark hc₂) (.tail ha))))

/-! ## Operators in front -/

/-- Whether a token is an operator in front of an operand. -/
def Token.isPrefix : Token → Bool
  | .mark .bang => true
  | .mark .minus => true
  | .word w => w == "typeof" || w == "await"
  | _ => false

/-- A token in front of an operand, perhaps with a blank behind it. -/
theorem Operand.prefixed (t : Token) (make : Expr → Expr) (gaps : List Piece) (h : Operand ps v)
    (hunary : ∀ (c c' : Cursor) v', c.current.token = t → Nonterminal.unary.Gives c.advance v' c' →
      Nonterminal.unary.Gives c (make v') c')
    (hgaps : gaps = [] ∨ gaps = [blank]) (ho : t.opens = true) (hn : t.isName = false)
    (hy : t.isWord "yield" = false) (hp : t.isPrefix = true)
    (hbare : ∀ v', v'.bare false = v.bare true → (make v').bare false = e.bare true) :
    Operand (.token t :: (gaps ++ ps)) e where
  opens := ⟨t, _, rfl, ho⟩
  calm := by
    refine .cons _ hn ?_ ?_ hy
    · cases t with
      | mark m => cases m <;> first | rfl | cases hp
      | _ => rfl
    · cases t with
      | word w =>
        rw [Token.isPrefix, Bool.or_eq_true, beq_iff_eq, beq_iff_eq] at hp
        rcases hp with rfl | rfl <;> decide
      | _ => rfl
  reads {c b rest} hc hrest := by
    have hc₁ := hc.advance
    have hc₂ : c.advance.Reads false (ps ++ rest) := by
      rcases hgaps with rfl | rfl
      · exact hc₁
      · exact hc₁.blank
    obtain ⟨v', c', hr, hv, hc'⟩ := h.reads hc₂ hrest
    exact ⟨make v', c', hunary c c' v' (hc.current) hr, hbare v' hv, hc'⟩

theorem peek_current (h : c.current.token = t) : peek c = .ok (t, c) := h ▸ rfl

theorem Operand.unary (h : Operand ps e) (op : UnaryOp) : Operand (op.pieces ++ ps) (.unary op e) := by
  have hbare (v' : Expr) (hv : v'.bare false = e.bare true) :
      (Expr.unary op v').bare false = (Expr.unary op e).bare true := by
    rw [Expr.bare, hv, Expr.bare]
  cases op with
  | not =>
    refine h.prefixed _ _ [] (fun c c' v' hc hr => .of_code ?_) (Or.inl rfl) rfl rfl rfl rfl hbare
    exact .step (peek_current hc) (.step rfl (.call hr .done))
  | negate =>
    refine h.prefixed _ _ [] (fun c c' v' hc hr => .of_code ?_) (Or.inl rfl) rfl rfl rfl rfl hbare
    exact .step (peek_current hc) (.step rfl (.call hr .done))
  | typeName =>
    refine h.prefixed _ _ [blank] (fun c c' v' hc hr => .of_code ?_) (Or.inr rfl)
      (by decide) (by decide) (by decide) (by decide) hbare
    exact .step (peek_current hc) (.step rfl (.call hr .done))

theorem Operand.await (h : Operand ps e) : Operand (word "await" :: blank :: ps) (.await e) := by
  refine h.prefixed _ .await [blank] (fun c c' v' hc hr => .of_code ?_) (Or.inr rfl)
    (by decide) (by decide) (by decide) (by decide) fun v' hv => by rw [Expr.bare, hv, Expr.bare]
  exact .step (peek_current hc) (.step rfl (.call hr .done))

/-! ## Expressions without operators -/

theorem unary_of_primary (hc : c.Reads b ps) (ht : firstToken ps = some t) (hp : t.isPrefix = false)
    {c'' : Cursor} (hr : Nonterminal.primary.Gives c v c') (hs : (Nonterminal.suffixes v).Gives c' e c'') :
    Nonterminal.unary.Gives c e c'' := by
  refine .of_code (.step (peek_first hc ht) ?_)
  cases t with
  | word w =>
    rw [Token.isPrefix, Bool.or_eq_false_iff, beq_eq_false_iff_ne, beq_eq_false_iff_ne] at hp
    simp only [if_neg hp.1, if_neg hp.2]
    exact .call hr (.tail hs)
  | mark m => cases m <;> first | exact .call hr (.tail hs) | cases hp
  | _ => exact .call hr (.tail hs)

theorem suffixable_of_primary (ho : t.opens = true) (hp : t.isPrefix = false) (hcalm : Calm (t :: tokensOf ps))
    (h : ∀ {c b rest}, c.Reads b (.token t :: (ps ++ rest)) → Follows 11 rest →
      Gets (Nonterminal.primary.Gives c) e rest)
    : Suffixable (.token t :: ps) e where
  opens := ⟨t, ps, rfl, ho⟩
  calm := hcalm
  reads {c b rest} hc hrest := by
    obtain ⟨e', c', hr, he, hc'⟩ := h hc hrest
    exact ⟨e', c', fun a c'' ha => unary_of_primary hc rfl hp hr ha, he, hc'⟩

theorem suffixable_number (v : Float) : Suffixable [.token (.number v)] (.number v) := by
  refine suffixable_of_primary rfl rfl (.leaf rfl rfl) fun {c b rest} hc _ => ?_
  exact ⟨.number v, _, .of_code (.step rfl (.step (peek_first hc rfl) (.step rfl .done))), rfl, hc.advance⟩

theorem suffixable_string (s : String) : Suffixable [.token (.string s)] (.string s) := by
  refine suffixable_of_primary rfl rfl (.leaf rfl rfl) fun {c b rest} hc _ => ?_
  exact ⟨.string s, _, .of_code (.step rfl (.step (peek_first hc rfl) (.step rfl .done))), rfl, hc.advance⟩

/-- A word that stands for a value. -/
theorem suffixable_constant {w : String} {e : Expr}
    (h : (w, e) ∈ [("true", Expr.bool true), ("false", .bool false), ("null", .null), ("undefined", .undefined),
      ("this", .this)]) : Suffixable [word w] e := by
  simp only [List.mem_cons, List.not_mem_nil, or_false, Prod.mk.injEq] at h
  have hw : Token.opens (.word w) = true ∧ Token.isPrefix (.word w) = false ∧
      Token.isWord "yield" (.word w) = false := by
    rcases h with ⟨rfl, rfl⟩ | ⟨rfl, rfl⟩ | ⟨rfl, rfl⟩ | ⟨rfl, rfl⟩ | ⟨rfl, rfl⟩ <;> decide
  refine suffixable_of_primary hw.1 hw.2.1 (.leaf rfl hw.2.2) fun {c b rest} hc _ => ?_
  refine ⟨e, _, .of_code (.step rfl (.step (peek_first hc rfl) (.step rfl ?_))), ?_, hc.advance⟩
  · rcases h with ⟨rfl, rfl⟩ | ⟨rfl, rfl⟩ | ⟨rfl, rfl⟩ | ⟨rfl, rfl⟩ | ⟨rfl, rfl⟩ <;> exact .step rfl .done
  · rcases h with ⟨rfl, rfl⟩ | ⟨rfl, rfl⟩ | ⟨rfl, rfl⟩ | ⟨rfl, rfl⟩ | ⟨rfl, rfl⟩ <;> rfl

theorem suffixable_ident {x : String} (hx : isReserved x = false) : Suffixable [word x] (.ident x) := by
  have hname := hx
  simp only [isReserved, reservedWords, List.contains_cons, List.contains_nil, Bool.or_eq_false_iff,
    beq_eq_false_iff_ne] at hx
  refine suffixable_of_primary (by simp [Token.opens, statementWords, hx])
    (by simp [Token.isPrefix, hx]) (.leaf rfl (by simp [Token.isWord, hx])) fun {c b rest} hc hrest => ?_
  have hfollows : functionFollows c = .ok (false, c) := by
    obtain ⟨m, hm, -⟩ := hrest
    obtain ⟨us, hus⟩ := tokensOf_of_firstToken hm
    rw [functionFollows, hc.peekAt 1]
    simp [hus, Token.isWord]
  refine ⟨.ident x, _, .of_code (.step rfl (.step (peek_first hc rfl) (.step rfl ?_))), rfl, hc.advance⟩
  simp only [hx, decide_false, Bool.false_and, Bool.false_eq_true, if_false]
  refine .step hfollows ?_
  simp only [Bool.and_false, hname, Bool.false_eq_true, if_false]
  exact .step rfl .done

/-- An expression in parentheses. -/
theorem Whole.wrapped (h : Whole ps e) (hp : Passes (tokensOf ps)) :
    Suffixable (mark .leftParen :: (ps ++ [mark .rightParen])) e := by
  have hcalm : Calm (.mark .leftParen :: tokensOf (ps ++ [mark .rightParen])) := by
    simpa using Calm.parens hp
  refine suffixable_of_primary rfl rfl hcalm fun {c b rest} hc _ => ?_
  rw [List.append_assoc] at hc
  obtain ⟨e', c', hr, he, hc'⟩ := h.reads hc.advance (follows_mark _ (by decide))
  refine ⟨e', _, .of_code (.step rfl (.step (peek_first hc rfl) (.step rfl ?_))), he, hc'.advance⟩
  exact .call hr (.step (expect_mark hc') .done)

theorem suffixable_array (h : List.Forall₂ Whole pss es) :
    Suffixable (mark .leftBracket :: (commas pss ++ [mark .rightBracket])) (.array es) := by
  refine suffixable_of_primary rfl rfl (.cons _ rfl rfl rfl rfl) fun {c b rest} hc _ => ?_
  rw [List.append_assoc] at hc
  obtain ⟨es', c', hr, hes, hc'⟩ := items_read (Or.inr rfl) h hc.advance
  refine ⟨.array es', _, .of_code (.step rfl (.step (peek_first hc rfl) (.step rfl ?_))),
    by rw [Expr.bare, hes, Expr.bare], hc'.advance⟩
  exact .call hr (.step (expect_mark hc') .done)

/-! ## Whole expressions -/

theorem arrowAhead_none (hc : c.Reads b (ps ++ rest)) (hcalm : Calm (tokensOf ps))
    (hquiet : Still (tokensOf rest)) : arrowAhead c = .ok (none, c) := by
  have hno : c.arrowAhead = none := by
    refine hc.arrowAhead ?_ ?_
    · rw [tokensOf_append]
      simp [hcalm.ne_nil]
    · rw [tokensOf_append]
      exact hcalm.noArrow hquiet
  rw [arrowAhead, hno]

theorem Calm.atYield (hcalm : Calm (tokensOf ps)) (ho : Opens ps) (hc : c.Reads b (ps ++ rest)) :
    atWord "yield" c = .ok (false, c) := by
  obtain ⟨t, qs, rfl, -⟩ := ho
  rw [atWord_first hc rfl]
  exact congrArg (fun b => Except.ok (b, c)) hcalm.noYield

theorem AtLevel.whole (h : AtLevel .nullish ps e) : Whole ps e where
  opens := h.opens
  reads {c b rest} hc hrest := by
    obtain ⟨e', c', hlead, he, hc'⟩ := h.reads hc (hrest.mono (by decide))
    have harrow := arrowAhead_none hc h.calm (hrest.quiet (by decide))
    obtain ⟨m, hm, hp⟩ := hrest
    have hassign : (Token.mark m).isMark .assign = false := by
      cases m <;> first | rfl | simp [Mark.pull] at hp
    have hstop := hlead _ _ (operators_stop hc' hm (by simp only [Level.rank]; omega) e')
    refine ⟨e', c', .of_code (.step harrow (.step (h.calm.atYield h.opens hc) (.call hstop ?_))), he, hc'⟩
    refine .step (atMark_first hc' hm .assign) ?_
    rw [hassign]
    exact .done

theorem isTarget_bare (braces : Bool) (e : Expr) : (e.bare braces).isTarget = e.isTarget := by
  cases e with
  | yield a d => cases a <;> rfl
  | _ => rfl

/-- An assignment. -/
theorem AtLevel.assign (h : AtLevel .nullish ps a) (ht : a.isTarget = true) (hv : Whole qs v) :
    Whole (ps ++ blank :: mark .assign :: blank :: qs) (.assign a v) where
  opens := h.opens.append _
  reads {c b rest} hc hrest := by
    rw [List.append_assoc] at hc
    have hfollows : Follows 1 (blank :: mark .assign :: blank :: qs ++ rest) := ⟨.assign, rfl, by decide⟩
    obtain ⟨a', c', hlead, ha, hc'⟩ := h.reads hc (hfollows.mono (by decide))
    have hc₁ := hc'.blank.advance
    obtain ⟨v', c₂, hr₂, hv₂, hc₂⟩ := hv.reads hc₁.blank hrest
    have harrow := arrowAhead_none hc h.calm (hfollows.quiet (by decide))
    have hstop := hlead _ _ (operators_stop hc' rfl (by decide) a')
    have htarget : a'.isTarget = true := by
      rw [← isTarget_bare false, ha, isTarget_bare, ht]
    refine ⟨.assign a' v', c₂, .of_code (.step harrow (.step (h.calm.atYield h.opens hc) (.call hstop ?_))),
      by rw [Expr.bare, ha, hv₂, Expr.bare], hc₂⟩
    refine .step (atMark_first hc' rfl .assign) ?_
    simp only [Token.isMark, beq_self_eq_true, if_true, htarget]
    exact .step rfl (.call hr₂ .done)

/-! ## Yields -/

theorem assignment_yield (hc : c.Reads b (word "yield" :: ps))
    (h : Nonterminal.yieldExpr.code.Gives c e c') : Nonterminal.assignment.Gives c e c' := by
  have hno : c.arrowAhead = none :=
    hc.arrowAhead (by simp) (noArrow_cons _ (by decide) rfl (by decide))
  have harrow : arrowAhead c = .ok (none, c) := by rw [arrowAhead, hno]
  exact .of_code (.step harrow (.step (atWord_first hc rfl "yield") (.tail (.of_code h))))

theorem whole_yield : Whole [word "yield"] (.yield none false) where
  opens := ⟨_, _, rfl, by decide⟩
  reads {c b rest} hc hrest := by
    have hc₁ := hc.advance
    obtain ⟨m, hm, hp⟩ := hrest
    have hstar : (Token.mark m).isMark .star = false := by
      cases m <;> first | rfl | simp [Mark.pull] at hp
    have hend : atYieldEnd c.advance = .ok (true, c.advance) := by
      have hcurrent : c.advance.current.token = .mark m := Cursor.Reads.first hc₁ hm
      rw [atYieldEnd, hcurrent]
      cases m <;> first | rfl | simp [Mark.pull] at hp
    exact ⟨.yield none false, c.advance,
      assignment_yield hc (.step rfl (.step (eat_other hc₁ hm hstar) (.step hend .done))), rfl, hc₁⟩

theorem Whole.atYieldEnd (h : Whole ps e) (hc : c.Reads false (ps ++ rest)) :
    Parser.atYieldEnd c = .ok (false, c) := by
  obtain ⟨t, qs, rfl, ho⟩ := h.opens
  rw [Parser.atYieldEnd, hc.current, hc.afterBreak]
  cases t with
  | mark m => cases m <;> first | rfl | cases ho
  | finish => cases ho
  | _ => rfl

theorem Whole.yield (h : Whole ps e) (delegate : Bool) :
    Whole (word "yield" :: ((if delegate then [mark .star] else []) ++ blank :: ps))
      (.yield (some e) delegate) where
  opens := ⟨_, _, rfl, by decide⟩
  reads {c b rest} hc hrest := by
    have hc₁ := hc.advance
    obtain ⟨c₂, heat, hc₂⟩ : ∃ c₂, eat .star c.advance = .ok (delegate, c₂) ∧ c₂.Reads false (ps ++ rest) := by
      cases delegate with
      | true => exact ⟨_, eat_mark hc₁, hc₁.advance.blank⟩
      | false =>
        obtain ⟨t, ht, hstar⟩ := h.not_isMark (m := .star) rfl
        exact ⟨_, eat_other hc₁ (firstToken_append ht _) hstar, hc₁.blank⟩
    obtain ⟨e', c₃, hr, he, hc₃⟩ := h.reads hc₂ hrest
    exact ⟨.yield (some e') delegate, c₃,
      assignment_yield hc (.step rfl (.step heat (.step (h.atYieldEnd hc₂) (.call hr .done)))),
      by rw [Expr.bare, he, Expr.bare], hc₃⟩

/-! ## Functions -/

/-- The pieces are read as the statements of a block. -/
structure Blocked (ps : List Piece) (body : List Stmt) : Prop where
  brace : ∃ qs, ps = mark .leftBrace :: qs
  reads : ∀ {c b rest}, c.Reads b (ps ++ rest) →
    ∃ body' c', (Nonterminal.block false).Gives c body' c' ∧ bareStmts false body' =
      bareStmts true body ∧ c'.Reads false rest

/-- Names with commas between them. -/
def namePieces (xs : List String) : List Piece :=
  commas (xs.map fun x => [word x])

theorem passes_namePieces (xs : List String) : Passes (tokensOf (namePieces xs)) := by
  refine passes_commas fun ps hps => ?_
  obtain ⟨x, -, rfl⟩ := List.mem_map.1 hps
  simp

theorem names_read (hxs : ∀ x ∈ xs, isReserved x = false) :
    ∀ {c b rest}, c.Reads b (namePieces xs ++ mark .rightParen :: rest) →
      ∃ c', Nonterminal.names.Gives c xs c' ∧ c'.Reads (b && xs.isEmpty) (mark .rightParen :: rest) := by
  induction xs with
  | nil =>
    intro c b rest hc
    exact ⟨c, .of_code (.step (atMark_first hc rfl .rightParen) .done),
      by rw [List.isEmpty_nil, Bool.and_true]; exact hc⟩
  | cons x xs ih =>
    intro c b rest hc
    have hx := hxs x List.mem_cons_self
    cases xs with
    | nil =>
      have hc₁ := hc.advance
      refine ⟨c.advance, .of_code (.step (atMark_first hc rfl .rightParen) ?_), by simpa using hc₁⟩
      exact .step (name_word hc hx) (.step (eat_other hc₁ rfl rfl) .done)
    | cons y xs =>
      have hc₁ := hc.advance
      obtain ⟨c', hr, hc'⟩ := ih (fun z hz => hxs z (List.mem_cons_of_mem x hz))
        hc₁.advance.blank
      refine ⟨c', .of_code (.step (atMark_first hc rfl .rightParen) ?_), by simpa using hc'⟩
      exact .step (name_word hc hx) (.step (eat_mark hc₁) (.call hr .done))

theorem Cursor.Reads.ends (h : c.Reads b ps) : c.Ends := by
  have hlast : (c.ahead.map (·.token)).getLast? = some .finish := by
    rw [h.tokens, List.getLast?_append]
    rfl
  rw [List.getLast?_map] at hlast
  obtain ⟨l, hl, ht⟩ := Option.map_eq_some_iff.1 hlast
  exact ⟨l, hl, by rw [ht]; rfl⟩

theorem paramList_read (hxs : ∀ x ∈ xs, isReserved x = false)
    (hc : c.Reads b (mark .leftParen :: (namePieces xs ++ mark .rightParen :: rest))) :
    ∃ c', paramList.Gives c xs c' ∧ c'.Reads false rest := by
  obtain ⟨c', hr, hc'⟩ := names_read hxs hc.advance
  refine ⟨c'.advance, .step (expect_mark hc) ⟨xs, c', ?_, .step (expect_mark hc') .done⟩, hc'.advance⟩
  exact hr.read ⟨hc.advance.ends, nofun⟩ (Nat.lt_succ_self _)

/-- The parameters and the body of a function. -/
theorem funcRest_read (hxs : ∀ x ∈ xs, isReserved x = false) (hb : Blocked ps body)
    (start span : Span) (called : Option String) (isAsync generator : Bool)
    (hc : c.Reads b (mark .leftParen :: (namePieces xs ++ mark .rightParen :: blank :: (ps ++ rest)))) :
    ∃ f' c', (Nonterminal.funcRest start called isAsync generator).Gives c f' c' ∧
      f'.bare false = (Func.mk called xs (.block body) isAsync
        (if generator then .generator else .plain) span).bare true ∧ c'.Reads false rest := by
  obtain ⟨c₁, hr₁, hc₁⟩ := paramList_read hxs hc
  obtain ⟨body', c₂, hr₂, hbody, hc₂⟩ := hb.reads hc₁.blank
  exact ⟨⟨called, xs, .block body', isAsync, if generator then .generator else .plain, start.upTo c₂.before⟩, c₂,
    .of_code (.bind hr₁ (.call hr₂ (.step rfl .done))), by rw [Func.bare, hbody, Func.bare], hc₂⟩

/-- What stands between the word `function` and the parameters. -/
def calledPieces (generator : Bool) (called : Option String) : List Piece :=
  (if generator then [mark .star] else []) ++ blank :: (called.map word).toList

theorem passes_calledPieces (generator : Bool) (called : Option String) :
    Passes (tokensOf (calledPieces generator called)) := by
  cases generator <;> cases called <;> simp [calledPieces]

theorem star_read {generator : Bool} (hc : c.Reads b (calledPieces generator called ++ mark .leftParen :: rest))
    : ∃ c₁ b₁, eat .star c = .ok (generator, c₁) ∧
      c₁.Reads b₁ ((called.map word).toList ++ mark .leftParen :: rest) := by
  cases generator with
  | true => exact ⟨_, _, eat_mark hc, hc.advance.blank⟩
  | false => cases called <;> exact ⟨c, b, eat_other hc rfl rfl, hc.blank⟩

theorem funcExpr_read (hcalled : ∀ x ∈ called, isReserved x = false)
    (hxs : ∀ x ∈ xs, isReserved x = false) (hb : Blocked ps body) (start span : Span)
    (isAsync generator : Bool) (hc : c.Reads b (calledPieces generator called ++
      mark .leftParen :: (namePieces xs ++ mark .rightParen :: blank :: (ps ++ rest)))) :
    ∃ f' c', (Nonterminal.funcExpr start isAsync).Gives c f' c' ∧
      f'.bare false = (Func.mk called xs (.block body) isAsync
        (if generator then .generator else .plain) span).bare true ∧ c'.Reads false rest := by
  obtain ⟨c₁, b₁, heat, hc₁⟩ := star_read hc
  cases called with
  | none =>
    obtain ⟨f', c', hr, hf, hc'⟩ := funcRest_read hxs hb start span none isAsync generator hc₁
    exact ⟨f', c', .of_code (.step heat (.step (atMark_first hc₁ rfl .leftParen) (.tail hr))), hf, hc'⟩
  | some x =>
    obtain ⟨f', c', hr, hf, hc'⟩ :=
      funcRest_read hxs hb start span (some x) isAsync generator hc₁.advance
    refine ⟨f', c', .of_code (.step heat (.step (atMark_first hc₁ rfl .leftParen) ?_)), hf, hc'⟩
    exact .step (name_word hc₁ (hcalled x rfl)) (.tail hr)

/-- The pieces of a function that is no arrow function. -/
def functionPieces (isAsync generator : Bool) (called : Option String) (xs : List String)
    (ps : List Piece) : List Piece :=
  (if isAsync then [word "async", blank] else []) ++ word "function" :: (calledPieces
    generator called ++ mark .leftParen :: (namePieces xs ++ mark .rightParen :: blank :: ps))

theorem suffixable_function (hcalled : ∀ x ∈ called, isReserved x = false)
    (hxs : ∀ x ∈ xs, isReserved x = false) (hb : Blocked ps body) (span : Span) (isAsync generator : Bool) :
    Suffixable (functionPieces isAsync generator called xs ps)
      (.func ⟨called, xs, .block body, isAsync, if generator then .generator else .plain, span⟩) := by
  cases isAsync with
  | false =>
    refine suffixable_of_primary (by decide) (by decide)
      (.cons _ (by decide) rfl (by decide) (by decide)) fun {c b rest} hc _ => ?_
    rw [List.append_assoc, List.cons_append, List.append_assoc, List.cons_append, List.cons_append] at hc
    obtain ⟨f', c', hr, hf, hc'⟩ := funcExpr_read hcalled hxs hb c.current.span span false generator hc.advance
    refine ⟨.func f', c', .of_code (.step rfl (.step (peek_first hc rfl) (.step rfl ?_))),
      by rw [Expr.bare, hf, Expr.bare], hc'⟩
    exact .step rfl (.call hr .done)
  | true =>
    change Suffixable (word "async" :: blank :: word "function" :: (calledPieces generator called ++
      mark .leftParen :: (namePieces xs ++ mark .rightParen :: blank :: ps))) _
    refine suffixable_of_primary (by decide) (by decide) (.async _) fun {c b rest} hc _ => ?_
    rw [List.cons_append, List.cons_append, List.append_assoc, List.cons_append,
      List.append_assoc, List.cons_append, List.cons_append] at hc
    have hc₂ := hc.advance.blank.advance
    obtain ⟨f', c', hr, hf, hc'⟩ := funcExpr_read hcalled hxs hb c.current.span span true generator hc₂
    have hfollows : functionFollows c = .ok (true, c) := by
      rw [functionFollows, hc.peekAt 1]
      rfl
    refine ⟨.func f', c', .of_code (.step rfl (.step (peek_first hc rfl) (.step rfl ?_))),
      by rw [Expr.bare, hf, Expr.bare], hc'⟩
    exact .step hfollows (.step rfl (.step rfl (.call hr .done)))

/-- The pieces of an arrow function. -/
def arrowPieces (isAsync : Bool) (xs : List String) (ps : List Piece) : List Piece :=
  (if isAsync then [word "async", blank] else []) ++ mark .leftParen :: (namePieces xs ++
    mark .rightParen :: blank :: mark .arrow :: blank :: ps)

theorem paramsAhead_arrow (xs : List String) (qs : List Piece) :
    paramsAhead (tokensOf (mark .leftParen :: (namePieces xs ++ mark .rightParen :: blank :: mark
      .arrow :: qs))) = some .list := by
  have hbehind : arrowBehind 0 (.mark .leftParen :: (tokensOf (namePieces xs) ++ .mark .rightParen ::
      .mark .arrow :: tokensOf qs)) = true := arrowBehind_parens (passes_namePieces xs)
  rw [paramsAhead]
  simp only [tokensOf_token, tokensOf_append, tokensOf_gap, hbehind]
  rfl

/-- An arrow function whose body is read. -/
theorem whole_arrow (hxs : ∀ x ∈ xs, isReserved x = false) {body : FuncBody}
    (hbody : ∀ {c rest}, c.Reads false (ps ++ rest) → Follows 0 rest → ∃ body' c', arrowBody.Gives c body' c' ∧
      (∀ isAsync sp sp', (Func.mk none xs body' isAsync .arrow sp).bare false =
        (Func.mk none xs body isAsync .arrow sp').bare true) ∧ c'.Reads false rest) (isAsync : Bool)
    (span : Span) : Whole (arrowPieces isAsync xs ps) (.func ⟨none, xs, body, isAsync, .arrow, span⟩) where
  opens := by cases isAsync <;> exact ⟨_, _, rfl, by decide⟩
  reads {c b rest} hc hrest := by
    -- Behind the word `async` both kinds are read alike.
    have hlist {c₁ : Cursor} {b₁ : Bool} (hc₁ : c₁.Reads b₁ (mark .leftParen :: (namePieces xs ++
        mark .rightParen :: blank :: mark .arrow :: blank :: (ps ++ rest)))) :
        ∃ body' c₂ c₃ c', paramList.Gives c₁ xs c₂ ∧ expect .arrow c₂ = .ok ((), c₃) ∧
          arrowBody.Gives c₃ body' c' ∧
          (∀ isAsync sp sp', (Func.mk none xs body' isAsync .arrow sp).bare false =
            (Func.mk none xs body isAsync .arrow sp').bare true) ∧ c'.Reads false rest := by
      obtain ⟨c₂, hr₂, hc₂⟩ := paramList_read hxs hc₁
      have hc₃ := hc₂.blank
      obtain ⟨body', c', hr, hbare, hc'⟩ := hbody hc₃.advance.blank hrest
      exact ⟨body', c₂, _, c', hr₂, expect_mark hc₃, hr, hbare, hc'⟩
    cases isAsync with
    | false =>
      have hc₁ : c.Reads b (mark .leftParen :: (namePieces xs ++ mark .rightParen :: blank :: mark
          .arrow :: blank :: (ps ++ rest))) := by
        simpa [arrowPieces] using hc
      have hahead : arrowAhead c = .ok (some (false, .list), c) := by
        rw [arrowAhead, Cursor.arrowAhead, hc₁.current, hc₁.arrowParamsAt (Nat.zero_le _),
          List.drop_zero, paramsAhead_arrow]
        rfl
      obtain ⟨body', c₂, c₃, c', hnames, harrow, hr, hbare, hc'⟩ := hlist hc₁
      refine ⟨.func ⟨none, xs, body', false, .arrow, c.current.span.upTo c'.before⟩, c',
        .of_code (.step hahead (.tail (.of_code (.step rfl ?_)))), by rw [Expr.bare, hbare, Expr.bare], hc'⟩
      exact .bind hnames (.step harrow (.bind hr (.step rfl .done)))
    | true =>
      have hc₁ : c.Reads b (word "async" :: blank :: mark .leftParen :: (namePieces xs ++
          mark .rightParen :: blank :: mark .arrow :: blank :: (ps ++ rest))) := by
        simpa [arrowPieces] using hc
      have hahead : arrowAhead c = .ok (some (true, .list), c) := by
        rw [arrowAhead, Cursor.arrowAhead, hc₁.current, hc₁.arrowParamsAt (by simp), tokensOf_token,
          List.drop_one, List.tail_cons, tokensOf_gap, paramsAhead_arrow]
        rfl
      obtain ⟨body', c₂, c₃, c', hnames, harrow, hr, hbare, hc'⟩ := hlist hc₁.advance.blank
      refine ⟨.func ⟨none, xs, body', true, .arrow, c.current.span.upTo c'.before⟩, c',
        .of_code (.step hahead
          (.tail (.of_code (.step rfl (.step rfl ?_))))), by rw [Expr.bare, hbare, Expr.bare], hc'⟩
      exact .bind hnames (.step harrow (.bind hr (.step rfl .done)))

theorem Blocked.arrow (h : Blocked ps body) (hxs : ∀ x ∈ xs, isReserved x = false) (isAsync : Bool)
    (span : Span) :
    Whole (arrowPieces isAsync xs ps) (.func ⟨none, xs, .block body, isAsync, .arrow, span⟩) := by
  refine whole_arrow hxs (fun {c rest} hc _ => ?_) isAsync span
  obtain ⟨body', c', hr, hbody, hc'⟩ := h.reads hc
  refine ⟨.block body', c', ?_, fun _ _ _ => by rw [Func.bare, hbody, Func.bare], hc'⟩
  obtain ⟨qs, rfl⟩ := h.brace
  exact .step (atMark_first hc rfl .leftBrace) (.map (.tail hr))

theorem Whole.arrow (h : Whole ps e) (hxs : ∀ x ∈ xs, isReserved x = false) (isAsync : Bool) (span : Span) :
    Whole (arrowPieces isAsync xs ps) (.func ⟨none, xs, .expr e, isAsync, .arrow, span⟩) := by
  refine whole_arrow hxs (fun {c rest} hc hrest => ?_) isAsync span
  obtain ⟨e', c', hr, he, hc'⟩ := h.reads hc hrest
  obtain ⟨t, ht, hbrace⟩ := h.not_isMark (m := .leftBrace) rfl
  refine ⟨.expr e', c', .step (atMark_first hc (firstToken_append ht _) .leftBrace) ?_,
    fun _ _ _ => by rw [Func.bare, he, Func.bare], hc'⟩
  rw [hbrace]
  exact .map (.tail hr)

end RaiseScript
