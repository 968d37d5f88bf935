import RaiseScript.Proofs.Reread

/-!
# Reading statements back

A statement ends where it was written to end, since every line that needs a semicolon has one. Only
an `else`, a `catch` or a `finally` could be taken for a part of the statement before it, and none
of them starts a line.
-/

namespace RaiseScript

variable {t : Token} {w x : String} {body : List Stmt} {c' c₁ : Cursor} {yes : Stmt}
  {rs hs fs : List Piece} {cs : List Case} {α : Type} {present : Parser Bool} {p : Code α}
  {f : Option (List Stmt)} {a : α} {kind : BindingKind} {pss : List (List Piece)}
  {ds : List Declarator} {xs : List String} {h : Option Handler}

open Piece
open RaiseScript.Parser
open Nonterminal (get)

/-! ## What comes next -/

/-- The token that comes next. -/
def nextToken (rest : List Piece) : Token :=
  (firstToken rest).getD .finish

theorem firstToken_concat_finish (rest : List Piece) :
    firstToken (rest ++ [.token .finish]) = some (nextToken rest) := by
  induction rest with
  | nil => rfl
  | cons p ps ih =>
    cases p with
    | token t => rfl
    | gap cs => exact ih

theorem Cursor.Reads.next {c : Cursor} {b : Bool} {rest : List Piece} (h : c.Reads b rest) :
    c.current.token = nextToken rest := by
  obtain ⟨b', us, hus⟩ := signs_of_firstToken (firstToken_concat_finish rest) [] b
  rw [List.append_nil] at hus
  rw [Reads, hus] at h
  cases ha : c.ahead with
  | nil =>
    rw [ha] at h
    cases h
  | cons l ls =>
    rw [ha, sight] at h
    rw [Cursor.current, ha]
    exact (Prod.mk.inj (List.cons.inj h).1).2

/-- Words that go on with the statement before them. -/
def clauseWords : List String := ["else", "catch", "finally"]

/-- Nothing goes on with the statement before the pieces. -/
def Parted (rest : List Piece) : Prop :=
  ∀ w ∈ clauseWords, (nextToken rest).isWord w = false

/-- Whether a token may start a statement. -/
def Token.starts : Token → Bool
  | .word w => !(["else", "catch", "finally", "case", "default"].contains w)
  | .mark m => m != .rightBrace && m != .semicolon
  | .finish => false
  | _ => true

theorem Token.starts_of_opens (h : t.opens = true) : t.starts = true := by
  cases t with
  | word w =>
    simp only [Token.opens, statementWords, List.contains_cons, List.contains_nil,
      Bool.not_eq_true', Bool.or_eq_false_iff, beq_eq_false_iff_ne] at h
    simp [Token.starts, h]
  | mark m => cases m <;> first | rfl | cases h
  | finish => cases h
  | _ => rfl

/-- The pieces are read as a statement that is the given one but for places. -/
def ReadsAs (ps : List Piece) (bare : Stmt) : Prop :=
  ∀ {c b rest}, c.Reads b (ps ++ rest) → Parted rest →
    ∃ s' c', (Nonterminal.statement false).Gives c s' c' ∧ s'.bare false = bare ∧ c'.Reads false rest

/-- The pieces of `s` are read as a statement. -/
structure Stated (ps : List Piece) (s : Stmt) : Prop where
  starts : ∃ t qs, ps = .token t :: qs ∧ t.starts = true
  reads : ReadsAs ps (s.bare true)

/-- The pieces of `ss` are read as statements up to an ending. -/
structure Lined (ps : List Piece) (ss : List Stmt) : Prop where
  reads {c b rest} (ending : Ending) : c.Reads b (ps ++ rest) → ending.endsAt (nextToken rest) =
    true → ∃ ss' c' b', (Nonterminal.statements false ending).Gives c ss' c' ∧ bareStmts false ss' =
      bareStmts true ss ∧ c'.Reads b' rest

variable {ps qs : List Piece} {e : Expr} {s : Stmt} {ss : List Stmt} {c : Cursor} {b : Bool} {rest : List Piece}

theorem apart_of_endsAt (ending : Ending) (h : ending.endsAt (nextToken rest) = true) :
    Parted rest := by
  intro w hw
  cases ht : nextToken rest with
  | word x =>
    rw [ht] at h
    simp only [clauseWords, List.mem_cons, List.not_mem_nil, or_false] at hw
    cases ending <;> simp [Ending.endsAt, Token.isWord, Token.isMark, Token.isFinish] at h
    rcases h with rfl | rfl <;> rcases hw with rfl | rfl | rfl <;> decide
  | _ => rfl

theorem Token.not_endsAt (h : t.starts = true) (ending : Ending) : ending.endsAt t = false := by
  cases t with
  | word w =>
    simp only [Token.starts, List.contains_cons, List.contains_nil, Bool.not_eq_true', Bool.or_eq_false_iff] at h
    cases ending <;> simp [Ending.endsAt, Token.isWord, Token.isMark, Token.isFinish, h]
  | mark m => cases ending <;> cases m <;> first | rfl | cases h
  | finish => cases h
  | _ => cases ending <;> rfl

theorem Token.starts_apart (h : t.starts = true) (hw : w ∈ clauseWords) : t.isWord w = false := by
  cases t with
  | word x =>
    simp only [Token.starts, List.contains_cons, List.contains_nil, Bool.not_eq_true',
      Bool.or_eq_false_iff, beq_eq_false_iff_ne] at h
    simp only [clauseWords, List.mem_cons, List.not_mem_nil, or_false] at hw
    rcases hw with rfl | rfl | rfl <;> simp [Token.isWord, h]
  | _ => rfl

theorem peek_next (h : c.Reads b rest) : peek c = .ok (nextToken rest, c) := by
  rw [peek, h.next]

theorem eatWord_next (h : c.Reads b rest) (hw : (nextToken rest).isWord w = false) :
    eatWord w c = .ok (false, c) := by
  simp [eatWord, h.next, hw]

theorem lined_nil : Lined [] [] where
  reads {c b rest} ending hc hend := by
    refine ⟨[], c, b, .of_code (.step (peek_next hc) ?_), rfl, hc⟩
    simp only [List.nil_append, hend, if_true]
    exact .done

theorem Stated.lined (hs : Stated ps s) (hss : Lined qs ss)
    (hqs : qs = [] ∨ ∀ w ∈ clauseWords, ∀ rest, (nextToken (qs ++ rest)).isWord w = false) (depth : Nat) :
    Lined (lineOf depth ps ++ qs) (s :: ss) where
  reads {c b rest} ending hc hend := by
    rw [List.append_assoc, lineOf, List.cons_append, List.append_assoc, List.singleton_append,
      Cursor.reads_gap] at hc
    have hapart : Parted (break_ :: (qs ++ rest)) := by
      rcases hqs with rfl | hqs
      · exact apart_of_endsAt ending hend
      · exact fun w hw => hqs w hw rest
    obtain ⟨s', c₁, hr₁, hs₁, hc₁⟩ := hs.reads hc hapart
    obtain ⟨ss', c₂, b₂, hr₂, hss₂, hc₂⟩ := hss.reads ending (Cursor.reads_gap.1 hc₁) hend
    obtain ⟨t, ts, rfl, ht⟩ := hs.starts
    have hsemi : t.isMark .semicolon = false := by
      cases t with
      | mark m => cases m <;> first | rfl | cases ht
      | _ => rfl
    refine ⟨s' :: ss', c₂, b₂,
      .of_code (.step (peek_first hc rfl) ?_), by rw [bareStmts, hs₁, hss₂, bareStmts], hc₂⟩
    simp only [Token.not_endsAt ht ending, Bool.false_eq_true, if_false]
    exact .step (eat_other hc rfl hsemi) (.call hr₁ (.call hr₂ .done))

/-- Lines between braces. -/
theorem Lined.blocked (h : Lined ps ss) (depth : Nat) : Blocked (braced depth ps) ss where
  brace := by
    unfold braced
    split <;> exact ⟨_, rfl⟩
  reads {c b rest} hc := by
    -- Between the lines and the closing brace there may be its indentation.
    have hread {after : List Piece} {b₁ : Bool} (hopen : expect .leftBrace c = .ok ((), c.advance))
        (hc₁ : c.advance.Reads b₁ (ps ++ after)) (hafter : nextToken after = .mark .rightBrace)
        (hclose : ∀ {c' : Cursor} {b'}, c'.Reads b' after → ∃ b'', c'.Reads b'' (mark .rightBrace :: rest)) :
        ∃ body' c', (Nonterminal.block false).Gives c body' c' ∧ bareStmts false body' =
          bareStmts true ss ∧ c'.Reads false rest := by
      obtain ⟨ss', c₂, b₂, hr₂, hss, hc₂⟩ := h.reads .block hc₁ (by rw [hafter]; rfl)
      obtain ⟨b₃, hc₃⟩ := hclose hc₂
      exact ⟨ss', c₂.advance, .of_code (.step hopen (.call hr₂ (.step (eat_mark hc₃) .done))), hss, hc₃.advance⟩
    unfold braced at hc
    split at hc
    · next hempty =>
      rw [List.isEmpty_iff.1 hempty] at hread
      exact hread (expect_mark hc) hc.advance rfl fun hc' => ⟨_, hc'⟩
    · rw [List.cons_append, List.cons_append, List.append_assoc] at hc
      exact hread (expect_mark hc) (Cursor.reads_gap.1 hc.advance) rfl fun hc' => ⟨_, Cursor.reads_gap.1 hc'⟩

/-! ## Statements -/

theorem Blocked.statement (h : Blocked ps body) (hc : c.Reads b (ps ++ rest)) :
    ∃ s' c', (Nonterminal.statement false).Gives c s' c' ∧ s'.bare false =
      .block (bareStmts true body) .none ∧ c'.Reads false rest := by
  obtain ⟨body', c', hr, hbody, hc'⟩ := h.reads hc
  obtain ⟨qs, rfl⟩ := h.brace
  exact ⟨.block body' (c.current.span.upTo c'.before), c',
    .of_code (.step rfl (.step (peek_first hc rfl) (.call hr (.step rfl .done)))), by rw [Stmt.bare, hbody], hc'⟩

theorem stated_block (h : Blocked ps body) (span : Span) : Stated ps (.block body span) where
  starts := by
    obtain ⟨qs, rfl⟩ := h.brace
    exact ⟨_, _, rfl, rfl⟩
  reads hc _ := by
    exact h.statement hc

/-- The tokens start neither with `function` nor with `async function`. -/
def NoFunction (ts : List Token) : Prop :=
  (ts.headD .finish).isWord "function" = false ∧
    ((ts.headD .finish).isWord "async" = true → (ts.tail.headD .finish).isWord "function" = false)

theorem statement_expr (hc : c.Reads b (.token t :: qs)) (ho : t.opens = true)
    (hf : NoFunction (t :: tokensOf qs))
    (h : (Nonterminal.expressionStatement c.current.span).code.Gives c s c') :
    (Nonterminal.statement false).Gives c s c' := by
  refine .of_code (.step rfl (.step (peek_first hc rfl) ?_))
  cases t with
  | word w =>
    simp only [Token.opens, statementWords, List.contains_cons, List.contains_nil,
      Bool.not_eq_true', Bool.or_eq_false_iff, beq_eq_false_iff_ne] at ho
    have hfunction : w ≠ "function" := by simpa [Token.isWord] using hf.1
    have hfollows : (decide (w = "async") && (c.peekAt 1).isWord "function") = false := by
      rw [hc.peekAt 1, tokensOf_token, List.drop_one, List.tail_cons]
      by_cases hw : w = "async"
      · have := hf.2 (by simp [Token.isWord, hw])
        simpa [hw] using this
      · simp [hw]
    simp only [ho, hfunction, if_false]
    refine .step rfl ?_
    simp only [hfollows, Bool.and_false, Bool.false_eq_true, if_false]
    exact .tail (.of_code h)
  | mark m => cases m <;> first | exact .tail (.of_code h) | cases ho
  | finish => cases ho
  | _ => exact .tail (.of_code h)

/-- An expression with a semicolon behind it. -/
theorem Whole.stated (h : Whole ps e) (span : Span)
    (hf : ∀ us, NoFunction (tokensOf ps ++ .mark .semicolon :: us)) :
    Stated (ps ++ [mark .semicolon]) (.expr e span) where
  starts := by
    obtain ⟨t, qs, rfl, ho⟩ := h.opens
    exact ⟨t, _, rfl, t.starts_of_opens ho⟩
  reads {c b rest} hc _ := by
    rw [List.append_assoc, List.singleton_append] at hc
    obtain ⟨e', c₁, hr₁, he, hc₁⟩ := h.reads hc (follows_mark _ (by decide))
    obtain ⟨t, qs, rfl, ho⟩ := h.opens
    have hno : NoFunction (t :: tokensOf (qs ++ mark .semicolon :: rest)) := by
      rw [tokensOf_append]
      exact hf (tokensOf rest)
    refine ⟨.expr e' (c.current.span.upTo c₁.advance.before), c₁.advance, statement_expr hc ho hno ?_,
      by rw [Stmt.bare, he, Stmt.bare], hc₁.advance⟩
    exact .call hr₁ (.step (semicolon_mark hc₁) (.step rfl .done))

theorem stated_jump (kind : Jump) (span : Span) :
    Stated [word kind.keyword, mark .semicolon] (.jump kind span) where
  starts := ⟨_, _, rfl, by cases kind <;> decide⟩
  reads {c b rest} hc _ := by
    have hc₁ := hc.advance
    refine ⟨.jump kind c.current.span, c.advance.advance,
      .of_code (.step rfl (.step (peek_first hc rfl) ?_)), rfl, hc₁.advance⟩
    cases kind <;> exact .step rfl (.step (semicolon_mark hc₁) .done)

theorem stated_return (span : Span) : Stated [word "return", mark .semicolon] (.ret none span) where
  starts := ⟨_, _, rfl, by decide⟩
  reads {c b rest} hc _ := by
    have hc₁ := hc.advance
    have hend : Parser.atStatementEnd c.advance = .ok (true, c.advance) := by
      rw [Parser.atStatementEnd, Cursor.atStatementEnd, hc₁.current]
      rfl
    refine ⟨.ret none (c.current.span.upTo c.advance.advance.before), c.advance.advance,
      .of_code (.step rfl (.step (peek_first hc rfl) ?_)), rfl, hc₁.advance⟩
    exact .step rfl (.step hend (.step (semicolon_mark hc₁) (.step rfl .done)))

theorem Whole.stated_return (h : Whole ps e) (span : Span) :
    Stated (word "return" :: blank :: (ps ++ [mark .semicolon])) (.ret (some e) span) where
  starts := ⟨_, _, rfl, by decide⟩
  reads {c b rest} hc _ := by
    rw [List.cons_append, List.cons_append, List.append_assoc, List.singleton_append] at hc
    have hc₁ := hc.advance.blank
    obtain ⟨e', c₂, hr₂, he, hc₂⟩ := h.reads hc₁ (follows_mark _ (by decide))
    have hend : Parser.atStatementEnd c.advance = .ok (false, c.advance) := by
      obtain ⟨t, qs, rfl, ho⟩ := h.opens
      rw [Parser.atStatementEnd, Cursor.atStatementEnd, hc₁.current, hc₁.afterBreak]
      cases t with
      | mark m => cases m <;> first | rfl | cases ho
      | finish => cases ho
      | _ => rfl
    refine ⟨.ret (some e') (c.current.span.upTo c₂.advance.before), c₂.advance,
      .of_code (.step rfl (.step (peek_first hc rfl) ?_)), by rw [Stmt.bare, he, Stmt.bare], hc₂.advance⟩
    exact .step rfl (.step hend (.call hr₂ (.step (semicolon_mark hc₂) (.step rfl .done))))

theorem Whole.stated_throw (h : Whole ps e) (span : Span) :
    Stated (word "throw" :: blank :: (ps ++ [mark .semicolon])) (.throw e span) where
  starts := ⟨_, _, rfl, by decide⟩
  reads {c b rest} hc _ := by
    rw [List.cons_append, List.cons_append, List.append_assoc, List.singleton_append] at hc
    obtain ⟨e', c₂, hr₂, he, hc₂⟩ := h.reads hc.advance.blank (follows_mark _ (by decide))
    refine ⟨.throw e' (c.current.span.upTo c₂.advance.before), c₂.advance,
      .of_code (.step rfl (.step (peek_first hc rfl) ?_)), by rw [Stmt.bare, he, Stmt.bare], hc₂.advance⟩
    exact .step rfl (.call hr₂ (.step (semicolon_mark hc₂) (.step rfl .done)))

/-! ## Branches and loops -/

theorem Whole.inParens (h : Whole ps e) (hc : c.Reads b (mark .leftParen :: (ps ++ mark .rightParen :: rest))) :
    Gets (Nonterminal.inParens.Gives c) e rest := by
  obtain ⟨e', c₂, hr₂, he, hc₂⟩ := h.reads hc.advance (follows_mark _ (by decide))
  exact ⟨e', c₂.advance,
    .of_code (.step (expect_mark hc) (.call hr₂ (.step (expect_mark hc₂) .done))), he, hc₂.advance⟩

/-- What is written for the body of a branch or a loop. -/
structure Body (ps : List Piece) (s : Stmt) : Prop where
  blocked : ∃ body, Blocked ps body ∧
    (if !s.isBlock then .block [s.bare true] .none else s.bare true) = Stmt.block (bareStmts true body) .none

theorem Body.reads (h : Body ps s) (hc : c.Reads b (ps ++ rest)) :
    ∃ s' c', (Nonterminal.statement false).Gives c s' c' ∧
      s'.bare false = (if !s.isBlock then .block [s.bare true] .none else s.bare true) ∧ c'.Reads false rest := by
  obtain ⟨body, hb, hs⟩ := h.blocked
  rw [hs]
  exact hb.statement hc

theorem stated_branch (ht : Whole ps e) (hy : Body qs yes) (span : Span) :
    Stated (word "if" :: blank :: mark .leftParen :: (ps ++ mark .rightParen :: blank :: qs))
      (.branch e yes none span) where
  starts := ⟨_, _, rfl, by decide⟩
  reads {c b rest} hc hapart := by
    simp only [List.append_assoc, List.cons_append] at hc
    obtain ⟨e', c₂, hr₂, he, hc₂⟩ := ht.inParens hc.advance.blank
    obtain ⟨yes', c₃, hr₃, hyes, hc₃⟩ := hy.reads hc₂.blank
    have helse := eatWord_next hc₃ (hapart "else" (by decide))
    refine ⟨.branch e' yes' none (c.current.span.upTo c₃.before), c₃,
      .of_code (.step rfl (.step (peek_first hc rfl) ?_)), ?_, hc₃⟩
    · exact .step rfl (.call hr₂ (.call hr₃ (.step helse (.step rfl .done))))
    · rw [Stmt.bare, Stmt.bare, he, Bool.false_and, if_neg Bool.false_ne_true, hyes, Bool.true_and]

theorem stated_branchElse {no : Stmt} (ht : Whole ps e) (hy : Body qs yes)
    (hno : ReadsAs rs (if !(no.isBlock || no.isBranch) then .block [no.bare true] .none else no.bare true))
    (span : Span) : Stated (word "if" :: blank :: mark .leftParen :: (ps ++ mark .rightParen :: blank ::
      (qs ++ blank :: word "else" :: blank :: rs))) (.branch e yes (some no) span) where
  starts := ⟨_, _, rfl, by decide⟩
  reads {c b rest} hc hapart := by
    simp only [List.append_assoc, List.cons_append] at hc
    obtain ⟨e', c₂, hr₂, he, hc₂⟩ := ht.inParens hc.advance.blank
    obtain ⟨yes', c₃, hr₃, hyes, hc₃⟩ := hy.reads hc₂.blank
    have hc₃ := hc₃.blank
    obtain ⟨no', c₅, hr₅, hno', hc₅⟩ := hno hc₃.advance.blank hapart
    refine ⟨.branch e' yes' (some no') (c.current.span.upTo c₅.before), c₅,
      .of_code (.step rfl (.step (peek_first hc rfl) ?_)), ?_, hc₅⟩
    · exact .step rfl (.call hr₂ (.call hr₃ (.step (eatWord_word hc₃) (.call hr₅ (.step rfl .done)))))
    · rw [Stmt.bare, Stmt.bare, he, Bool.false_and, Bool.false_and, if_neg Bool.false_ne_true,
        if_neg Bool.false_ne_true, hyes, hno', Bool.true_and, Bool.true_and]

theorem stated_loop {body : Stmt} (ht : Whole ps e) (hb : Body qs body) (span : Span) :
    Stated (word "while" :: blank :: mark .leftParen :: (ps ++ mark .rightParen :: blank :: qs))
      (.loop e body span) where
  starts := ⟨_, _, rfl, by decide⟩
  reads {c b rest} hc hapart := by
    simp only [List.append_assoc, List.cons_append] at hc
    obtain ⟨e', c₂, hr₂, he, hc₂⟩ := ht.inParens hc.advance.blank
    obtain ⟨body', c₃, hr₃, hbody, hc₃⟩ := hb.reads hc₂.blank
    refine ⟨.loop e' body' (c.current.span.upTo c₃.before), c₃,
      .of_code (.step rfl (.step (peek_first hc rfl) ?_)), ?_, hc₃⟩
    · exact .step rfl (.call hr₂ (.call hr₃ (.step rfl .done)))
    · rw [Stmt.bare, Stmt.bare, he, Bool.false_and, if_neg Bool.false_ne_true, hbody, Bool.true_and]

/-! ## Switches -/

/-- The pieces of `cs` are read as cases through a closing brace. -/
structure Cased (ps : List Piece) (cs : List Case) : Prop where
  ends (depth : Nat) (rest : List Piece) :
    Ending.case.endsAt (nextToken (ps ++ indent depth :: mark .rightBrace :: rest)) = true
  reads : ∀ {c b rest depth} (hasDefault : Bool), c.Reads b (ps ++ indent depth :: mark
    .rightBrace :: rest) → cs.countP (·.test.isNone) + (if hasDefault then 1 else 0) ≤ 1 →
    ∃ cs' c', (Nonterminal.cases false hasDefault).Gives c cs' c' ∧ bareCases false cs' =
      bareCases true cs ∧ c'.Reads false rest

theorem cased_nil : Cased [] [] where
  ends _ _ := rfl
  reads {c b rest depth} hasDefault hc _ := by
    have hc' : c.Reads _ (mark .rightBrace :: rest) := Cursor.reads_gap.1 hc
    exact ⟨[], c.advance, .of_code (.step (eat_mark hc') .done), rfl, hc'.advance⟩

theorem Cased.case (ht : Whole ps e) (hb : Lined qs body) (hcs : Cased rs cs) (depth : Nat) :
    Cased (lineOf depth (word "case" :: blank :: (ps ++ [mark .colon])) ++ qs ++ rs) (⟨some e, body⟩ :: cs) where
  ends _ _ := rfl
  reads {c b rest d} hasDefault hc hcount := by
    simp only [lineOf, List.append_assoc, List.cons_append, List.nil_append, Cursor.reads_gap] at hc
    obtain ⟨e', c₂, hr₂, he, hc₂⟩ := ht.reads hc.advance.blank (follows_mark _ (by decide))
    obtain ⟨body', c₄, b₄, hr₄, hbody, hc₄⟩ := hb.reads .case (Cursor.reads_gap.1 hc₂.advance) (hcs.ends d rest)
    obtain ⟨cs', c₅, hr₅, hcs₅, hc₅⟩ := hcs.reads hasDefault hc₄ (by simpa using hcount)
    refine ⟨⟨some e', body'⟩ :: cs', c₅, .of_code (.step (eat_other hc rfl rfl) (.step (eatWord_word hc) ?_)),
      by simp only [bareCases, he, hbody, hcs₅], hc₅⟩
    exact .call hr₂ (.step (expect_mark hc₂) (.call hr₄ (.call hr₅ .done)))

theorem Cased.otherwise (hb : Lined qs body) (hcs : Cased rs cs) (depth : Nat) :
    Cased (lineOf depth [word "default", mark .colon] ++ qs ++ rs) (⟨none, body⟩ :: cs) where
  ends _ _ := rfl
  reads {c b rest d} hasDefault hc hcount := by
    simp only [lineOf, List.append_assoc, List.cons_append, List.nil_append, Cursor.reads_gap] at hc
    have hc₁ := hc.advance
    obtain ⟨body', c₄, b₄, hr₄, hbody, hc₄⟩ := hb.reads .case (Cursor.reads_gap.1 hc₁.advance) (hcs.ends d rest)
    cases hasDefault with
    | true => simp at hcount
    | false =>
      obtain ⟨cs', c₅, hr₅, hcs₅, hc₅⟩ := hcs.reads true hc₄ (by simpa using hcount)
      refine ⟨⟨none, body'⟩ :: cs', c₅, .of_code (.step (eat_other hc rfl rfl) ?_),
        by simp only [bareCases, hbody, hcs₅], hc₅⟩
      refine .step (eatWord_other hc rfl (by decide)) (.step (atWord_first hc rfl "default") ?_)
      exact .step rfl (.step (expect_mark hc₁) (.call hr₄ (.call hr₅ .done)))

theorem stated_switch (ht : Whole ps e) (hcs : Cased qs cs) (hcount : cs.countP (·.test.isNone) ≤ 1)
    (depth : Nat) (span : Span) :
    Stated (word "switch" :: blank :: mark .leftParen :: (ps ++ mark .rightParen :: blank :: mark
      .leftBrace :: break_ :: (qs ++ [indent depth, mark .rightBrace]))) (.switch e cs span) where
  starts := ⟨_, _, rfl, by decide⟩
  reads {c b rest} hc hapart := by
    simp only [List.append_assoc, List.cons_append, List.nil_append] at hc
    obtain ⟨e', c₂, hr₂, he, hc₂⟩ := ht.inParens hc.advance.blank
    have hc₂ := hc₂.blank
    obtain ⟨cs', c₄, hr₄, hcs₄, hc₄⟩ := hcs.reads false (Cursor.reads_gap.1 hc₂.advance) (by simpa using hcount)
    refine ⟨.switch e' cs' (c.current.span.upTo c₄.before), c₄,
      .of_code (.step rfl (.step (peek_first hc rfl) ?_)),
      by rw [Stmt.bare, he, hcs₄, Stmt.bare], hc₄⟩
    exact .step rfl (.call hr₂ (.step (expect_mark hc₂) (.call hr₄ (.step rfl .done))))

/-! ## Clauses -/

/-- Reads a clause if it is there. -/
def Code.clause {α : Type} (present : Parser Bool) (p : Code α) : Code (Option α) := do
  if ← present then some <$> p else pure none

theorem Code.Gives.clause {β : Type} {p : Code β} {f : Option β → Code α} {o : Option β}
    (h : (Code.clause present p).Gives c o c₁) (hf : (f o).Gives c₁ a c') :
    ((liftM present : Code Bool) >>= fun b => if b then (some <$> p) >>= f else pure none >>= f).Gives c a c' := by
  obtain ⟨b, c₂, hpresent, h⟩ := h
  refine .step hpresent ?_
  cases b
  · exact .bind h hf
  · exact .bind h hf

theorem clause_none (h : present c = .ok (false, c)) : (Code.clause present p).Gives c none c :=
  .step h .done

theorem clause_some (h : present c = .ok (true, c₁)) (hp : p.Gives c₁ a c') :
    (Code.clause present p).Gives c (some a) c' :=
  .step h (.map hp)

/-! ## Declarations -/

/-- The pieces of a declarator are read back. -/
inductive Declared (kind : BindingKind) : List Piece → Declarator → Prop
  | bare {x : String} (hx : isReserved x = false) (hkind : kind ≠ .constant) : Declared kind [word x] ⟨x, none⟩
  | init {x : String} {ps : List Piece} {e : Expr} (hx : isReserved x = false) (he : Whole ps e) :
    Declared kind (word x :: blank :: mark .assign :: blank :: ps) ⟨x, some e⟩

theorem Declared.reads {d : Declarator} (h : Declared kind ps d) {m : Mark}
    (hm : m = .comma ∨ m = .semicolon) (hc : c.Reads b (ps ++ mark m :: rest)) :
    ∃ init' c₁ c', name c = .ok (d.name, c₁) ∧ (Code.clause (eat .assign) (get .assignment)).Gives
      c₁ init' c' ∧ bareDecls false [⟨d.name, init'⟩] = bareDecls true [d] ∧
      (kind = .constant && init'.isNone) = false ∧ c'.Reads false (mark m :: rest) := by
  cases h with
  | @bare x hx hkind =>
    have hc₁ := hc.advance
    have heat : eat .assign c.advance = .ok (false, c.advance) := by
      rcases hm with rfl | rfl <;> exact eat_other hc₁ rfl rfl
    exact ⟨none, c.advance, c.advance, name_word hc hx, clause_none heat, rfl, by simp [hkind], hc₁⟩
  | @init x qs e hx he =>
    have hc₁ := hc.advance.blank
    have hfollows : Follows 0 (mark m :: rest) := by
      rcases hm with rfl | rfl <;> exact follows_mark _ (by decide)
    obtain ⟨e', c₃, hr₃, he₃, hc₃⟩ := he.reads hc₁.advance.blank hfollows
    exact ⟨some e', c.advance, c₃, name_word hc hx, clause_some (eat_mark hc₁) (.tail hr₃),
      by simp only [bareDecls, he₃], by simp, hc₃⟩

theorem bareDecls_cons (braces : Bool) (d : Declarator) (ds : List Declarator) :
    bareDecls braces (d :: ds) = bareDecls braces [d] ++ bareDecls braces ds := by
  obtain ⟨x, _ | e⟩ := d <;> simp [bareDecls]

theorem declarators_read (h : List.Forall₂ (Declared kind) pss ds) (hne : ds ≠ []) :
    ∀ {c b rest}, c.Reads b (commas pss ++ mark .semicolon :: rest) →
      ∃ ds' c', (Nonterminal.declarators kind).Gives c ds' c' ∧ bareDecls false ds' =
        bareDecls true ds ∧ c'.Reads false (mark .semicolon :: rest) := by
  induction h with
  | nil => exact absurd rfl hne
  | @cons ps d pss ds hd hds ih =>
    intro c b rest hc
    cases hds with
    | nil =>
      obtain ⟨init', c₁, c', hname, hinit, hbare, hkind, hc'⟩ := hd.reads (Or.inr rfl) hc
      refine ⟨[⟨d.name, init'⟩], c', .of_code (.step hname (.clause hinit ?_)), hbare, hc'⟩
      simp only [hkind, Bool.false_eq_true, if_false]
      exact .step (eat_other hc' rfl rfl) .done
    | @cons qs d₂ pss ds hd₂ hds =>
      rw [commas, List.append_assoc] at hc
      obtain ⟨init', c₁, c', hname, hinit, hbare, hkind, hc'⟩ := hd.reads (Or.inl rfl) hc
      obtain ⟨ds', c₃, hr₃, hds₃, hc₃⟩ := ih (by simp) hc'.advance.blank
      refine ⟨⟨d.name, init'⟩ :: ds', c₃, .of_code (.step hname (.clause hinit ?_)), ?_, hc₃⟩
      · simp only [hkind, Bool.false_eq_true, if_false]
        exact .step (eat_mark hc') (.call hr₃ .done)
      · rw [bareDecls_cons, hbare, hds₃, ← bareDecls_cons]

theorem stated_declare (h : List.Forall₂ (Declared kind) pss ds) (hne : ds ≠ []) (span : Span) :
    Stated (word kind.keyword :: blank :: (commas pss ++ [mark .semicolon])) (.declare kind ds span) where
  starts := ⟨_, _, rfl, by cases kind <;> decide⟩
  reads {c b rest} hc _ := by
    simp only [List.append_assoc, List.cons_append, List.nil_append] at hc
    obtain ⟨ds', c₂, hr₂, hds, hc₂⟩ := declarators_read h hne hc.advance.blank
    let span' := c.current.span.upTo c₂.advance.before
    have hdeclaration :
      (Nonterminal.declaration kind c.current.span).Gives c (.declare kind ds' span') c₂.advance :=
      .of_code (.step rfl (.call hr₂ (.step (semicolon_mark hc₂) (.step rfl .done))))
    refine ⟨.declare kind ds' span', c₂.advance, .of_code (.step rfl (.step (peek_first hc rfl) ?_)),
      by rw [Stmt.bare, hds, Stmt.bare], hc₂.advance⟩
    cases kind <;> exact .tail hdeclaration

/-! ## Function declarations -/

theorem funcDeclaration_read (hx : isReserved x = false) (hxs : ∀ y ∈ xs, isReserved y = false)
    (hb : Blocked ps body) (start span : Span) (isAsync generator : Bool)
    (hc : c.Reads b (calledPieces generator (some x) ++
      mark .leftParen :: (namePieces xs ++ mark .rightParen :: blank :: (ps ++ rest)))) :
    ∃ s' c', (Nonterminal.funcDeclaration start isAsync).Gives c s' c' ∧
      s'.bare false = (Stmt.func ⟨some x, xs, .block body, isAsync,
        if generator then .generator else .plain, span⟩).bare true ∧ c'.Reads false rest := by
  obtain ⟨c₁, b₁, heat, hc₁⟩ := star_read hc
  obtain ⟨f', c', hr, hf, hc'⟩ :=
    funcRest_read hxs hb start span (some x) isAsync generator hc₁.advance
  exact ⟨.func f', c', .of_code (.step heat (.step (name_word hc₁ hx) (.call hr .done))),
    by rw [Stmt.bare, hf, Stmt.bare], hc'⟩

theorem stated_function (hx : isReserved x = false) (hxs : ∀ y ∈ xs, isReserved y = false)
    (hb : Blocked ps body) (span : Span) (isAsync generator : Bool) :
    Stated (functionPieces isAsync generator (some x) xs ps)
      (.func ⟨some x, xs, .block body, isAsync, if generator then .generator else .plain, span⟩) where
  starts := by cases isAsync <;> exact ⟨_, _, rfl, by decide⟩
  reads {c b rest} hc _ := by
    cases isAsync with
    | false =>
      have hc₀ : c.Reads b (word "function" :: (calledPieces generator (some x) ++
          mark .leftParen :: (namePieces xs ++ mark .rightParen :: blank :: (ps ++ rest)))) := by
        simpa [functionPieces] using hc
      obtain ⟨s', c', hr, hs, hc'⟩ :=
        funcDeclaration_read hx hxs hb c.current.span span false generator hc₀.advance
      exact ⟨s', c', .of_code (.step rfl (.step (peek_first hc₀ rfl) (.step rfl (.tail hr)))), hs, hc'⟩
    | true =>
      have hc₀ : c.Reads b (word "async" :: blank :: word "function" :: (calledPieces generator (some x) ++
          mark .leftParen :: (namePieces xs ++ mark .rightParen :: blank :: (ps ++ rest)))) := by
        simpa [functionPieces] using hc
      obtain ⟨s', c', hr, hs, hc'⟩ :=
        funcDeclaration_read hx hxs hb c.current.span span true generator hc₀.advance.blank.advance
      have hfollows : functionFollows c = .ok (true, c) := by
        rw [functionFollows, hc₀.peekAt 1]
        rfl
      refine ⟨s', c', .of_code (.step rfl (.step (peek_first hc₀ rfl) ?_)), hs, hc'⟩
      exact .step hfollows (.step rfl (.step rfl (.tail hr)))

/-! ## Try statements -/

/-- The pieces of a catch clause are read back. -/
inductive Handled : List Piece → Option Handler → Prop
  | none : Handled [] none
  | plain {ps : List Piece} {body : List Stmt} (h : Blocked ps body) :
    Handled (blank :: word "catch" :: blank :: ps) (some ⟨.none, body⟩)
  | param {x : String} {ps : List Piece} {body : List Stmt} (hx : isReserved x = false) (h : Blocked
    ps body) : Handled (blank :: word "catch" :: blank :: mark .leftParen :: word x :: mark
      .rightParen :: blank :: ps) (some ⟨some x, body⟩)

/-- The pieces of a finally clause are read back. -/
inductive Finished : List Piece → Option (List Stmt) → Prop
  | none : Finished [] none
  | block {ps : List Piece} {body : List Stmt} (h : Blocked ps body) :
    Finished (blank :: word "finally" :: blank :: ps) (some body)

theorem Handled.reads (hh : Handled hs h) (hc : c.Reads false (hs ++ rest))
    (hrest : (nextToken rest).isWord "catch" = false) :
    ∃ h' c', (Code.clause (eatWord "catch") (get (.handler false))).Gives c h' c' ∧
      bareHandler false h' = bareHandler true h ∧ c'.Reads false rest := by
  cases hh with
  | none => exact ⟨.none, c, clause_none (eatWord_next hc hrest), rfl, hc⟩
  | @plain ps body hb =>
    have hc₀ : c.Reads false (word "catch" :: blank :: (ps ++ rest)) := hc.blank
    have hc₁ := hc₀.advance.blank
    obtain ⟨body', c₂, hr₂, hbody, hc₂⟩ := hb.reads hc₁
    obtain ⟨qs, rfl⟩ := hb.brace
    have hbinding : binding? c.advance = .ok (.none, c.advance) := by
      rw [binding?, bind_ok (eat_other hc₁ rfl rfl)]
      rfl
    exact ⟨some ⟨.none, body'⟩, c₂,
      clause_some (eatWord_word hc₀) (.tail (.of_code (.step hbinding (.call hr₂ .done)))),
      by simp only [bareHandler, hbody], hc₂⟩
  | @param x ps body hx hb =>
    have hc₀ : c.Reads false (word "catch" :: blank :: mark .leftParen :: word x :: mark
      .rightParen :: blank :: (ps ++ rest)) := hc.blank
    have hc₁ := hc₀.advance.blank
    have hc₃ := hc₁.advance.advance
    obtain ⟨body', c₅, hr₅, hbody, hc₅⟩ := hb.reads hc₃.advance.blank
    have hbinding : binding? c.advance = .ok (some x, c.advance.advance.advance.advance) := by
      rw [binding?, bind_ok (eat_mark hc₁)]
      change (name >>= fun _ => _) _ = _
      rw [bind_ok (name_word hc₁.advance hx), bind_ok (expect_mark hc₃)]
      rfl
    exact ⟨some ⟨some x, body'⟩, c₅,
      clause_some (eatWord_word hc₀) (.tail (.of_code (.step hbinding (.call hr₅ .done)))),
      by simp only [bareHandler, hbody], hc₅⟩

theorem Finished.reads (hf : Finished fs f) (hc : c.Reads false (fs ++ rest))
    (hrest : (nextToken rest).isWord "finally" = false) :
    ∃ f' c', (Code.clause (eatWord "finally") (get (.block false))).Gives c f' c' ∧
      bareBlock false f' = bareBlock true f ∧ c'.Reads false rest := by
  cases hf with
  | none => exact ⟨.none, c, clause_none (eatWord_next hc hrest), rfl, hc⟩
  | @block ps body hb =>
    have hc₀ : c.Reads false (word "finally" :: blank :: (ps ++ rest)) := hc.blank
    obtain ⟨body', c₂, hr₂, hbody, hc₂⟩ := hb.reads hc₀.advance.blank
    exact ⟨some body', c₂, clause_some (eatWord_word hc₀) (.tail hr₂), by simp only [bareBlock, hbody], hc₂⟩

theorem isNone_of_bareHandler {h' : Option Handler}
    (hh : bareHandler false h' = bareHandler true h) : h'.isNone = h.isNone := by
  obtain _ | ⟨_, _⟩ := h <;> obtain _ | ⟨_, _⟩ := h' <;> simp [bareHandler] at hh ⊢

theorem isNone_of_bareBlock {f' : Option (List Stmt)} (hf : bareBlock false f' = bareBlock true f) :
    f'.isNone = f.isNone := by
  obtain _ | _ := f <;> obtain _ | _ := f' <;> simp [bareBlock] at hf ⊢

theorem stated_guarded (hb : Blocked ps body) (hh : Handled hs h) (hf : Finished fs f)
    (hsome : h.isSome ∨ f.isSome) (span : Span) :
    Stated (word "try" :: blank :: (ps ++ hs ++ fs)) (.guarded body h f span) where
  starts := ⟨_, _, rfl, by decide⟩
  reads {c b rest} hc hapart := by
    simp only [List.append_assoc, List.cons_append] at hc
    obtain ⟨body', c₂, hr₂, hbody, hc₂⟩ := hb.reads hc.advance.blank
    have hnext : (nextToken (fs ++ rest)).isWord "catch" = false := by
      cases hf with
      | none => exact hapart "catch" (by decide)
      | block _ => rfl
    obtain ⟨h', c₃, hr₃, hh₃, hc₃⟩ := hh.reads hc₂ hnext
    obtain ⟨f', c₄, hr₄, hf₄, hc₄⟩ := hf.reads hc₃ (hapart "finally" (by decide))
    have hlone : (h'.isNone && f'.isNone) = false := by
      rw [isNone_of_bareHandler hh₃, isNone_of_bareBlock hf₄]
      cases h <;> cases f <;> simp at hsome ⊢
    have hguarded : (Nonterminal.guarded false c.current.span).Gives c.advance
        (.guarded body' h' f' (c.current.span.upTo c₄.before)) c₄ := by
      refine .of_code (.call hr₂ (.clause hr₃ (.clause hr₄ ?_)))
      simp only [hlone, Bool.false_eq_true, if_false]
      exact .step rfl .done
    exact ⟨_, c₄, .of_code (.step rfl (.step (peek_first hc rfl) (.step rfl (.tail hguarded)))),
      by rw [Stmt.bare, hbody, hh₃, hf₄, Stmt.bare], hc₄⟩

end RaiseScript
