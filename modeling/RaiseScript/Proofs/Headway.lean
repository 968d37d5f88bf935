import RaiseScript.Proofs.Productions

/-!
# Parsing ends

Every call of a rule lowers its weight (`Allows.lower`), so what `Fulfils` says of the code of the
rules holds of their runs : by induction on the weight a rule does what `Spec` says
(`spec_of_gives`), and a budget above its need is enough (`unexhausted`). `parsing_ends` says it of
whole lists of lexemes, whether they spell a program or not. The reading ends with a tree or a
refusal, no budget larger than `budgetFor` changes the answer, the cursor only goes on and never
leaves the lexemes, and a rule is called from within itself only behind where it started.
-/

namespace RaiseScript

open Relation
open RaiseScript.Parser
open Nonterminal (get)

namespace Nonterminal

variable {c c' : Cursor} {r : Nonterminal}

/-! ## Runs of rules -/

theorem fulfils (h : r.Ready c) : r.Fulfils c := by
  obtain ⟨hc, hyield⟩ := h
  cases r with
  | assignment => exact fulfils_assignment hc
  | arrow => exact fulfils_arrow hc
  | yieldExpr => exact fulfils_yieldExpr hc (hyield rfl)
  | level => exact fulfils_level hc
  | operand => exact fulfils_operand hc
  | operators => exact fulfils_operators hc
  | unary => exact fulfils_unary hc
  | suffixes => exact fulfils_suffixes hc
  | items => exact fulfils_items hc
  | primary => exact fulfils_primary hc
  | funcExpr => exact fulfils_funcExpr hc
  | funcRest => exact fulfils_funcRest hc
  | attempt => exact fulfils_attempt hc
  | statement => exact fulfils_statement hc
  | expressionStatement => exact fulfils_expressionStatement hc
  | declaration => exact fulfils_declaration hc
  | declarators => exact fulfils_declarators hc
  | inParens => exact fulfils_inParens hc
  | cases => exact fulfils_cases hc
  | guarded => exact fulfils_guarded hc
  | handler => exact fulfils_handler hc
  | funcDeclaration => exact fulfils_funcDeclaration hc
  | block => exact fulfils_block hc
  | statements => exact fulfils_statements hc
  | names => exact fulfils_names hc

/-- A rule does what is said of it. -/
theorem spec_of_gives (hr : r.Ready c) {a : r.Result} (h : r.Gives c a c') : r.Spec c a c' := by
  induction hw : r.weight c using Nat.strongRecOn generalizing r c c' with
  | ind k ih =>
    obtain ⟨n, hn⟩ := h
    cases n with
    | zero => cases (congrFun (read_zero r) c).symm.trans hn
    | succ n =>
      have hrun : r.code.run n c = .ok (a, c') := by rw [← read_succ, hn]
      refine (fulfils hr).ok (fun r' own c₁ b c₂ hallows hgives => ?_) hrun ⟨_, hn⟩
      exact ih _ (hw ▸ hallows.lower) hallows.ready hgives rfl

/-- The calls of a rule give what is said of them. -/
theorem spec_of_allows (r' : Nonterminal) (own : Option (Cursor → Nat)) (c₁ : Cursor) (b : r'.Result) (c₂ : Cursor)
    (h : r.Allows c r' own c₁) (hgives : r'.Gives c₁ b c₂) : r'.Spec c₁ b c₂ :=
  spec_of_gives h.ready hgives

/-- A budget above the need of a rule is enough. -/
theorem unexhausted (hr : r.Ready c) {n : Nat} (hn : r.need c < n) : ¬Exhausted (r.read n c) := by
  induction hw : r.weight c using Nat.strongRecOn generalizing r c n with
  | ind k ih =>
    obtain ⟨n, rfl⟩ : ∃ m, n = m + 1 := ⟨n - 1, by omega⟩
    rw [read_succ]
    refine (fulfils hr).unexhausted spec_of_allows fun r' own c₁ hallows => ?_
    refine ih _ (hw ▸ hallows.lower) hallows.ready (Nat.lt_of_lt_of_le hallows.enough ?_) rfl
    cases own with
    | none => exact Nat.le_of_lt_succ hn
    | some b => exact Nat.le_refl _

/-- With such a budget a rule gives what it gives with any. -/
theorem Gives.read {a : r.Result} (h : r.Gives c a c') (hr : r.Ready c) {n : Nat}
    (hn : r.need c < n) : r.read n c = .ok (a, c') := by
  obtain ⟨m, hm⟩ := h.eventually
  rw [← read_of_le (Nat.le_max_right m n) r (unexhausted hr hn), hm _ (Nat.le_max_left m n)]

theorem Spec.goes {a : r.Result} (h : r.Spec c a c') : ∃ read, c.Goes read c' := by
  obtain ⟨-, hlayout⟩ := h
  cases r with
  | operators | suffixes => exact hlayout.1.goes
  | funcExpr | funcRest | attempt =>
    obtain ⟨-, vs, -, htrail⟩ := hlayout
    exact htrail.goes
  | expressionStatement | declaration | guarded =>
    obtain ⟨⟨-, vs, -, htrail⟩, -⟩ := hlayout
    exact htrail.goes
  | funcDeclaration =>
    obtain ⟨f, -, -, vs, -, htrail⟩ := hlayout
    exact htrail.goes
  | _ => exact Trail.goes hlayout

/-- The rule without what it is told, but for the level of its operators. -/
def kind : Nonterminal → Nonterminal
  | .arrow .. => .arrow false .single
  | .operators l _ => .operators l .null
  | .suffixes _ => .suffixes .null
  | .items _ => .items .rightParen
  | .funcExpr .. => .funcExpr .none false
  | .funcRest .. => .funcRest .none none false false
  | .attempt _ => .attempt .none
  | .statement _ => .statement false
  | .expressionStatement _ => .expressionStatement .none
  | .declaration .. => .declaration .mutable .none
  | .declarators _ => .declarators .mutable
  | .cases .. => .cases false false
  | .guarded .. => .guarded false .none
  | .handler _ => .handler false
  | .funcDeclaration .. => .funcDeclaration .none false
  | .block _ => .block false
  | .statements .. => .statements false .program
  | r => r

theorem rank_kind (r : Nonterminal) : r.kind.rank = r.rank := by
  cases r <;> rfl

end Nonterminal

/-! ## Looking ahead -/

/-- The search for an arrow behind the parenthesis that closes the one opened `depth` levels up,
with no answer if it would go past the lexemes or close a parenthesis that was not opened. -/
def scanParens (depth : Nat) : List Lexeme → Option Bool
  | [] => none
  | l :: rest =>
    match l.token with
    | .finish => some false
    | .mark .leftParen => scanParens (depth + 1) rest
    | .mark .rightParen =>
      if depth = 0 then none
      else if depth = 1 then rest.head?.map (·.token.isMark .arrow)
      else scanParens (depth - 1) rest
    | _ => scanParens depth rest

/-- Inside a parenthesis the search has an answer. -/
theorem scanParens_eq {ls : List Lexeme} (hls : ∃ l ∈ ls, l.token.isFinish = true) {depth : Nat}
    (hd : 0 < depth) : scanParens depth ls = some (arrowAfterParens depth ls) := by
  induction ls generalizing depth with
  | nil =>
    obtain ⟨l, hl, -⟩ := hls
    cases hl
  | cons l rest ih =>
    obtain ⟨k, hk, hfinish⟩ := hls
    obtain ⟨t, span⟩ := l
    have hrest (ht : t.isFinish = false) : ∃ k ∈ rest, k.token.isFinish = true := by
      obtain rfl | hk := List.mem_cons.1 hk
      · cases ht.symm.trans hfinish
      · exact ⟨k, hk, hfinish⟩
    rw [scanParens, arrowAfterParens]
    cases t with
    | finish => rfl
    | mark m =>
      cases m with
      | leftParen => exact ih (hrest rfl) (Nat.succ_pos depth)
      | rightParen =>
        obtain ⟨m, hm, hm'⟩ := hrest rfl
        dsimp only
        rw [if_neg (by omega)]
        split
        · cases rest with
          | nil => cases hm
          | cons n rest => rfl
        · exact ih ⟨m, hm, hm'⟩ (by omega)
      | _ => exact ih (hrest rfl) hd
    | _ => exact ih (hrest rfl) hd

/-- From an opening parenthesis on the search has an answer. -/
theorem Cursor.Ends.scanParens_eq {c : Cursor} (hc : c.Ends) {offset : Nat}
    (h : (c.peekAt offset).isMark .leftParen = true) :
    scanParens 0 (c.ahead.drop offset) = some (arrowAfterParens 0 (c.ahead.drop offset)) := by
  obtain ⟨l, hl, hfinish⟩ := hc
  rw [peekAt, hl] at h
  cases hdrop : c.ahead.drop offset with
  | nil =>
    rw [hdrop] at h
    cases (isFinish_of_test rfl h).symm.trans hfinish
  | cons k rest =>
    rw [hdrop] at h
    have hlast : (c.ahead.drop offset).getLast? = some l := by
      have hlt : ¬c.ahead.length ≤ offset := fun hle => by simp [List.drop_eq_nil_of_le hle] at hdrop
      rw [List.getLast?_drop, if_neg hlt, hl]
    have hrest : ∃ l ∈ rest, l.token.isFinish = true := by
      obtain rfl | hmem := List.mem_cons.1 (hdrop ▸ List.mem_of_getLast? hlast)
      · cases (isFinish_of_test rfl h).symm.trans hfinish
      · exact ⟨l, hmem, hfinish⟩
    obtain ⟨t, span⟩ := k
    obtain rfl : t = .mark .leftParen := by
      cases t with
      | mark m => rw [eq_of_beq h]
      | _ => cases h
    exact RaiseScript.scanParens_eq hrest Nat.one_pos

/-! ## Chains of calls -/

/-- At the call the reading of the lexemes `init ++ [l]`, the last of which ends the input, goes on
as it should. -/
structure RuleCall.Advances (init : List Lexeme) (l : Lexeme) (s : RuleCall) : Prop where
  /-- The cursor stands at one of the lexemes. -/
  within : ∃ passed rest, init = passed ++ rest ∧ s.cursor.ahead = rest ++ [l]
  /-- The rule comes to an end, and a larger budget does not change it. -/
  ends : ¬Exhausted (s.rule.read s.budget s.cursor) ∧
    ∀ n ≥ s.budget, s.rule.read n s.cursor = s.rule.read s.budget s.cursor
  /-- The cursor goes on, and not past the last lexeme. -/
  goes : ∀ c c', s.Steps c c' → ∃ read, c.Goes read c'
  /-- What the rule calls stands where it stands or behind it, and behind it if it is the same
  rule. -/
  later : ∀ t, TransGen Calls s t → (∃ read, s.cursor.Goes read t.cursor) ∧
    (t.rule.kind = s.rule.kind → t.cursor.ahead.length < s.cursor.ahead.length)
  /-- The search for an arrow stays among the lexemes and closes only what was opened. -/
  scan : ∀ offset, (s.cursor.peekAt offset).isMark .leftParen = true →
    scanParens 0 (s.cursor.ahead.drop offset) = some (arrowAfterParens 0 (s.cursor.ahead.drop offset))

namespace RuleCall

variable {s t : RuleCall}

/-- The rule may be called with the budget. -/
def Fits (s : RuleCall) : Prop :=
  s.rule.Ready s.cursor ∧ s.rule.need s.cursor < s.budget

theorem Fits.calls (hs : s.Fits) (h : s.Calls t) :
    t.Fits ∧ (∃ read, s.cursor.Goes read t.cursor) ∧ t.rule.weight t.cursor < s.rule.weight s.cursor := by
  obtain ⟨hready, hneed⟩ := hs
  obtain ⟨n, hn, hcomes⟩ := h
  obtain ⟨own, hallows, hbudget⟩ := (Nonterminal.fulfils hready).comesTo Nonterminal.spec_of_allows hcomes
  refine ⟨⟨hallows.ready, Nat.lt_of_lt_of_le hallows.enough ?_⟩, hallows.trail.goes, hallows.lower⟩
  rw [hbudget]
  cases own with
  | none =>
    rw [hn] at hneed
    exact Nat.le_of_lt_succ hneed
  | some b => exact Nat.le_refl _

theorem Fits.chain (hs : s.Fits) (h : TransGen Calls s t) :
    t.Fits ∧ (∃ read, s.cursor.Goes read t.cursor) ∧ t.rule.weight t.cursor < s.rule.weight s.cursor := by
  induction h with
  | single h => exact hs.calls h
  | tail _ h ih =>
    obtain ⟨hfits, ⟨read, hread⟩, hlt⟩ := ih
    obtain ⟨hfits', ⟨read', hread'⟩, hlt'⟩ := hfits.calls h
    exact ⟨hfits', ⟨read ++ read', hread.trans hread'⟩, Nat.lt_trans hlt' hlt⟩

theorem Fits.advances (hs : s.Fits) {init : List Lexeme} {l : Lexeme}
    (hin : ∃ passed rest, init = passed ++ rest ∧ s.cursor.ahead = rest ++ [l]) : s.Advances init l where
  within := hin
  ends := by
    have hne := Nonterminal.unexhausted hs.1 hs.2
    exact ⟨hne, fun n hn => Nonterminal.read_of_le hn _ hne⟩
  goes := by
    rintro c c' ⟨n, -, hsteps⟩
    exact (Nonterminal.fulfils hs.1).steps Nonterminal.spec_of_allows (fun _ _ _ _ h => h.goes) hs.1.1 hsteps
  later := by
    intro t ht
    obtain ⟨-, hgoes, hlt⟩ := hs.chain ht
    refine ⟨hgoes, fun hkind => ?_⟩
    have hrank : t.rule.rank = s.rule.rank := by rw [← t.rule.rank_kind, hkind, s.rule.rank_kind]
    simp only [Nonterminal.weight, hrank] at hlt
    omega
  scan _ h := hs.1.1.scanParens_eq h

end RuleCall

/-! ## Whole texts -/

/-- Reads a single expression. -/
def wholeCode : Code Expr := do
  let e ← get .assignment
  let _ ← eat .semicolon
  if (← peek).isFinish then return e else refuseToken .trailing

theorem run_wholeCode (n : Nat) : wholeCode.run n = wholeExpression n := by
  simp [wholeCode, wholeExpression, Nonterminal.read]

theorem unexhausted_wholeExpression {c : Cursor} (hc : c.Ends) {n : Nat}
    (hn : Nonterminal.assignment.need c < n) : ¬Exhausted (wholeExpression n c) := by
  have hready : Nonterminal.assignment.Ready c := ⟨hc, fun h => by cases h⟩
  have hcode : wholeCode.Holds (fun r own c' => r = .assignment ∧ own = none ∧ c' = c)
      Nonterminal.Spec c fun _ _ => True := by
    refine holds_call ⟨rfl, rfl, rfl⟩ fun e c₁ he => ?_
    refine holds_step (moves_eat .semicolon c₁ (Trail.ends he.layout)) fun _ c₂ h₂ _ _ => ?_
    exact holds_look (holds_ite (fun _ => trivial) fun _ => holds_refuseToken fun _ h => by cases h)
  rw [← run_wholeCode]
  refine hcode.unexhausted ?_ ?_
  · rintro r own c₁ b c₂ ⟨rfl, rfl, rfl⟩ hgives
    exact Nonterminal.spec_of_gives hready hgives
  · rintro r own c₁ ⟨rfl, rfl, rfl⟩
    exact Nonterminal.unexhausted hready hn

theorem Exhausted.of_map {α β : Type} {f : α → β} {r : Except (SyntaxError × Span) α}
    (h : Exhausted (r.map f)) : Exhausted r := by
  obtain ⟨s, hs⟩ := h
  cases r with
  | error e => exact ⟨s, by rw [Except.error.inj hs]⟩
  | ok a => cases hs

/-- A cursor that goes on from the first lexeme stands at one of them. -/
theorem Cursor.Goes.within {init read : List Lexeme} {l : Lexeme} {c : Cursor}
    (h : (Cursor.start (init ++ [l])).Goes read c) : ∃ rest, init = read ++ rest ∧ c.ahead = rest ++ [l] := by
  obtain ⟨k, hk, -⟩ := h.ends
  obtain ⟨rest, m, hahead⟩ := List.eq_nil_or_concat c.ahead |>.resolve_left fun hnil => by simp [hnil] at hk
  rw [List.concat_eq_append] at hahead
  have hls : init ++ [l] = (read ++ rest) ++ [m] := by
    rw [List.append_assoc, ← hahead]
    exact h.ahead
  obtain ⟨hinit, hl⟩ := List.append_inj' hls rfl
  obtain rfl := List.singleton_inj.1 hl
  exact ⟨rest, hinit, hahead⟩

/-- Reading lexemes of which the last ends the input comes to a tree or a refusal. On the way,
whatever the lexemes are, the cursor goes on and never past the last lexeme, no rule comes back to
itself where it started, and the search for an arrow stays among the lexemes. -/
theorem parsing_ends {init : List Lexeme} {l : Lexeme} (hl : l.token.isFinish = true) :
    ¬Exhausted (parseLexemes (init ++ [l])) ∧ ¬Exhausted (parseExprLexemes (init ++ [l])) ∧
    ∀ root : Nonterminal, root = .statements false .program ∨ root = .assignment →
      ∀ s, ReflTransGen RuleCall.Calls ⟨budgetFor (init ++ [l]), root, .start (init ++ [l])⟩ s →
        s.Advances init l := by
  have hends : (Cursor.start (init ++ [l])).Ends := ⟨l, List.getLast?_concat .., hl⟩
  have hfits (root : Nonterminal) (hroot : root = .statements false .program ∨ root = .assignment) :
      RuleCall.Fits ⟨budgetFor (init ++ [l]), root, .start (init ++ [l])⟩ := by
    obtain rfl | rfl := hroot
    all_goals
      refine ⟨⟨hends, fun h => by cases h⟩, ?_⟩
      simp only [Nonterminal.need, Nonterminal.weight, Nonterminal.rank, budgetFor, Cursor.start]
      omega
  have hprogram := hfits _ (.inl rfl)
  have hexpr := hfits _ (.inr rfl)
  refine ⟨fun h => Nonterminal.unexhausted hprogram.1 hprogram.2 h.of_map,
    fun h => unexhausted_wholeExpression hends hexpr.2 h.of_map, fun root hroot s hs => ?_⟩
  obtain rfl | hs := reflTransGen_iff_eq_or_transGen.1 hs
  · exact (hfits root hroot).advances ⟨[], init, rfl, rfl⟩
  · obtain ⟨hfits', ⟨read, hread⟩, -⟩ := (hfits root hroot).chain hs
    exact hfits'.advances ⟨read, hread.within⟩

/-- A call that is not closed and follows an unfinished list of parameters is refused. -/
theorem parsing_ends_unclosed :
    let init : List Lexeme :=
      [⟨.mark .leftParen, ⟨0, 1, 1⟩⟩, ⟨.word "f", ⟨1, 2, 1⟩⟩, ⟨.mark .leftParen, ⟨2, 3, 1⟩⟩]
    let l : Lexeme := ⟨.finish, ⟨3, 3, 1⟩⟩
    l.token.isFinish = true ∧ ¬Exhausted (parseLexemes (init ++ [l])) ∧
      ¬Exhausted (parseExprLexemes (init ++ [l])) ∧
    ∀ root : Nonterminal, root = .statements false .program ∨ root = .assignment →
      ∀ s, ReflTransGen RuleCall.Calls ⟨budgetFor (init ++ [l]), root, .start (init ++ [l])⟩ s →
        s.Advances init l :=
  ⟨rfl, parsing_ends rfl⟩

end RaiseScript
