import RaiseScript.Proofs.Progress

/-!
# The rules make progress

Every rule of the grammar keeps to its calls, and does what `Spec` says of it if the rules it calls
do (`fulfils`).
-/

namespace RaiseScript

open RaiseScript.Parser

namespace Nonterminal

/-- The code, as the rest of a rule that started at the first cursor, keeps to the calls of the rule
and does what is said of it. -/
def Completes (r : Nonterminal) (c₀ : Cursor) (p : Code r.Result) (c : Cursor) : Prop :=
  p.Holds (r.Allows c₀) Spec c fun a c' => r.Gives c₀ a c' → r.Spec c₀ a c'

/-- The rule keeps to its calls and does what is said of it. -/
abbrev Fulfils (r : Nonterminal) (c : Cursor) : Prop :=
  r.Completes c r.code c

variable {c c₀ c₁ c' : Cursor} {r r' : Nonterminal}

/-! ## Calls -/

theorem need_le (r : Nonterminal) (c : Cursor) : r.need c ≤ r.weight c := by
  cases r <;> simp only [need, weight] <;> omega

/-- Whether a rule may call another one at any place behind its beginning. -/
def mayCall : Nonterminal → Nonterminal → Bool
  | .names, _ | _, .yieldExpr => false
  | _, _ => true

theorem allows_of_lt (hr : r.mayCall r' = true) (h : Trail c c' [] [])
    (hlt : r'.weight c' < r.weight c) : r.Allows c r' none c' := by
  have hneed : r.need c = r.weight c := by
    cases r with
    | names => cases hr
    | _ => rfl
  refine ⟨h, ⟨h.ends, ?_⟩, hlt, Nat.lt_of_le_of_lt (need_le r' c') (hneed ▸ hlt)⟩
  rintro rfl
  cases r <;> cases hr

/-- A rule may be called when a lexeme was passed. -/
theorem allows_later (hr : r.mayCall r' = true) (h : Trail c c' [] [])
    (hlt : c'.ahead.length < c.ahead.length) : r.Allows c r' none c' := by
  have hrank := r'.rank_lt
  exact allows_of_lt hr h (by simp only [weight]; omega)

/-- A rule of lower rank may be called. -/
theorem allows_lower (hr : r.mayCall r' = true) (h : Trail c c' [] []) (hrank : r'.rank < r.rank) :
    r.Allows c r' none c' := by
  have hle := h.length_le
  exact allows_of_lt hr h (by simp only [weight]; omega)

/-- An expression is read when a lexeme was passed. -/
theorem holds_expr (hr : r.mayCall assignment = true) {α : Type} {f : Expr → Code α}
    {R : α → Cursor → Prop} (h : Trail c₀ c [] []) (hlt : c.ahead.length < c₀.ahead.length)
    (hf : ∀ e c', Trail c₀ c' (e.walk .all) [] → c'.ahead.length < c.ahead.length →
      (f e).Holds (r.Allows c₀) Spec c' R) : (get assignment >>= f).Holds (r.Allows c₀) Spec c R :=
  holds_call (allows_later hr h hlt) fun e c' he => hf e c' (h.append he.layout) (he.moves rfl)

/-- So is one in parentheses. -/
theorem holds_test (hr : r.mayCall inParens = true) {α : Type} {f : Expr → Code α}
    {R : α → Cursor → Prop} (h : Trail c₀ c [] []) (hlt : c.ahead.length < c₀.ahead.length)
    (hf : ∀ e c', Trail c₀ c' (e.walk .all) [] → c'.ahead.length < c.ahead.length →
      (f e).Holds (r.Allows c₀) Spec c' R) : (get inParens >>= f).Holds (r.Allows c₀) Spec c R :=
  holds_call (allows_later hr h hlt) fun e c' he => hf e c' (h.append he.layout) (he.moves rfl)

/-! ## Expressions -/

variable {l : Level} {left : Expr} {m : Mark} {ps : ArrowParams} {start : Span} {called : Option String}
  {kind : BindingKind} {isAsync generator raising hasDefault : Bool} {ending : Ending} (hc : c.Ends)

include hc

theorem fulfils_assignment : assignment.Fulfils c := by
  refine holds_look ?_
  rcases c.arrowAhead with _ | ⟨isAsync, ps⟩
  · refine holds_look (holds_ite (fun hy => ?_) fun _ => ?_)
    · have hallows : assignment.Allows c yieldExpr none c :=
        ⟨.refl hc, ⟨hc, fun _ => isFinish_of_test rfl hy⟩, by simp [weight, rank], by simp [need, weight, rank]⟩
      exact holds_tail hallows fun e c₁ he _ => ⟨fun _ => he.moves rfl, he.layout⟩
    · refine holds_call (allows_lower rfl (.refl hc) (by decide)) fun left c₁ hleft => ?_
      have hlt₁ := hleft.moves rfl
      have htrail : Trail c c₁ (left.walk .all) [] := hleft.layout
      refine holds_look
        (holds_ite (fun ht => holds_ite (fun _ => ?_) fun _ => holds_refuse (by simp)) fun _ _ => ?_)
      · refine holds_advance htrail.ends (isFinish_of_test rfl ht) fun c₂ h₂ hlt₂ => ?_
        refine holds_call (allows_later rfl (htrail.forget.past h₂) (by omega)) fun e c₃ he _ => ?_
        have hlt₃ := he.moves rfl
        exact ⟨fun _ => by omega, ((htrail.past h₂).append he.layout).expr _⟩
      · exact ⟨fun _ => hlt₁, htrail⟩
  · exact holds_tail (allows_lower rfl (.refl hc) (by simp [rank])) fun e c₁ he _ =>
      ⟨fun _ => he.moves rfl, he.layout⟩

theorem fulfils_names : names.Fulfils c := by
  refine holds_look (holds_ite (fun _ _ => ⟨nofun, .refl hc⟩) fun _ => ?_)
  refine holds_name hc fun x c₁ h₁ hlt₁ => ?_
  refine holds_eat h₁.ends (fun c₂ h₂ hlt₂ => ?_) fun _ => ⟨nofun, h₁⟩
  have hallows : names.Allows c names none c₂ :=
    ⟨h₁.append h₂, ⟨h₂.ends, nofun⟩, by simp only [weight]; omega, by simp only [need, Option.elim_none]; omega⟩
  exact holds_call hallows fun xs c₃ hxs _ => ⟨nofun, (h₁.append h₂).append hxs.layout⟩

omit hc in
theorem holds_paramList (h : Trail c₀ c [] []) :
    paramList.Holds (r.Allows c₀) Spec c fun _ c' => Trail c c' [] [] ∧ c'.ahead.length < c.ahead.length := by
  have hle := h.length_le
  refine holds_expect h.ends fun c₁ h₁ hlt₁ => ⟨⟨h.append h₁, ⟨h₁.ends, nofun⟩, ?_, ?_⟩, fun xs c₂ hxs => ?_⟩
  · simp only [weight, rank]; omega
  · simp [need]
  · have htrail : Trail c c₂ [] [] := h₁.append hxs.layout
    have hle := hxs.layout.length_le
    exact holds_expect htrail.ends fun c₃ h₃ hlt₃ => ⟨htrail.append h₃, by omega⟩

omit hc in
theorem holds_arrowNames (h : Trail c₀ c [] []) :
    (arrowNames ps).Holds (r.Allows c₀) Spec c fun _ c' => Trail c c' [] [] ∧
      c'.ahead.length < c.ahead.length := by
  cases ps with
  | single => exact (holds_lift (moves_name c h.ends) fun _ _ h hlt => ⟨h, hlt rfl⟩).map
  | list => exact holds_paramList h

theorem fulfils_arrow : (arrow isAsync ps).Fulfils c := by
  refine holds_look (holds_when (S := fun c₁ => Trail c c₁ [] [])
    (fun _ => holds_lift (moves_advance c hc) fun _ _ h _ => h) (fun _ => .refl hc) fun c₁ h₁ => ?_)
  refine (holds_arrowNames h₁).bind fun xs c₂ h₂ => ?_
  obtain ⟨h₂, hlt₂⟩ := h₂
  refine holds_expect h₂.ends fun c₃ h₃ hlt₃ => ?_
  have htrail := (h₁.append h₂).append h₃
  have hle₁ := h₁.length_le
  have hlt : c₃.ahead.length < c.ahead.length := by omega
  let made (body : FuncBody) (c₄ : Cursor) : Func :=
    ⟨none, xs, body, isAsync, .arrow, c.current.span.upTo c₄.before⟩
  refine Code.Holds.bind (S := fun body c₄ => c₄.ahead.length < c₃.ahead.length ∧
    Opened c.current.span c (.func (made body c₄)) c₄) (holds_look (holds_ite (fun _ => ?_) fun _ => ?_)) ?_
  · refine holds_call (allows_later rfl htrail hlt) fun body c₄ hbody => ?_
    exact ⟨hbody.moves rfl, .inl rfl, _, rfl, htrail.append hbody.layout⟩
  · refine holds_call (allows_later rfl htrail hlt) fun e c₄ he => ?_
    exact ⟨he.moves rfl, .inl rfl, _, rfl, htrail.append he.layout⟩
  · rintro body c₄ ⟨hlt, hopened⟩
    refine holds_look ?_
    rintro ⟨n, hn⟩
    refine ⟨fun _ => by omega, ?_⟩
    exact (hopened.trail (.refl hc) (by omega) nofun fun read hgoes => .arrow hgoes hn).expr _

theorem fulfils_yieldExpr (ht : c.current.token.isFinish = false) : yieldExpr.Fulfils c := by
  refine holds_advance hc ht fun c₁ h₁ hlt₁ => ?_
  refine holds_step (moves_eat .star c₁ h₁.ends) fun delegate c₂ h₂ hle _ => ?_
  have htrail := h₁.append h₂
  refine holds_look (holds_ite (fun _ _ => ⟨fun _ => by omega, htrail.expr _⟩) fun _ => ?_)
  refine holds_call (allows_later rfl htrail (by omega)) fun e c₃ he _ => ?_
  have hlt := he.moves rfl
  exact ⟨fun _ => by omega, (htrail.append he.layout).expr _⟩

theorem fulfils_level : (level l).Fulfils c := by
  have hrank := l.rank_le
  refine holds_call (allows_lower rfl (.refl hc) (by simp only [rank]; omega)) fun left c₁ hleft => ?_
  have hlt := hleft.moves rfl
  have htrail : Trail c c₁ (left.walk .all) [] := hleft.layout
  refine holds_tail (allows_later rfl htrail.forget hlt) fun e c₂ he _ => ?_
  have hle := he.layout.1.length_le
  exact ⟨fun _ => by omega, he.layout.2 c htrail⟩

theorem fulfils_operand : (operand l).Fulfils c := by
  cases l <;> exact holds_tail (allows_lower rfl (.refl hc) (by decide)) fun e c₁ he _ =>
    ⟨fun _ => he.moves rfl, he.layout⟩

theorem fulfils_operators : (operators l left).Fulfils c := by
  refine holds_look ?_
  cases hj : l.joinToken? c.current.token with
  | none => exact fun _ => ⟨nofun, .refl hc, fun _ h => h⟩
  | some join =>
    have ht : c.current.token.isFinish = false := by
      cases ht : c.current.token with
      | finish => rw [ht] at hj; cases hj
      | _ => rfl
    refine holds_advance hc ht fun c₁ h₁ hlt₁ => ?_
    refine holds_call (allows_later rfl h₁ hlt₁) fun right c₂ hright => ?_
    have hlt₂ := hright.moves rfl
    have htrail : Trail c c₂ (right.walk .all) [] := h₁.append hright.layout
    refine holds_tail (allows_later rfl htrail.forget (by omega)) fun e c₃ he _ => ?_
    refine ⟨nofun, htrail.forget.past he.layout.1, fun c₀ h₀ => he.layout.2 c₀ ?_⟩
    obtain ⟨op, rfl⟩ | ⟨op, rfl⟩ := join_cases hj
    · exact (h₀.append htrail).expr _
    · exact (h₀.append htrail).expr _

theorem completes_prefixed {wrap : Expr → Expr}
    (hwrap : ∀ e, (wrap e).walk .all = .expr (wrap e) :: e.walk .all)
    (ht : c.current.token.isFinish = false) : unary.Completes c (do advance; return wrap (← get unary)) c := by
  refine holds_advance hc ht fun c₁ h₁ hlt₁ => ?_
  refine holds_call (allows_later rfl h₁ hlt₁) fun e c₂ he _ => ?_
  have hlt₂ := he.moves rfl
  refine ⟨fun _ => by omega, ?_⟩
  change Trail _ _ ((wrap e).walk .all) _
  rw [hwrap]
  exact (h₁.append he.layout).expr _

theorem completes_suffixed : unary.Completes c (do get (suffixes (← get primary))) c := by
  refine holds_call (allows_lower rfl (.refl hc) (by decide)) fun e c₁ he => ?_
  have hlt := he.moves rfl
  have htrail : Trail c c₁ (e.walk .all) [] := he.layout
  refine holds_tail (allows_later rfl htrail.forget hlt) fun e c₂ he _ => ?_
  have hle := he.layout.1.length_le
  exact ⟨fun _ => by omega, he.layout.2 c htrail⟩

theorem fulfils_unary : unary.Fulfils c := by
  refine holds_look ?_
  split
  · next ht => exact completes_prefixed hc (fun _ => rfl) (by rw [ht]; rfl)
  · next ht => exact completes_prefixed hc (fun _ => rfl) (by rw [ht]; rfl)
  · next w ht =>
    have ht : c.current.token.isFinish = false := by rw [ht]; rfl
    refine holds_ite (fun _ => completes_prefixed hc (fun _ => rfl) ht) fun _ => ?_
    exact holds_ite (fun _ => completes_prefixed hc (fun _ => rfl) ht) fun _ => completes_suffixed hc
  · exact completes_suffixed hc

theorem fulfils_suffixes : (suffixes left).Fulfils c := by
  refine holds_look ?_
  split
  · next ht =>
    refine holds_advance hc (by rw [ht]; rfl) fun c₁ h₁ hlt₁ => holds_look ?_
    split
    · next w ht =>
      refine holds_advance h₁.ends (by rw [ht]; rfl) fun c₂ h₂ hlt₂ => ?_
      refine holds_tail (allows_later rfl (h₁.append h₂) (by omega)) fun e c₃ he _ => ?_
      exact ⟨nofun, (h₁.append h₂).append he.layout.1, fun c₀ h₀ =>
        he.layout.2 c₀ ((h₀.past (h₁.append h₂)).expr _)⟩
    · exact holds_refuseToken fun _ => nofun
  · next ht =>
    refine holds_advance hc (by rw [ht]; rfl) fun c₁ h₁ hlt₁ => ?_
    refine holds_expr rfl h₁ hlt₁ fun key c₂ htrail hlt₂ => ?_
    refine holds_expect htrail.ends fun c₃ h₃ hlt₃ => ?_
    have htrail := htrail.past h₃
    refine holds_tail (allows_later rfl htrail.forget (by omega)) fun e c₄ he _ => ?_
    exact ⟨nofun, htrail.forget.past he.layout.1, fun c₀ h₀ => he.layout.2 c₀ ((h₀.append htrail).expr _)⟩
  · next ht =>
    refine holds_advance hc (by rw [ht]; rfl) fun c₁ h₁ hlt₁ => ?_
    refine holds_call (allows_later rfl h₁ hlt₁) fun args c₂ hargs => ?_
    have htrail : Trail c c₂ (walkExprs .all args) [] := h₁.append hargs.layout
    have hle := hargs.layout.length_le
    refine holds_expect htrail.ends fun c₃ h₃ hlt₃ => ?_
    have htrail := htrail.past h₃
    refine holds_tail (allows_later rfl htrail.forget (by omega)) fun e c₄ he _ => ?_
    exact ⟨nofun, htrail.forget.past he.layout.1, fun c₀ h₀ => he.layout.2 c₀ ((h₀.append htrail).expr _)⟩
  · exact fun _ => ⟨nofun, .refl hc, fun _ h => h⟩

theorem fulfils_items : (items m).Fulfils c := by
  refine holds_look (holds_ite (fun _ _ => ⟨by simp [moves], .refl hc⟩) fun _ => ?_)
  refine holds_call (allows_lower rfl (.refl hc) (by simp [rank])) fun e c₁ he => ?_
  have hlt₁ := he.moves rfl
  have htrail : Trail c c₁ (e.walk .all) [] := he.layout
  refine holds_eat htrail.ends (fun c₂ h₂ hlt₂ => ?_) fun _ => ⟨by simp [moves], htrail.append (.refl htrail.ends)⟩
  refine holds_call (allows_later rfl (htrail.forget.past h₂) (by omega)) fun es c₃ hes _ => ⟨by simp [moves], ?_⟩
  exact (htrail.past h₂).append hes.layout

theorem completes_leaf {e : Expr} (he : e.walk .all = [.expr e])
    (ht : c.current.token.isFinish = false) : primary.Completes c (do advance; return e) c := by
  refine holds_advance hc ht fun c₁ h₁ hlt₁ _ => ⟨fun _ => hlt₁, ?_⟩
  change Trail _ _ (e.walk .all) _
  rw [he]
  exact h₁.expr e

theorem completes_function (h₁ : Trail c c₁ [] []) (hlt₁ : c₁.ahead.length < c.ahead.length)
    (ht : c.current.token.isMark .leftParen = false) :
    primary.Completes c (do return .func (← get (funcExpr c.current.span isAsync))) c₁ := by
  refine holds_call (allows_later rfl h₁ hlt₁) fun f c₂ hf hgives => ?_
  have hlt₂ := hf.moves rfl
  obtain ⟨n, hn⟩ := hgives
  refine ⟨fun _ => by omega, ?_⟩
  exact ((hf.layout.after h₁).trail (.refl hc) (by omega) nofun fun read hgoes => .func hgoes hn ht).expr _

theorem fulfils_primary : primary.Fulfils c := by
  refine holds_look (holds_look ?_)
  split
  · next ht => exact completes_leaf hc rfl (by rw [ht]; rfl)
  · next ht => exact completes_leaf hc rfl (by rw [ht]; rfl)
  · next ht =>
    refine holds_advance hc (by rw [ht]; rfl) fun c₁ h₁ hlt₁ => ?_
    refine holds_expr rfl h₁ hlt₁ fun e c₂ htrail hlt₂ => ?_
    exact holds_expect htrail.ends fun c₃ h₃ hlt₃ _ => ⟨fun _ => by omega, htrail.past h₃⟩
  · next ht =>
    refine holds_advance hc (by rw [ht]; rfl) fun c₁ h₁ hlt₁ => ?_
    refine holds_call (allows_later rfl h₁ hlt₁) fun es c₂ hes => ?_
    have hle₂ := hes.layout.length_le
    have htrail : Trail c c₂ (walkExprs .all es) [] := h₁.append hes.layout
    exact holds_expect htrail.ends fun c₃ h₃ hlt₃ _ => ⟨fun _ => by omega, (htrail.past h₃).expr _⟩
  · next w hw =>
    have ht : c.current.token.isFinish = false := by rw [hw]; rfl
    have hparen : c.current.token.isMark .leftParen = false := by rw [hw]; rfl
    refine holds_look (holds_ite (fun _ => ?_) fun _ => ?_)
    · refine holds_advance hc ht fun c₁ h₁ hlt₁ => ?_
      refine holds_call (allows_later rfl h₁ hlt₁) fun t c₂ hread hgives => ?_
      have hlt₂ := hread.moves rfl
      obtain ⟨n, hn⟩ := hgives
      refine ⟨fun _ => by omega, ?_⟩
      exact (hread.layout.trail h₁ (by omega) (fun _ => hlt₁) fun read hgoes => .attempt hgoes hn hparen).expr _
    · iterate 5 refine holds_ite (fun _ => completes_leaf hc rfl ht) fun _ => ?_
      refine holds_ite (fun _ => ?_) fun _ => ?_
      · exact holds_advance hc ht fun c₁ h₁ hlt₁ => completes_function hc h₁ hlt₁ hparen
      refine holds_look (holds_ite (fun _ => ?_) fun _ => ?_)
      · refine holds_advance hc ht fun c₁ h₁ hlt₁ => ?_
        refine holds_step (moves_advance c₁ h₁.ends) fun _ c₂ h₂ hle _ => ?_
        exact completes_function hc (h₁.append h₂) (by omega) hparen
      · exact holds_ite (fun _ => holds_refuse (by nofun)) fun _ => completes_leaf hc rfl ht
  · exact holds_refuseToken fun _ => nofun

theorem fulfils_funcExpr : (funcExpr start isAsync).Fulfils c := by
  refine holds_step (moves_eat .star c hc) fun generator c₁ h₁ _ _ => holds_look ?_
  refine holds_either (S := fun _ c₂ => Trail c₁ c₂ [] []) (fun _ => .refl h₁.ends)
    (fun _ => (holds_lift (moves_name c₁ h₁.ends) fun _ _ h _ => h).map) fun called c₂ h₂ => ?_
  have htrail := h₁.append h₂
  refine holds_tail (allows_lower rfl htrail (by simp [rank])) fun f c₃ hf _ => ?_
  have hlt := hf.moves rfl
  have hle := htrail.length_le
  exact ⟨fun _ => by omega, hf.layout.after htrail⟩

theorem fulfils_funcRest : (funcRest start called isAsync generator).Fulfils c := by
  refine (holds_paramList (.refl hc)).bind fun xs c₁ h₁ => ?_
  obtain ⟨h₁, hlt₁⟩ := h₁
  refine holds_call (allows_later rfl h₁ hlt₁) fun body c₂ hbody => holds_look fun _ => ?_
  have hlt₂ := hbody.moves rfl
  exact ⟨fun _ => by omega, .inl rfl, _, rfl, h₁.append hbody.layout⟩

theorem fulfils_attempt : (attempt start).Fulfils c := by
  refine holds_step (moves_freshId c hc) fun id c₁ h₁ hle₁ _ => ?_
  refine holds_call (allows_lower rfl h₁ (by simp [rank])) fun body c₂ hbody => ?_
  have hlt := hbody.moves rfl
  have htrail : Trail c c₂ (walkStmts .all body) [body] := h₁.append hbody.layout
  refine holds_eatWord htrail.ends (fun c₃ h₃ hlt₃ => ?_) (holds_never (holds_refuseToken fun _ => by simp))
  refine holds_step (moves_binding? c₃ h₃.ends) fun catchParam c₄ h₄ hle₄ _ => ?_
  have htrail := htrail.past (h₃.append h₄)
  refine holds_call (allows_later rfl htrail.forget (by omega)) fun catchBody c₅ hcatch => ?_
  have hlt₅ := hcatch.moves rfl
  have htrail := htrail.append hcatch.layout
  refine holds_eatWord htrail.ends (fun c₆ h₆ hlt₆ => ?_) ?_
  · refine holds_step (moves_binding? c₆ h₆.ends) fun finallyParam c₇ h₇ hle₇ _ => ?_
    have htrail := htrail.past (h₆.append h₇)
    refine holds_call (allows_later rfl htrail.forget (by omega)) fun finallyBody c₈ hfinally => ?_
    have hlt₈ := hfinally.moves rfl
    exact holds_look fun _ => ⟨fun _ => by omega, .inl rfl, _, rfl, htrail.append hfinally.layout⟩
  · exact holds_look fun _ => ⟨fun _ => by omega, .inl rfl, _, rfl, htrail⟩

theorem fulfils_inParens : inParens.Fulfils c := by
  refine holds_expect hc fun c₁ h₁ hlt₁ => ?_
  refine holds_expr rfl h₁ hlt₁ fun e c₂ htrail hlt₂ => ?_
  exact holds_expect htrail.ends fun c₃ h₃ hlt₃ _ => ⟨fun _ => by omega, htrail.past h₃⟩

/-! ## Statements -/

theorem fulfils_expressionStatement : (expressionStatement start).Fulfils c := by
  refine holds_call (allows_lower rfl (.refl hc) (by simp [rank])) fun e c₁ he => ?_
  have hlt := he.moves rfl
  have htrail : Trail c c₁ (e.walk .all) [] := he.layout
  refine holds_step (moves_semicolon c₁ htrail.ends) fun _ c₂ h₂ hle _ => holds_look fun _ => ?_
  exact ⟨fun _ => by omega, ⟨.inl rfl, _, rfl, htrail.past h₂⟩, rfl⟩

theorem fulfils_declaration : (declaration kind start).Fulfils c := by
  refine holds_step (moves_advance c hc) fun _ c₁ h₁ hle₁ _ => ?_
  refine holds_call (allows_lower rfl h₁ (by simp [rank])) fun ds c₂ hds => ?_
  have hlt := hds.moves rfl
  have htrail : Trail c c₂ (walkDecls .all ds) [] := h₁.append hds.layout
  refine holds_step (moves_semicolon c₂ htrail.ends) fun _ c₃ h₃ hle _ => holds_look fun _ => ?_
  exact ⟨fun _ => by omega, ⟨.inl rfl, _, rfl, htrail.past h₃⟩, rfl⟩

theorem fulfils_declarators : (declarators kind).Fulfils c := by
  refine holds_name hc fun x c₁ h₁ hlt₁ => ?_
  have hinit {init : Option Expr} {c₂ : Cursor} (h : Trail c c₂ (walkDecls .all [⟨x, init⟩]) [])
      (hlt : c₂.ahead.length < c.ahead.length) :
      (declarators kind).Completes c (do
        if kind = .constant && init.isNone then refuse (.missingInitializer x)
        if ← eat .comma then return ⟨x, init⟩ :: (← get (.declarators kind)) else return [⟨x, init⟩]) c₂ := by
    refine holds_check (by nofun) fun _ => ?_
    refine holds_eat h.ends (fun c₃ h₃ hlt₃ => ?_) fun _ => ⟨fun _ => hlt, h⟩
    refine holds_call (allows_later rfl (h.forget.past h₃) (by omega)) fun ds c₄ hds _ => ?_
    have hlt₄ := hds.moves rfl
    refine ⟨fun _ => by omega, ?_⟩
    change Trail _ _ (walkDecls .all ([⟨x, init⟩] ++ ds)) _
    rw [walkDecls_append]
    exact (h.past h₃).append hds.layout
  refine holds_eat h₁.ends (fun c₂ h₂ hlt₂ => ?_) (hinit h₁ hlt₁)
  refine holds_call (allows_later rfl (h₁.append h₂) (by omega)) fun e c₃ he => ?_
  have hlt₃ := he.moves rfl
  exact hinit (((h₁.append h₂).append he.layout).append (.refl he.layout.ends)) (by omega)

omit hc in
theorem completes_case {test : Option Expr} {vs : List Visit}
    (hvs : ∀ body cs, walkCases .all (⟨test, body⟩ :: cs) =
      vs ++ walkStmts .all body ++ walkCases .all cs) (h : Trail c c₁ vs [])
    (hlt : c₁.ahead.length < c.ahead.length) (hasDefault' : Bool) :
    (cases raising hasDefault).Completes c (do
      let body ← get (statements raising .case)
      return ⟨test, body⟩ :: (← get (cases raising hasDefault'))) c₁ := by
  refine holds_call (allows_later rfl h.forget hlt) fun body c₂ hbody => ?_
  have htrail := h.append hbody.layout
  have hle := hbody.layout.length_le
  refine holds_call (allows_later rfl htrail.forget (by omega)) fun cs c₃ hcs _ => ?_
  have hlt₃ := hcs.moves rfl
  refine ⟨fun _ => by omega, ?_⟩
  change Trail _ _ (walkCases .all (⟨test, body⟩ :: cs)) _
  rw [hvs]
  exact htrail.append hcs.layout

theorem fulfils_cases : (cases raising hasDefault).Fulfils c := by
  refine holds_eat hc (fun c₁ h₁ hlt₁ _ => ⟨fun _ => hlt₁, h₁⟩) ?_
  refine holds_eatWord hc (fun c₁ h₁ hlt₁ => ?_) (holds_look (holds_ite (fun ht => ?_) fun _ => ?_))
  · refine holds_expr rfl h₁ hlt₁ fun test c₂ htrail hlt₂ => ?_
    refine holds_expect htrail.ends fun c₃ h₃ hlt₃ => ?_
    exact completes_case (fun _ _ => rfl) (htrail.past h₃) (by omega) hasDefault
  · refine holds_check (by nofun) fun _ => ?_
    refine holds_advance hc (isFinish_of_test rfl ht) fun c₁ h₁ hlt₁ => ?_
    refine holds_expect h₁.ends fun c₂ h₂ hlt₂ => ?_
    exact completes_case (fun _ _ => rfl) (h₁.append h₂) (by omega) true
  · exact holds_refuseToken fun _ => nofun

theorem fulfils_guarded : (guarded raising start).Fulfils c := by
  refine holds_call (allows_lower rfl (.refl hc) (by simp [rank])) fun body c₁ hbody => ?_
  have hlt := hbody.moves rfl
  have htrail : Trail c c₁ (walkStmts .all body) [body] := hbody.layout
  refine holds_clause rfl htrail.ends (S := fun (handler : Option Handler) c₂ =>
    Trail c₁ c₂ (walkHandler .all handler) (handler.map (·.body)).toList) (fun c₂ h₂ hlt₂ => ?_)
    (.refl htrail.ends) fun handler c₂ h₂ => ?_
  · refine holds_tail (allows_later rfl (htrail.forget.past h₂) (by omega)) fun clause c₃ hclause => ?_
    obtain ⟨param, handling⟩ := clause
    exact h₂.append hclause.layout
  have hle₂ := h₂.length_le
  have htrail := htrail.append h₂
  refine holds_clause rfl htrail.ends (S := fun (finalizer : Option (List Stmt)) c₃ =>
    Trail c₂ c₃ (walkBlock .all finalizer) finalizer.toList) (fun c₃ h₃ hlt₃ => ?_)
    (.refl htrail.ends) fun finalizer c₃ h₃ => ?_
  · refine holds_tail (allows_later rfl (htrail.forget.past h₃) (by omega)) fun finalizer c₃ hfinalizer => ?_
    exact h₃.append hfinalizer.layout
  have hle₃ := h₃.length_le
  have htrail := htrail.append h₃
  refine holds_check (by simp) fun _ => holds_look fun _ => ⟨fun _ => by omega, ⟨.inl rfl, _, rfl, ?_⟩, rfl⟩
  exact htrail

theorem fulfils_handler : (handler raising).Fulfils c := by
  refine holds_step (moves_binding? c hc) fun param c₁ h₁ hle _ => ?_
  refine holds_call (allows_lower rfl h₁ (by simp [rank])) fun body c₂ hbody _ => ?_
  have hlt := hbody.moves rfl
  exact ⟨fun _ => by omega, h₁.append hbody.layout⟩

theorem fulfils_funcDeclaration : (funcDeclaration start isAsync).Fulfils c := by
  refine holds_step (moves_eat .star c hc) fun generator c₁ h₁ hle _ => ?_
  refine holds_name h₁.ends fun x c₂ h₂ hlt₂ => ?_
  refine holds_call (allows_later rfl (h₁.append h₂) (by omega)) fun f c₃ hf _ => ?_
  have hlt := hf.moves rfl
  exact ⟨fun _ => by omega, f, rfl, hf.layout.after (h₁.append h₂)⟩

theorem fulfils_block : (block raising).Fulfils c := by
  refine holds_expect hc fun c₁ h₁ hlt₁ => ?_
  refine holds_call (allows_later rfl h₁ hlt₁) fun body c₂ hbody => ?_
  have htrail : Trail c c₂ (walkStmts .all body) [body] := h₁.append hbody.layout
  have hle := hbody.layout.length_le
  refine holds_eat htrail.ends (fun c₃ h₃ hlt₃ _ => ?_) (holds_never (holds_refuse (by nofun)))
  exact ⟨fun _ => by omega, htrail.past h₃⟩

theorem fulfils_statements : (statements raising ending).Fulfils c := by
  refine holds_look (holds_ite (fun _ _ => ⟨nofun, [], .refl hc, .nil [], fun ss hss => ?_⟩) fun _ => ?_)
  · obtain rfl := List.mem_singleton.1 hss
    exact ⟨[], .refl [], .nil⟩
  · refine holds_eat hc (fun c₁ h₁ hlt₁ => ?_) ?_
    · refine holds_tail (allows_later rfl h₁ hlt₁) fun ss c₂ hss _ => ⟨nofun, h₁.append hss.layout⟩
    · refine holds_call (allows_lower rfl (.refl hc) (by simp [rank])) fun s c₁ hs => ?_
      have hlt := hs.moves rfl
      have htrail : Trail c c₁ (s.walk .all) [[s]] := hs.layout
      refine holds_call (allows_later rfl htrail.forget hlt) fun ss c₂ hss _ => ⟨nofun, ?_⟩
      exact htrail.join hss.layout

/-- A statement that has been read, and is not a raise, is as it is said. -/
theorem spec_statement {s : Stmt} (h : Opened c.current.span c (.stmt s) c')
    (hlt : c'.ahead.length < c.ahead.length) (htag : (Visit.stmt s).tag? = none)
    (hgives : (statement raising).Gives c s c') : (statement raising).Spec c s c' := by
  obtain ⟨n, hn⟩ := hgives
  exact ⟨fun _ => hlt, h.stmt (.refl hc) hlt (fun h => by rw [htag] at h; cases h) hn⟩

/-- A declared function that has been read is as it is said. -/
theorem spec_declared {s : Stmt} (h : ∃ f, s = .func f ∧ Opened c.current.span c (.func f) c')
    (hlt : c'.ahead.length < c.ahead.length) (hgives : (statement raising).Gives c s c') :
    (statement raising).Spec c s c' := by
  obtain ⟨f, rfl, hopened⟩ := h
  obtain ⟨n, hn⟩ := hgives
  exact ⟨fun _ => hlt, hopened.declared hc hlt hn⟩

theorem completes_declared (h₁ : Trail c c₁ [] []) (hlt₁ : c₁.ahead.length < c.ahead.length) :
    (statement raising).Completes c (get (funcDeclaration c.current.span isAsync)) c₁ := by
  refine holds_tail (allows_later rfl h₁ hlt₁) fun s c₂ hs => ?_
  have hlt₂ := hs.moves rfl
  obtain ⟨f, hf, hopened⟩ := hs.layout
  exact spec_declared hc ⟨f, hf, hopened.after h₁⟩ (by omega)

section

variable (ht : c.current.token.isFinish = false)

include ht

theorem completes_branch :
    (statement raising).Completes c (branchCode raising c.current.span) c := by
  refine holds_advance hc ht fun c₁ h₁ hlt₁ => ?_
  refine holds_test rfl h₁ hlt₁ fun test c₂ htrail hlt₂ => ?_
  refine holds_call (allows_later rfl htrail.forget (by omega)) fun yes c₃ hyes => ?_
  have hlt₃ := hyes.moves rfl
  have htrail : Trail c c₃ (test.walk .all ++ yes.walk .all) [] := (htrail.append hyes.layout).noLists
  refine holds_eatWord htrail.ends (fun c₄ h₄ hlt₄ => ?_) (holds_look ?_)
  · refine holds_call (allows_later rfl (htrail.forget.past h₄) (by omega)) fun no c₅ hno => holds_look ?_
    have hlt₅ := hno.moves rfl
    exact spec_statement hc ⟨.inl rfl, _, rfl, ((htrail.past h₄).append hno.layout).noLists⟩ (by omega) rfl
  · exact spec_statement hc ⟨.inl rfl, _, rfl, htrail⟩ (by omega) rfl

theorem completes_loop : (statement raising).Completes c (loopCode raising c.current.span) c := by
  refine holds_advance hc ht fun c₁ h₁ hlt₁ => ?_
  refine holds_test rfl h₁ hlt₁ fun test c₂ htrail hlt₂ => ?_
  refine holds_call (allows_later rfl htrail.forget (by omega)) fun body c₃ hbody => holds_look ?_
  have hlt₃ := hbody.moves rfl
  exact spec_statement hc ⟨.inl rfl, _, rfl, (htrail.append hbody.layout).noLists⟩ (by omega) rfl

theorem completes_switch :
    (statement raising).Completes c (switchCode raising c.current.span) c := by
  refine holds_advance hc ht fun c₁ h₁ hlt₁ => ?_
  refine holds_test rfl h₁ hlt₁ fun subject c₂ htrail hlt₂ => ?_
  refine holds_expect htrail.ends fun c₃ h₃ hlt₃ => ?_
  have htrail := htrail.past h₃
  refine holds_call (allows_later rfl htrail.forget (by omega)) fun cs c₄ hcs => holds_look ?_
  have hlt₄ := hcs.moves rfl
  exact spec_statement hc ⟨.inl rfl, _, rfl, htrail.append hcs.layout⟩ (by omega) rfl

theorem completes_jump (kind : Jump) :
    (statement raising).Completes c (jumpCode kind c.current.span) c := by
  refine holds_advance hc ht fun c₁ h₁ hlt₁ => ?_
  refine holds_step (moves_semicolon c₁ h₁.ends) fun _ c₂ h₂ hle _ => ?_
  exact spec_statement hc ⟨.inr ⟨kind, rfl⟩, [], rfl, h₁.append h₂⟩ (by omega) rfl

theorem completes_ret : (statement raising).Completes c (retCode c.current.span) c := by
  refine holds_advance hc ht fun c₁ h₁ hlt₁ => holds_look (holds_ite (fun _ => ?_) fun _ => ?_)
  · refine holds_step (moves_semicolon c₁ h₁.ends) fun _ c₂ h₂ hle _ => holds_look ?_
    exact spec_statement hc ⟨.inl rfl, [], rfl, h₁.append h₂⟩ (by omega) rfl
  · refine holds_expr rfl h₁ hlt₁ fun e c₂ htrail hlt₂ => ?_
    refine holds_step (moves_semicolon c₂ htrail.ends) fun _ c₃ h₃ hle _ => holds_look ?_
    exact spec_statement hc ⟨.inl rfl, _, rfl, htrail.past h₃⟩ (by omega) rfl

theorem completes_throw : (statement raising).Completes c (throwCode c.current.span) c := by
  refine holds_advance hc ht fun c₁ h₁ hlt₁ => ?_
  refine holds_expr rfl h₁ hlt₁ fun e c₂ htrail hlt₂ => ?_
  refine holds_step (moves_semicolon c₂ htrail.ends) fun _ c₃ h₃ hle _ => holds_look ?_
  exact spec_statement hc ⟨.inl rfl, _, rfl, htrail.past h₃⟩ (by omega) rfl

theorem completes_raise : (statement raising).Completes c (raiseCode c.current.span) c := by
  refine holds_advance hc ht fun c₁ h₁ hlt₁ => holds_look (holds_check (by nofun) fun _ => ?_)
  refine holds_call (allows_later rfl h₁ hlt₁) fun e c₂ he => ?_
  have hlt₂ := he.moves rfl
  have htrail : Trail c₁ c₂ (e.walk .all) [] := he.layout
  refine holds_step (moves_semicolon c₂ htrail.ends) fun _ c₃ h₃ hle₃ _ => ?_
  refine holds_step (moves_freshId c₃ h₃.ends) fun id c₄ h₄ hle₄ _ => holds_look ?_
  rintro ⟨n, hn⟩
  have hopened : Opened c.current.span c₁ (.stmt (.raise id e (c.current.span.upTo c₄.before))) c₄ :=
    ⟨.inl rfl, _, rfl, htrail.past (h₃.append h₄)⟩
  exact ⟨fun _ => by omega, hopened.stmt h₁ (by omega) (fun _ => hlt₁) hn⟩

end

theorem fulfils_statement : (statement raising).Fulfils c := by
  have hexpr : (statement raising).Completes c (get (expressionStatement c.current.span)) c :=
    holds_tail (allows_lower rfl (.refl hc) (by simp [rank])) fun s c₁ hs =>
      spec_statement hc hs.layout.1 (hs.moves rfl) hs.layout.2
  have hdecl (kind : BindingKind) : (statement raising).Completes c (get (declaration kind c.current.span)) c :=
    holds_tail (allows_lower rfl (.refl hc) (by simp [rank])) fun s c₁ hs =>
      spec_statement hc hs.layout.1 (hs.moves rfl) hs.layout.2
  refine holds_look (holds_look ?_)
  split
  · refine holds_call (allows_lower rfl (.refl hc) (by simp [rank])) fun body c₁ hbody => holds_look ?_
    exact spec_statement hc ⟨.inl rfl, _, rfl, hbody.layout⟩ (hbody.moves rfl) rfl
  · next w hw =>
    have ht : c.current.token.isFinish = false := by rw [hw]; rfl
    refine holds_ite (fun _ => hdecl .mutable) fun _ => ?_
    refine holds_ite (fun _ => hdecl .constant) fun _ => ?_
    refine holds_ite (fun _ => hdecl .functionWide) fun _ => ?_
    refine holds_ite (fun _ => completes_branch hc ht) fun _ => ?_
    refine holds_ite (fun _ => completes_loop hc ht) fun _ => ?_
    refine holds_ite (fun _ => completes_switch hc ht) fun _ => ?_
    refine holds_ite (fun _ => completes_jump hc ht .leave) fun _ => ?_
    refine holds_ite (fun _ => completes_jump hc ht .again) fun _ => ?_
    refine holds_ite (fun _ => completes_ret hc ht) fun _ => ?_
    refine holds_ite (fun _ => completes_throw hc ht) fun _ => ?_
    refine holds_ite (fun _ => ?_) fun _ => ?_
    · refine holds_advance hc ht fun c₁ h₁ hlt₁ => ?_
      refine holds_tail (allows_later rfl h₁ hlt₁) fun s c₂ hs => ?_
      have hlt₂ := hs.moves rfl
      exact spec_statement hc (hs.layout.1.after h₁) (by omega) hs.layout.2
    refine holds_ite (fun _ => holds_advance hc ht fun c₁ h₁ hlt₁ => completes_declared hc h₁ hlt₁) fun _ => ?_
    refine holds_look (holds_ite (fun _ => holds_advance hc ht fun c₁ h₁ hlt₁ => ?_) fun _ => ?_)
    · refine holds_step (moves_advance c₁ h₁.ends) fun _ c₂ h₂ hle _ => ?_
      exact completes_declared hc (h₁.append h₂) (by omega)
    exact holds_ite (fun _ => completes_raise hc ht) fun _ => hexpr
  · exact hexpr

end Nonterminal

end RaiseScript
