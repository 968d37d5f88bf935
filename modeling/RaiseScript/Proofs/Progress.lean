import RaiseScript.Proofs.Trails
import Mathlib.Logic.Relation

/-!
# Progress of the grammar

What each rule of the grammar passes on its way (`Spec`), and which rules it may call where
(`Allows`). A call either comes after a lexeme was passed or goes to a rule of lower rank, so it
lowers the weight, which is what bounds the budget a rule needs.
-/

namespace RaiseScript

variable {e : SyntaxError} {test : Token → Bool} {b : Prop} {g : Bool} {r : Nonterminal} {m : Mark}

open RaiseScript.Parser

namespace Nonterminal

/-- A rule calls only rules of lower rank before a lexeme is passed. -/
def rank : Nonterminal → Nat
  | .statements .. => 19
  | .statement _ => 18
  | .expressionStatement _ | .items _ => 17
  | .assignment => 16
  | .level l => 19 - 2 * l.rank
  | .operand l => 18 - 2 * l.rank
  | .unary | .funcExpr .. | .attempt _ | .declaration .. | .guarded .. | .handler _ => 1
  | _ => 0

theorem rank_lt (r : Nonterminal) : r.rank < 32 := by
  cases r <;> simp only [rank] <;> omega

/-- Every call lowers the weight. -/
def weight (r : Nonterminal) (c : Cursor) : Nat :=
  32 * c.ahead.length + r.rank

/-- Any budget above is enough for the rule. -/
def need : Nonterminal → Cursor → Nat
  | .names, c => c.ahead.length
  | r, c => r.weight c

/-- Where a rule is called. -/
def Ready (r : Nonterminal) (c : Cursor) : Prop :=
  c.Ends ∧ (r = .yieldExpr → c.current.token.isFinish = false)

/-- Where the first rule, at the first cursor, may call the second. -/
structure Allows (r : Nonterminal) (c : Cursor) (r' : Nonterminal) (own : Option (Cursor → Nat))
    (c' : Cursor) : Prop where
  trail : Trail c c' [] []
  ready : r'.Ready c'
  lower : r'.weight c' < r.weight c
  enough : r'.need c' < own.elim (r.need c) (· c')

/-- Whether a rule always passes a lexeme. -/
def moves : Nonterminal → Bool
  | .operators .. | .suffixes _ | .items _ | .statements .. | .names => false
  | _ => true

/-- How what a rule gives lies on the lexemes between two cursors. -/
def Layout : (r : Nonterminal) → Cursor → r.Result → Cursor → Prop
  | .operators _ left, c, e, c' => Trail c c' [] [] ∧
    ∀ c₀, Trail c₀ c (left.walk .all) [] → Trail c₀ c' (Expr.walk .all e) []
  | .suffixes left, c, e, c' => Trail c c' [] [] ∧
    ∀ c₀, Trail c₀ c (left.walk .all) [] → Trail c₀ c' (Expr.walk .all e) []
  | .items _, c, es, c' => Trail c c' (walkExprs .all es) []
  | .funcExpr start _, c, f, c' => Opened start c (.func f) c'
  | .funcRest start _ _ _, c, f, c' => Opened start c (.func f) c'
  | .attempt start, c, t, c' => Opened start c (.attempt t) c'
  | .statement _, c, s, c' => Trail c c' (s.walk .all) [[s]]
  | .expressionStatement start, c, s, c' => Opened start c (.stmt s) c' ∧ (Visit.stmt s).tag? = none
  | .declaration _ start, c, s, c' => Opened start c (.stmt s) c' ∧ (Visit.stmt s).tag? = none
  | .guarded _ start, c, s, c' => Opened start c (.stmt s) c' ∧ (Visit.stmt s).tag? = none
  | .funcDeclaration start _, c, s, c' => ∃ f, s = .func f ∧ Opened start c (.func f) c'
  | .declarators _, c, ds, c' => Trail c c' (walkDecls .all ds) []
  | .cases _ _, c, cs, c' => Trail c c' (walkCases .all cs) (cs.map (·.body))
  | .handler _, c, k, c' => Trail c c' (walkStmts .all k.body) [k.body]
  | .block _, c, ss, c' => Trail c c' (walkStmts .all ss) [ss]
  | .statements _ _, c, ss, c' => Trail c c' (walkStmts .all ss) [ss]
  | .names, c, _, c' => Trail c c' [] []
  | .assignment, c, e, c' => Trail c c' (e.walk .all) []
  | .arrow _ _, c, e, c' => Trail c c' (e.walk .all) []
  | .yieldExpr, c, e, c' => Trail c c' (e.walk .all) []
  | .level _, c, e, c' => Trail c c' (e.walk .all) []
  | .operand _, c, e, c' => Trail c c' (e.walk .all) []
  | .unary, c, e, c' => Trail c c' (e.walk .all) []
  | .primary, c, e, c' => Trail c c' (e.walk .all) []
  | .inParens, c, e, c' => Trail c c' (e.walk .all) []

/-- What a rule does. -/
structure Spec (r : Nonterminal) (c : Cursor) (a : r.Result) (c' : Cursor) : Prop where
  moves : r.moves = true → c'.ahead.length < c.ahead.length
  layout : r.Layout c a c'

end Nonterminal

open Nonterminal (get)

/-! ## Steps -/

/-- The answer to a reading step at the cursor : it goes on, and past a lexeme if so said. -/
def Proceeds {β : Type} (g : Bool) (c : Cursor) (r : Except (SyntaxError × Span) (β × Cursor)) : Prop :=
  ¬Exhausted r ∧ ∀ b c', r = .ok (b, c') → Trail c c' [] [] ∧ (g = true → c'.ahead.length < c.ahead.length)

/-- A reading step that goes on. -/
def Moves {β : Type} (g : Bool) (x : Parser β) : Prop :=
  ∀ c, c.Ends → Proceeds g c (x c)

section

variable {α β : Type} {c : Cursor}

theorem proceeds_error {e : SyntaxError × Span} (he : e.1 ≠ .exhausted) :
    Proceeds g c (.error e : Except (SyntaxError × Span) (β × Cursor)) := by
  refine ⟨fun ⟨s, hs⟩ => he ?_, nofun⟩
  rw [Except.error.inj hs]

theorem proceeds_here (hc : c.Ends) (b : β) : Proceeds false c (.ok (b, c)) := by
  refine ⟨nofun, fun b c' hb => ?_⟩
  cases hb
  exact ⟨.refl hc, nofun⟩

/-- A lexeme that does not end the input is passed. -/
theorem proceeds_advance (hc : c.Ends) (ht : c.current.token.isFinish = false) (b : β) :
    Proceeds g c (.ok (b, c.advance)) := by
  refine ⟨nofun, fun b c' hb => ?_⟩
  cases hb
  have hgoes := hc.advance ht
  exact ⟨.of_goes hgoes, fun _ => by rw [hgoes.length]; simp⟩

theorem isFinish_of_test (htest : test .finish = false) {t : Token} (ht : test t = true) :
    t.isFinish = false := by
  cases t with
  | finish => exact absurd (htest.symm.trans ht) (by simp)
  | _ => rfl

theorem moves_pure (b : β) : Moves false (pure b : Parser β) :=
  fun _ hc => proceeds_here hc b

theorem Moves.bind {g' : Bool} {x : Parser β} {f : β → Parser α} (hx : Moves g x)
    (hf : ∀ b, Moves g' (f b)) : Moves (g || g') (x >>= f) := by
  intro c hc
  change Proceeds _ c (x c >>= fun r => f r.1 r.2)
  obtain ⟨hne, hok⟩ := hx c hc
  cases hxc : x c with
  | error e =>
    refine proceeds_error fun he => hne ⟨e.2, ?_⟩
    rw [hxc, ← he]
  | ok r =>
    obtain ⟨htrail, hlt⟩ := hok r.1 r.2 hxc
    obtain ⟨hne', hok'⟩ := hf r.1 r.2 htrail.ends
    refine ⟨hne', fun b c' hb => ?_⟩
    obtain ⟨htrail', hg'⟩ := hok' b c' hb
    refine ⟨htrail.append htrail', fun hor => ?_⟩
    cases g with
    | true => exact Nat.lt_of_le_of_lt htrail'.length_le (hlt rfl)
    | false => exact Nat.lt_of_lt_of_le (hg' hor) htrail.length_le

theorem moves_ite [Decidable b] {x y : Parser β} (hx : Moves g x) (hy : Moves g y) :
    Moves g (if b then x else y) := by
  split
  · exact hx
  · exact hy

theorem moves_eat (m : Mark) : Moves false (eat m) := by
  intro c hc
  unfold eat
  split
  · next ht => exact proceeds_advance hc (isFinish_of_test rfl ht) true
  · exact proceeds_here hc false

theorem moves_expect (m : Mark) : Moves true (expect m) := by
  intro c hc
  have happly : expect m c = if c.current.token.isMark m then .ok ((), c.advance)
      else .error (.expected (String.ofList m.text) c.current.token, c.current.span) := by
    change (eat m c >>= fun r => _) = _
    unfold eat
    split <;> rfl
  rw [happly]
  split
  · next ht => exact proceeds_advance hc (isFinish_of_test rfl ht) ()
  · exact proceeds_error nofun

theorem moves_name : Moves true name := by
  intro c hc
  have hpeek (f : Token → Parser String) : (peek >>= f) c = f c.current.token c := rfl
  unfold name
  rw [hpeek]
  cases ht : c.current.token with
  | word w =>
    dsimp only
    split
    · exact proceeds_error (by simp)
    · exact proceeds_advance hc (by rw [ht]; rfl) w
  | _ => exact proceeds_error (by simp)

theorem moves_freshId : Moves false freshId := by
  refine fun c hc => ⟨nofun, fun id c' hid => ?_⟩
  cases hid
  exact ⟨.of_goes ⟨(List.nil_append _).symm, rfl, hc⟩, nofun⟩

theorem moves_advance : Moves false advance := by
  refine fun c hc => ⟨nofun, fun _ c' h => ?_⟩
  cases h
  obtain ⟨read, hgoes⟩ := hc.advance_goes
  exact ⟨.of_goes hgoes, nofun⟩

theorem moves_semicolon : Moves false semicolon := by
  intro c hc
  unfold semicolon
  split
  · next ht => exact proceeds_advance hc (isFinish_of_test rfl ht) ()
  · split
    · exact proceeds_here hc ()
    · exact proceeds_error nofun

theorem Moves.weaken {x : Parser β} (h : Moves g x) : Moves false x :=
  fun c hc => ⟨(h c hc).1, fun b c' hb => ⟨((h c hc).2 b c' hb).1, nofun⟩⟩

theorem moves_binding? : Moves false binding? :=
  (moves_eat _).bind fun _ => moves_ite
    (moves_name.bind fun _ => (moves_expect _).bind fun _ => moves_pure _).weaken (moves_pure _)

end

/-! ## Steps of code -/

section

variable {α β : Type} {P : (r : Nonterminal) → Option (Cursor → Nat) → Cursor → Prop}
  {Q : (r : Nonterminal) → Cursor → r.Result → Cursor → Prop} {c : Cursor} {R : α → Cursor → Prop}

theorem holds_step {x : Parser β} {f : β → Code α} (hx : Proceeds g c (x c))
    (h : ∀ b c', Trail c c' [] [] → c'.ahead.length ≤ c.ahead.length →
      (g = true → c'.ahead.length < c.ahead.length) → (f b).Holds P Q c' R) :
    ((liftM x : Code β) >>= f).Holds P Q c R := by
  refine ⟨hx.1, fun b c' hb => ?_⟩
  obtain ⟨htrail, hlt⟩ := hx.2 b c' hb
  exact ⟨fun _ => htrail.goes, h b c' htrail htrail.length_le hlt⟩

theorem holds_lift {x : Parser α} (hx : Proceeds g c (x c))
    (h : ∀ a c', Trail c c' [] [] → (g = true → c'.ahead.length < c.ahead.length) → R a c') :
    (liftM x : Code α).Holds P Q c R :=
  holds_step hx fun a c' htrail _ => h a c' htrail

theorem holds_of_eq {x : Parser β} {f : β → Code α} {b : β} {c' : Cursor} (hx : x c = .ok (b, c'))
    (hgoes : c.Ends → ∃ read, c.Goes read c') (h : (f b).Holds P Q c' R) :
    ((liftM x : Code β) >>= f).Holds P Q c R := by
  refine ⟨?_, fun b' c'' hb => ?_⟩
  · rintro ⟨s, hs⟩
    cases hx.symm.trans hs
  · cases hx.symm.trans hb
    exact ⟨hgoes, h⟩

theorem holds_look {k : Cursor → β} {f : β → Code α} (h : (f (k c)).Holds P Q c R) :
    ((liftM (m := Parser) fun c => .ok (k c, c) : Code β) >>= f).Holds P Q c R :=
  holds_of_eq rfl (fun hc => ⟨[], .refl hc⟩) h

theorem holds_call {f : r.Result → Code α} (hp : P r none c)
    (h : ∀ b c', Q r c b c' → (f b).Holds P Q c' R) : (get r >>= f).Holds P Q c R :=
  ⟨hp, h⟩

theorem holds_tail {R : r.Result → Cursor → Prop} (hp : P r none c)
    (h : ∀ b c', Q r c b c' → R b c') : (get r).Holds P Q c R :=
  ⟨hp, h⟩

theorem holds_ite [Decidable b] {p q : Code α} (hp : b → p.Holds P Q c R)
    (hq : ¬b → q.Holds P Q c R) : (if b then p else q).Holds P Q c R := by
  split
  · exact hp ‹_›
  · exact hq ‹_›

theorem holds_refuse (he : e ≠ .exhausted) : (liftM (refuse e : Parser α) : Code α).Holds P Q c R :=
  ⟨(proceeds_error (g := false) (c := c) he).1, nofun⟩

theorem holds_refuseToken {e : Token → SyntaxError} (he : ∀ t, e t ≠ .exhausted) :
    (liftM (refuseToken e : Parser α) : Code α).Holds P Q c R :=
  ⟨(proceeds_error (g := false) (c := c) (he _)).1, nofun⟩

theorem holds_advance {f : Unit → Code α} (hc : c.Ends) (ht : c.current.token.isFinish = false)
    (h : ∀ c', Trail c c' [] [] → c'.ahead.length < c.ahead.length → (f ()).Holds P Q c' R) :
    ((liftM advance : Code Unit) >>= f).Holds P Q c R :=
  holds_step (proceeds_advance (g := true) hc ht ()) fun _ c' htrail _ hlt => h c' htrail (hlt rfl)

/-- A lexeme is passed if its token is of some kind. -/
theorem holds_pass (htest : test .finish = false) {f : Bool → Code α} (hc : c.Ends)
    (hyes : ∀ c', Trail c c' [] [] → c'.ahead.length < c.ahead.length → (f true).Holds P Q c' R)
    (hno : (f false).Holds P Q c R) :
    ((liftM (m := Parser) fun c => if test c.current.token then .ok (true, c.advance) else .ok (false, c) :
      Code Bool) >>= f).Holds P Q c R := by
  by_cases ht : test c.current.token = true
  · obtain ⟨htrail, hlt⟩ := (proceeds_advance (g := true) hc (isFinish_of_test htest ht) ()).2 _ _ rfl
    exact holds_of_eq (if_pos ht) (fun _ => htrail.goes) (hyes _ htrail (hlt rfl))
  · exact holds_of_eq (if_neg ht) (fun hc => ⟨[], .refl hc⟩) hno

theorem holds_eat {f : Bool → Code α} (hc : c.Ends)
    (hyes : ∀ c', Trail c c' [] [] → c'.ahead.length < c.ahead.length → (f true).Holds P Q c' R)
    (hno : (f false).Holds P Q c R) : ((liftM (eat m) : Code Bool) >>= f).Holds P Q c R :=
  holds_pass rfl hc hyes hno

theorem holds_eatWord {w : String} {f : Bool → Code α} (hc : c.Ends)
    (hyes : ∀ c', Trail c c' [] [] → c'.ahead.length < c.ahead.length → (f true).Holds P Q c' R)
    (hno : (f false).Holds P Q c R) : ((liftM (eatWord w) : Code Bool) >>= f).Holds P Q c R :=
  holds_pass rfl hc hyes hno

theorem holds_expect {f : Unit → Code α} (hc : c.Ends)
    (h : ∀ c', Trail c c' [] [] → c'.ahead.length < c.ahead.length → (f ()).Holds P Q c' R) :
    ((liftM (expect m) : Code Unit) >>= f).Holds P Q c R :=
  holds_step (moves_expect m c hc) fun _ c' htrail _ hlt => h c' htrail (hlt rfl)

theorem holds_name {f : String → Code α} (hc : c.Ends)
    (h : ∀ x c', Trail c c' [] [] → c'.ahead.length < c.ahead.length → (f x).Holds P Q c' R) :
    ((liftM name : Code String) >>= f).Holds P Q c R :=
  holds_step (moves_name c hc) fun x c' htrail _ hlt => h x c' htrail (hlt rfl)

/-! ### Control -/

section

variable {S : β → Cursor → Prop} {f : β → Code α} [Decidable b]

/-- Two ways that lead to the same code. -/
theorem holds_either {p q : Code β} (hp : b → p.Holds P Q c S) (hq : ¬b → q.Holds P Q c S)
    (hf : ∀ b c', S b c' → (f b).Holds P Q c' R) : (if b then p >>= f else q >>= f).Holds P Q c R :=
  holds_ite (fun h => (hp h).bind hf) fun h => (hq h).bind hf

/-- Code that is run only under a condition. -/
theorem holds_when {p : Code Unit} {S : Cursor → Prop} {f : Unit → Code α} (hp : b → p.Holds P Q c fun _ => S)
    (hs : ¬b → S c) (hf : ∀ c', S c' → (f ()).Holds P Q c' R) : (if b then p >>= f else f ()).Holds P Q c R :=
  holds_ite (fun h => (hp h).bind fun _ => hf) fun h => hf c (hs h)

/-- A clause that is there if its first lexeme is. -/
theorem holds_clause (htest : test .finish = false) {p : Code β} {S : Option β → Cursor → Prop}
    {f : Option β → Code α} (hc : c.Ends)
    (hp : ∀ c', Trail c c' [] [] → c'.ahead.length < c.ahead.length → p.Holds P Q c' fun b => S (some b))
    (hnone : S none c) (hf : ∀ o c', S o c' → (f o).Holds P Q c' R) :
    ((liftM (m := Parser) fun c => if test c.current.token then .ok (true, c.advance) else .ok (false, c) :
      Code Bool) >>= fun b => if b then (some <$> p) >>= f else pure none >>= f).Holds P Q c R :=
  holds_pass htest hc (fun c' h hlt => (hp c' h hlt).map.bind hf) (hf none c hnone)

/-- Code behind a refusal is not reached. -/
theorem holds_never {p : Code β} (hp : p.Holds P Q c fun _ _ => False) : (p >>= f).Holds P Q c R :=
  hp.bind fun _ _ => False.elim

/-- The text is refused if a condition holds. -/
theorem holds_check (he : e ≠ .exhausted) {q : Code α} (hq : ¬b → q.Holds P Q c R) :
    (if b then (liftM (refuse e : Parser β) : Code β) >>= f else q).Holds P Q c R :=
  holds_ite (fun _ => holds_never (holds_refuse he)) hq

end

end

end RaiseScript
