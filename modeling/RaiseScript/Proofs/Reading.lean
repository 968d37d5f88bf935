import RaiseScript.Proofs.Parsed
import RaiseScript.Proofs.Tagged
import RaiseScript.Proofs.Recast
import RaiseScript.Proofs.Nonterminals

/-!
# Reading a text and a recast one

A list of lexemes is read beside the same list with other words and at other places. `Reading` says
how the two differ : no word is turned into a keyword or back, and lines break at the same places.
Then the grammar reads the recast tree from the recast lexemes. Where `raise` is a keyword this may
fail for `raise` itself, but there a raise or a try expression is read.

`Reading.Reads` says this of a parser, and what is known of the result : its identities and places
are covered by what was passed (`Covers`), it is spelled as the lexemes are, and its raises are
placed (`Parsed`). `Rules` collects it for all rules of the grammar, and `rules` proves it by
induction on the budget. The results for whole texts are `parsed_of_parseLexemes`, `tagged_of_parse`
and `parseLexemes_recast`.
-/

namespace RaiseScript

variable {r : String → String} {pre : List Tag} {b' : Prop} {e e' : SyntaxError} {ls : List Lexeme}
  {p : Program} {source file : String}

/-! ## Recast lexemes -/

/-- A token with another word. -/
def Token.renamed (r : String → String) : Token → Token
  | .word w => .word (r w)
  | t => t

/-- A lexeme with another word at another place. -/
def Lexeme.recast (m : Recast) (l : Lexeme) : Lexeme :=
  ⟨l.token.renamed m.name, m.span l.span⟩

/-- A cursor that sees other words at other places. -/
def Cursor.recast (m : Recast) (c : Cursor) : Cursor :=
  ⟨m.span c.before, c.ahead.map (Lexeme.recast m), c.nextId⟩

/-- Keywords stay what they are and no other word becomes one. As a keyword of some places, `raise`
may be given up but not taken. -/
structure Renaming (r : String → String) : Prop where
  reserved : ∀ k, isReserved k = true → ∀ x, r x = k ↔ x = k
  async : ∀ x, r x = "async" ↔ x = "async"
  raise : ∀ x, r x = "raise" → x = "raise"

theorem Renaming.isReserved (hr : Renaming r) (x : String) :
    RaiseScript.isReserved (r x) = RaiseScript.isReserved x := by
  rw [Bool.eq_iff_iff]
  constructor
  · intro h
    rwa [(hr.reserved _ h x).1 rfl]
  · intro h
    rwa [(hr.reserved _ h x).2 rfl]

theorem Renaming.id : Renaming id :=
  ⟨fun _ _ _ => Iff.rfl, fun _ => Iff.rfl, fun _ h => h⟩

namespace Token

@[simp] theorem renamed_id (t : Token) : t.renamed id = t := by
  cases t <;> rfl

@[simp] theorem isMark_renamed (m : Mark) (t : Token) : (t.renamed r).isMark m = t.isMark m := by
  cases t <;> rfl

@[simp] theorem isFinish_renamed (t : Token) : (t.renamed r).isFinish = t.isFinish := by
  cases t <;> rfl

theorem isName_renamed (hr : Renaming r) (t : Token) : (t.renamed r).isName = t.isName := by
  cases t with
  | word w => exact congrArg (!·) (hr.isReserved w)
  | _ => rfl

theorem isWord_renamed {k : String} (hk : ∀ x, r x = k ↔ x = k) (t : Token) :
    (t.renamed r).isWord k = t.isWord k := by
  cases t with
  | word w =>
    simpa [Token.renamed, Token.isWord] using hk w
  | _ => rfl

end Token

namespace Cursor

variable {m : Recast}

theorem current_recast (c : Cursor) : (c.recast m).current = c.current.recast m := by
  obtain ⟨before, _ | ⟨l, ls⟩, id⟩ := c <;> rfl

@[simp] theorem token_recast (c : Cursor) : (c.recast m).current.token = c.current.token.renamed m.name := by
  rw [current_recast]
  rfl

@[simp] theorem span_recast (c : Cursor) : (c.recast m).current.span = m.span c.current.span := by
  rw [current_recast]
  rfl

theorem advance_recast (c : Cursor) : (c.recast m).advance = c.advance.recast m := by
  obtain ⟨before, _ | ⟨l, _ | ⟨k, rest⟩⟩, id⟩ := c <;> rfl

theorem peekAt_recast (c : Cursor) (offset : Nat) :
    (c.recast m).peekAt offset = (c.peekAt offset).renamed m.name := by
  simp only [peekAt, Cursor.recast, ← List.map_drop, List.head?_map, List.getLast?_map]
  cases (c.ahead.drop offset).head? with
  | some l => rfl
  | none => cases c.ahead.getLast? <;> rfl

theorem arrowAfterParens_recast (depth : Nat) (ls : List Lexeme) :
    arrowAfterParens depth (ls.map (Lexeme.recast m)) = arrowAfterParens depth ls := by
  induction ls generalizing depth with
  | nil => rfl
  | cons l ls ih =>
    obtain ⟨t, span⟩ := l
    cases t with
    | mark k =>
      have hnext : ((ls.map (Lexeme.recast m)).head?.map (·.token.isMark .arrow)).getD false =
          (ls.head?.map (·.token.isMark .arrow)).getD false := by
        cases ls with
        | nil => rfl
        | cons l ls => exact l.token.isMark_renamed .arrow
      simp only [List.map_cons, arrowAfterParens, Lexeme.recast, Token.renamed]
      split
      · rfl
      · exact ih _
      · rw [hnext, ih]
      · exact ih _
    | _ => simp [arrowAfterParens, Lexeme.recast, Token.renamed, ih]

theorem arrowParamsAt_recast (hr : Renaming m.name) (c : Cursor) (offset : Nat) :
    (c.recast m).arrowParamsAt offset = c.arrowParamsAt offset := by
  have hdrop : (c.recast m).ahead.drop offset = (c.ahead.drop offset).map (Lexeme.recast m) := by
    rw [List.map_drop]
    rfl
  simp only [arrowParamsAt, peekAt_recast, Token.isName_renamed hr, Token.isMark_renamed, hdrop,
    arrowAfterParens_recast]

theorem arrowAhead_recast (hr : Renaming m.name) (c : Cursor) : (c.recast m).arrowAhead = c.arrowAhead := by
  simp only [arrowAhead, arrowParamsAt_recast hr, token_recast, Token.isWord_renamed hr.async]

end Cursor

/-! ## Two readings -/

/-- How two lists of lexemes differ that are read side by side, and how the words of the first are
spelled. If `strict`, they have the same words. -/
structure Reading where
  spelling : Spelling
  recast : Recast
  strict : Bool
  keywords : Renaming recast.name
  property : recast.property = recast.name
  upTo : ∀ s t, recast.span (s.upTo t) = (recast.span s).upTo (recast.span t)
  exact : strict = true → recast.name = id

namespace Reading

/-- The cursor sees only tokens of the spelling, and the recast lexemes have their line breaks where
it has them. -/
structure Sees (rd : Reading) (c : Cursor) : Prop where
  fits : c.Fits rd.spelling
  breaks : (c.before :: c.ahead.map (·.span)).IsChain fun s t =>
    ((rd.recast.span s).line < (rd.recast.span t).line ↔ s.line < t.line)

namespace Sees

variable {rd : Reading} {c : Cursor}

theorem advance (h : rd.Sees c) : rd.Sees c.advance := by
  refine ⟨h.fits.advance, ?_⟩
  obtain ⟨before, _ | ⟨l, _ | ⟨k, rest⟩⟩, id⟩ := c
  · exact h.breaks
  · exact h.breaks
  · exact (List.isChain_cons_cons.1 h.breaks).2

theorem afterBreak (h : rd.Sees c) : (c.recast rd.recast).afterBreak = c.afterBreak := by
  obtain ⟨before, _ | ⟨l, rest⟩, id⟩ := c
  · simp [Cursor.afterBreak, Cursor.recast, Cursor.current]
  · exact decide_eq_decide.2 (List.isChain_cons_cons.1 h.breaks).1

theorem atStatementEnd (h : rd.Sees c) : (c.recast rd.recast).atStatementEnd = c.atStatementEnd := by
  simp [Cursor.atStatementEnd, h.afterBreak]

end Sees

variable {α β : Type}

/-- What the first parser does at the cursor and the second one at the recast cursor. The result of
the first has the property with the tags that were read. -/
structure ReadsAt (rd : Reading) (c : Cursor) (x y : Parser α) (ρ : α → α)
    (Q : List Tag → α → Prop) : Prop where
  ok : ∀ a c', x c = .ok (a, c') → ∃ ts, Q ts a ∧ rd.Sees c' ∧ (c.Sound → Covers c c' ts) ∧
    (rd.strict = true ∨ ts = [] → y (c.recast rd.recast) = .ok (ρ a, c'.recast rd.recast))
  error : ∀ e, x c = .error e → rd.strict = true → y (c.recast rd.recast) = .error (e.1, rd.recast.span e.2)

/-- The same wherever the first parser stands. -/
def Reads (rd : Reading) (x y : Parser α) (ρ : α → α) (Q : List Tag → α → Prop) : Prop :=
  ∀ c, rd.Sees c → rd.ReadsAt c x y ρ Q

/-- Nothing is read that has a tag. -/
abbrev Passes (rd : Reading) (x y : Parser α) (ρ : α → α) (P : α → Prop) : Prop :=
  rd.Reads x y ρ fun ts a => ts = [] ∧ P a

/-- A tree is read, of which the walk `w` meets the nodes, behind something with the tags `pre`. -/
abbrev Yields (rd : Reading) (w : α → List Visit) (ρ : Recast → α → α) (pre : List Tag)
    (P : α → Prop) (x y : Parser α) : Prop :=
  rd.Reads x y (ρ rd.recast) fun ts a => pre ++ ts = tags (w a) ∧ Parsed rd.spelling (w a) ∧ P a

variable {rd : Reading} {x y : Parser α} {f g : α → Parser β} {ρ : α → α} {σ : β → β} {c : Cursor}
  {Q : List Tag → α → Prop} {R : List Tag → β → Prop} {P : α → Prop}

theorem ReadsAt.imp {Q' : List Tag → α → Prop} (h : rd.ReadsAt c x y ρ Q)
    (hq : ∀ ts a, Q ts a → Q' ts a) : rd.ReadsAt c x y ρ Q' := by
  refine ⟨fun a c' ha => ?_, h.error⟩
  obtain ⟨ts, hts, hrest⟩ := h.ok a c' ha
  exact ⟨ts, hq ts a hts, hrest⟩

theorem Reads.imp {Q' : List Tag → α → Prop} (h : rd.Reads x y ρ Q)
    (hq : ∀ ts a, Q ts a → Q' ts a) : rd.Reads x y ρ Q' :=
  fun c hc => (h c hc).imp hq

/-- If the words differ, then nothing is asked where something with a tag is read. -/
theorem ReadsAt.excused {y' : Parser α} (h : rd.ReadsAt c x y ρ Q) (hs : rd.strict = false)
    (hq : ∀ ts a, Q ts a → ts ≠ []) : rd.ReadsAt c x y' ρ Q := by
  refine ⟨fun a c' ha => ?_, fun e _ he => absurd he (by simp [hs])⟩
  obtain ⟨ts, hts, hsees, hcovers, -⟩ := h.ok a c' ha
  exact ⟨ts, hts, hsees, hcovers, fun hor => absurd hor (by simp [hs, hq ts a hts])⟩

theorem reads_pure {a b : α} (hq : Q [] a) (hb : ρ a = b) : rd.Reads (pure a) (pure b) ρ Q := by
  intro c hc
  refine ⟨fun a' c' ha => ?_, fun e he => by cases he⟩
  cases ha
  subst hb
  exact ⟨[], hq, hc, .refl, fun _ => rfl⟩

theorem Reads.bind (hx : rd.Reads x y ρ Q)
    (hf : ∀ ts a, Q ts a → rd.Reads (f a) (g (ρ a)) σ fun us b => R (ts ++ us) b) :
    rd.Reads (x >>= f) (y >>= g) σ R := by
  intro c hc
  have hbind (z : Parser α) (k : α → Parser β) (c : Cursor) : (z >>= k) c = z c >>= fun r => k r.1 r.2 := rfl
  cases hxc : x c with
  | error e =>
    refine ⟨fun b c' hb => ?_, fun e' he hs => ?_⟩
    · rw [hbind, hxc] at hb
      cases hb
    · rw [hbind, hxc] at he
      cases he
      rw [hbind, (hx c hc).error e hxc hs]
      rfl
  | ok r =>
    obtain ⟨a, c₁⟩ := r
    obtain ⟨ts, hts, hsees, hcovers, hy⟩ := (hx c hc).ok a c₁ hxc
    have hrest := hf ts a hts c₁ hsees
    have hmirror (hor : rd.strict = true ∨ ts = []) :
        (y >>= g) (c.recast rd.recast) = g (ρ a) (c₁.recast rd.recast) := by
      rw [hbind, hy hor]
      rfl
    refine ⟨fun b c' hb => ?_, fun e he hs => ?_⟩
    · rw [hbind, hxc] at hb
      obtain ⟨us, hus, hsees', hcovers', hg⟩ := hrest.ok b c' hb
      refine ⟨ts ++ us, hus, hsees', fun hs => (hcovers hs).append (hcovers' (hcovers hs).sound), fun hor => ?_⟩
      rw [List.append_eq_nil_iff] at hor
      rw [hmirror (hor.imp_right (·.1)), hg (hor.imp_right (·.2))]
    · rw [hbind, hxc] at he
      rw [hmirror (Or.inl hs), hrest.error e he hs]

/-! ## Steps -/

/-- One tree after the other. -/
theorem Yields.bind {w : α → List Visit} {ρ : Recast → α → α} {v : β → List Visit}
    {σ : Recast → β → β} {P' : β → Prop} (hx : rd.Yields w ρ [] P x y)
    (hf : ∀ a, Parsed rd.spelling (w a) → P a → rd.Yields v σ (pre ++ tags (w a)) P' (f a) (g (ρ rd.recast a)))
    : rd.Yields v σ pre P' (x >>= f) (y >>= g) := by
  refine Reads.bind hx fun ts a hts => ?_
  obtain ⟨rfl, hparsed, hp⟩ := hts
  exact (hf a hparsed hp).imp fun us b hb => by simpa only [List.nil_append, List.append_assoc] using hb

theorem Yields.map_bind {γ : Type} {w : α → List Visit} {ρ : Recast → α → α} {v : β → List Visit}
    {σ : Recast → β → β} {P' : β → Prop} {k k' : α → γ} {f g : γ → Parser β} (hx : rd.Yields w ρ [] P x y)
    (hf : ∀ a, Parsed rd.spelling (w a) → P a →
      rd.Yields v σ (pre ++ tags (w a)) P' (f (k a)) (g (k' (ρ rd.recast a)))) :
    rd.Yields v σ pre P' (k <$> x >>= f) (k' <$> y >>= g) := by
  rw [bind_map_left, bind_map_left]
  exact hx.bind hf

theorem Passes.bind (hx : rd.Passes x y ρ P) (hf : ∀ a, P a → rd.Reads (f a) (g (ρ a)) σ R) :
    rd.Reads (x >>= f) (y >>= g) σ R := by
  refine Reads.bind hx fun ts a hts => ?_
  obtain ⟨rfl, hp⟩ := hts
  exact hf a hp

theorem readsAt_ite {b : Prop} [Decidable b] [Decidable b'] {x' y' : Parser α} (hb : b' ↔ b)
    (hx : b → rd.ReadsAt c x y ρ Q) (hy : ¬b → rd.ReadsAt c x' y' ρ Q) :
    rd.ReadsAt c (if b then x else x') (if b' then y else y') ρ Q := by
  by_cases h : b
  · rw [if_pos h, if_pos (hb.2 h)]
    exact hx h
  · rw [if_neg h, if_neg (fun h' => h (hb.1 h'))]
    exact hy h

theorem reads_ite {b : Prop} [Decidable b] [Decidable b'] {x' y' : Parser α} (hb : b' ↔ b)
    (hx : b → rd.Reads x y ρ Q) (hy : ¬b → rd.Reads x' y' ρ Q) :
    rd.Reads (if b then x else x') (if b' then y else y') ρ Q :=
  fun c hc => readsAt_ite hb (fun h => hx h c hc) fun h => hy h c hc

theorem reads_refuse (he : rd.strict = true → e' = e) : rd.Reads (Parser.refuse e) (Parser.refuse e') ρ Q := by
  intro c _
  refine ⟨fun a c' h => (by cases h), fun e₁ h hs => ?_⟩
  cases h
  rw [Parser.refuse, Cursor.span_recast, he hs]

theorem reads_refuseToken (e : Token → SyntaxError) :
    rd.Reads (Parser.refuseToken e) (Parser.refuseToken e) ρ Q := by
  intro c _
  refine ⟨fun a c' h => (by cases h), fun e₁ h hs => ?_⟩
  cases h
  rw [Parser.refuseToken, Cursor.span_recast, Cursor.token_recast, rd.exact hs, Token.renamed_id]

/-- A refusal, whatever comes after it. -/
theorem reads_refuse_bind (he : rd.strict = true → e' = e) :
    rd.Reads (Parser.refuse e >>= f) (Parser.refuse e' >>= g) σ R :=
  Reads.bind (reads_refuse (ρ := fun a => a) (Q := fun _ _ => False) he) fun _ _ h => h.elim

theorem reads_refuseToken_bind (e : Token → SyntaxError) :
    rd.Reads (Parser.refuseToken e >>= f) (Parser.refuseToken e >>= g) σ R :=
  Reads.bind (reads_refuseToken (ρ := fun a => a) (Q := fun _ _ => False) e) fun _ _ h => h.elim

/-- A look at the cursor. -/
theorem readsAt_look {k k' : Cursor → α} (hk : k' (c.recast rd.recast) = ρ (k c))
    (h : rd.ReadsAt c (f (k c)) (g (ρ (k c))) σ R) :
    rd.ReadsAt c ((fun c => .ok (k c, c) : Parser α) >>= f) ((fun c => .ok (k' c, c) : Parser α) >>= g) σ R := by
  have hmirror : ((fun c => .ok (k' c, c) : Parser α) >>= g) (c.recast rd.recast) =
    g (ρ (k c)) (c.recast rd.recast) :=
    congrArg (fun a => g a (c.recast rd.recast)) hk
  exact ⟨fun a c' ha => hmirror ▸ h.ok a c' ha, fun e he => hmirror ▸ h.error e he⟩

theorem reads_look {k k' : Cursor → α} (h : ∀ c, rd.Sees c → k' (c.recast rd.recast) = ρ (k c) ∧ P (k c))
    (hf : ∀ a, P a → rd.Reads (f a) (g (ρ a)) σ R) :
    rd.Reads ((fun c => .ok (k c, c) : Parser α) >>= f) ((fun c => .ok (k' c, c) : Parser α) >>= g) σ R :=
  fun c hc => readsAt_look (h c hc).1 (hf _ (h c hc).2 c hc)

/-- A look at the cursor that both parsers answer in the same way. -/
theorem reads_same {k : Cursor → α} (h : ∀ c, rd.Sees c → k (c.recast rd.recast) = k c)
    (hf : ∀ a, rd.Reads (f a) (g a) σ R) :
    rd.Reads ((fun c => .ok (k c, c) : Parser α) >>= f) ((fun c => .ok (k c, c) : Parser α) >>= g) σ R :=
  reads_look (ρ := id) (P := fun _ => True) (fun c hc => ⟨h c hc, trivial⟩) fun a _ => hf a

theorem reads_advance {f g : Unit → Parser β} (hf : rd.Reads (f ()) (g ()) σ R) :
    rd.Reads (Parser.advance >>= f) (Parser.advance >>= g) σ R := by
  refine Passes.bind (ρ := id) (P := fun _ => True)
    (fun c hc => ⟨fun a c' ha => ?_, fun e he => by cases he⟩) fun _ _ => hf
  cases ha
  exact ⟨[], ⟨rfl, trivial⟩, hc.advance, .advance, fun _ => by rw [Parser.advance, Cursor.advance_recast, id]⟩

/-- A lexeme is passed if its token is of some kind. -/
theorem passes_if {test : Token → Bool} (ht : ∀ t : Token, test (t.renamed rd.recast.name) = test t) :
    rd.Passes (fun c => if test c.current.token then .ok (true, c.advance) else .ok (false, c))
      (fun c => if test c.current.token then .ok (true, c.advance) else .ok (false, c)) id fun _ => True := by
  intro c hc
  cases h : test c.current.token with
  | true =>
    refine ⟨fun a c' ha => ?_, fun e he => by simp [h] at he⟩
    simp only [h, if_true] at ha
    cases ha
    exact ⟨[], ⟨rfl, trivial⟩, hc.advance, .advance, fun _ => by simp [ht, h, Cursor.advance_recast]⟩
  | false =>
    refine ⟨fun a c' ha => ?_, fun e he => by simp [h] at he⟩
    simp only [h, Bool.false_eq_true, if_false] at ha
    cases ha
    exact ⟨[], ⟨rfl, trivial⟩, hc, .refl, fun _ => by simp [ht, h]⟩

section

variable {f g : Bool → Parser β}

theorem reads_eat (m : Mark) (hf : ∀ b, rd.Reads (f b) (g b) σ R) :
    rd.Reads (Parser.eat m >>= f) (Parser.eat m >>= g) σ R :=
  Passes.bind (passes_if (Token.isMark_renamed m)) fun b _ => hf b

theorem reads_eatWord {w : String} (hw : isReserved w = true)
    (hf : ∀ b, rd.Reads (f b) (g b) σ R) : rd.Reads (Parser.eatWord w >>= f) (Parser.eatWord w >>= g) σ R :=
  Passes.bind (passes_if (Token.isWord_renamed (rd.keywords.reserved w hw))) fun b _ => hf b

theorem reads_semicolon {f g : Unit → Parser β} (hf : rd.Reads (f ()) (g ()) σ R) :
    rd.Reads (Parser.semicolon >>= f) (Parser.semicolon >>= g) σ R := by
  refine Passes.bind (ρ := id) (P := fun _ => True) (fun c hc => ?_) fun _ _ => hf
  have hmirror : Parser.semicolon (c.recast rd.recast) = if c.current.token.isMark .semicolon then
      .ok ((), c.advance.recast rd.recast) else if c.atStatementEnd then .ok ((), c.recast rd.recast)
      else .error (.expected ";" (c.current.token.renamed rd.recast.name), rd.recast.span c.current.span) := by
    rw [Parser.semicolon, hc.atStatementEnd, Cursor.token_recast, Token.isMark_renamed,
      Cursor.span_recast, Cursor.advance_recast]
  refine ⟨fun a c' ha => ?_, fun e he hs => ?_⟩
  · unfold Parser.semicolon at ha
    split at ha
    · cases ha
      exact ⟨[], ⟨rfl, trivial⟩, hc.advance, .advance, fun _ => by rw [hmirror, if_pos ‹_›, id]⟩
    · split at ha <;> cases ha
      exact ⟨[], ⟨rfl, trivial⟩, hc, .refl, fun _ => by rw [hmirror, if_neg ‹_›, if_pos ‹_›, id]⟩
  · unfold Parser.semicolon at he
    split at he
    · cases he
    · split at he <;> cases he
      rw [hmirror, if_neg ‹_›, if_neg ‹_›, rd.exact hs, Token.renamed_id]

theorem reads_freshId {f g : NodeId → Parser β}
    (hf : ∀ i, rd.Reads (f i) (g i) σ fun us b => R (⟨i, none⟩ :: us) b) :
    rd.Reads (Parser.freshId >>= f) (Parser.freshId >>= g) σ R := by
  refine Reads.bind (ρ := id) (Q := fun ts i => ts = [⟨i, none⟩])
    (fun c hc => ⟨fun a c' ha => ?_, fun e he => by cases he⟩) fun ts i hts => hts ▸ hf i
  cases ha
  refine ⟨_, rfl, ⟨hc.fits, hc.breaks⟩, fun hs => ?_, fun _ => rfl⟩
  exact ⟨⟨hs.sorted, hs.ends⟩, rfl, Nat.le_refl _, by simp, by simp, by simp, by simp⟩

theorem passes_expect (m : Mark) : rd.Passes (Parser.expect m) (Parser.expect m) id fun _ => True := by
  refine reads_eat m fun b => ?_
  cases b with
  | false => exact reads_refuseToken _
  | true => exact reads_pure ⟨rfl, trivial⟩ rfl

theorem reads_expect (m : Mark) {f g : Unit → Parser β} (hf : rd.Reads (f ()) (g ()) σ R) :
    rd.Reads (Parser.expect m >>= f) (Parser.expect m >>= g) σ R :=
  Passes.bind (passes_expect m) fun _ _ => hf

theorem reads_peek {f g : Token → Parser β}
    (hf : ∀ t, t.Fits rd.spelling → rd.Reads (f t) (g (t.renamed rd.recast.name)) σ R) :
    rd.Reads (Parser.peek >>= f) (Parser.peek >>= g) σ R :=
  reads_look (fun c hc => ⟨c.token_recast, hc.fits.current⟩) hf

theorem reads_here {f g : Span → Parser β} (hf : ∀ s, rd.Reads (f s) (g (rd.recast.span s)) σ R) :
    rd.Reads (Parser.here >>= f) (Parser.here >>= g) σ R :=
  reads_look (P := fun _ => True) (fun c _ => ⟨c.span_recast, trivial⟩) fun s _ => hf s

theorem reads_through (start : Span) {f g : Span → Parser β}
    (hf : ∀ s, rd.Reads (f s) (g (rd.recast.span s)) σ R) :
    rd.Reads (Parser.through start >>= f) (Parser.through (rd.recast.span start) >>= g) σ R :=
  reads_look (P := fun _ => True) (fun _ _ => ⟨(rd.upTo start _).symm, trivial⟩) fun s _ => hf s

theorem reads_atMark (m : Mark) (hf : ∀ b, rd.Reads (f b) (g b) σ R) :
    rd.Reads (Parser.atMark m >>= f) (Parser.atMark m >>= g) σ R :=
  reads_same (fun c _ => by rw [Cursor.token_recast, Token.isMark_renamed]) hf

theorem reads_atWord {w : String} (hw : isReserved w = true)
    (hf : ∀ b, rd.Reads (f b) (g b) σ R) : rd.Reads (Parser.atWord w >>= f) (Parser.atWord w >>= g) σ R :=
  reads_same (fun c _ => by rw [Cursor.token_recast, Token.isWord_renamed (rd.keywords.reserved w hw)]) hf

theorem reads_atStatementEnd (hf : ∀ b, rd.Reads (f b) (g b) σ R) :
    rd.Reads (Parser.atStatementEnd >>= f) (Parser.atStatementEnd >>= g) σ R :=
  reads_same (fun _ hc => hc.atStatementEnd) hf

theorem functionFollows_recast (c : Cursor) :
    ((c.recast rd.recast).peekAt 1).isWord "function" = (c.peekAt 1).isWord "function" := by
  rw [Cursor.peekAt_recast, Token.isWord_renamed (rd.keywords.reserved _ (by decide))]

end

theorem passes_name : rd.Passes Parser.name Parser.name rd.recast.name rd.spelling.name := by
  refine reads_peek fun t ht => ?_
  cases t with
  | word w =>
    refine reads_ite (by rw [rd.keywords.isReserved]) (fun _ => reads_refuseToken _) fun hr => reads_advance ?_
    exact reads_pure ⟨rfl, ht.2 (by simpa using hr)⟩ rfl
  | _ => exact reads_refuseToken _

theorem reads_name {f g : String → Parser β}
    (hf : ∀ x, rd.spelling.name x → rd.Reads (f x) (g (rd.recast.name x)) σ R) :
    rd.Reads (Parser.name >>= f) (Parser.name >>= g) σ R :=
  Passes.bind passes_name hf

theorem passes_namesUpTo (n : Nat) : rd.Passes (Parser.namesUpTo n) (Parser.namesUpTo n)
    (List.map rd.recast.name) fun xs => ∀ x ∈ xs, rd.spelling.name x := by
  induction n with
  | zero => exact reads_refuse fun _ => rfl
  | succ n ih =>
    refine reads_atMark _ fun _ => reads_ite Iff.rfl (fun _ => reads_pure (by simp) rfl) fun _ => ?_
    refine reads_name fun x hx => reads_eat _ fun _ => ?_
    refine reads_ite Iff.rfl (fun _ => ?_) fun _ => reads_pure (by simpa using hx) rfl
    exact Passes.bind ih fun xs hxs => reads_pure (by simpa using ⟨hx, hxs⟩) rfl

theorem passes_params : rd.Passes Parser.params Parser.params (List.map rd.recast.name)
    fun xs => ∀ x ∈ xs, rd.spelling.name x := by
  have hnames : rd.Passes (fun c => Parser.namesUpTo (c.ahead.length + 1) c)
      (fun c => Parser.namesUpTo (c.ahead.length + 1) c) (List.map rd.recast.name)
      fun xs => ∀ x ∈ xs, rd.spelling.name x := by
    intro c hc
    have hlength : (c.recast rd.recast).ahead.length = c.ahead.length := List.length_map _
    obtain ⟨hok, herror⟩ := passes_namesUpTo (c.ahead.length + 1) c hc
    exact ⟨by simpa only [hlength] using hok, by simpa only [hlength] using herror⟩
  refine reads_expect _ (Passes.bind hnames fun xs hxs => reads_expect _ ?_)
  exact reads_pure ⟨rfl, hxs⟩ rfl

theorem reads_params {f g : List String → Parser β}
    (hf : ∀ xs, (∀ x ∈ xs, rd.spelling.name x) → rd.Reads (f xs) (g (xs.map rd.recast.name)) σ R) :
    rd.Reads (Parser.params >>= f) (Parser.params >>= g) σ R :=
  Passes.bind passes_params hf

theorem reads_binding? {f g : Option String → Parser β}
    (hf : ∀ x, (∀ y ∈ x, rd.spelling.name y) → rd.Reads (f x) (g (x.map rd.recast.name)) σ R) :
    rd.Reads (Parser.binding? >>= f) (Parser.binding? >>= g) σ R := by
  have hx : rd.Passes Parser.binding? Parser.binding? (Option.map rd.recast.name)
      fun x => ∀ y ∈ x, rd.spelling.name y := by
    refine reads_eat _ fun _ => reads_ite Iff.rfl (fun _ => ?_) fun _ => reads_pure (by simp) rfl
    exact reads_name fun x hx => reads_expect _ (reads_pure (by simpa using hx) rfl)
  exact Passes.bind hx hf

theorem yields_pure {w : α → List Visit} {ρ : Recast → α → α} {a b : α}
    (h : pre = tags (w a) ∧ Parsed rd.spelling (w a) ∧ P a ∧ ρ rd.recast a = b) :
    rd.Yields w ρ pre P (pure a) (pure b) :=
  reads_pure ⟨by rw [List.append_nil, h.1], h.2.1, h.2.2.1⟩ h.2.2.2

theorem Yields.of_eq {w : α → List Visit} {ρ : Recast → α → α} {pre' : List Tag} {y' : Parser α}
    (h : rd.Yields w ρ pre P x y) (hpre : pre' = pre) (hy : y' = y) : rd.Yields w ρ pre' P x y' :=
  hpre ▸ hy ▸ h

/-! ## What the rules read -/

/-- An expression is read. -/
abbrev YieldsExpr (rd : Reading) (pre : List Tag) (x y : Parser Expr) : Prop :=
  rd.Yields (Expr.walk .all) Expr.recast pre (fun _ => True) x y

/-- A statement is read that raises only if it may. -/
abbrev YieldsStmt (rd : Reading) (raising : Bool) (pre : List Tag) (x y : Parser Stmt) : Prop :=
  rd.Yields (Stmt.walk .all) Stmt.recast pre (fun s => RaisesOnlyIf raising (s.walk .surface)) x y

/-- Statements are read that raise only if they may. -/
abbrev YieldsStmts (rd : Reading) (raising : Bool) (pre : List Tag) (x y : Parser (List Stmt)) : Prop :=
  rd.Yields (walkStmts .all) recastStmts pre
    (fun ss => RaisesOnlyIf raising (walkStmts .surface ss)) x y

end Reading

namespace Parser

open Reading

/-- What all rules read with a budget of `n`. -/
structure Rules (rd : Reading) (n : Nat) : Prop where
  assignment : rd.YieldsExpr [] (assignment n) (assignment n)
  arrow : ∀ isAsync ps, rd.YieldsExpr [] (arrow n isAsync ps) (arrow n isAsync ps)
  yieldExpr : rd.YieldsExpr [] (yieldExpr n) (yieldExpr n)
  level : ∀ l, rd.YieldsExpr [] (level n l) (level n l)
  operand : ∀ l, rd.YieldsExpr [] (operand n l) (operand n l)
  operators : ∀ l e, Parsed rd.spelling (e.walk .all) →
    rd.YieldsExpr (tags (e.walk .all)) (operators n l e) (operators n l (e.recast rd.recast))
  unary : rd.YieldsExpr [] (unary n) (unary n)
  suffixes : ∀ e, Parsed rd.spelling (e.walk .all) →
    rd.YieldsExpr (tags (e.walk .all)) (suffixes n e) (suffixes n (e.recast rd.recast))
  items : ∀ m, rd.Yields (walkExprs .all) recastExprs [] (fun _ => True) (items n m) (items n m)
  primary : rd.YieldsExpr [] (primary n) (primary n)
  funcExpr : ∀ span isAsync, rd.Yields (Func.walk .all) Func.recast [] (fun _ => True)
    (funcExpr n span isAsync) (funcExpr n (rd.recast.span span) isAsync)
  funcRest : ∀ span called isAsync generator, (∀ x ∈ called, rd.spelling.name x) →
    rd.Yields (Func.walk .all) Func.recast [] (fun f => f.name = called ∧ f.form ≠ .arrow)
      (funcRest n span called isAsync generator)
      (funcRest n (rd.recast.span span) (called.map rd.recast.name) isAsync generator)
  attempt : ∀ span, rd.Yields (TryExpr.walk .all) TryExpr.recast [] (fun _ => True)
    (attempt n span) (attempt n (rd.recast.span span))
  statement : ∀ raising, rd.YieldsStmt raising [] (statement n raising) (statement n raising)
  expressionStatement : ∀ raising span, rd.YieldsStmt raising [] (expressionStatement n span)
    (expressionStatement n (rd.recast.span span))
  declaration : ∀ raising kind span, rd.YieldsStmt raising [] (declaration n kind span)
    (declaration n kind (rd.recast.span span))
  declarators : ∀ kind, rd.Yields (walkDecls .all) recastDecls []
    (fun ds => ds ≠ [] ∧ ∀ d ∈ ds, rd.spelling.name d.name ∧ (kind = .constant → d.init.isSome))
    (declarators n kind) (declarators n kind)
  inParens : rd.YieldsExpr [] (inParens n) (inParens n)
  cases : ∀ raising hasDefault, rd.Yields (walkCases .all) recastCases []
    (fun cs => RaisesOnlyIf raising (walkCases .surface cs) ∧
      cs.countP (·.test.isNone) ≤ if hasDefault then 0 else 1)
    (cases n raising hasDefault) (cases n raising hasDefault)
  guarded : ∀ raising span, rd.YieldsStmt raising [] (guarded n raising span)
    (guarded n raising (rd.recast.span span))
  handler : ∀ raising, rd.Yields (fun k => walkHandler .all (some k)) Handler.recast []
    (fun k => RaisesOnlyIf raising (walkHandler .surface (some k)) ∧ ∀ x ∈ k.param, rd.spelling.name x)
    (handler n raising) (handler n raising)
  funcDeclaration : ∀ raising span isAsync, rd.YieldsStmt raising []
    (funcDeclaration n span isAsync) (funcDeclaration n (rd.recast.span span) isAsync)
  block : ∀ raising, rd.YieldsStmts raising [] (block n raising) (block n raising)
  statements : ∀ raising ending, rd.YieldsStmts raising [] (statements n raising ending)
    (statements n raising ending)

/-- Without a budget nothing is read. -/
theorem rules_zero (rd : Reading) : Rules rd 0 := by
  constructor <;> intros <;> exact reads_refuse fun _ => rfl

section

variable {rd : Reading} {n : Nat}

-- Derives the equations of the walks once, ahead of the lemmas that unfold them.
attribute [local simp] Expr.walk walkExprs Func.walk Stmt.walk walkDecls walkCases
  walkHandler walkBlock walkStmts TryExpr.walk_all
attribute [local simp] Visit.Spelled Visit.Placed RaisesOnlyIf

/-! ### Expressions -/

@[simp] theorem isTarget_recast (m : Recast) (e : Expr) : (e.recast m).isTarget = e.isTarget := by
  cases e <;> simp [Expr.isTarget]

theorem reads_assignment_succ (h : Rules rd n) : rd.YieldsExpr [] (assignment (n + 1)) (assignment (n + 1)) := by
  refine reads_same (fun c _ => Cursor.arrowAhead_recast rd.keywords c) fun ahead => ?_
  cases ahead with
  | some ahead => exact h.arrow _ _
  | none =>
    refine reads_atWord (by decide) fun _ => reads_ite Iff.rfl (fun _ => h.yieldExpr) fun _ => ?_
    refine (h.level _).bind fun left hleft _ => reads_atMark _ fun _ => ?_
    refine reads_ite Iff.rfl (fun _ => ?_) fun _ => yields_pure ⟨rfl, hleft, trivial, rfl⟩
    refine reads_ite (by rw [isTarget_recast]) (fun htarget => reads_advance ?_) fun _ => reads_refuse fun _ => rfl
    refine h.assignment.bind fun value hvalue _ => yields_pure ?_
    simp [htarget, hleft, hvalue]

/-- An arrow function after its parameters. -/
def arrowRest (n : Nat) (isAsync : Bool) (start : Span) (names : List String) : Parser Expr := do
  expect .arrow
  let body ← if ← atMark .leftBrace then .block <$> block n false else .expr <$> assignment n
  return .func ⟨none, names, body, isAsync, .arrow, ← through start⟩

theorem reads_arrowRest (h : Rules rd n) (isAsync : Bool) (start : Span) (names : List String)
    (hnames : ∀ x ∈ names, rd.spelling.name x) :
    rd.YieldsExpr [] (arrowRest n isAsync start names)
      (arrowRest n isAsync (rd.recast.span start) (names.map rd.recast.name)) := by
  refine reads_expect _ (reads_atMark _ fun b => ?_)
  cases b with
  | true =>
    refine (h.block false).map_bind fun ss hss hraise => reads_through _ fun span => ?_
    exact yields_pure (by simpa using ⟨⟨hnames, hraise rfl⟩, hss⟩)
  | false =>
    refine h.assignment.map_bind fun e he _ => reads_through _ fun span => ?_
    exact yields_pure (by simpa using ⟨hnames, he⟩)

theorem reads_arrow_succ (h : Rules rd n) (isAsync : Bool) (ps : ArrowParams) :
    rd.YieldsExpr [] (arrow (n + 1) isAsync ps) (arrow (n + 1) isAsync ps) := by
  refine reads_here fun start => ?_
  have hrest := reads_arrowRest h isAsync start
  have hsingle : rd.YieldsExpr [] ((fun x => [x]) <$> name >>= arrowRest n isAsync start)
      ((fun x => [x]) <$> name >>= arrowRest n isAsync (rd.recast.span start)) := by
    rw [bind_map_left, bind_map_left]
    exact reads_name fun x hx => hrest [x] (by simpa using hx)
  have hlist := reads_params hrest
  cases isAsync <;> cases ps
  · exact hsingle
  · exact hlist
  · exact reads_advance hsingle
  · exact reads_advance hlist

theorem reads_yieldExpr_succ (h : Rules rd n) : rd.YieldsExpr [] (yieldExpr (n + 1)) (yieldExpr (n + 1)) := by
  refine reads_advance (reads_eat _ fun delegate => reads_same (fun c hc => by simp [hc.afterBreak]) fun _ => ?_)
  refine reads_ite Iff.rfl (fun hd => ?_) fun _ => ?_
  · simp only [Bool.and_eq_true, Bool.not_eq_true'] at hd
    exact yields_pure (by simp [hd.2])
  · exact h.assignment.bind fun e he _ => yields_pure (by simp [he])

theorem joinToken?_renamed (r : String → String) (l : Level) (t : Token) :
    l.joinToken? (t.renamed r) = l.joinToken? t := by
  cases t <;> rfl

section

variable (h : Rules rd n)

include h

theorem reads_operators_succ (l : Level) (e : Expr) (he : Parsed rd.spelling (e.walk .all)) :
    rd.YieldsExpr (tags (e.walk .all)) (operators (n + 1) l e) (operators (n + 1) l (e.recast rd.recast)) := by
  refine reads_peek fun t _ => ?_
  rw [joinToken?_renamed]
  split
  · rename_i join hjoin
    refine reads_advance ((h.operand l).bind fun right hright _ => ?_)
    rcases join_cases hjoin with ⟨op, rfl⟩ | ⟨op, rfl⟩
    · exact (h.operators l (.logical op e right) (by simp [he, hright])).of_eq (by simp) (by simp)
    · exact (h.operators l (.binary op e right) (by simp [he, hright])).of_eq (by simp) (by simp)
  · exact yields_pure ⟨rfl, he, trivial, rfl⟩

theorem reads_unary_succ : rd.YieldsExpr [] (unary (n + 1)) (unary (n + 1)) := by
  have hsuffixed : rd.YieldsExpr [] (do suffixes n (← primary n)) (do suffixes n (← primary n)) :=
    h.primary.bind fun e he _ => h.suffixes e he
  have hunary (op : UnaryOp) : rd.YieldsExpr [] (do advance; return .unary op (← unary n))
      (do advance; return .unary op (← unary n)) :=
    reads_advance (h.unary.bind fun e he _ => yields_pure (by simpa using he))
  refine reads_peek fun t _ => ?_
  cases t with
  | word w =>
    refine reads_ite (rd.keywords.reserved _ (by decide) w) (fun _ => hunary .typeName) fun _ => ?_
    refine reads_ite (rd.keywords.reserved _ (by decide) w) (fun _ => reads_advance ?_) fun _ => hsuffixed
    exact h.unary.bind fun e he _ => yields_pure (by simpa using he)
  | mark m =>
    cases m with
    | bang => exact hunary .not
    | minus => exact hunary .negate
    | _ => exact hsuffixed
  | _ => exact hsuffixed

theorem reads_suffixes_succ (e : Expr) (he : Parsed rd.spelling (e.walk .all)) :
    rd.YieldsExpr (tags (e.walk .all)) (suffixes (n + 1) e) (suffixes (n + 1) (e.recast rd.recast)) := by
  refine reads_peek fun t _ => ?_
  cases t with
  | mark m =>
    cases m with
    | dot =>
      refine reads_advance (reads_peek fun t ht => ?_)
      cases t with
      | word w =>
        refine reads_advance ((h.suffixes (.member e w) ?_).of_eq (by simp) (by simp [rd.property]))
        simpa [he] using ht.1
      | _ => exact reads_refuseToken _
    | leftBracket =>
      refine reads_advance (h.assignment.bind fun key hkey _ => reads_expect _ ?_)
      exact (h.suffixes (.index e key) (by simp [he, hkey])).of_eq (by simp) (by simp)
    | leftParen =>
      refine reads_advance ((h.items _).bind fun args hargs _ => reads_expect _ ?_)
      exact (h.suffixes (.call e args) (by simp [he, hargs])).of_eq (by simp) (by simp)
    | _ => exact yields_pure ⟨rfl, he, trivial, rfl⟩
  | _ => exact yields_pure ⟨rfl, he, trivial, rfl⟩

theorem reads_items_succ (m : Mark) :
    rd.Yields (walkExprs .all) recastExprs [] (fun _ => True) (items (n + 1) m) (items (n + 1) m) := by
  refine reads_atMark _ fun _ => reads_ite Iff.rfl (fun _ => yields_pure (by simp))
    fun _ => ?_
  refine h.assignment.bind fun e he _ => reads_eat _ fun _ => reads_ite Iff.rfl (fun _ => ?_) fun _ => ?_
  · exact (h.items m).bind fun es hes _ => yields_pure (by simp [he, hes])
  · exact yields_pure (by simp [he])

theorem reads_primary_succ : rd.YieldsExpr [] (primary (n + 1)) (primary (n + 1)) := by
  have hleaf {e f : Expr} (h : [] = tags (e.walk .all) ∧ Parsed rd.spelling (e.walk .all) ∧ True ∧
      e.recast rd.recast = f) : rd.YieldsExpr [] (do advance; return e) (do advance; return f) :=
    reads_advance (yields_pure h)
  have hfunc (start : Span) (isAsync : Bool) : rd.YieldsExpr []
      (do return Expr.func (← funcExpr n start isAsync) : Parser Expr)
      (do return Expr.func (← funcExpr n (rd.recast.span start) isAsync) : Parser Expr) :=
    (h.funcExpr start isAsync).bind fun f hf _ => yields_pure (by simpa using hf)
  refine reads_here fun start => reads_peek fun t ht => ?_
  cases t with
  | number v => exact hleaf (by simpa [Token.Fits] using ht)
  | string v => exact hleaf (by simp)
  | mark m =>
    cases m with
    | leftParen =>
      refine reads_advance (h.assignment.bind fun e he _ => reads_expect _ ?_)
      exact yields_pure ⟨rfl, he, trivial, rfl⟩
    | leftBracket =>
      refine reads_advance ((h.items _).bind fun es hes _ => reads_expect _ ?_)
      exact yields_pure (by simpa using hes)
    | _ => exact reads_refuseToken _
  | word w =>
    have hword (k : String) (hk : isReserved k = true) : rd.recast.name w = k ↔ w = k :=
      rd.keywords.reserved k hk w
    refine reads_same (fun c _ => by rw [Cursor.peekAt_recast, Token.isMark_renamed]) fun _ =>
      reads_ite ?_ (fun _ => reads_advance ?_) fun _ => ?_
    · rw [Bool.and_eq_true, Bool.and_eq_true, decide_eq_true_iff, decide_eq_true_iff, hword _ (by decide)]
    · exact (h.attempt _).bind fun t ht _ => yields_pure (by simpa using ht)
    iterate 5 refine reads_ite (hword _ (by decide)) (fun _ => hleaf (by simp)) fun _ => ?_
    refine reads_ite (hword _ (by decide)) (fun _ => reads_advance (hfunc _ _)) fun _ => ?_
    refine reads_same (fun c _ => functionFollows_recast c) fun _ =>
      reads_ite ?_ (fun _ => reads_advance (reads_advance (hfunc _ _))) fun _ => ?_
    · rw [Bool.and_eq_true, Bool.and_eq_true, decide_eq_true_iff, decide_eq_true_iff, rd.keywords.async]
    refine reads_ite (by rw [rd.keywords.isReserved]) (fun _ => reads_refuse fun hs => by rw [rd.exact hs, id]) ?_
    exact fun hr => hleaf (by simpa using ht.2 (by simpa using hr))
  | finish => exact reads_refuseToken _

/-! ### Functions and try expressions -/

theorem reads_funcRest_succ (span : Span) (called : Option String) (isAsync generator : Bool)
    (hcalled : ∀ x ∈ called, rd.spelling.name x) :
    rd.Yields (Func.walk .all) Func.recast [] (fun f => f.name = called ∧ f.form ≠ .arrow)
      (funcRest (n + 1) span called isAsync generator)
      (funcRest (n + 1) (rd.recast.span span) (called.map rd.recast.name) isAsync generator) := by
  refine reads_params fun names hnames => (h.block false).bind fun body hbody hraise =>
    reads_through _ fun span => ?_
  refine yields_pure ⟨by simp, ?_, ⟨rfl, by cases generator <;> simp⟩, by simp⟩
  simp only [Func.walk, Reach.functions_all, if_true, parsed_cons]
  refine ⟨⟨⟨hnames, hcalled, fun harrow => ?_, by simp⟩, hraise rfl⟩, hbody⟩
  cases generator <;> cases harrow

theorem reads_funcExpr_succ (span : Span) (isAsync : Bool) :
    rd.Yields (Func.walk .all) Func.recast [] (fun _ => True) (funcExpr (n + 1) span isAsync)
      (funcExpr (n + 1) (rd.recast.span span) isAsync) := by
  have hrest (called : Option String) (generator : Bool) (hc : ∀ x ∈ called, rd.spelling.name x) :
      rd.Yields (Func.walk .all) Func.recast [] (fun _ => True) (funcRest n span called isAsync generator)
        (funcRest n (rd.recast.span span) (called.map rd.recast.name) isAsync generator) :=
    (h.funcRest span called isAsync generator hc).imp fun _ _ hf => ⟨hf.1, hf.2.1, trivial⟩
  refine reads_eat _ fun generator => reads_atMark _ fun _ => ?_
  refine reads_ite Iff.rfl (fun _ => hrest none generator (by simp)) fun _ => ?_
  rw [bind_map_left, bind_map_left]
  exact reads_name fun x hx => hrest (some x) generator (by simpa using hx)

theorem reads_attempt_succ (span : Span) :
    rd.Yields (TryExpr.walk .all) TryExpr.recast [] (fun _ => True) (attempt (n + 1) span)
      (attempt (n + 1) (rd.recast.span span)) := by
  refine reads_freshId fun id => ?_
  change rd.Yields _ _ [⟨id, none⟩] _ _ _
  refine (h.block true).bind fun body hbody _ => reads_eatWord (by decide) fun b => ?_
  cases b with
  | false => exact reads_refuseToken_bind _
  | true =>
    refine reads_binding? fun catchParam hparam => (h.block true).bind fun catchBody hcatch _ => ?_
    refine reads_eatWord (by decide) fun _ => reads_ite Iff.rfl (fun _ => ?_) fun _ =>
      reads_through _ fun span => ?_
    · refine reads_binding? fun finallyParam hfinal => ?_
      rw [Option.isSome_map]
      refine (h.block _).bind fun finallyBody hfinally hraise => reads_through _ fun span => ?_
      refine yields_pure ⟨by simp, ?_, trivial, by simp⟩
      rw [TryExpr.walk_all, parsed_cons, parsed_append, parsed_append]
      refine ⟨⟨⟨hparam, hfinal, fun _ => rfl⟩, fun hnone => hraise ?_⟩, ⟨hbody, hcatch⟩, hfinally⟩
      rw [show finallyParam = none from hnone, Option.isSome_none]
    · refine yields_pure ⟨by simp, ?_, trivial, by simp⟩
      rw [TryExpr.walk_all, parsed_cons, parsed_append, parsed_append]
      exact ⟨⟨⟨hparam, by simp, by simp⟩, fun _ _ => rfl⟩, ⟨hbody, hcatch⟩, parsed_nil⟩

/-! ### Statements -/

/-- The declarators after a name and its initial value. -/
def declaratorsRest (n : Nat) (kind : BindingKind) (x : String) (init : Option Expr) :
    Parser (List Declarator) := do
  if kind = .constant && init.isNone then refuse (.missingInitializer x)
  if ← eat .comma then return ⟨x, init⟩ :: (← declarators n kind) else return [⟨x, init⟩]

theorem reads_declaratorsRest (kind : BindingKind) {x : String} (init : Option Expr)
    (hx : rd.spelling.name x) (hinit : Parsed rd.spelling (walkDecls .all [⟨x, init⟩])) :
    rd.Yields (walkDecls .all) recastDecls (tags (walkDecls .all [⟨x, init⟩]))
      (fun ds => ds ≠ [] ∧ ∀ d ∈ ds, rd.spelling.name d.name ∧ (kind = .constant → d.init.isSome))
      (declaratorsRest n kind x init)
        (declaratorsRest n kind (rd.recast.name x) (recastExpr? rd.recast init)) := by
  have hnone : (recastExpr? rd.recast init).isNone = init.isNone := by cases init <;> simp
  have hsplit (ds : List Declarator) : walkDecls .all (⟨x, init⟩ :: ds) =
      walkDecls .all [⟨x, init⟩] ++ walkDecls .all ds := by
    cases init <;> simp
  unfold declaratorsRest
  rw [hnone]
  cases hk : decide (kind = .constant) && init.isNone with
  | true => exact reads_refuse_bind fun hs => by rw [rd.exact hs, id]
  | false =>
    have hsome : kind = .constant → init.isSome := by
      rintro rfl
      cases init <;> simp at hk ⊢
    refine reads_eat _ fun _ => reads_ite Iff.rfl (fun _ => ?_) fun _ => ?_
    · refine (h.declarators kind).bind fun ds hds hspelled => yields_pure ⟨?_, ?_, ⟨by simp, ?_⟩, by simp⟩
      · rw [hsplit ds, tags_append]
      · rw [hsplit ds, parsed_append]
        exact ⟨hinit, hds⟩
      · simpa using ⟨⟨hx, hsome⟩, hspelled.2⟩
    · exact yields_pure ⟨rfl, hinit, ⟨by simp, by simpa using ⟨hx, hsome⟩⟩, by simp⟩

theorem reads_declarators_succ (kind : BindingKind) :
    rd.Yields (walkDecls .all) recastDecls []
      (fun ds => ds ≠ [] ∧ ∀ d ∈ ds, rd.spelling.name d.name ∧ (kind = .constant → d.init.isSome))
      (declarators (n + 1) kind) (declarators (n + 1) kind) := by
  refine reads_name fun x hx => reads_eat _ fun _ => reads_ite Iff.rfl (fun _ => ?_) fun _ => ?_
  · refine h.assignment.map_bind fun e he _ => ?_
    exact (reads_declaratorsRest h kind (some e) hx (by simpa using he)).of_eq (by simp)
      (by simp [declaratorsRest])
  · exact (reads_declaratorsRest h kind none hx (by simp)).of_eq (by simp) (by simp [declaratorsRest])

theorem reads_cases_succ (raising hasDefault : Bool) :
    rd.Yields (walkCases .all) recastCases []
      (fun cs => RaisesOnlyIf raising (walkCases .surface cs) ∧
        cs.countP (·.test.isNone) ≤ if hasDefault then 0 else 1)
      (cases (n + 1) raising hasDefault) (cases (n + 1) raising hasDefault) := by
  refine reads_eat _ fun _ => reads_ite Iff.rfl (fun _ => yields_pure (by simp)) fun _ => ?_
  refine reads_eatWord (by decide) fun _ => reads_ite Iff.rfl (fun _ => ?_) fun _ => ?_
  · refine h.assignment.bind fun e he _ => reads_expect _ ?_
    refine (h.statements _ _).bind fun body hbody hraise =>
      (h.cases raising hasDefault).bind fun cs hcs hrest => ?_
    refine yields_pure ⟨by simp, by simp [he, hbody, hcs], ⟨fun hr c => ?_, by simpa using hrest.2⟩, by simp⟩
    simp [hraise hr c, hrest.1 hr c]
  refine reads_atWord (by decide) fun _ => reads_ite Iff.rfl (fun _ => ?_) fun _ => reads_refuseToken _
  cases hasDefault with
  | true => exact reads_refuse_bind fun _ => rfl
  | false =>
    refine reads_advance (reads_expect _ ?_)
    refine (h.statements _ _).bind fun body hbody hraise => (h.cases raising true).bind fun cs hcs hrest => ?_
    refine yields_pure ⟨by simp, by simp [hbody, hcs], ⟨fun hr c => ?_, by simpa using hrest.2⟩, by simp⟩
    simp [hraise hr c, hrest.1 hr c]

/-- The end of a try statement, whose clauses have been read. -/
def guardedEnd (start : Span) (body : List Stmt) (k : Option Handler) (b : Option (List Stmt)) : Parser Stmt := do
  if k.isNone && b.isNone then refuse .loneTry
  return .guarded body k b (← through start)

omit h in
theorem reads_guardedEnd {raising : Bool} (start : Span) {body : List Stmt} (k : Option Handler)
    (b : Option (List Stmt))
    (hbody : Parsed rd.spelling (walkStmts .all body) ∧ RaisesOnlyIf raising (walkStmts .surface body))
    (hk : Parsed rd.spelling (walkHandler .all k) ∧ RaisesOnlyIf raising (walkHandler .surface k) ∧
      ∀ x ∈ k, ∀ y ∈ x.param, rd.spelling.name y)
    (hb : Parsed rd.spelling (walkBlock .all b) ∧ RaisesOnlyIf raising (walkBlock .surface b))
    (hpre : pre = tags (walkStmts .all body) ++ tags (walkHandler .all k) ++
      tags (walkBlock .all b)) : rd.YieldsStmt raising pre (guardedEnd start body k b)
      (guardedEnd (rd.recast.span start) (recastStmts rd.recast body) (recastHandler rd.recast k)
        (recastBlock rd.recast b)) := by
  have hsame : ((recastHandler rd.recast k).isNone && (recastBlock rd.recast b).isNone) =
    (k.isNone && b.isNone) := by
    cases k <;> cases b <;> simp
  unfold guardedEnd
  rw [hsame]
  cases hlone : k.isNone && b.isNone with
  | true => exact reads_refuse_bind fun _ => rfl
  | false =>
    refine reads_through _ fun span => yields_pure ⟨?_, ?_, fun hr c => ?_, by simp⟩
    · rw [hpre, Stmt.walk]
      simp
    · rw [Stmt.walk, parsed_cons, parsed_append, parsed_append]
      refine ⟨⟨⟨?_, hk.2.2⟩, trivial⟩, ⟨hbody.1, hk.1⟩, hb.1⟩
      cases k <;> cases b <;> simp_all
    · rw [Stmt.walk, raiseSites_cons, raiseSites_append, raiseSites_append, hbody.2 hr c, hk.2.1 hr c, hb.2 hr c]
      rfl

/-- A try statement from its finally clause on. -/
def guardedRest (n : Nat) (raising : Bool) (start : Span) (body : List Stmt) (k : Option Handler) :
    Parser Stmt := do
  guardedEnd start body k (← if ← eatWord "finally" then some <$> block n raising else pure none)

theorem reads_guarded_succ (raising : Bool) (span : Span) :
    rd.YieldsStmt raising [] (guarded (n + 1) raising span) (guarded (n + 1) raising (rd.recast.span span)) := by
  refine (h.block raising).bind fun body hbody hraise => ?_
  have hfinal (k : Option Handler) (hk : Parsed rd.spelling (walkHandler .all k) ∧
      RaisesOnlyIf raising (walkHandler .surface k) ∧ ∀ x ∈ k, ∀ y ∈ x.param, rd.spelling.name y) :
      rd.YieldsStmt raising (tags (walkStmts .all body) ++ tags (walkHandler .all k))
        (guardedRest n raising span body k)
        (guardedRest n raising (rd.recast.span span) (recastStmts rd.recast body)
          (recastHandler rd.recast k)) := by
    refine reads_eatWord (by decide) fun _ => reads_ite Iff.rfl (fun _ => ?_) fun _ => ?_
    · refine (h.block raising).map_bind fun ss hss hrest => ?_
      exact (reads_guardedEnd span k (some ss) ⟨hbody, hraise⟩ hk ⟨hss, hrest⟩ rfl).of_eq rfl (by simp)
    · exact (reads_guardedEnd span k none ⟨hbody, hraise⟩ hk (by simp) (by simp)).of_eq rfl (by simp)
  refine reads_eatWord (by decide) fun _ => reads_ite Iff.rfl (fun _ => ?_) fun _ => ?_
  · refine (h.handler raising).map_bind fun k hk hrest => ?_
    exact (hfinal (some k) ⟨hk, hrest.1, by simpa using hrest.2⟩).of_eq rfl (by simp [guardedRest, guardedEnd])
  · exact (hfinal none (by simp)).of_eq (by simp) (by simp [guardedRest, guardedEnd])

omit h in
theorem endsAt_renamed (hr : Renaming r) (ending : Ending) (t : Token) :
    ending.endsAt (t.renamed r) = ending.endsAt t := by
  cases ending <;> simp [Ending.endsAt, Token.isWord_renamed (hr.reserved "case" (by decide)),
    Token.isWord_renamed (hr.reserved "default" (by decide))]

theorem reads_statements_succ (raising : Bool) (ending : Ending) :
    rd.YieldsStmts raising [] (statements (n + 1) raising ending) (statements (n + 1) raising ending) := by
  refine reads_peek fun t _ => reads_ite (by rw [endsAt_renamed rd.keywords]) (fun _ => ?_) fun _ => ?_
  · exact yields_pure (by simp)
  refine reads_eat _ fun _ => reads_ite Iff.rfl (fun _ => h.statements _ _) fun _ => ?_
  refine (h.statement raising).bind fun st hst hraise => (h.statements raising ending).bind fun ss hss hrest => ?_
  refine yields_pure ⟨by simp, by simp [hst, hss], fun hr c => ?_, by simp⟩
  simp [hraise hr c, hrest hr c]

/-- The value of a raise after its keyword, with the identity of the raise. -/
def raised (n : Nat) : Parser (NodeId × Expr) := do
  if ← atStatementEnd then refuse .raiseWithoutValue
  let value ← assignment n
  semicolon
  return (← freshId, value)

theorem reads_raised : rd.Reads (raised n) (raised n) (fun r => (r.1, r.2.recast rd.recast))
    fun ts r => ts = tags (r.2.walk .all) ++ [⟨r.1, none⟩] ∧ Parsed rd.spelling (r.2.walk .all) := by
  refine reads_atStatementEnd fun b => ?_
  cases b with
  | true => exact reads_refuse_bind fun _ => rfl
  | false =>
    refine Reads.bind h.assignment fun ts e hts => reads_semicolon (reads_freshId fun id => reads_pure ?_ rfl)
    obtain ⟨rfl, he, -⟩ := hts
    exact ⟨rfl, he⟩

/-- A raise from its keyword on. -/
def raiseFrom (n : Nat) (start : Span) : Parser Stmt := do
  advance
  if ← atStatementEnd then refuse .raiseWithoutValue
  let value ← assignment n
  semicolon
  let id ← freshId
  return .raise id value (← through start)

omit h in
theorem raiseFrom_apply (n : Nat) (start : Span) (c : Cursor) :
    raiseFrom n start c = (raised n c.advance).map fun r => (.raise r.1.1 r.1.2 (start.upTo r.2.before), r.2) := by
  have hsplit : raiseFrom n start = advance >>= fun _ => raised n >>= fun r => do
      return Stmt.raise r.1 r.2 (← through start) := by
    unfold raised raiseFrom
    rw [bind_assoc]
    refine congrArg _ (funext fun _ => congrArg _ (funext fun b => ?_))
    cases b <;> simp
  rw [hsplit]
  change (raised n c.advance >>= fun r =>
    (do return Stmt.raise r.1.1 r.1.2 (← through start) : Parser Stmt) r.2) = _
  cases raised n c.advance <;> rfl

theorem readsAt_raise {c : Cursor} (hc : rd.Sees c) (hfinish : c.current.token.isFinish = false) :
    rd.ReadsAt c (raiseFrom n c.current.span) (raiseFrom n (rd.recast.span c.current.span)) (Stmt.recast rd.recast)
      fun ts st => ([] ++ ts = tags (st.walk .all) ∧ Parsed rd.spelling (st.walk .all) ∧
        RaisesOnlyIf true (st.walk .surface)) ∧ ts ≠ [] := by
  obtain ⟨hok, herror⟩ := reads_raised h c.advance hc.advance
  constructor
  · intro st c' hst
    rw [raiseFrom_apply] at hst
    cases hr : raised n c.advance with
    | error e => rw [hr] at hst; cases hst
    | ok r =>
      obtain ⟨⟨id, value⟩, c₁⟩ := r
      rw [hr] at hst
      cases hst
      obtain ⟨ts, ⟨rfl, hvalue⟩, hsees, hcovers, hmirror⟩ := hok _ _ hr
      refine ⟨⟨id, some c.place⟩ :: tags (value.walk .all),
        ⟨⟨by simp; rfl, by simpa using hvalue, by simp⟩, by simp⟩, hsees,
        fun hs => (hcovers hs.advance).raise hs hfinish, fun hor => ?_⟩
      rw [raiseFrom_apply, Cursor.advance_recast, hmirror (hor.imp_right fun hnil => by cases hnil)]
      simp only [Except.map, Stmt.recast, rd.upTo]
      rfl
  · intro e he hs
    rw [raiseFrom_apply] at he
    cases hr : raised n c.advance with
    | ok r => rw [hr] at he; cases he
    | error e' =>
      rw [hr] at he
      cases he
      rw [raiseFrom_apply, Cursor.advance_recast, herror _ hr hs]
      rfl

/-- A branch after its keyword. -/
def branchRest (n : Nat) (raising : Bool) (start : Span) : Parser Stmt := do
  let test ← inParens n
  let yes ← statement n raising
  let no ← if ← eatWord "else" then some <$> statement n raising else pure none
  return .branch test yes no (← through start)

theorem reads_branchRest (raising : Bool) (start : Span) :
    rd.YieldsStmt raising [] (branchRest n raising start) (branchRest n raising (rd.recast.span start)) := by
  refine h.inParens.bind fun test htest _ => (h.statement raising).bind fun yes hyes hraise => ?_
  refine reads_eatWord (by decide) fun _ => reads_ite Iff.rfl (fun _ => ?_) fun _ => ?_
  · refine (h.statement raising).map_bind fun no hno hrest => reads_through _ fun span => ?_
    refine yields_pure ⟨by simp, by simp [htest, hyes, hno], fun hr c => ?_, by simp⟩
    simp [hraise hr c, hrest hr c]
  · rw [pure_bind, pure_bind]
    refine reads_through _ fun span => yields_pure ⟨by simp, by simp [htest, hyes], fun hr c => ?_, by simp⟩
    simp [hraise hr c]

/-- A `return` after its keyword. -/
def retRest (n : Nat) (start : Span) : Parser Stmt := do
  let arg ← if ← atStatementEnd then pure none else some <$> assignment n
  semicolon
  return .ret arg (← through start)

theorem reads_retRest (raising : Bool) (start : Span) :
    rd.YieldsStmt raising [] (retRest n start) (retRest n (rd.recast.span start)) := by
  refine reads_atStatementEnd fun _ => reads_ite Iff.rfl (fun _ => ?_) fun _ => ?_
  · rw [pure_bind, pure_bind]
    refine reads_semicolon (reads_through _ fun span => ?_)
    exact yields_pure (by simp)
  · refine h.assignment.map_bind fun e he _ => reads_semicolon (reads_through _ fun span => ?_)
    exact yields_pure (by simpa using he)

theorem reads_statement_succ (raising : Bool) :
    rd.YieldsStmt raising [] (statement (n + 1) raising) (statement (n + 1) raising) := by
  intro c hc
  refine readsAt_look c.span_recast (readsAt_look c.token_recast ?_)
  cases ht : c.current.token with
  | mark m =>
    cases m with
    | leftBrace =>
      refine (h.block raising).bind (fun body hbody hraise => reads_through _ fun span => ?_) c hc
      exact yields_pure (by simpa using ⟨hbody, hraise⟩)
    | _ => exact h.expressionStatement _ _ c hc
  | word w =>
    have hword (k : String) (hk : isReserved k = true) : rd.recast.name w = k ↔ w = k :=
      rd.keywords.reserved k hk w
    iterate 3 refine readsAt_ite (hword _ (by decide)) (fun _ => h.declaration _ _ _ c hc) fun _ => ?_
    refine readsAt_ite (hword _ (by decide)) (fun _ => reads_advance (reads_branchRest h _ _) c hc) fun _ => ?_
    refine readsAt_ite (hword _ (by decide)) (fun _ => reads_advance ?_ c hc) fun _ => ?_
    · refine h.inParens.bind fun test htest _ => (h.statement raising).bind fun body hbody hraise => ?_
      refine reads_through _ fun span => yields_pure ⟨by simp, by simp [htest, hbody], fun hr c => ?_, by simp⟩
      simp [hraise hr c]
    refine readsAt_ite (hword _ (by decide)) (fun _ => reads_advance ?_ c hc) fun _ => ?_
    · refine h.inParens.bind fun subject hsubject _ => reads_expect _ ?_
      refine (h.cases raising false).bind fun cs hcs hrest => reads_through _ fun span => ?_
      refine yields_pure ⟨by simp, by simpa [hsubject, hcs] using hrest.2, fun hr c => ?_, by simp⟩
      simp [hrest.1 hr c]
    refine readsAt_ite (hword _ (by decide)) (fun _ => reads_advance (reads_semicolon ?_) c hc) fun _ => ?_
    · exact yields_pure (by simp)
    refine readsAt_ite (hword _ (by decide)) (fun _ => reads_advance (reads_semicolon ?_) c hc) fun _ => ?_
    · exact yields_pure (by simp)
    refine readsAt_ite (hword _ (by decide)) (fun _ => reads_advance (reads_retRest h _ _) c hc) fun _ => ?_
    refine readsAt_ite (hword _ (by decide)) (fun _ => reads_advance ?_ c hc) fun _ => ?_
    · refine h.assignment.bind fun e he _ => reads_semicolon (reads_through _ fun span => ?_)
      exact yields_pure (by simpa using he)
    refine readsAt_ite (hword _ (by decide)) (fun _ => reads_advance (h.guarded _ _) c hc) fun _ => ?_
    refine readsAt_ite (hword _ (by decide)) (fun _ => reads_advance (h.funcDeclaration _ _ _) c hc) fun _ => ?_
    refine readsAt_look (ρ := id) (functionFollows_recast c) (readsAt_ite ?_ (fun _ =>
      reads_advance (reads_advance (h.funcDeclaration _ _ _)) c hc) fun _ => ?_)
    · rw [Bool.and_eq_true, Bool.and_eq_true, decide_eq_true_iff, decide_eq_true_iff, rd.keywords.async, id]
    -- Where `raise` is a keyword it is read as one, also if the other word is none.
    have hraise := readsAt_raise h hc (by rw [ht]; rfl)
    by_cases hw : (decide (w = "raise") && raising) = true
    · obtain rfl : raising = true := (Bool.and_eq_true_iff.1 hw).2
      rw [if_pos hw]
      by_cases hw' : (decide (rd.recast.name w = "raise") && true) = true
      · rw [if_pos hw']
        exact hraise.imp fun _ _ hst => hst.1
      · cases hs : rd.strict with
        | true => exact absurd hw (by rwa [rd.exact hs] at hw')
        | false => exact (hraise.excused hs fun _ _ hst => hst.2).imp fun _ _ hst => hst.1
    · have hw' : ¬(decide (rd.recast.name w = "raise") && raising) = true := by
        rw [Bool.and_eq_true, decide_eq_true_iff] at hw ⊢
        exact fun h => hw ⟨rd.keywords.raise w h.1, h.2⟩
      rw [if_neg hw, if_neg hw']
      exact h.expressionStatement _ _ c hc
  | _ => exact h.expressionStatement _ _ c hc

end

/-! ### All rules -/

theorem rules_succ (h : Rules rd n) : Rules rd (n + 1) where
  assignment := reads_assignment_succ h
  arrow := reads_arrow_succ h
  yieldExpr := reads_yieldExpr_succ h
  level l := (h.operand l).bind fun e he _ => h.operators l e he
  operand l := by
    rw [operand]
    split
    · exact h.level _
    · exact h.unary
  operators := reads_operators_succ h
  unary := reads_unary_succ h
  suffixes := reads_suffixes_succ h
  items := reads_items_succ h
  primary := reads_primary_succ h
  funcExpr := reads_funcExpr_succ h
  funcRest := reads_funcRest_succ h
  attempt := reads_attempt_succ h
  statement := reads_statement_succ h
  expressionStatement _ _ := by
    refine h.assignment.bind fun e he _ => reads_semicolon (reads_through _ fun span => ?_)
    exact yields_pure (by simpa using he)
  declaration _ kind _ := by
    refine reads_advance ((h.declarators kind).bind fun ds hds hspelled => reads_semicolon ?_)
    refine reads_through _ fun span => ?_
    exact yields_pure (by simpa [Parsed] using ⟨hspelled, hds⟩)
  declarators := reads_declarators_succ h
  inParens := by
    refine reads_expect _ (h.assignment.bind fun e he _ => reads_expect _ ?_)
    exact yields_pure ⟨rfl, he, trivial, rfl⟩
  cases := reads_cases_succ h
  guarded := reads_guarded_succ h
  handler raising := by
    refine reads_binding? fun param hparam => (h.block raising).bind fun body hbody hraise => ?_
    exact yields_pure ⟨by simp, by simpa using hbody, ⟨by simpa using hraise, hparam⟩, by simp⟩
  funcDeclaration _ span isAsync := by
    refine reads_eat _ fun generator => reads_name fun x hx => ?_
    refine (h.funcRest span (some x) isAsync generator (by simpa using hx)).bind fun f hf hform => ?_
    exact yields_pure (by simpa [hform] using hf)
  block raising := by
    refine reads_expect _ ((h.statements raising .block).bind fun ss hss hraise => reads_eat _ fun b => ?_)
    cases b with
    | false => exact reads_refuse_bind fun _ => rfl
    | true => exact yields_pure ⟨rfl, hss, hraise, rfl⟩
  statements := reads_statements_succ h

theorem rules (rd : Reading) (n : Nat) : Rules rd n := by
  induction n with
  | zero => exact rules_zero rd
  | succ n ih => exact rules_succ ih

end

end Parser

/-! ## Whole texts -/

/-- One text is read, of which the spelling is known. -/
def Reading.plain (sp : Spelling) : Reading where
  spelling := sp
  recast := ⟨id, id, id, fun _ => true⟩
  strict := false
  keywords := .id
  property := rfl
  upTo _ _ := rfl
  exact h := by cases h

theorem Reading.plain_sees {sp : Spelling} (h : ∀ l ∈ ls, l.token.Fits sp) : (plain sp).Sees (.start ls) :=
  ⟨h, (List.pairwise_of_forall fun _ _ => Iff.rfl).isChain⟩

/-- What the grammar accepts is spelled as the lexemes are, and its identities and places are
theirs. -/
theorem yields_parseLexemes {rd : Reading} (hls : rd.Sees (.start ls)) (h : parseLexemes ls = .ok p) :
    Parsed rd.spelling (walkStmts .all p) ∧ (∀ c, sitesIn c p = []) ∧
      ((Cursor.start ls).Sound → ∃ c', Covers (.start ls) c' (tags (walkStmts .all p))) := by
  unfold parseLexemes at h
  cases hr : (Parser.statements (budgetFor ls) false .program).run (.start ls) with
  | error e => rw [hr] at h; cases h
  | ok r =>
    rw [hr] at h
    cases h
    obtain ⟨ts, ⟨rfl, hparsed, hraise⟩, -, hcovers, -⟩ :=
      ((Parser.rules rd (budgetFor ls)).statements false .program _ hls).ok r.1 r.2 hr
    exact ⟨hparsed, hraise rfl, fun hs => ⟨_, hcovers hs⟩⟩

theorem parsed_of_parseLexemes (sp : Spelling) (hfits : ∀ l ∈ ls, l.token.Fits sp)
    (h : parseLexemes ls = .ok p) : Parsed sp (walkStmts .all p) ∧ ∀ c, sitesIn c p = [] :=
  have hp := yields_parseLexemes (Reading.plain_sees hfits) h
  ⟨hp.1, hp.2.1⟩

theorem parsed_of_parseExprLexemes (sp : Spelling) {e : Expr} (hfits : ∀ l ∈ ls, l.token.Fits sp)
    (h : parseExprLexemes ls = .ok e) : Parsed sp (e.walk .all) := by
  have hwhole : (Reading.plain sp).YieldsExpr [] (Parser.wholeExpression (budgetFor ls))
      (Parser.wholeExpression (budgetFor ls)) := by
    refine (Parser.rules _ _).assignment.bind fun e he _ => Reading.reads_eat _ fun _ =>
      Reading.reads_peek fun t _ => ?_
    refine Reading.reads_ite (by rw [Token.isFinish_renamed]) (fun _ => ?_) fun _ => Reading.reads_refuseToken _
    exact Reading.yields_pure ⟨rfl, he, trivial, rfl⟩
  unfold parseExprLexemes at h
  cases hr : (Parser.wholeExpression (budgetFor ls)).run (.start ls) with
  | error e => rw [hr] at h; cases h
  | ok r =>
    rw [hr] at h
    cases h
    obtain ⟨ts, hts, -⟩ := (hwhole _ (Reading.plain_sees hfits)).ok r.1 r.2 hr
    exact hts.2.1

theorem parse_eq_ok (h : parse source file = .ok p) : ∃ ls, lex source file = .ok ls ∧
    parseLexemes ls = .ok p := by
  unfold parse at h
  cases hl : lex source file with
  | error d => rw [hl] at h; cases h
  | ok ls =>
    rw [hl] at h
    change (parseLexemes ls).mapError _ = .ok p at h
    cases hp : parseLexemes ls with
    | error e => rw [hp] at h; cases h
    | ok q =>
      rw [hp] at h
      cases h
      exact ⟨ls, rfl, hp⟩

/-- In a tree that was read no identity comes twice, and raises start one after the other. -/
theorem tagged_of_parse (h : parse source file = .ok p) : ((tags (walkStmts .all p)).map (·.id)).Nodup ∧
      ((tags (walkStmts .all p)).filterMap (·.start?)).Pairwise (· < ·) := by
  obtain ⟨ls, hls, hp⟩ := parse_eq_ok h
  obtain ⟨c', hcovers⟩ :=
    (yields_parseLexemes (Reading.plain_sees fun l _ => l.token.fits_any) hp).2.2 (sound_of_lex hls)
  exact ⟨hcovers.ids, hcovers.starts⟩

/-- Recast lexemes are read to the recast tree, and refused where the others are. -/
theorem parseLexemes_recast (rd : Reading) (hne : ls ≠ [] ∨ rd.recast.span .none = .none)
    (hls : rd.Sees (.start ls)) :
    (∀ p, parseLexemes ls = .ok p → rd.strict = true ∨ tags (walkStmts .all p) = [] →
      parseLexemes (ls.map (Lexeme.recast rd.recast)) = .ok (recastStmts rd.recast p)) ∧
    (∀ e, parseLexemes ls = .error e → rd.strict = true →
      parseLexemes (ls.map (Lexeme.recast rd.recast)) = .error (e.1, rd.recast.span e.2)) := by
  have hbudget : budgetFor (ls.map (Lexeme.recast rd.recast)) = budgetFor ls := by
    rw [budgetFor, budgetFor, List.length_map]
  have hstart : Cursor.start (ls.map (Lexeme.recast rd.recast)) = (Cursor.start ls).recast rd.recast := by
    cases ls with
    | nil =>
      have hnone := hne.resolve_left fun h => h rfl
      exact congrArg (Cursor.mk · [] _) hnone.symm
    | cons l ls => rfl
  obtain ⟨hok, herror⟩ := (Parser.rules rd (budgetFor ls)).statements false .program _ hls
  unfold parseLexemes
  rw [hbudget, hstart]
  cases hr : (Parser.statements (budgetFor ls) false .program).run (.start ls) with
  | error e =>
    refine ⟨fun p hp => (by cases hp), fun e' he hs => ?_⟩
    cases he
    rw [show (Parser.statements (budgetFor ls) false .program).run _ = _ from herror e hr hs]
    rfl
  | ok r =>
    refine ⟨fun p hp hor => ?_, fun e he => by cases he⟩
    cases hp
    obtain ⟨ts, ⟨rfl, -⟩, -, -, hmirror⟩ := hok r.1 r.2 hr
    rw [show (Parser.statements (budgetFor ls) false .program).run _ = _ from hmirror hor]
    rfl

end RaiseScript
