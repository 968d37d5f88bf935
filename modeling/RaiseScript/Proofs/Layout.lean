import RaiseScript.Proofs.RecastNotes
import RaiseScript.Proofs.Beginnings
import RaiseScript.Proofs.Reworded

/-!
# Layout

A text is read from its lexemes, and of their places only the line breaks between them count. So two
texts with the same tokens and with line breaks between the same tokens are transpiled to the same
code, or refused for the same reason (`layout_irrelevant`). Both are compared with a third list of
lexemes, which has the same tokens and stands on as many lines as there are line breaks. In it every
place is recast to one that is counted from the line breaks alone.
-/

namespace RaiseScript

variable {p : Program} {source file : String} {ls : List Lexeme}

/-! ## Places do not show -/

section

variable {span : Span → Span}

attribute [local simp] Expr.bare bareExprs Func.bare Stmt.bare bareDecls bareCases
  bareHandler bareBlock bareStmts
attribute [local simp] Expr.walk walkExprs Func.walk TryExpr.walk_all Stmt.walk walkDecls
  walkCases walkHandler walkBlock walkStmts

/-- There are no try expressions. -/
abbrev NoAttempt (vs : List Visit) : Prop :=
  EachAttempt (fun _ => False) vs

/-- Other places. -/
abbrev Recast.places (span : Span → Span) : Recast :=
  ⟨id, id, span, fun _ => true⟩

theorem bare_places (p : Phrase) (h : NoAttempt (p.walk .all)) :
    (p.recast (.places span)).bare false = p.bare false := by
  induction p with
  | _ => simp_all

end

theorem writeLines_places (span : Span → Span) (h : Standard (walkStmts .all p)) (depth : Nat) :
    writeLines depth (recastStmts (.places span) p) = writeLines depth p := by
  rw [← writeLines_bare false, Phrase.stmts.inj (bare_places (.stmts p) (h.eachAttempt _)), writeLines_bare]

/-! ## All stages on recast lexemes -/

/-- Both computations fail, or both succeed. -/
inductive Both {ε α β : Type} (E : ε → ε → Prop) (R : α → β → Prop) : Except ε α → Except ε β → Prop
  | ok {a : α} {b : β} (h : R a b) : Both E R (.ok a) (.ok b)
  | error {e e' : ε} (h : E e e') : Both E R (.error e) (.error e')

/-- The stages after the checks. -/
def lowerAndEmit (file : String) (o : Options) : Program × List Diagnostic → Except Diagnostic Transpiled
  | (_, first :: _) => .error first
  | (p, []) => do
    let (lowered, progress) ← (lowerProgram o.tempPrefix p).mapError (Breach.diagnostic file)
    let code ← emit lowered file
    return ⟨lowered, code, progress.lowered⟩

/-- All stages, from lexemes on. -/
def transpileLexemes (file : String) (o : Options) (ls : List Lexeme) : Except Diagnostic Transpiled :=
  (parseLexemes ls).mapError (syntaxDiagnostic file) >>= fun p =>
    lowerAndEmit file o (validate file o.maxErrors (annotate p).1)

theorem transpile_eq_bind (source file : String) (o : Options) :
    transpile source file o = analyze source file o >>= lowerAndEmit file o := by
  cases h : analyze source file o with
  | error d => exact transpile_of_refusal h
  | ok r =>
    obtain ⟨p, _ | ⟨d, ds⟩⟩ := r
    · unfold transpile
      rw [h]
      rfl
    · exact transpile_of_complaint h

theorem transpile_of_lex (h : lex source file = .ok ls) (o : Options) :
    transpile source file o = transpileLexemes file o ls := by
  rw [transpile_eq_bind, analyze, parse, h]
  change (((parseLexemes ls).mapError _ >>= fun p => pure (validate file o.maxErrors (annotate p).1)) >>= _) = _
  rw [transpileLexemes]
  cases (parseLexemes ls).mapError (syntaxDiagnostic file) <;> rfl

/-- The same code and the same count. -/
def Transpiled.Alike (t t' : Transpiled) : Prop :=
  t'.code = t.code ∧ t'.lowered = t.lowered

section

variable {span : Span → Span} (hspan : span .none = .none) (file file' : String) (o : Options)

include hspan

theorem both_lowerAndEmit {p' : Program} {ds ds' : List Diagnostic} (hp : p' = recastStmts (.places span) p)
    (hds : List.Forall₂ (Diagnostic.Moved (.places span) file file') ds ds') :
    Both (Diagnostic.Moved (.places span) file file') Transpiled.Alike (lowerAndEmit file o (p, ds))
      (lowerAndEmit file' o (p', ds')) := by
  subst hp
  cases hds with
  | cons hd => exact .error hd
  | nil =>
    change Both _ _ ((lowerProgram o.tempPrefix p).mapError _ >>= _)
      ((lowerProgram o.tempPrefix _).mapError _ >>= _)
    cases hl : lowerProgram o.tempPrefix p with
    | error b =>
      rw [Lockstep.lowerProgram_recast_error span hspan hl]
      exact .error (.located ..)
    | ok l =>
      have hstandard := firstExtension?_eq_none.1 (lowerProgram_eq_ok.1 hl).2
      have hrest := Lockstep.lowerProgram_recast_same span hspan (fun _ => true) hl
      have hstandard' := firstExtension?_eq_none.1 (lowerProgram_eq_ok.1 hrest).2
      rw [hrest]
      change Both _ _ (emit l.1 file >>= _) (emit (recastStmts (.places span) l.1) file' >>= _)
      rw [emit_eq_write file hstandard, emit_eq_write file' hstandard', writeLines_places span hstandard]
      exact .ok ⟨rfl, rfl⟩

/-- Lexemes at other places are transpiled as the lexemes are, if the lines break at the same
points. -/
theorem both_transpileLexemes (hupTo : ∀ s t, span (s.upTo t) = (span s).upTo (span t))
    (hbreaks : (ls.map (·.span)).IsChain fun s t => ((span s).line < (span t).line ↔ s.line < t.line)) :
    Both (Diagnostic.Moved (.places span) file file') Transpiled.Alike (transpileLexemes file o ls)
      (transpileLexemes file' o (ls.map (Lexeme.recast (.places span)))) := by
  let rd : Reading := ⟨.any, .places span, true, .id, rfl, hupTo, fun _ => rfl⟩
  have hsees : rd.Sees (.start ls) := by
    refine ⟨fun l _ => l.token.fits_any, ?_⟩
    cases ls with
    | nil => exact .singleton _
    | cons l ls => exact .cons_cons (iff_of_false (Nat.lt_irrefl _) (Nat.lt_irrefl _)) hbreaks
  obtain ⟨hok, herror⟩ := parseLexemes_recast rd (.inr hspan) hsees
  unfold transpileLexemes
  cases hp : parseLexemes ls with
  | error e =>
    rw [herror e hp rfl]
    exact .error (.located ..)
  | ok p =>
    rw [hok p hp (.inl rfl)]
    have hvalidate := validate_recast (m := .places span)
      (.of_forall (fun _ => .inl fun _ => rfl) _) file file' o.maxErrors (p := (annotate p).1)
    have hnotes := annotate_recast (m := .places span) (fun _ => rfl) p
    change Both _ _ (lowerAndEmit file o (validate file o.maxErrors (annotate p).1))
      (lowerAndEmit file' o (validate file' o.maxErrors (annotate (recastStmts (.places span) p)).1))
    rw [hnotes]
    exact both_lowerAndEmit hspan file file' o hvalidate.1 hvalidate.2

end

/-! ## Counted lines -/

/-- Whether a line ends between one lexeme and the next, for all of them. -/
def lineBreaks (ls : List Lexeme) : List Bool :=
  List.zipWith (fun l k => decide (l.span.line < k.span.line)) ls ls.tail

/-- The lines of lexemes with the given line breaks between them, from 0 on. -/
def countedLines (breaks : List Bool) : List Nat :=
  breaks.scanl (fun n b => if b then n + 1 else n) 0

/-- The counted line of the lexeme that starts at a position. -/
def countedLine (ls : List Lexeme) (start : Nat) : Nat :=
  (((ls.map (·.span.start)).zip (countedLines (lineBreaks ls))).lookup start).getD 0

/-- The counted line in the place of a span. -/
def counted (ls : List Lexeme) (s : Span) : Span :=
  ⟨0, 0, countedLine ls s.start⟩

section

theorem map_countedLine (hls : (Cursor.start ls).Sound) :
    ls.map (fun l => countedLine ls l.span.start) = countedLines (lineBreaks ls) := by
  obtain ⟨hsorted, last, hlast, -⟩ := hls
  have hnodup : (ls.map (·.span.start)).Nodup :=
    List.pairwise_map.2 (hsorted.imp fun h => Nat.ne_of_lt h)
  have hlength : (countedLines (lineBreaks ls)).length = (ls.map (·.span.start)).length := by
    obtain _ | ⟨l, ls⟩ := ls
    · cases hlast
    · simp [countedLines, lineBreaks]
  rw [← map_lookup_zip (fun _ o => o.getD 0) (fun _ _ => rfl) hnodup hlength, List.map_map]
  rfl

/-- Lines that are counted break where the lines did. -/
theorem isChain_of_scanl {f : Span → Nat} {n : Nat}
    (h : ls.map (fun l => f l.span) = (lineBreaks ls).scanl (fun n b => if b then n + 1 else n) n) :
    (ls.map (·.span)).IsChain fun s t => (f s < f t ↔ s.line < t.line) := by
  induction ls generalizing n with
  | nil => exact .nil
  | cons l ls ih =>
    obtain _ | ⟨k, ls⟩ := ls
    · exact .singleton _
    · have hbreaks : lineBreaks (l :: k :: ls) = decide (l.span.line < k.span.line) :: lineBreaks (k :: ls) := rfl
      rw [hbreaks, List.scanl_cons, List.map_cons, List.cons.injEq] at h
      obtain ⟨hl, hrest⟩ := h
      have hk := congrArg List.head? hrest
      rw [List.head?_scanl, List.map_cons, List.head?_cons, Option.some.injEq] at hk
      refine .cons_cons ?_ (ih hrest)
      rw [hl, hk]
      split <;> simp_all

theorem counted_none (hls : (Cursor.start ls).Sound) : counted ls .none = .none := by
  obtain _ | ⟨l, ls⟩ := ls
  · rfl
  have hcons : countedLines (lineBreaks (l :: ls)) = 0 :: (countedLines (lineBreaks (l :: ls))).tail := by
    cases h : lineBreaks (l :: ls) <;> simp [countedLines]
  -- Only the first lexeme can start at 0.
  have hnone : ((ls.map (·.span.start)).zip (countedLines (lineBreaks (l :: ls))).tail).lookup 0 = none := by
    refine List.lookup_eq_none_iff.2 fun y hy => bne_iff_ne.2 ?_
    obtain ⟨k, hk, hstart⟩ := List.mem_map.1 (List.of_mem_zip hy).1
    have hlt := (List.pairwise_cons.1 hls.sorted).1 k hk
    omega
  refine congrArg (Span.mk 0 0) ?_
  rw [countedLine, hcons, List.map_cons, List.zip_cons_cons, List.lookup_cons]
  cases Span.none.start == l.span.start with
  | true => rfl
  | false => exact congrArg (Option.getD · 0) hnone

/-- At the counted places, lexemes are told by their tokens and line breaks. -/
theorem map_recast_counted (hls : (Cursor.start ls).Sound) :
    ls.map (Lexeme.recast (.places (counted ls))) =
      List.zipWith (fun t n => ⟨t, ⟨0, 0, n⟩⟩) (ls.map (·.token)) (countedLines (lineBreaks ls)) := by
  rw [← map_countedLine hls, List.zipWith_map, List.zipWith_self]
  refine List.map_congr_left fun l _ => ?_
  rw [Lexeme.recast, Token.renamed_id]
  rfl

/-- A text is transpiled as its lexemes on counted lines are. -/
theorem both_counted (h : lex source file = .ok ls) (file' : String) (o : Options) :
    Both (Diagnostic.Moved (.places (counted ls)) file file') Transpiled.Alike (transpile source
      file o) (transpileLexemes file' o (ls.map (Lexeme.recast (.places (counted ls))))) := by
  have hls := sound_of_lex h
  rw [transpile_of_lex h]
  exact both_transpileLexemes (counted_none hls) file file' o (fun _ _ => rfl)
    (isChain_of_scanl (f := fun s => countedLine ls s.start) (map_countedLine hls))

end

/-! ## Texts that differ in layout -/

/-- What a report says, file and place aside. -/
def Diagnostic.gist (d : Diagnostic) : DiagnosticKind × Nat × Option String × String :=
  (d.kind, d.stage, d.rule, d.message)

/-- The answer to a text : code and a count, or what a report says. -/
def answer (r : Except Diagnostic Transpiled) :
    Except (DiagnosticKind × Nat × Option String × String) (String × Nat) :=
  (r.map fun t => (t.code, t.lowered)).mapError Diagnostic.gist

theorem Both.answer_eq {m : Recast} {file' : String} {r r' : Except Diagnostic Transpiled}
    (h : Both (Diagnostic.Moved m file file') Transpiled.Alike r r') : answer r = answer r' := by
  cases h with
  | ok h => exact congrArg Except.ok (Prod.ext h.1.symm h.2.symm)
  | error h =>
    cases h
    rfl

/-- Layout does not matter beyond line breaks : two texts with the same tokens, and with line breaks
between the same tokens, are both transpiled, to the same code and with the same count, or both
refused, with the same kind, stage, rule and message. -/
theorem layout_irrelevant {source source' file file' : String} {ls ls' : List Lexeme}
    (h : lex source file = .ok ls) (h' : lex source' file' = .ok ls')
    (htokens : ls.map (·.token) = ls'.map (·.token)) (hbreaks : lineBreaks ls = lineBreaks ls') (o : Options) :
    answer (transpile source file o) = answer (transpile source' file' o) := by
  have hsame : ls.map (Lexeme.recast (.places (counted ls))) =
    ls'.map (Lexeme.recast (.places (counted ls'))) := by
    rw [map_recast_counted (sound_of_lex h), map_recast_counted (sound_of_lex h'), htokens, hbreaks]
  have hleft := (both_counted h file o).answer_eq
  have hright := (both_counted h' file o).answer_eq
  rw [hleft, hright, hsame]

/-- Whether tokens are the same, as far as this can be decided : numbers are not compared. -/
def Token.agrees : Token → Token → Bool
  | .word x, .word y => x == y
  | .string x, .string y => x == y
  | .mark m, .mark n => m == n
  | .finish, .finish => true
  | _, _ => false

theorem Token.eq_of_agrees {t u : Token} (h : t.agrees u = true) : t = u := by
  cases t <;> cases u <;> first | rfl | cases h | exact congrArg _ (eq_of_beq h)

theorem map_token_of_isEqv {ls' : List Lexeme} (h : ls.isEqv ls' (fun l l' => l.token.agrees l'.token) = true) :
    ls.map (·.token) = ls'.map (·.token) := by
  induction ls generalizing ls' with
  | nil =>
    cases ls' with
    | nil => rfl
    | cons => cases h
  | cons l ls ih =>
    cases ls' with
    | nil => cases h
    | cons l' ls' =>
      obtain ⟨hl, hrest⟩ := Bool.and_eq_true_iff.1 h
      rw [List.map_cons, List.map_cons, Token.eq_of_agrees hl, ih hrest]

/-- Two statements, of which the first has a try expression. -/
def tight : String :=
  "let x=try{raise a}catch(e){raise b}
f(x)"

/-- The same with blanks, an empty line and comments. -/
def airy : String :=
  "/* first */ let x  = try { raise a } catch (e) { raise b } // second

  f( x /* third */ )"

theorem layout_irrelevant_of_airy : ∃ ls ls' t, lex tight "tight.js" = .ok ls ∧
    lex airy "airy.js" = .ok ls' ∧ ls.map (·.token) = ls'.map (·.token) ∧ lineBreaks ls =
    lineBreaks ls' ∧ transpile tight "tight.js" ⟨"__", 10⟩ = .ok t ∧
    answer (transpile airy "airy.js" ⟨"__", 10⟩) = .ok (t.code, 1) := by
  have hlook : ((lex tight "tight.js").toOption.any fun ls => (lex airy "airy.js").toOption.any fun ls' =>
      ls.isEqv ls' (fun l l' => l.token.agrees l'.token) && decide (lineBreaks ls = lineBreaks ls')) = true := by
    decide +kernel
  have hcode : ((transpile tight "tight.js" ⟨"__", 10⟩).toOption.any fun t => decide (t.lowered = 1)) = true := by
    decide +kernel
  obtain ⟨ls, hls, hlook⟩ := Except.exists_of_any hlook
  obtain ⟨ls', hls', hlook⟩ := Except.exists_of_any hlook
  obtain ⟨t, ht, hcount⟩ := Except.exists_of_any hcode
  obtain ⟨htokens, hbreaks⟩ := Bool.and_eq_true_iff.1 hlook
  have hanswer := layout_irrelevant hls hls' (map_token_of_isEqv htokens) (of_decide_eq_true hbreaks) ⟨"__", 10⟩
  rw [ht] at hanswer
  refine ⟨ls, ls', t, hls, hls', map_token_of_isEqv htokens, of_decide_eq_true hbreaks, ht, hanswer.symm.trans ?_⟩
  rw [← of_decide_eq_true hcount]
  rfl

end RaiseScript
