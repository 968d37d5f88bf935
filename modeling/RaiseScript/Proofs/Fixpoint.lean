import RaiseScript.Proofs.Fragments
import RaiseScript.Proofs.Reworded

/-!
# Transpiled code is left as it is

Code without try expressions and raises is neither judged nor lowered (`annotate_standard`,
`validate_standard`, `lowering_fixes_standard`). Transpiled code is such code when it is read again,
and its numbers have the text that they were read from. So transpiling it once more gives the same
text (`transpile_fixes_code`).
-/

namespace RaiseScript

variable {p : Program}

/-! ## Code that is left as it is -/

theorem annotate_standard (h : Standard (walkStmts .all p)) : annotate p = (p, 0) := by
  unfold annotate
  rw [replaceStmts_fixed _ p (h.eachAttempt _)]
  rfl

theorem validate_standard (file : String) (limit : Nat) (h : Standard (walkStmts .all p)) :
    validate file limit p = (p, []) := by
  unfold validate
  rw [replaceStmts_fixed _ p (h.eachAttempt _)]
  rfl

theorem lowerProgram_standard (beginning : String) (h : Standard (walkStmts .all p)) :
    lowerProgram beginning p = .ok (p, ⟨.forProgram beginning p, 0⟩) := by
  refine lowerProgram_eq_ok.2 ⟨?_, firstExtension?_eq_none.2 h⟩
  rw [lowerStmts_plain _ p h.plain]
  rfl

/-- Lowering leaves code without try expressions and raises exactly as it is, and counts nothing.
Its result is such code, so lowering twice is lowering once. -/
theorem lowering_fixes_standard (beginning : String) (p : Program) :
    (firstExtension? p = none → lowerProgram beginning p = .ok (p, ⟨.forProgram beginning p, 0⟩)) ∧
    ∀ beginning' q progress, lowerProgram beginning' p = .ok (q, progress) →
      lowerProgram beginning q = .ok (q, ⟨.forProgram beginning q, 0⟩) := by
  refine ⟨fun h => lowerProgram_standard beginning (firstExtension?_eq_none.1 h),
    fun beginning' q progress h => ?_⟩
  exact lowerProgram_standard beginning (firstExtension?_eq_none.1 (lowerProgram_eq_ok.1 h).2)

/-- Branches without braces, declarations of several names, a switch and functions of both kinds. -/
def plainCode : String :=
  "let a = 1, b, f = x => x; if (a) b = f(a); else while (b) \x7b b = a && g.h(b)[0]; break; \x7d
  switch (b) \x7b case f(1): var c = b; default: function k() \x7b return [a, c]; \x7d \x7d"

/-- A sum that has to wait for a try expression. -/
def waitingSum : String :=
  "let x = f() + try \x7b raise g(); \x7d catch (e) \x7b raise e; \x7d;"

theorem lowering_fixes_standard_of_plainCode :
    (∃ p, parse plainCode "main.js" = .ok p ∧ firstExtension? p = none ∧
      lowerProgram "__" p = .ok (p, ⟨.forProgram "__" p, 0⟩)) ∧
    ∃ p q progress, analyze waitingSum "main.js" ⟨"__", 10⟩ = .ok (p, []) ∧
      lowerProgram "__" p = .ok (q, progress) ∧ progress.lowered = 1 ∧
      lowerProgram "t" q = .ok (q, ⟨.forProgram "t" q, 0⟩) := by
  constructor
  · have hlook : ((parse plainCode "main.js").toOption.any fun p => (firstExtension? p).isNone) = true := by
      decide +kernel
    obtain ⟨p, hp, hnone⟩ := Except.exists_of_any hlook
    have hnone := Option.isNone_iff_eq_none.1 hnone
    exact ⟨p, hp, hnone, (lowering_fixes_standard "__" p).1 hnone⟩
  · have hlook : ((analyze waitingSum "main.js" ⟨"__", 10⟩).toOption.any fun r => r.2.isEmpty &&
        (lowerProgram "__" r.1).toOption.any fun s => s.2.lowered == 1) = true := by decide +kernel
    obtain ⟨⟨p, ds⟩, ha, hlook⟩ := Except.exists_of_any hlook
    obtain ⟨hds, hlook⟩ := Bool.and_eq_true_iff.1 hlook
    obtain rfl := List.isEmpty_iff.1 hds
    obtain ⟨⟨q, progress⟩, hlow, hcount⟩ := Except.exists_of_any hlook
    exact ⟨p, q, progress, ha, hlow, beq_iff_eq.1 hcount, (lowering_fixes_standard "t" p).2 "__" q progress hlow⟩

/-- Code without try expressions and raises is written as it is. -/
theorem transpile_standard {source file : String} (hp : parse source file = .ok p)
    (h : Standard (walkStmts .all p)) (o : Options) :
    transpile source file o = .ok ⟨p, shown (writeLines 0 p), 0⟩ := by
  have ha : analyze source file o = .ok (p, []) := by
    unfold analyze
    rw [hp]
    change Except.ok (validate file o.maxErrors (annotate p).1) = _
    rw [annotate_standard h, validate_standard file o.maxErrors h]
  exact transpile_of_lowerProgram ha (lowerProgram_standard o.tempPrefix h) h

/-! ## Transpiled code -/

/-- What a piece is read as has the same characters. -/
theorem render_reread {P : Float → Prop} {ps : List Piece} {cs : List Char} (h : Legible P ps cs) :
    render (ps.map Piece.reread) = render ps := by
  induction ps with
  | nil => rfl
  | cons p ps ih =>
    cases p with
    | gap g => simp [Piece.reread, ih h.2]
    | token t =>
      rw [List.map_cons, render_cons, render_cons, ih h.2]
      congr 1
      cases t with
      | number x =>
        obtain ⟨⟨⟨⟨n, hn, rfl⟩, -⟩, -⟩, -⟩ := h
        rw [Piece.reread, Token.reread, magnitudeBits_floatOfBits hn]
        split
        · rename_i hn
          rw [hn]
          simp [numberText_infinity]
        · simp [numberText_rereadBits n (by omega)]
      | _ => rfl

theorem Spelling.lexical_rereads : Spelling.lexical.Rereads where
  infinity := ⟨isWord_infinity, by decide⟩
  number x hx := by
    obtain ⟨n, hn, rfl⟩ := hx
    refine ⟨_, ?_, rfl⟩
    rw [magnitudeBits_floatOfBits hn, rereadBits]
    split
    · decide
    · exact hn

/-- Transpiled code is left as it is by the same options. -/
theorem transpile_fixes_code {source file : String} {o : Options} {t : Transpiled}
    (ho : o.check = .ok ()) (h : transpile source file o = .ok t) (file' : String) :
    ∃ u, transpile t.code file' o = .ok u ∧ u.code = t.code ∧ u.lowered = 0 := by
  obtain ⟨p, progress, ha, hl, he, -⟩ := transpile_eq_ok h
  have hclean := clean_of_lowerProgram ho ha hl
  have hcode : t.code = shown (writeLines 0 t.program) := by
    rw [emit_eq_write file hclean.standard] at he
    exact (Except.ok.inj he).symm
  have hl : Spelling.lexical.Lexical fun _ => True := ⟨fun _ h => h.1, fun _ h => h, fun _ h => ⟨h, trivial⟩⟩
  have hlegible := (Phrase.stmts t.program).spaced Spelling.lexical_unreserved hl 0 hclean []
  have hreread := Phrase.clean_reread Spelling.lexical_rereads (.stmts t.program) hclean
  obtain ⟨q, hq, hbare⟩ := parse_shown Spelling.lexical_unreserved hreread hlegible
    (writeLines_reread t.program 0).symm file'
  rw [← hcode] at hq
  have hstandard : Standard (walkStmts .all q) := by
    rw [← standard_bareStmts false, hbare, standard_bareStmts]
    exact hreread.standard
  have hpieces : writeLines 0 q = (writeLines 0 t.program).map Piece.reread := by
    rw [← writeLines_bare false, hbare, writeLines_bare, writeLines_reread]
  refine ⟨_, transpile_standard hq hstandard o, ?_, rfl⟩
  rw [hcode, shown, hpieces, render_reread hlegible, shown]

/-- A try expression behind a number that is clamped. -/
def clampedNumber : String :=
  "let x = [9223372036854775809, try \x7b raise f(0.5); \x7d catch \x7b raise -2; \x7d]; if (x) g(x);"

theorem transpile_fixes_code_of_clampedNumber :
    ∃ t u, transpile clampedNumber "main.js" ⟨"__", 10⟩ = .ok t ∧ t.lowered = 1 ∧
      transpile t.code "again.js" ⟨"__", 10⟩ = .ok u ∧ u.code = t.code ∧ u.lowered = 0 := by
  have hlook : ((transpile clampedNumber "main.js" ⟨"__", 10⟩).toOption.any fun t => t.lowered == 1) = true := by
    decide +kernel
  obtain ⟨t, ht, hlowered⟩ := Except.exists_of_any hlook
  obtain ⟨u, hu, hcode, hnone⟩ := transpile_fixes_code (by decide) ht "again.js"
  exact ⟨t, u, ht, by simpa using hlowered, hu, hcode, hnone⟩

end RaiseScript
