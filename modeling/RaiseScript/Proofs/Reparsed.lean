import RaiseScript.Proofs.Spaced
import RaiseScript.Proofs.Faithful

/-!
# Parsing undoes emission

The text of a program is taken apart into the pieces that were written (`sight_lexFrom`), and these
are read as the program again (`Phrase.readBack`). What is lost are the places, and that a branch or
a loop may have a body without braces.
-/

namespace RaiseScript

variable {p : Program} {ls : List Lexeme} {source file : String} {sp : Spelling} {o : Options}

open Piece

/-! ## Tokens of a text -/

/-- The spelling of a text : names are words that are not reserved, and numbers are literals. -/
def Spelling.lexical : Spelling where
  name x := IsWord x ∧ isReserved x = false
  property := IsWord
  number := IsLiteral

theorem Decimal.isLiteral_toFloat (d : Decimal) : IsLiteral (d.toFloat false) := by
  refine ⟨d.toBits, ?_, rfl⟩
  unfold Decimal.toBits
  split
  · exact Nat.zero_le _
  · split
    · exact Nat.le_refl _
    · split
      · exact Nat.zero_le _
      · exact nearestBits_le _ _

theorem fits_of_next {p r : Place} {t : Token} (h : Token.next p = .read t r) : t.Fits .lexical := by
  unfold Token.next at h
  split at h
  · cases h
  · cases h
  · split at h <;> cases h
  · rename_i c cs _ _ _
    split at h
    · cases h
    · split at h
      · split at h <;> cases h
        trivial
      · split at h
        · cases h
          exact Decimal.isLiteral_toFloat _
        · split at h
          · rename_i hc
            cases h
            have hword : IsWord (String.ofList ((c :: cs).takeWhile isWordPart)) := by
              refine ⟨c, cs.takeWhile isWordPart, ?_, hc, List.all_eq_true.1 List.all_takeWhile⟩
              rw [String.toList_ofList, List.takeWhile_cons, isWordPart_of_isWordStart hc, if_pos rfl]
            exact ⟨hword, fun hreserved => ⟨hword, hreserved⟩⟩
          · split at h <;> cases h
            trivial

theorem fits_of_lexFrom {p : Place} (h : lexFrom p = .ok ls) : ∀ l ∈ ls, l.token.Fits .lexical := by
  fun_induction lexFrom p generalizing ls with
  | case1 p hp =>
    cases h
    simp [Token.Fits]
  | case2 p rest hp _ ih => exact ih h
  | case3 p token rest hp _ later hlater ih =>
    cases h
    exact List.forall_mem_cons.2 ⟨fits_of_next hp, ih hlater⟩
  | case4 => cases h
  | case5 => cases h

theorem fits_of_lex (h : lex source file = .ok ls) : ∀ l ∈ ls, l.token.Fits .lexical :=
  fits_of_lexFrom (lex_eq_ok.1 h)

/-! ## Temporaries are names -/

theorem Spelling.lexical_fits {names : Names} (h : IsWord names.beginning) : Spelling.lexical.Fits names where
  call := show IsWord "call" by decide
  candidate role hr n := by
    have hrole : (["raise", "spill", "cond"].all fun role => role.toList.all isWordPart) = true := by decide
    have hpart := List.all_eq_true.1 (List.all_eq_true.1 hrole role hr)
    exact ⟨names.isWord_candidate h hpart n, names.isReserved_candidate role n⟩

/-! ## The text of a clean program -/

theorem Spelling.lexical_unreserved : Spelling.lexical.Unreserved :=
  fun _ h => h.2

/-- No line break comes before the first token. -/
theorem signs_writeLines (hsp : sp.Unreserved) (hp : Clean sp (walkStmts .all p)) :
    ∃ t rest, ∀ b, signs b (writeLines 0 p ++ [.token .finish]) = (b, t) :: rest := by
  cases p with
  | nil => exact ⟨.finish, [], fun _ => rfl⟩
  | cons s ss =>
    simp only [walkStmts, clean_append] at hp
    obtain ⟨t, qs, hqs, -⟩ := ((Phrase.stmt s).readBack hsp 0 hp.1).1.starts
    refine ⟨t, signs false (qs ++ (break_ :: (writeLines 0 ss ++ [.token .finish]))), fun b => ?_⟩
    simp [writeLines, lineOf, hqs, signs]

/-- The text of a clean program is read as the pieces are, with what became of the numbers. -/
theorem parse_shown {P : Float → Prop} (hsp : sp.Unreserved) (hp : Clean sp (walkStmts .all p))
    {ps : List Piece} (hlegible : Legible P ps []) (hread : ps.map Piece.reread = writeLines 0 p)
    (file : String) : ∃ q, parse (shown ps) file = .ok q ∧ bareStmts false q = bareStmts true p := by
  obtain ⟨ls, hls, hsight⟩ := sight_lexFrom hlegible 0 1
  rw [hread] at hsight
  obtain ⟨t, rest, hfirst⟩ := signs_writeLines hsp hp
  have hreads : (Cursor.start ls).Reads false (writeLines 0 p ++ []) := by
    have hsight := hsight 1 (Nat.le_refl 1)
    rw [hfirst] at hsight
    cases ls with
    | nil => cases hsight
    | cons l ls =>
      obtain ⟨hl, hrest⟩ := List.cons.inj hsight
      rw [List.append_nil, Cursor.Reads, hfirst]
      simp [Cursor.start, sight, hrest, (Prod.mk.inj hl).2]
  obtain ⟨q, c, -, hq, hbare, -⟩ := ((Phrase.stmts p).readBack hsp 0 hp).1.reads .program hreads rfl
  refine ⟨q, ?_, hbare⟩
  have hlex : lex (shown ps) file = .ok ls := by
    rw [lex, lexChars, toList_shown, hls]
    rfl
  unfold parse
  rw [hlex]
  have hbudget : (Nonterminal.statements false .program).need (.start ls) < budgetFor ls := by
    simp [Nonterminal.need, Nonterminal.weight, Nonterminal.rank, budgetFor, Cursor.start]
    omega
  have hread : Parser.statements (budgetFor ls) false .program (.start ls) = _ :=
    hq.read ⟨hreads.ends, fun h => by cases h⟩ hbudget
  change ((Parser.statements (budgetFor ls) false .program (.start ls)).map (·.1)).mapError _ = _
  rw [hread]
  rfl

/-! ## Programs that can be produced -/

/-- A program without try expressions and raises that reading a text or lowering can produce. -/
inductive Produced (p : Program) : Prop
  | parsed {source file : String} (h : parse source file = .ok p) (hs : Standard (walkStmts .all p))
  | lowered {source file : String} {o : Options} {q : Program} {progress : Progress} (ho : o.check = .ok ())
    (ha : analyze source file o = .ok (q, [])) (h : lowerProgram o.tempPrefix q = .ok (p, progress))

theorem Options.of_check (h : o.check = .ok ()) : IsWord o.tempPrefix ∧ 1 ≤ o.maxErrors := by
  unfold Options.check at h
  split at h
  · cases h
  · rename_i hstart
    split at h
    · cases h
    · rename_i hmax
      refine ⟨isWord_iff.2 (by simpa using hstart), ?_⟩
      simp only [beq_iff_eq] at hmax
      omega

theorem parsed_of_parse (h : parse source file = .ok p) :
    Parsed .lexical (walkStmts .all p) ∧ ∀ c, sitesIn c p = [] := by
  obtain ⟨ls, hls, hp⟩ := parse_eq_ok h
  exact parsed_of_parseLexemes .lexical (fits_of_lex hls) hp

theorem clean_of_lowerProgram {q : Program} {progress : Progress} (ho : o.check = .ok ())
    (ha : analyze source file o = .ok (q, [])) (h : lowerProgram o.tempPrefix q = .ok (p, progress)) :
    Clean .lexical (walkStmts .all p) := by
  obtain ⟨hword, hmax⟩ := Options.of_check ho
  obtain ⟨r, hr, hv⟩ := analyze_eq_ok ha
  obtain ⟨hparsed, hsites⟩ := parsed_of_parse hr
  obtain ⟨hl, -, hs⟩ := lowerable_of_validate hmax hparsed hv
  obtain ⟨p', progress', h', hclean, -⟩ :=
    lowerProgram_ok o.tempPrefix hl ((hs .body).trans (hsites .body)) (Spelling.lexical_fits hword)
  rw [h] at h'
  cases h'
  exact hclean

theorem Produced.clean (h : Produced p) : Clean .lexical (walkStmts .all p) := by
  cases h with
  | parsed h hs => exact fun v hv => ⟨hs v hv, ((parsed_of_parse h).1 v hv).1⟩
  | lowered ho ha h => exact clean_of_lowerProgram ho ha h

/-- A number is finite and below `2 ^ 63`. -/
def Visit.Below : Visit → Prop
  | .expr (.number x) => magnitudeBits x < infinityBits ∧ (Dyadic.ofFloat x).whole < 2 ^ 63
  | _ => True

instance : DecidablePred Visit.Below := fun v => by
  unfold Visit.Below
  split <;> infer_instance

/-- The spelling of a text with numbers below `2 ^ 63`. -/
def Spelling.below : Spelling :=
  { Spelling.lexical with number := fun x => IsLiteral x ∧ (Visit.expr (.number x)).Below }

theorem Clean.below {vs : List Visit} (h : Clean .lexical vs) (hb : ∀ v ∈ vs, v.Below) : Clean .below vs := by
  intro v hv
  obtain ⟨hstandard, hspelled⟩ := h v hv
  have hbelow := hb v hv
  refine ⟨hstandard, ?_⟩
  unfold Visit.Spelled at hspelled ⊢
  split <;> first | exact ⟨hspelled, hbelow⟩ | exact hspelled | exact trivial

theorem reread_of_below {x : Float} (h : IsLiteral x ∧ (Visit.expr (.number x)).Below) :
    (Token.number x).reread = .number x := by
  obtain ⟨⟨n, hn, rfl⟩, hfinite, hwhole⟩ := h
  rw [magnitudeBits_floatOfBits hn] at hfinite
  rw [Dyadic.ofFloat_floatOfBits hn] at hwhole
  rw [Token.reread, magnitudeBits_floatOfBits hn, if_neg hfinite.ne, rereadBits, if_neg]
  simp only [Bool.and_eq_true, decide_eq_true_eq, not_and, not_le]
  exact fun _ => hwhole

/-- Parsing undoes emission. The text of a program that can be produced, with finite numbers below
`2 ^ 63`, is read as the same program, but for the places, and for a block around every branch or
body of a loop that is none and no `else if`. -/
theorem parse_undoes_emission {p : Program} (hp : Produced p)
    (hbelow : ∀ v ∈ walkStmts .all p, v.Below) (file : String) :
    ∃ code q, emit p file = .ok code ∧ parse code file = .ok q ∧ bareStmts false q = bareStmts true p := by
  have hclean := hp.clean.below hbelow
  have hsp : Spelling.below.Unreserved := fun _ h => h.2
  have hl : Spelling.below.Lexical fun x => IsLiteral x ∧ (Visit.expr (.number x)).Below :=
    ⟨fun _ h => h.1, fun _ h => h, fun _ h => ⟨h.1, h⟩⟩
  have hlegible := (Phrase.stmts p).spaced hsp hl 0 hclean []
  obtain ⟨q, hq, hbare⟩ := parse_shown hsp hclean hlegible
    (map_reread_eq_self (fun _ h => reread_of_below h) hlegible) file
  exact ⟨_, q, emit_eq_write file hclean.standard, hq, hbare⟩

/-- A sum is hoisted out of, and a branch and a loop have no braces. -/
def bracelessBranch : String :=
  "let x = f(1.5) + try \x7b raise -2; \x7d catch \x7b raise 'c'; \x7d; if (x) g(x); else while (x) x = x - 1;"

theorem parse_undoes_emission_of_bracelessBranch :
    ∃ p q progress code r, analyze bracelessBranch "main.js" ⟨"__", 10⟩ = .ok (p, []) ∧
      lowerProgram "__" p = .ok (q, progress) ∧ progress.lowered = 1 ∧ emit q "main.js" = .ok code ∧
      parse code "main.js" = .ok r ∧ bareStmts false r = bareStmts true q := by
  have hlook : ((analyze bracelessBranch "main.js" ⟨"__", 10⟩).toOption.any fun r => r.2.isEmpty &&
      (lowerProgram "__" r.1).toOption.any fun s : Program × Progress => s.2.lowered == 1 &&
        decide (∀ v ∈ walkStmts .all s.1, v.Below)) = true := by decide +kernel
  obtain ⟨⟨p, ds⟩, ha, hlook⟩ := Except.exists_of_any hlook
  rw [Bool.and_eq_true] at hlook
  obtain rfl := List.isEmpty_iff.1 hlook.1
  obtain ⟨⟨q, progress⟩, hlow, hlook⟩ := Except.exists_of_any hlook.2
  rw [Bool.and_eq_true, beq_iff_eq, decide_eq_true_eq] at hlook
  obtain ⟨code, r, hcode, hr, hbare⟩ := parse_undoes_emission (.lowered (by decide) ha hlow) hlook.2 "main.js"
  exact ⟨p, q, progress, code, r, ha, hlow, hlook.1, hcode, hr, hbare⟩

end RaiseScript
