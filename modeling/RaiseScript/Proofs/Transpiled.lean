import RaiseScript.Proofs.Judged
import RaiseScript.Proofs.Written
import RaiseScript.Transpile

/-!
# The stages fit together

Transpiling succeeds on exactly the programs that are read without an error and checked without a
complaint, and it then has lowered every try expression (`transpile_of_analyze`). The breaches that
lowering and writing watch for never happen : whatever `transpile` reports, `check` reports first.
-/

namespace RaiseScript

variable {source file : String} {o : Options} {p : Program} {ds : List Diagnostic} {d : Diagnostic}

theorem Spelling.any_fits (names : Names) : Spelling.any.Fits names :=
  ⟨trivial, fun _ _ _ => trivial⟩

theorem analyze_eq_ok (h : analyze source file o = .ok (p, ds)) :
    ∃ q, parse source file = .ok q ∧ validate file o.maxErrors (annotate q).1 = (p, ds) := by
  unfold analyze at h
  cases hp : parse source file with
  | error d => rw [hp] at h; cases h
  | ok q =>
    rw [hp] at h
    exact ⟨q, rfl, Except.ok.inj h⟩

/-- What analysis leaves of a program without complaints. -/
theorem lowerable_of_analyze (ho : 1 ≤ o.maxErrors) (h : analyze source file o = .ok (p, [])) :
    Lowerable .any (walkStmts .all p) ∧ (∀ c, sitesIn c p = []) ∧
      ∃ q, parse source file = .ok q ∧ (attempts p).length = (attempts q).length := by
  obtain ⟨q, hq, hv⟩ := analyze_eq_ok h
  obtain ⟨ls, -, hls⟩ := parse_eq_ok hq
  obtain ⟨hparsed, hsites⟩ := parsed_of_parseLexemes .any (fun l _ => l.token.fits_any) hls
  obtain ⟨hl, hc, hs⟩ := lowerable_of_validate ho hparsed hv
  exact ⟨hl, fun c => (hs c).trans (hsites c), q, hq, hc⟩

/-- A program is lowered as its statements are, and then nothing may be left over. -/
theorem lowerProgram_eq (beginning : String) (p : Program) : lowerProgram beginning p =
    lowerStmts (.ofProgram p) p ⟨.forProgram beginning p, 0⟩ >>= fun r => (ensureLowered r.1).map fun _ => r := by
  change (lowerStmts (.ofProgram p) p ⟨.forProgram beginning p, 0⟩ >>= fun r => do
    ensureLowered r.1
    return (r.1, r.2)) = _
  refine congrArg (_ >>= ·) (funext fun r => ?_)
  cases ensureLowered r.1 <;> rfl

theorem lowerProgram_eq_ok {beginning : String} {lowered : Program} {progress : Progress} :
    lowerProgram beginning p = .ok (lowered, progress) ↔
      lowerStmts (.ofProgram p) p ⟨.forProgram beginning p, 0⟩ = .ok (lowered, progress) ∧
        firstExtension? lowered = none := by
  rw [lowerProgram_eq]
  cases lowerStmts (.ofProgram p) p ⟨.forProgram beginning p, 0⟩ with
  | error b => simp [bind, Except.bind]
  | ok r =>
    change (ensureLowered r.1).map (fun _ => r) = _ ↔ _
    rw [ensureLowered]
    cases hr : firstExtension? r.1 with
    | some span =>
      refine ⟨fun h => (by cases h), fun h => ?_⟩
      obtain ⟨⟨⟩, hnone⟩ := h
      rw [hr] at hnone
      cases hnone
    | none =>
      refine ⟨fun h => ?_, fun h => h.1⟩
      obtain ⟨⟩ := h
      exact ⟨rfl, hr⟩

/-- Lowering a program without complaints succeeds, and nothing is left over. -/
theorem lowerProgram_ok {sp : Spelling} (beginning : String) (hl : Lowerable sp (walkStmts .all p))
    (hs : sitesIn .body p = []) (hf : sp.Fits (.forProgram beginning p)) :
    ∃ q r, lowerProgram beginning p = .ok (q, r) ∧ Clean sp (walkStmts .all q) ∧
      r.lowered = (attempts p).length := by
  obtain ⟨q, r, hr, hm, hw⟩ := lowersStmts sp (.ofProgram p) p hl ⟨.forProgram beginning p, 0⟩ hf
  have hclean := hw.clean_of_sites hf hs
  exact ⟨q, r, lowerProgram_eq_ok.2 ⟨hr, firstExtension?_eq_none.2 hclean.standard⟩, hclean,
    hm.count.trans (Nat.zero_add _)⟩

theorem transpile_of_lowerProgram {lowered : Program} {r : Progress} (ha : analyze source file o = .ok (p, []))
    (hr : lowerProgram o.tempPrefix p = .ok (lowered, r)) (hl : Standard (walkStmts .all lowered)) :
    transpile source file o = .ok ⟨lowered, shown (writeLines 0 lowered), r.lowered⟩ := by
  unfold transpile
  rw [ha]
  change ((lowerProgram o.tempPrefix p).mapError (Breach.diagnostic file) >>= fun x => do
    let code ← emit x.1 file
    return Transpiled.mk x.1 code x.2.lowered) = _
  rw [hr]
  change (emit lowered file >>= fun code => pure (Transpiled.mk lowered code r.lowered)) = _
  rw [emit_eq_write file hl]
  rfl

/-- All stages succeed on a program without complaints. -/
theorem transpile_of_analyze (ho : 1 ≤ o.maxErrors) (h : analyze source file o = .ok (p, [])) :
    ∃ t q, transpile source file o = .ok t ∧ parse source file = .ok q ∧
      t.lowered = (attempts q).length := by
  obtain ⟨hl, hs, q, hq, hcount⟩ := lowerable_of_analyze ho h
  obtain ⟨lowered, r, hr, hclean, hlowered⟩ :=
    lowerProgram_ok o.tempPrefix hl (hs .body) (Spelling.any_fits _)
  exact ⟨_, q, transpile_of_lowerProgram h hr hclean.standard, hq, hlowered.trans hcount⟩

theorem transpile_of_complaint (h : analyze source file o = .ok (p, d :: ds)) :
    transpile source file o = .error d := by
  unfold transpile
  rw [h]
  rfl

theorem transpile_of_refusal (h : analyze source file o = .error d) : transpile source file o = .error d := by
  unfold transpile
  rw [h]
  rfl

/-- The stages that a text went through. -/
theorem transpile_eq_ok {t : Transpiled} (h : transpile source file o = .ok t) :
    ∃ p progress, analyze source file o = .ok (p, []) ∧
      lowerProgram o.tempPrefix p = .ok (t.program, progress) ∧ emit t.program file = .ok t.code ∧
      progress.lowered = t.lowered := by
  cases ha : analyze source file o with
  | error d =>
    rw [transpile_of_refusal ha] at h
    cases h
  | ok r =>
    obtain ⟨p, _ | ⟨d, ds⟩⟩ := r
    · unfold transpile at h
      rw [ha] at h
      change ((lowerProgram o.tempPrefix p).mapError (Breach.diagnostic file) >>= fun x => do
        let code ← emit x.1 file
        return Transpiled.mk x.1 code x.2.lowered) = _ at h
      cases hl : lowerProgram o.tempPrefix p with
      | error b =>
        rw [hl] at h
        cases h
      | ok x =>
        obtain ⟨lowered, progress⟩ := x
        rw [hl] at h
        change (emit lowered file >>= fun code => pure (Transpiled.mk lowered code progress.lowered)) = _ at h
        cases he : emit lowered file with
        | error d =>
          rw [he] at h
          cases h
        | ok code =>
          rw [he] at h
          cases h
          exact ⟨p, progress, rfl, hl, he, rfl⟩
    · rw [transpile_of_complaint ha] at h
      cases h

/-- Only reading refuses a program outright. -/
theorem kind_of_analyze_error (h : analyze source file o = .error d) : d.kind = .lex ∨ d.kind = .syntactic := by
  have hp : parse source file = .error d := by
    unfold analyze at h
    cases hp : parse source file with
    | error d' => rw [hp] at h; cases h; rfl
    | ok q => rw [hp] at h; cases h
  unfold parse lex at hp
  cases hl : lexChars source.toList with
  | error e =>
    rw [hl] at hp
    cases hp
    exact Or.inl rfl
  | ok ls =>
    rw [hl] at hp
    change (parseLexemes ls).mapError _ = .error d at hp
    cases hs : parseLexemes ls with
    | error e =>
      rw [hs] at hp
      cases hp
      exact Or.inr rfl
    | ok q => rw [hs] at hp; cases hp

/-- Transpiling succeeds exactly when checking finds nothing, and has then lowered every try
expression that was read. Otherwise it reports the first thing that checking reports, which is never
a breach between stages. -/
theorem transpile_agrees_with_check (source file : String) (o : Options) (ho : 1 ≤ o.maxErrors) :
    ((∃ t, transpile source file o = .ok t) ↔ check source file o = .ok []) ∧
    (∀ d, transpile source file o = .error d → d.isInternal = false ∧
      ((check source file o = .error d ∧ (d.kind = .lex ∨ d.kind = .syntactic)) ∨
        ∃ ds, check source file o = .ok (d :: ds) ∧ d.kind = .structural)) ∧
    ∀ t, transpile source file o = .ok t →
      ∃ p, parse source file = .ok p ∧ t.lowered = (attempts p).length := by
  have hcheck : check source file o = (analyze source file o).map (·.2) := by
    unfold check
    cases analyze source file o <;> rfl
  cases ha : analyze source file o with
  | error d =>
    have hkind := kind_of_analyze_error ha
    rw [hcheck, ha, transpile_of_refusal ha]
    refine ⟨by simp [Except.map], fun d' hd' => ?_, by simp⟩
    cases hd'
    refine ⟨?_, Or.inl ⟨rfl, hkind⟩⟩
    rcases hkind with hk | hk <;> simp [Diagnostic.isInternal, hk]
  | ok r =>
    obtain ⟨p, _ | ⟨d, ds⟩⟩ := r
    · obtain ⟨t, q, ht, hq, hlowered⟩ := transpile_of_analyze ho ha
      rw [hcheck, ha, ht]
      refine ⟨by simp [Except.map], by simp, fun t' ht' => ?_⟩
      cases ht'
      exact ⟨q, hq, hlowered⟩
    · obtain ⟨q, -, hv⟩ := analyze_eq_ok ha
      have hkind : d.kind = .structural := by
        apply structural_of_mem_validate
        rw [hv]
        exact List.mem_cons_self
      rw [hcheck, ha, transpile_of_complaint ha]
      refine ⟨by simp [Except.map], fun d' hd' => ?_, by simp⟩
      cases hd'
      exact ⟨by simp [Diagnostic.isInternal, hkind], Or.inr ⟨ds, rfl, hkind⟩⟩

/-- The least number of complaints that may be asked for is enough. -/
theorem transpile_agrees_with_check_of_one_complaint :
    1 ≤ (Options.mk "__" 1).maxErrors ∧
    ((∃ t, transpile "let f = () => try \x7b raise 1; \x7d catch \x7b raise 2; \x7d;" "main.js" ⟨"__", 1⟩ =
        .ok t) ↔
      check "let f = () => try \x7b raise 1; \x7d catch \x7b raise 2; \x7d;" "main.js" ⟨"__", 1⟩ = .ok []) :=
  ⟨by decide, (transpile_agrees_with_check _ _ ⟨"__", 1⟩ (by decide)).1⟩

end RaiseScript
