import RaiseScript.Proofs.RecastNotes
import RaiseScript.Proofs.Faithful
import RaiseScript.Proofs.Lockstep

/-!
# The note of the raises can be done without

`annotate` notes on every try expression which raises it owns. The checks and lowering read the
note, and where there is none they look for the raises themselves. They find what was noted : a
program gets the same verdicts and the same complaints without the notes, and it is lowered to the
same program with any part of them (`notes_redundant`).
-/

namespace RaiseScript

variable {source file : String} {p : Program}

/-! ## Trees without notes -/

/-- Nothing is noted on a tree that was just read, so no note is lost on it. -/
theorem recast_notes_of_parse (h : parse source file = .ok p) (keeps : NodeId → Bool) :
    recastStmts (.notes keeps) p = p := by
  obtain ⟨ls, -, hp⟩ := parse_eq_ok h
  let rd : Reading := ⟨.any, .notes keeps, true, .id, rfl, fun _ _ => rfl, fun _ => rfl⟩
  have hsees : rd.Sees (.start ls) :=
    ⟨fun l _ => l.token.fits_any, (List.pairwise_of_forall fun _ _ => Iff.rfl).isChain⟩
  have hsame : ls.map (Lexeme.recast rd.recast) = ls :=
    List.map_id'' (fun l => congrArg (Lexeme.mk · l.span) l.token.renamed_id) ls
  have hread := (parseLexemes_recast rd (.inr rfl) hsees).1 p hp (.inl rfl)
  rw [hsame, hp] at hread
  exact (Except.ok.inj hread).symm

theorem echoes_clear : Echoes (fun _ => True) (.notes fun _ => false) (fun _ _ : Nat => True)
    (fun t => do
      modify (· + 1)
      return { t with raises := some t.sites }) pure where
  only := notes_annotate.only
  node {t u s s'} _ _ _ := by
    refine ⟨?_, trivial⟩
    obtain ⟨_, _, _, _, _, _, _, _ | _, _⟩ := u <;> rfl

/-- Without the notes that it made, `annotate` changed nothing. -/
theorem recast_notes_annotate (p : Program) :
    recastStmts (.notes fun _ => false) (annotate p).1 = recastStmts (.notes fun _ => false) p := by
  have hpure := replaceStmts_fixed (pure : TryExpr → StateM Nat TryExpr)
    (recastStmts (.notes fun _ => false) p) (.of_forall (fun _ => rfl) _)
  have hwalk := (echoes_clear.alongside (.stmts p) (.of_forall (fun _ => trivial) _) 0 0 trivial).1
  rw [hpure] at hwalk
  exact hwalk.symm

/-! ## With and without notes -/

/-- Verdicts and complaints are those of the program with its notes. -/
theorem validate_annotate (h : parse source file = .ok p) (limit : Nat) :
    (validate file limit p).1 = recastStmts (.notes fun _ => false) (validate file limit (annotate p).1).1 ∧
      (validate file limit p).2 = (validate file limit (annotate p).1).2 := by
  have htold : EachAttempt (·.Told (.notes fun _ => false)) (walkStmts .all (annotate p).1) := by
    intro v hv
    cases v with
    | attempt t => exact .inr (noted_annotate p hv)
    | _ => exact trivial
  obtain ⟨htree, hcomplaints⟩ := validate_recast htold file file limit
  rw [recast_notes_annotate, recast_notes_of_parse h] at htree hcomplaints
  have hsame : List.Forall₂ (· = ·) (validate file limit (annotate p).1).2 (validate file limit p).2 := by
    refine hcomplaints.imp fun d d' hd => ?_
    cases hd
    rfl
  rw [List.forall₂_eq_eq_eq] at hsame
  exact ⟨htree, hsame.symm⟩

/-- What is lowered with all notes is lowered to the same with any part of them. -/
theorem lowerProgram_notes {beginning : String} {lowered : Program} {progress : Progress}
    (h : lowerProgram beginning p = .ok (lowered, progress)) (keeps : NodeId → Bool) :
    lowerProgram beginning (recastStmts (.notes keeps) p) = .ok (lowered, progress) := by
  have hstandard := firstExtension?_eq_none.1 (lowerProgram_eq_ok.1 h).2
  rw [Lockstep.lowerProgram_recast_same id rfl keeps h, recast_notes_stmts lowered (hstandard.eachAttempt _)]

/-- The notes are redundant : a program that was read gets the same verdicts and complaints without
them, and if all verdicts are valid, it is lowered to the same program with the same count when any
of the notes are cleared. -/
theorem notes_redundant {source file : String} {limit : Nat} {p q : Program} {ds : List Diagnostic}
    (h : parse source file = .ok p) (hq : validate file limit (annotate p).1 = (q, ds)) :
    (∃ q', validate file limit p = (q', ds) ∧ q' = recastStmts (.notes fun _ => false) q ∧
      (attempts q').map (fun t => (t.id, t.verdict)) = (attempts q).map fun t => (t.id, t.verdict)) ∧
    ((∀ t ∈ attempts q, t.verdict = some .valid) → ∀ beginning, ∃ lowered progress,
      lowerProgram beginning q = .ok (lowered, progress) ∧
        ∀ keeps, lowerProgram beginning (recastStmts (.notes keeps) q) = .ok (lowered, progress)) := by
  obtain ⟨htree, hcomplaints⟩ := validate_annotate h limit
  rw [hq] at htree hcomplaints
  refine ⟨⟨_, Prod.ext htree hcomplaints, rfl, ?_⟩, fun hvalid beginning => ?_⟩
  · rw [attempts_recast, List.map_map]
    refine List.map_congr_left fun t _ => ?_
    cases t
    simp [Verdict.recast_id]
  · obtain ⟨ls, -, hls⟩ := parse_eq_ok h
    obtain ⟨hparsed, hsites⟩ := parsed_of_parseLexemes .any (fun l _ => l.token.fits_any) hls
    obtain ⟨hl, -, hs⟩ := lowerable_of_valid hparsed hq fun t ht => hvalid t (mem_attempts.2 ht)
    obtain ⟨lowered, progress, hlowered, -⟩ :=
      lowerProgram_ok beginning hl ((hs .body).trans (hsites .body)) (Spelling.any_fits _)
    exact ⟨lowered, progress, hlowered, lowerProgram_notes hlowered⟩

/-- A try expression inside a raise of another one. -/
def raisedInside : String :=
  "let x = try { raise f(try { raise a; } catch { raise b; }); } catch (e) { raise e; };"

/-- Without its notes, and with the note on the outer try expression only. -/
theorem notes_redundant_of_raisedInside : ∃ p q q' lowered progress,
    parse raisedInside "main.js" = .ok p ∧ validate "main.js" 5 (annotate p).1 =
    (q, []) ∧ validate "main.js" 5 p = (q', []) ∧ (attempts q').map (fun t => (t.id, t.verdict)) =
    [(0, some .valid), (1, some .valid)] ∧ lowerProgram "__" q = .ok (lowered, progress) ∧
    lowerProgram "__" (recastStmts (.notes (· == 0)) q) = .ok (lowered, progress) := by
  have hlook : ((parse raisedInside "main.js").toOption.any fun p =>
      (validate "main.js" 5 (annotate p).1).2.isEmpty &&
        decide ((attempts (validate "main.js" 5 (annotate p).1).1).map (fun t =>
          (t.id, t.verdict)) = [(0, some .valid), (1, some .valid)])) = true := by decide +kernel
  obtain ⟨p, hp, hlook⟩ := Except.exists_of_any hlook
  rw [Bool.and_eq_true, List.isEmpty_iff, decide_eq_true_eq] at hlook
  obtain ⟨hnone, hverdicts⟩ := hlook
  have hq : validate "main.js" 5 (annotate p).1 = ((validate "main.js" 5 (annotate p).1).1, []) :=
    Prod.ext rfl hnone
  have hvalid : ∀ t ∈ attempts (validate "main.js" 5 (annotate p).1).1, t.verdict = some .valid := by
    intro t ht
    have hmem := List.mem_map_of_mem (f := fun t : TryExpr => (t.id, t.verdict)) ht
    rw [hverdicts] at hmem
    simp only [List.mem_cons, Prod.mk.injEq, List.not_mem_nil, or_false] at hmem
    exact hmem.elim (·.2) (·.2)
  obtain ⟨⟨q', hq', -, hsame⟩, hlower⟩ := notes_redundant hp hq
  obtain ⟨lowered, progress, hlowered, hkeeps⟩ := hlower hvalid "__"
  exact ⟨p, _, q', lowered, progress, hp, hq, hq', hsame.trans hverdicts, hlowered, hkeeps _⟩

end RaiseScript
