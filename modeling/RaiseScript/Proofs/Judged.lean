import RaiseScript.Proofs.InnerFirst

/-!
# What the checks leave behind

`annotate` notes the raises of every try expression and `validate` the verdict on it, and both
change nothing else. So a program about which there is no complaint is ready to be lowered
(`lowerable_of_validate`).
-/

namespace RaiseScript

variable {file : String} {limit : Nat} {sp : Spelling} {p q : Program}

section

variable {σ : Type} {fine : σ → Prop} {R Q : TryExpr → Prop} {f : TryExpr → StateM σ TryExpr}

/-- What `f` does to a try expression whose parts have been changed already. It may rely on `R`
because the raises noted and the raises owned are still those of the original. -/
structure Notes (fine : σ → Prop) (R Q : TryExpr → Prop) (f : TryExpr → StateM σ TryExpr) : Prop where
  only : NotesOnly f
  transfer : ∀ t t', t'.raises = t.raises → t'.sites = t.sites → R t → R t'
  gives : ∀ t s, R t → fine (f t s).2 → fine s ∧ Q (f t s).1

/-- Where the state is fine at the end it was fine all along, and every try expression has the
property that `f` gives to those with `R`. -/
theorem Walked.noted (hf : Notes fine R Q f) {ts us : List TryExpr} {s s' : σ}
    (h : Walked f ts s us s') (hr : ∀ t ∈ ts, R t) (hs : fine s') : fine s ∧ ∀ u ∈ us, Q u := by
  induction h with
  | nil => exact ⟨hs, by simp⟩
  | cons htu _ ih =>
    obtain ⟨ht, hts⟩ := List.forall_mem_cons.1 hr
    obtain ⟨hs', hus⟩ := ih hts hs
    obtain ⟨hs, hu⟩ := hf.gives _ _ (hf.transfer _ _ htu.raises htu.sites ht) hs'
    exact ⟨hs, List.forall_mem_cons.2 ⟨hu, hus⟩⟩

theorem noted_replaceStmts (hf : Notes fine R Q f) (ss : List Stmt) {s : σ}
    (hr : ∀ t, .attempt t ∈ walkStmts .all ss → R t) (hs : fine (replaceStmts f ss s).2) :
    fine s ∧ ∀ t, .attempt t ∈ walkStmts .all (replaceStmts f ss s).1 → Q t := by
  obtain ⟨hs', hq⟩ := (walked hf.only (.stmts ss) s).noted hf
    (fun t ht => hr t (mem_attempts.1 (mem_innerFirst.1 ht))) hs
  exact ⟨hs', fun t ht => hq t (mem_innerFirst.2 (mem_attempts.2 ht))⟩

end

/-! ## Raises noted, verdicts given -/

/-- The note that `annotate` leaves. -/
def TryExpr.Noted (t : TryExpr) : Prop :=
  t.raises = some t.sites

theorem notes_annotate : Notes (fun _ : Nat => True) (fun _ => True) TryExpr.Noted
    (fun t => do
      modify (· + 1)
      return { t with raises := some t.sites }) where
  only t _ := ⟨some t.sites, t.verdict, rfl⟩
  transfer _ _ _ _ h := h
  gives _ _ _ _ := ⟨trivial, rfl⟩

theorem diagnostic?_eq_none {v : Verdict} : v.diagnostic? file = none ↔ v = .valid := by
  cases v <;> simp [Verdict.diagnostic?]

theorem judgeUpTo_apply (file : String) (limit : Nat) (t : TryExpr) (s : List Diagnostic) :
    judgeUpTo file limit t s = if limit ≤ s.length then (t, s)
      else ({ t with verdict := some t.judge }, s ++ (t.judge.diagnostic? file).toList) := by
  change (if limit ≤ s.length then pure t else _ : StateM (List Diagnostic) TryExpr) s = _
  split <;> rfl

theorem notesOnly_judgeUpTo (file : String) (limit : Nat) : NotesOnly (judgeUpTo file limit) := by
  intro t s
  rw [judgeUpTo_apply]
  split
  · exact ⟨t.raises, t.verdict, by cases t; rfl⟩
  · exact ⟨t.raises, some t.judge, rfl⟩

/-- The verdicts leave the raises noted. -/
theorem notes_noted (file : String) (limit : Nat) :
    Notes (fun _ => True) TryExpr.Noted TryExpr.Noted (judgeUpTo file limit) where
  only := notesOnly_judgeUpTo file limit
  transfer t t' hr hs h := by
    rw [TryExpr.Noted, hr, hs]
    exact h
  gives t s ht _ := by
    rw [judgeUpTo_apply]
    split <;> exact ⟨trivial, ht⟩

/-- As long as there is no complaint, all verdicts are valid. -/
theorem notes_valid (file : String) (hl : 1 ≤ limit) :
    Notes (· = []) (fun _ => True) (·.verdict = some .valid) (judgeUpTo file limit) where
  only := notesOnly_judgeUpTo file limit
  transfer _ _ _ _ h := h
  gives t s _ hs := by
    rw [judgeUpTo_apply] at hs ⊢
    split
    · rename_i h
      rw [if_pos h] at hs
      subst hs
      exact absurd (Nat.le_trans hl h) (by simp)
    · rename_i h
      rw [if_neg h, List.append_eq_nil_iff, Option.toList_eq_nil_iff, diagnostic?_eq_none] at hs
      exact ⟨hs.1, congrArg some hs.2⟩

theorem noted_annotate (p : Program) {t : TryExpr}
    (ht : .attempt t ∈ walkStmts .all (annotate p).1) : t.Noted :=
  (noted_replaceStmts (s := 0) notes_annotate p (fun _ _ => trivial) trivial).2 t ht

/-- A program whose verdicts are all valid is ready to be lowered, and it has the try expressions it
had. -/
theorem lowerable_of_valid {ds : List Diagnostic} (hp : Parsed sp (walkStmts .all p))
    (hq : validate file limit (annotate p).1 = (q, ds))
    (hvalid : ∀ t, .attempt t ∈ walkStmts .all q → t.verdict = some .valid) :
    Lowerable sp (walkStmts .all q) ∧
      countAttempts (walkStmts .all q) = countAttempts (walkStmts .all p) ∧
      ∀ c, sitesIn c q = sitesIn c p := by
  have hr₁ (r : Reach) := renoted_stmts notes_annotate.only r p 0
  have hr₂ (r : Reach) := renoted_stmts (notesOnly_judgeUpTo file limit) r (annotate p).1 []
  have hnoted := (noted_replaceStmts (s := []) (notes_noted file limit) (annotate p).1
    (fun _ ht => noted_annotate p ht) trivial).2
  change (replaceStmts (judgeUpTo file limit) (annotate p).1 []) = (q, ds) at hq
  rw [hq] at hr₂ hnoted
  refine ⟨fun v hv => ?_, (countAttempts_renoted (hr₂ _)).trans (countAttempts_renoted (hr₁ _)),
    fun c => (raiseSites_renoted c (hr₂ .surface)).trans (raiseSites_renoted c (hr₁ .surface))⟩
  obtain ⟨hspelled, hplaced⟩ := parsed_renoted (notesOnly_judgeUpTo file limit) (hr₂ _)
    (parsed_renoted notes_annotate.only (hr₁ _) hp) v hv
  refine ⟨?_, hspelled⟩
  cases v with
  | stmt st => exact trivial
  | expr e => exact trivial
  | func g =>
    obtain ⟨_, _, _ | _, _, _, _⟩ := g
    · exact hplaced
    · exact trivial
  | attempt t => exact ⟨hvalid t hv, hnoted t hv⟩

/-- A program without complaints is ready to be lowered. -/
theorem lowerable_of_validate (hl : 1 ≤ limit) (hp : Parsed sp (walkStmts .all p))
    (hq : validate file limit (annotate p).1 = (q, [])) : Lowerable sp (walkStmts .all q) ∧
      countAttempts (walkStmts .all q) = countAttempts (walkStmts .all p) ∧
      ∀ c, sitesIn c q = sitesIn c p := by
  have hvalid := noted_replaceStmts (s := []) (notes_valid file hl) (annotate p).1 fun _ _ => trivial
  rw [show replaceStmts (judgeUpTo file limit) (annotate p).1 [] = (q, []) from hq] at hvalid
  exact lowerable_of_valid hp hq (hvalid rfl).2

/-! ## Complaints -/

theorem notes_structural (file : String) (limit : Nat) :
    Notes (fun ds : List Diagnostic => ¬∀ d ∈ ds, d.kind = .structural) (fun _ => True)
      (fun _ => True) (judgeUpTo file limit) where
  only := notesOnly_judgeUpTo file limit
  transfer _ _ _ _ h := h
  gives t s _ hs := by
    refine ⟨fun hall => hs ?_, trivial⟩
    rw [judgeUpTo_apply]
    split
    · exact hall
    · refine List.forall_mem_append.2 ⟨hall, fun d hd => ?_⟩
      cases hj : t.judge with
      | valid => simp [hj, Verdict.diagnostic?] at hd
      | invalid fault span =>
        simp only [hj, Verdict.diagnostic?, Option.toList_some, List.mem_singleton] at hd
        rw [hd]
        rfl

/-- All complaints are about the structure of the program. -/
theorem structural_of_mem_validate {d : Diagnostic} (hd : d ∈ (validate file limit p).2) :
    d.kind = .structural := by
  by_contra hne
  have hbad : ¬∀ d ∈ (validate file limit p).2, d.kind = .structural := fun hall => hne (hall d hd)
  exact (noted_replaceStmts (notes_structural file limit) p (fun _ _ => trivial) hbad).1 (by simp)

end RaiseScript
