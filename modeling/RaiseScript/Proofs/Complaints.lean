import RaiseScript.Proofs.Attributed

/-!
# The complaints about a program

The try expressions of a program are judged one after the other, each after those inside it, until
enough complaints have been made. `Expr.innerFirst` and its companions list them in this order. A
walk that changes nothing but notes meets the try expressions of this list (`Walked`), with the
raises and the places they had, and so the complaints are the first ones about the list
(`Walked.complaints`).

In a program that was read a finally block without a binding holds no raise, and a binding has a
finally block. So a try expression is at fault only if exactly one of its first two clauses owns a
raise (`judge_of_parsed`), and `check` complains about exactly these (`check_eq_lopsided`).
-/

namespace RaiseScript

variable {t : TryExpr} {ts us : List TryExpr} {file source : String} {p : Program}

/-- The rules, with what they look at. -/
theorem TryExpr.judge_eq (t : TryExpr) : t.judge =
    if (t.raises.getD t.sites).body.isEmpty = (t.raises.getD t.sites).handler.isEmpty then
      if t.finallyParam.isSome then if t.finallyBody.isSome then .valid else .invalid .boundNothing t.span
      else (t.raises.getD t.sites).finalizer.head?.elim .valid fun first => .invalid .unboundRaise first.span
    else .invalid .lopsided t.span := by
  obtain ⟨_, _, _, _, finallyParam, finallyBody, _, _, _⟩ := t
  simp only [TryExpr.judge, bne_iff_ne, ne_eq, ite_not]
  congr 1
  cases finallyParam with
  | none =>
    generalize RaiseSites.finalizer _ = sites
    cases sites <;> rfl
  | some x => cases finallyBody <;> rfl

/-- What is said about a try expression depends on nothing else. -/
theorem TryExpr.AsBefore.judge {u : TryExpr} (h : t.AsBefore u) : u.judge = t.judge := by
  rw [u.judge_eq, t.judge_eq, h.raises, h.sites, h.span, h.param, h.block]

/-! ## Judged in this order -/

/-- The try expression with its raises noted. -/
def TryExpr.annotated (t : TryExpr) : TryExpr :=
  { t with raises := some t.sites }

/-- After `annotate` a try expression is judged by the raises it owns. -/
theorem Walked.judge_annotated {f : TryExpr → StateM Nat TryExpr} (hf : ∀ t s, (f t s).1 = t.annotated)
    {s s' : Nat} (h : Walked f ts s us s') : us.map TryExpr.judge = ts.map fun t => t.annotated.judge := by
  induction h with
  | nil => rfl
  | @cons t u ts us s s' htu _ ih =>
    have hnoted : t.annotated.AsBefore u.annotated :=
      ⟨htu.span, htu.sites, htu.param, htu.block, congrArg some htu.sites⟩
    rw [List.map_cons, List.map_cons, ih, hf, hnoted.judge]

/-- The complaints are the first ones about the list, however many were made before. -/
theorem Walked.complaints {limit : Nat} {made made' : List Diagnostic}
    (h : Walked (judgeUpTo file limit) ts made us made') (hmade : made.length ≤ limit) :
    made' = (made ++ ts.filterMap (·.judge.diagnostic? file)).take limit := by
  induction h with
  | nil made => rw [List.filterMap_nil, List.append_nil, List.take_of_length_le hmade]
  | @cons t u ts us made made' htu _ ih =>
    rw [judgeUpTo_apply, htu.judge] at ih
    by_cases hfull : limit ≤ made.length
    · rw [if_pos hfull] at ih
      have hlen : made.length = limit := Nat.le_antisymm hmade hfull
      rw [ih hmade, ← hlen, List.take_left, List.take_left]
    · rw [if_neg hfull] at ih
      have hone : (made ++ (t.judge.diagnostic? file).toList).length ≤ limit := by
        rw [List.length_append]
        have : (t.judge.diagnostic? file).toList.length ≤ 1 := by cases t.judge.diagnostic? file <;> simp
        omega
      rw [ih hone, List.append_assoc]
      congr 2
      cases hd : t.judge.diagnostic? file <;> simp [hd]

/-! ## Programs that were read -/

/-- A raise stands in the clause, outside of functions and of other try expressions. -/
def TryExpr.raisesIn (t : TryExpr) (c : Clause) : Bool :=
  !(t.sites.of c).isEmpty

/-- The complaint about a try expression of which exactly one of the first two clauses raises. -/
def lopsidedComplaint (file : String) (t : TryExpr) : Diagnostic :=
  .located 2 .structural (some Rule.symmetry.name) file t.span Fault.lopsided.message

/-- In a program that was read no other fault is found. -/
theorem judge_of_parsed {sp : Spelling} (hspelled : (Visit.attempt t).Spelled sp)
    (hplaced : (Visit.attempt t).Placed) :
    t.annotated.judge = if t.raisesIn .body != t.raisesIn .handler then .invalid .lopsided t.span else .valid := by
  have hbound : t.finallyParam.isSome → t.finallyBody.isSome := hspelled.2.2
  have hunbound : t.finallyParam = none → sitesIn .finalizer (t.finallyBody.getD []) = [] :=
    fun h => hplaced h .finalizer
  have hsites : t.annotated.raises.getD t.annotated.sites = t.sites := rfl
  rw [TryExpr.judge_eq, hsites]
  by_cases heven : t.sites.body.isEmpty = t.sites.handler.isEmpty
  · have hraises : ¬(t.raisesIn .body != t.raisesIn .handler) = true := by
      simp [TryExpr.raisesIn, RaiseSites.of, heven]
    rw [if_pos heven, if_neg hraises]
    cases hparam : t.finallyParam with
    | none =>
      have hnone : t.sites.finalizer = [] := hunbound hparam
      rw [hnone, if_neg (show ¬t.annotated.finallyParam.isSome = true by simp [TryExpr.annotated, hparam])]
      rfl
    | some x =>
      have hblock : t.finallyBody.isSome := hbound (by rw [hparam, Option.isSome_some])
      rw [if_pos (show t.annotated.finallyParam.isSome = true by simp [TryExpr.annotated, hparam]),
        if_pos (show t.annotated.finallyBody.isSome = true from hblock)]
  · have hraises : (t.raisesIn .body != t.raisesIn .handler) = true := by
      simpa [TryExpr.raisesIn, RaiseSites.of] using heven
    rw [if_neg heven, if_pos hraises]
    rfl

/-- In a program that was read, the raises in a clause are the ones it owns. -/
theorem raisesIn_iff_owns (hids : (nodeIds p).Nodup) (ht : t ∈ attempts p) (c : Clause) :
    t.raisesIn c = true ↔ ∃ r ∈ ownedInStmts none p, r.owner = some (t.id, c) := by
  rw [TryExpr.raisesIn, Bool.not_eq_true', List.isEmpty_eq_false_iff]
  constructor
  · intro hne
    obtain ⟨site, hsite⟩ := List.exists_mem_of_ne_nil _ hne
    exact ⟨_, (owned_of_mem_sites ht hsite).2, rfl⟩
  · rintro ⟨r, hr, howner⟩ hnil
    rcases (mem_owned none (.stmts p)).1 hr with ⟨hnone, -⟩ | ⟨u, hu, c', howner', hin⟩ | ⟨g, -, hnone, -⟩
    · rw [hnone] at howner
      cases howner
    · obtain ⟨hid, rfl⟩ := Prod.mk.inj (Option.some.inj (howner'.symm.trans howner))
      have hut : u = t :=
        List.inj_on_of_nodup_map (hids.sublist (map_attempts_sublist _)) (mem_attempts.2 hu) ht hid
      subst hut
      have hmem : r.site c' ∈ u.sites.of c' := u.sites_of c' ▸ site_mem_raiseSites.2 hin
      rw [hnil] at hmem
      cases hmem
    · rw [hnone] at howner
      cases howner

/-- The clause of the try expression owns a raise of the program. -/
def ownsRaise (p : Program) (t : TryExpr) (c : Clause) : Bool :=
  (ownedInStmts none p).any fun r => decide (r.owner = some (t.id, c))

/-- The try expressions of which exactly one of the body and the handler owns a raise, inner ones
first. -/
def lopsided (p : Program) : List TryExpr :=
  (innerFirst p).filter fun t => ownsRaise p t .body != ownsRaise p t .handler

theorem parsed_attempt (h : parse source file = .ok p) (ht : t ∈ innerFirst p) :
    (Visit.attempt t).Spelled .any ∧ (Visit.attempt t).Placed := by
  obtain ⟨ls, -, hls⟩ := parse_eq_ok h
  have hparsed := (parsed_of_parseLexemes .any (fun l _ => l.token.fits_any) hls).1
  exact hparsed _ (mem_attempts.1 (mem_innerFirst.1 ht))

/-- The complaints are about the lopsided try expressions, up to the limit. -/
theorem validate_eq_lopsided (h : parse source file = .ok p) (limit : Nat) :
    (validate file limit (annotate p).1).2 = ((lopsided p).take limit).map (lopsidedComplaint file) := by
  have hannotated : Walked _ (innerFirst p) 0 (innerFirst (annotate p).1) (annotate p).2 :=
    walked notes_annotate.only (.stmts p) 0
  have hjudges := hannotated.judge_annotated fun _ _ => rfl
  have hwalked : Walked (judgeUpTo file limit) (innerFirst (annotate p).1) [] _ _ :=
    walked (notesOnly_judgeUpTo file limit) (.stmts (annotate p).1) []
  have hids : (nodeIds p).Nodup := (tagged_of_parse h).1
  have howns {t : TryExpr} (ht : t ∈ innerFirst p) (c : Clause) : t.raisesIn c = ownsRaise p t c := by
    rw [Bool.eq_iff_iff, raisesIn_iff_owns hids (mem_innerFirst.1 ht) c, ownsRaise, List.any_eq_true]
    simp
  have hfault {t : TryExpr} (ht : t ∈ innerFirst p) : t.annotated.judge.diagnostic? file =
      if ownsRaise p t .body != ownsRaise p t .handler then some (lopsidedComplaint file t) else none := by
    obtain ⟨hspelled, hplaced⟩ := parsed_attempt h ht
    rw [judge_of_parsed hspelled hplaced, howns ht, howns ht]
    split <;> rfl
  have hfuse (judge : TryExpr → Verdict) (ts : List TryExpr) :
      ts.filterMap (fun t => (judge t).diagnostic? file) = (ts.map judge).filterMap (Verdict.diagnostic? file) :=
    (List.filterMap_map (f := judge) (g := Verdict.diagnostic? file)).symm
  calc (validate file limit (annotate p).1).2
      = ((innerFirst (annotate p).1).filterMap (·.judge.diagnostic? file)).take limit :=
        hwalked.complaints (Nat.zero_le _)
    _ = ((innerFirst p).filterMap (·.annotated.judge.diagnostic? file)).take limit := by
        rw [hfuse, hjudges, ← hfuse]
    _ = ((lopsided p).map (lopsidedComplaint file)).take limit := by
        rw [lopsided, ← List.filterMap_eq_filter, List.map_filterMap, List.filterMap_congr fun t => hfault]
        refine congrArg (List.take limit) (List.filterMap_congr fun t _ => ?_)
        cases hown : ownsRaise p t .body != ownsRaise p t .handler <;> simp [Option.guard, hown]
    _ = ((lopsided p).take limit).map (lopsidedComplaint file) := List.map_take.symm

/-- The complaints about a program that was read are about its lopsided try expressions, inner ones
first and at their own places, up to the limit. So none is about a finally binding, and with a
higher limit the same complaints come first. -/
theorem check_eq_lopsided {source file : String} {p : Program} (h : parse source file = .ok p) (o : Options) :
    check source file o = .ok (((lopsided p).take o.maxErrors).map (lopsidedComplaint file)) ∧
    (∀ ds, check source file o = .ok ds → ∀ d ∈ ds, d.rule ≠ some Rule.finallyBinding.name) ∧
    ∀ o' : Options, o.maxErrors ≤ o'.maxErrors → ∃ ds ds', check source file o = .ok ds ∧
      check source file o' = .ok ds' ∧ ds <+: ds' := by
  have hcheck (o : Options) :
      check source file o = .ok (((lopsided p).take o.maxErrors).map (lopsidedComplaint file)) := by
    rw [← validate_eq_lopsided h]
    simp only [check, analyze, h]
    rfl
  refine ⟨hcheck o, fun ds hds d hd => ?_, fun o' ho => ⟨_, _, hcheck o, hcheck o', ?_⟩⟩
  · obtain rfl := Except.ok.inj ((hcheck o).symm.trans hds)
    obtain ⟨t, -, rfl⟩ := List.mem_map.1 hd
    change some Rule.symmetry.name ≠ some Rule.finallyBinding.name
    decide
  · exact (List.take_prefix_take_left ho).map _

/-- Three lopsided try expressions, one inside another and one in a function. The finally block has
no binding, so that `raise` is a name there. -/
def lopsidedTries : String :=
  "let v = try \x7b raise try \x7b raise 1; \x7d catch \x7b \x7d;
  f(function () \x7b return try \x7b \x7d catch \x7b raise 2; \x7d finally \x7b raise(3); \x7d; \x7d); \x7d catch \x7b \x7d;"

/-- With a limit of two there is no complaint about the outer one. -/
theorem check_eq_lopsided_of_lopsidedTries :
    ∃ p, parse lopsidedTries "main.js" = .ok p ∧ (lopsided p).map (·.span.start) = [20, 73, 8] ∧
      check lopsidedTries "main.js" ⟨"__", 2⟩ =
        .ok (((lopsided p).take 2).map (lopsidedComplaint "main.js")) ∧
      ∃ ds ds', check lopsidedTries "main.js" ⟨"__", 2⟩ = .ok ds ∧
        check lopsidedTries "main.js" ⟨"__", 3⟩ = .ok ds' ∧ ds <+: ds' := by
  have hlook : ((parse lopsidedTries "main.js").toOption.any fun p =>
      decide ((lopsided p).map (·.span.start) = [20, 73, 8])) = true := by decide +kernel
  obtain ⟨p, hp, hstarts⟩ := Except.exists_of_any hlook
  obtain ⟨hcheck, -, hlonger⟩ := check_eq_lopsided hp ⟨"__", 2⟩
  exact ⟨p, hp, of_decide_eq_true hstarts, hcheck, hlonger ⟨"__", 3⟩ (by decide)⟩

end RaiseScript
