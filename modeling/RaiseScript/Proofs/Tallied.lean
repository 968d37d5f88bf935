import RaiseScript.Report
import Mathlib

/-!
# Reports say what was checked

A report is made of lines, and whatever the failures say, each of their lines is indented
(`Report.inLines_render`). So the lines that look like results are the results of the points, and
the counts in the plan, in the tally of each kind and at the end agree
(`report_says_what_was_checked`).
-/

namespace RaiseScript

variable {l : String} {p : Point} {k : PointKind} {r : Report}

/-! ## Lines -/

/-- The text is made of the lines, each with a newline behind it and none in it. -/
structure InLines (s : String) (ls : List String) : Prop where
  text : s.toList = ls.flatMap (·.toList ++ ['\n'])
  apart : ∀ l ∈ ls, '\n' ∉ l.toList

namespace InLines

variable {s t : String} {ls ms : List String}

theorem nil : InLines "" [] :=
  ⟨rfl, by simp⟩

theorem line (h : '\n' ∉ l.toList) (hs : s = l ++ "\n") : InLines s [l] :=
  ⟨by simp [hs], by simpa using h⟩

theorem append (hs : InLines s ls) (ht : InLines t ms) : InLines (s ++ t) (ls ++ ms) :=
  ⟨by simp [hs.text, ht.text], fun l hl => (List.mem_append.1 hl).elim (hs.apart l) (ht.apart l)⟩

theorem of_eq (h : InLines t ls) (hs : s = t) : InLines s ls :=
  hs ▸ h

/-- One line for each item. -/
theorem join {α : Type} {f g : α → String} {xs : List α} (hf : ∀ x, f x = g x ++ "\n")
    (hg : ∀ x ∈ xs, '\n' ∉ (g x).toList) : InLines (String.join (xs.map f)) (xs.map g) := by
  refine ⟨?_, by simpa using hg⟩
  simp [List.flatMap_map, hf]

/-- A text is split into its lines, with nothing behind the last one. -/
theorem splitOn (h : InLines s ls) : s.toList.splitOn '\n' = ls.map String.toList ++ [[]] := by
  obtain ⟨htext, hapart⟩ := h
  rw [htext]
  clear htext
  induction ls with
  | nil => rfl
  | cons l ls ih =>
    rw [List.flatMap_cons, List.append_assoc, List.singleton_append,
      List.splitOn_append_cons_self_of_not_mem (hapart l (by simp)), ih fun m hm => hapart m (by simp [hm])]
    rfl

end InLines

theorem newline_of_linesFrom {current cs : List Char} (hc : '\n' ∉ current)
    (h : l ∈ linesFrom current cs) : '\n' ∉ l.toList := by
  fun_induction linesFrom current cs with
  | case1 => cases h
  | case2 current =>
    rw [List.mem_singleton.1 h]
    simpa using hc
  | case3 current cs ih =>
    rcases List.mem_cons.1 h with rfl | h
    · unfold closeLine
      split <;> simp_all
    · exact ih (by simp) h
  | case4 current c cs hne ih => exact ih (List.not_mem_cons_of_ne_of_not_mem (fun he => hne he.symm) hc) h

@[simp] theorem newline_notMem_toDigits (n : Nat) : '\n' ∉ Nat.toDigits 10 n :=
  fun h => absurd (Nat.isDigit_of_mem_toDigits (by decide) (by decide) h) (by decide)

/-! ## Points -/

namespace Point

/-- The line that gives the result of a point. -/
def resultLine (number : Nat) (p : Point) : String :=
  (if p.failure.isNone then "ok " else "not ok ") ++ toString number ++ " - " ++ p.kind.pointName p.stem

/-- The lines of the block behind a failure. -/
def blockLines (p : Point) : List String :=
  match p.failure with
  | none => []
  | some reason => "  ---" :: ("  kind: " ++ p.kind.name) :: "  message: |" ::
    ((lines reason).map ("    " ++ ·) ++ ["  ..."])

end Point

theorem PointKind.newline_of_name (k : PointKind) : '\n' ∉ k.name.toList := by
  cases k <;> simp [name]

theorem PointKind.newline_of_pointName {stem : String} (h : '\n' ∉ stem.toList) (k : PointKind) :
    '\n' ∉ (k.pointName stem).toList := by
  cases k <;> simp [pointName, h]

theorem Point.newline_of_resultLine (h : '\n' ∉ p.stem.toList) (number : Nat) :
    '\n' ∉ (p.resultLine number).toList := by
  unfold resultLine
  split <;> simp [p.kind.newline_of_pointName h]

theorem Point.inLines_render (h : '\n' ∉ p.stem.toList) (number : Nat) :
    InLines (p.render number) (p.resultLine number :: p.blockLines) := by
  have hresult := p.newline_of_resultLine h number
  obtain ⟨kind, stem, _ | reason⟩ := p
  · refine .line hresult ?_
    change "ok " ++ (toString number ++ " - " ++ kind.pointName stem ++ "\n") =
      "ok " ++ toString number ++ " - " ++ kind.pointName stem ++ "\n"
    simp only [String.append_assoc]
  · have hlines : InLines (String.join ((lines reason).map fun l => "    " ++ l ++ "\n"))
      ((lines reason).map ("    " ++ ·)) :=
      .join (fun _ => rfl) fun l hl => by simp [newline_of_linesFrom List.not_mem_nil hl]
    have hkind : '\n' ∉ ("  kind: " ++ kind.name).toList := by simp [kind.newline_of_name]
    have hblock := (InLines.line (l := "  ---") (by decide) rfl).append ((InLines.line hkind rfl).append
      ((InLines.line (l := "  message: |") (by decide) rfl).append
        (hlines.append (.line (l := "  ...") (by decide) rfl))))
    refine ((InLines.line hresult rfl).append hblock).of_eq ?_
    change "not ok " ++ (toString number ++ " - " ++ kind.pointName stem ++ "\n") ++ ("  ---" ++ "\n" ++ "  kind: ") ++
      kind.name ++ ("\n" ++ "  message: |" ++ "\n") ++ _ ++ ("  ..." ++ "\n") =
      "not ok " ++ toString number ++ " - " ++ kind.pointName stem ++ "\n" ++ _
    simp only [String.append_assoc]

/-! ## Kinds -/

namespace PointKind

theorem rank_injective {k' : PointKind} (h : k.rank = k'.rank) : k = k' := by
  cases k <;> cases k' <;> simp_all [rank]

end PointKind

namespace Report

@[simp] theorem mem_insertKind {k x : PointKind} {ks : List PointKind} : x ∈ insertKind k ks ↔ x = k ∨ x ∈ ks := by
  fun_induction insertKind k ks with
  | case1 => simp
  | case2 => simp
  | case3 ks => simp
  | case4 k' ks _ _ ih => simp [ih, or_left_comm]

theorem pairwise_insertKind {ks : List PointKind} (h : ks.Pairwise (·.rank < ·.rank)) :
    (insertKind k ks).Pairwise (·.rank < ·.rank) := by
  fun_induction insertKind k ks with
  | case1 => simp
  | case2 k' ks hlt =>
    rw [List.pairwise_cons] at h
    exact List.pairwise_cons.2
      ⟨List.forall_mem_cons.2 ⟨hlt, fun x hx => Nat.lt_trans hlt (h.1 x hx)⟩, List.pairwise_cons.2 h⟩
  | case3 => exact h
  | case4 k' ks hle hne ih =>
    rw [List.pairwise_cons] at h
    refine List.pairwise_cons.2 ⟨fun x hx => ?_, ih h.2⟩
    rcases mem_insertKind.1 hx with rfl | hx
    · exact Nat.lt_of_le_of_ne (Nat.not_lt.1 hle) fun he => hne (PointKind.rank_injective he.symm)
    · exact h.1 x hx

theorem pairwise_kinds (r : Report) : r.kinds.Pairwise (·.rank < ·.rank) := by
  induction r with
  | nil => exact .nil
  | cons p r ih => exact pairwise_insertKind ih

theorem mem_kinds : k ∈ r.kinds ↔ ∃ p ∈ r, p.kind = k := by
  induction r with
  | nil => simp [kinds]
  | cons p r ih =>
    have hcons : kinds (p :: r) = insertKind p.kind (kinds r) := rfl
    simp [hcons, ih, eq_comm]

/-- What is counted for each kind makes what is counted for all. -/
theorem sum_kinds (r : Report) (test : Point → Bool) :
    (r.kinds.map fun k => (r.filter (·.kind = k)).countP test).sum = r.countP test := by
  have hnodup : r.kinds.Nodup := r.pairwise_kinds.imp fun h he => absurd h (by simp [he])
  have hcount (k : PointKind) : (r.filter (·.kind = k)).countP test =
      Multiset.count k ((r.filter test).map Point.kind : List PointKind) := by
    rw [Multiset.coe_count, List.count, List.countP_map, List.countP_filter, List.countP_filter]
    exact List.countP_congr fun p _ => by simp [and_comm]
  simp only [hcount]
  rw [← List.sum_toFinset _ hnodup, Multiset.sum_count_eq_card fun k hk => ?_]
  · simp [List.countP_eq_length_filter]
  · simp only [Multiset.mem_coe, List.mem_map, List.mem_filter] at hk
    obtain ⟨p, hp, rfl⟩ := hk
    simpa [mem_kinds] using ⟨p, hp.1, rfl⟩

/-! ## The whole report -/

/-- The lines of the points from a number on. -/
def pointLines (r : Report) (number : Nat) : List String :=
  (r.zipIdx number).flatMap fun p => p.1.resultLine p.2 :: p.1.blockLines

/-- The line that tallies a kind. -/
def tallyLine (r : Report) (k : PointKind) : String :=
  let points := r.filter (·.kind = k)
  "# " ++ k.name ++ " " ++ toString (points.countP (·.passed)) ++ "/" ++ toString points.length

/-- The lines with the overall counts. -/
def totalLines (r : Report) : List String :=
  ["# tests " ++ toString r.length, "# pass  " ++ toString (r.length - r.failed), "# fail  " ++ toString r.failed]

theorem inLines_renderFrom (h : ∀ p ∈ r, '\n' ∉ p.stem.toList) (number : Nat) :
    InLines (renderFrom number r) (r.pointLines number) := by
  induction r generalizing number with
  | nil => exact .nil
  | cons p r ih =>
    rw [List.forall_mem_cons] at h
    exact (p.inLines_render h.1 number).append (ih h.2 (number + 1))

theorem inLines_render (h : ∀ p ∈ r, '\n' ∉ p.stem.toList) : InLines r.render
    ("TAP version 14" :: ("1.." ++ toString r.length) ::
      (r.pointLines 1 ++ (r.kinds.map r.tallyLine ++ r.totalLines))) := by
  have hpoints := inLines_renderFrom h 1
  have htallies : InLines (String.join (r.kinds.map r.tally)) (r.kinds.map r.tallyLine) :=
    .join (fun _ => rfl) fun k _ => by simp [tallyLine, k.newline_of_name]
  have hcount (start : String) (n : Nat) (h : '\n' ∉ start.toList) :
    InLines (start ++ toString n ++ "\n") [start ++ toString n] :=
    .line (by simp [h]) rfl
  refine ((InLines.line (l := "TAP version 14") (by decide) rfl).append ((hcount "1.." r.length (by decide)).append
    (hpoints.append (htallies.append ((hcount "# tests " r.length (by decide)).append
      ((hcount "# pass  " (r.length - r.failed) (by decide)).append
        (hcount "# fail  " r.failed (by decide)))))))).of_eq ?_
  change "TAP version 14" ++ "\n" ++ "1.." ++ toString r.length ++ "\n" ++ renderFrom 1 r ++
    String.join (r.kinds.map r.tally) ++ "# tests " ++ toString r.length ++ ("\n" ++ "# pass  ") ++
    toString (r.length - r.failed) ++ ("\n" ++ "# fail  ") ++ toString r.failed ++ "\n" = _
  simp only [String.append_assoc]

/-! ## Lines that look like results -/

/-- Whether the line starts like the result of a point. -/
def isResult (line : String) : Bool :=
  "ok ".toList.isPrefixOf line.toList || "not ok ".toList.isPrefixOf line.toList

theorem isResult_append (h : isResult l = true) (rest : String) : isResult (l ++ rest) = true := by
  simp only [isResult, Bool.or_eq_true, List.isPrefixOf_iff_prefix, String.toList_append] at *
  exact h.imp (·.trans (List.prefix_append _ _)) (·.trans (List.prefix_append _ _))

theorem isResult_resultLine (p : Point) (number : Nat) : isResult (p.resultLine number) = true := by
  have hstart : isResult (if p.failure.isNone then "ok " else "not ok ") = true := by split <;> decide
  exact isResult_append (isResult_append (isResult_append hstart _) _) _

/-- The first character tells that a line is no result. -/
theorem not_isResult {c : Char} (h : l.toList.head? = some c) (hc : c ∉ ['o', 'n'])
    (rest : String) : isResult (l ++ rest) = false := by
  obtain ⟨cs, hcs⟩ := List.head?_eq_some_iff.1 h
  have hne : 'o' ≠ c ∧ 'n' ≠ c := by simpa [eq_comm] using hc
  have hoff (d : Char) (hd : d ≠ c) (ds es : List Char) : (d :: ds).isPrefixOf (c :: es) = false := by
    simp [List.isPrefixOf, hd]
  rw [isResult, String.toList_append, hcs]
  exact Bool.or_eq_false_iff.2 ⟨hoff 'o' hne.1 _ _, hoff 'n' hne.2 _ _⟩

theorem filter_blockLines (p : Point) : p.blockLines.filter isResult = [] := by
  refine List.filter_eq_nil_iff.2 fun l hl => ?_
  rw [Bool.not_eq_true]
  obtain ⟨kind, stem, _ | reason⟩ := p
  · cases hl
  simp only [Point.blockLines, List.mem_cons, List.mem_append, List.mem_map, List.not_mem_nil, or_false] at hl
  rcases hl with rfl | rfl | rfl | ⟨m, -, rfl⟩ | rfl
  · decide
  · exact not_isResult (c := ' ') (by decide) (by decide) _
  · decide
  · exact not_isResult (c := ' ') (by decide) (by decide) _
  · decide

theorem filter_pointLines (r : Report) (number : Nat) :
    (r.pointLines number).filter isResult = (r.zipIdx number).map fun p => p.1.resultLine p.2 := by
  induction r generalizing number with
  | nil => rfl
  | cons p r ih =>
    have hrest := ih (number + 1)
    rw [pointLines] at hrest ⊢
    simp only [List.zipIdx_cons, List.flatMap_cons, List.map_cons, List.cons_append, List.filter_cons,
      List.filter_append, isResult_resultLine, filter_blockLines, hrest, List.nil_append, if_true]

theorem filter_tallies (r : Report) : (r.kinds.map r.tallyLine ++ r.totalLines).filter isResult = [] := by
  refine List.filter_eq_nil_iff.2 fun l hl => ?_
  rw [Bool.not_eq_true]
  simp only [totalLines, List.mem_append, List.mem_map, List.mem_cons, List.not_mem_nil, or_false] at hl
  rcases hl with ⟨k, -, rfl⟩ | rfl | rfl | rfl
  · rw [tallyLine]
    simp only [String.append_assoc]
    exact not_isResult (c := '#') (by decide) (by decide) _
  all_goals exact not_isResult (c := '#') (by decide) (by decide) _

end Report

/-- Whatever the failures say, the lines of a report that start like results are one for each point,
in order, with its number and whether it failed. The second line gives the number of points. At the
end there is a tally for each kind that occurs, in order, and behind them the overall counts, to
which the tallies sum up. -/
theorem report_says_what_was_checked (r : Report) (h : ∀ p ∈ r, '\n' ∉ p.stem.toList) :
    let ls := (r.render.toList.splitOn '\n').map String.ofList
    let points (k : PointKind) := r.filter (·.kind = k)
    ls.filter Report.isResult = (r.zipIdx 1).map (fun p => (if p.1.failure.isNone then "ok "
      else "not ok ") ++ toString p.2 ++ " - " ++ p.1.kind.pointName p.1.stem) ∧
    (∃ body, ls = "TAP version 14" :: ("1.." ++ toString r.length) :: (body ++ (r.kinds.map (fun k =>
        "# " ++ k.name ++ " " ++ toString ((points k).countP (·.failure.isNone)) ++ "/" ++
          toString (points k).length) ++
      ["# tests " ++ toString r.length, "# pass  " ++ toString (r.length - r.failed), "# fail  " ++
        toString r.failed]) ++
      [""])) ∧
    r.kinds.Pairwise (·.rank < ·.rank) ∧ (∀ k, k ∈ r.kinds ↔ ∃ p ∈ r, p.kind = k) ∧
    (r.kinds.map fun k => (points k).countP (·.failure.isNone)).sum = r.length - r.failed ∧
    (r.kinds.map fun k => (points k).length).sum = r.length := by
  intro ls points
  have hls : ls = "TAP version 14" :: ("1.." ++ toString r.length) ::
      (r.pointLines 1 ++ (r.kinds.map r.tallyLine ++ r.totalLines) ++ [""]) := by
    simp only [ls, (Report.inLines_render h).splitOn, List.map_append, List.map_map,
      Function.comp_def, String.ofList_toList, List.map_id', List.cons_append, List.append_assoc]
    rfl
  refine ⟨?_, ⟨_, hls⟩, r.pairwise_kinds, fun _ => Report.mem_kinds, ?_, ?_⟩
  · have hplan : Report.isResult ("1.." ++ toString r.length) = false :=
      Report.not_isResult (c := '1') (by decide) (by decide) _
    have hlast : [""].filter Report.isResult = [] := by decide
    rw [hls, List.filter_cons_of_neg (by decide), List.filter_cons_of_neg (by rw [hplan]; decide),
      List.filter_append,
      List.filter_append, Report.filter_pointLines, Report.filter_tallies, hlast, List.append_nil, List.append_nil]
    rfl
  · have hsplit : r.length = r.countP (·.passed) + r.failed := by
      simpa [Report.failed] using List.length_eq_countP_add_countP (l := r) (·.passed)
    exact (r.sum_kinds _).trans (by rw [hsplit]; exact (Nat.add_sub_cancel _ _).symm)
  · simpa using r.sum_kinds fun _ => true

/-- A failure whose text looks like results. -/
def forgedReport : Report :=
  [⟨.output, "a", some "ok 2 - forged\nnot ok 3"⟩, ⟨.lowered, "a", none⟩]

theorem report_says_what_was_checked_of_forgedReport :
    ((forgedReport.render.toList.splitOn '\n').map String.ofList).filter Report.isResult =
      ["not ok 1 - positive/a (output)", "ok 2 - positive/a"] :=
  (report_says_what_was_checked forgedReport (by decide)).1.trans (by decide)

end RaiseScript
