import RaiseScript.Proofs.Tagged
import RaiseScript.Proofs.Relexed

/-!
# A text is its tokens and the gaps between them

A step over a text passes a blank or a comment (`Token.next_skipped`) or the characters of a token,
and those characters alone are read as the same token (`Token.next_read`). So a text that is read is
taken apart into gaps and tokens, and nothing is left over (`Tiled`). The line of a token goes up
with the line ends in the gaps. A line end in a string literal is not counted.
-/

namespace RaiseScript

variable {text whole fraction cs rest s gap : List Char} {n passed : Nat} {c : Char} {p r q : Place}
  {t : Token}

/-! ## Gaps -/

/-- A blank or a comment, and the characters behind it. A comment that starts with `//` ends where
its line does. -/
inductive Filler : List Char → List Char → Prop
  | blank {c : Char} {rest : List Char} : isBlank c = true → Filler [c] rest
  | line {body rest : List Char} : '\n' ∉ body → rest = [] ∨ rest.head? = some '\n' →
    Filler ('/' :: '/' :: body) rest
  | block {body rest : List Char} : ¬['*', '/'] <:+: body → Filler ('/' :: '*' :: (body ++ ['*', '/'])) rest

/-- White space and whole comments, and the characters behind them. -/
inductive Gap : List Char → List Char → Prop
  | nil {rest : List Char} : Gap [] rest
  | cons {text gap rest : List Char} : Filler text (gap ++ rest) → Gap gap rest → Gap (text ++ gap) rest

/-- The text stands between the two places. -/
structure Place.Passes (p : Place) (text : List Char) (q : Place) : Prop where
  ahead : p.ahead = text ++ q.ahead
  position : q.position = p.position + text.length

namespace Place.Passes

variable {text' : List Char}

theorem refl (p : Place) : p.Passes [] p :=
  ⟨rfl, rfl⟩

theorem position_le (h : p.Passes text q) : p.position ≤ q.position :=
  h.position ▸ Nat.le_add_right ..

theorem trans (h : p.Passes text q) (h' : q.Passes text' r) : p.Passes (text ++ text') r := by
  refine ⟨?_, ?_⟩
  · rw [h.ahead, h'.ahead, List.append_assoc]
  · rw [h'.position, h.position, List.length_append, Nat.add_assoc]

end Place.Passes

/-! ## Steps -/

theorem Notated.length (h : Notated text whole fraction) :
    text.length = whole.length + if fraction.isEmpty then 0 else fraction.length + 1 := by
  rw [h.chars, List.length_append]
  split <;> rfl

namespace Token

theorem skipComment_some {k lines : Nat} (h : skipComment cs n k = some (rest, passed, lines)) :
    ∃ body, cs = body ++ '*' :: '/' :: rest ∧ ¬['*', '/'] <:+: body ∧ passed = n + body.length + 2 ∧
      lines = k + body.count '\n' := by
  fun_induction skipComment cs n k with
  | case1 => cases h
  | case2 cs n k =>
    cases h
    exact ⟨[], rfl, by simp, rfl, rfl⟩
  | case3 c cs n k hopen ih =>
    obtain ⟨body, rfl, hbody, rfl, rfl⟩ := ih h
    refine ⟨c :: body, rfl, fun hinfix => ?_, ?_, ?_⟩
    · obtain ⟨zs, hzs⟩ | hinfix := List.infix_cons_iff.1 hinfix
      · obtain ⟨rfl, rfl⟩ := List.cons.inj hzs
        exact hopen _ rfl rfl
      · exact hbody hinfix
    · rw [List.length_cons]
      omega
    · rw [List.count_cons]
      simp only [beq_iff_eq]
      split <;> omega

theorem readString_ok {quote : Char} (h : readString quote cs n = .ok (s, rest, passed)) :
    ∃ text, cs = text ++ rest ∧ passed = n + text.length ∧ ('\n' ∈ text → '\n' ∈ s) ∧
      ∀ k, readString quote text k = .ok (s, [], k + text.length) := by
  fun_induction readString quote cs n generalizing s rest passed with
  | case1 => cases h
  | case2 => cases h
  | case3 c cs hline =>
    cases h
    refine ⟨[quote], rfl, rfl, fun hmem => ?_, fun k => ?_⟩
    · exact absurd (List.mem_singleton.1 hmem).symm hline
    · rw [readString.eq_def]
      simp [hline]
  | case4 => cases h
  | case5 n e cs hline hquote ih =>
    cases hr : readString quote cs (n + 2) with
    | error e => rw [hr] at h; cases h
    | ok r =>
      obtain ⟨s', rest', passed'⟩ := r
      rw [hr] at h
      cases h
      obtain ⟨text, rfl, rfl, hmem, halone⟩ := ih hr
      refine ⟨'\\' :: e :: text, rfl, ?_, fun h => ?_, fun k => ?_⟩
      · simp only [List.length_cons]
        omega
      · simp only [List.mem_cons] at h ⊢
        rcases h with h | rfl | h
        · cases h
        · exact .inl rfl
        · exact .inr (hmem h)
      · rw [readString.eq_def]
        simp only [hline, hquote, if_false, if_true, halone]
        simp only [Except.map, List.length_cons]
        rw [Nat.add_assoc, Nat.add_comm 2]
  | case6 c cs n hline hquote hslash ih =>
    cases hr : readString quote cs (n + 1) with
    | error e => rw [hr] at h; cases h
    | ok r =>
      obtain ⟨s', rest', passed'⟩ := r
      rw [hr] at h
      cases h
      obtain ⟨text, rfl, rfl, hmem, halone⟩ := ih hr
      refine ⟨c :: text, rfl, ?_, fun h => ?_, fun k => ?_⟩
      · simp only [List.length_cons]
        omega
      · simp only [List.mem_cons] at h ⊢
        exact h.imp id hmem
      · rw [readString.eq_def]
        simp only [hline, hquote, hslash, if_false, halone]
        simp only [Except.map, List.length_cons]
        rw [Nat.add_assoc, Nat.add_comm 1]

theorem readNumber_notated (hc : c.isDigit = true) (h : readNumber (c :: cs) = (whole, fraction, rest)) :
    ∃ text, c :: cs = text ++ rest ∧ Notated text whole fraction := by
  have hsplit := List.takeWhile_append_dropWhile (p := Char.isDigit) (l := c :: cs)
  have hne : (c :: cs).takeWhile Char.isDigit ≠ [] := by
    rw [List.takeWhile_cons, if_pos hc]
    exact List.cons_ne_nil _ _
  have hdigits (ds : List Char) : ∀ d ∈ ds.takeWhile Char.isDigit, d.isDigit = true :=
    fun d => List.mem_takeWhile_imp
  unfold readNumber at h
  split at h
  · next d ds hdrop =>
    split at h
    · next hd =>
      cases h
      refine ⟨_, ?_, rfl, hne, List.forall_mem_append.2 ⟨hdigits _, hdigits _⟩⟩
      rw [if_neg (by simp [hd]), List.append_assoc, List.cons_append,
        List.takeWhile_append_dropWhile, ← hdrop, hsplit]
    · cases h
      exact ⟨_, by rw [List.isEmpty_nil, if_pos rfl, List.append_nil, ← hdrop, hsplit], rfl, hne,
        by simpa using hdigits _⟩
  · cases h
    exact ⟨_, by rw [List.isEmpty_nil, if_pos rfl, List.append_nil, hsplit], rfl, hne, by simpa using hdigits _⟩

theorem readMark?_some {m : Mark} (h : readMark? cs = some (m, rest)) : cs = m.text ++ rest := by
  obtain ⟨m', hfind, heq⟩ := Option.map_eq_some_iff.1 h
  cases heq
  have hprefix : m.text <+: cs := List.isPrefixOf_iff_prefix.1 (List.find?_some hfind :)
  obtain ⟨zs, rfl⟩ := hprefix
  rw [List.drop_left]

/-- A step over a blank or a comment counts its line ends. -/
theorem next_skipped (h : next p = .skipped r) :
    ∃ text, p.Passes text r ∧ Filler text r.ahead ∧ r.line = p.line + text.count '\n' := by
  unfold next at h
  split at h
  · cases h
  · next cs hp =>
    cases h
    have hsplit := List.takeWhile_append_dropWhile (p := fun c => decide (c ≠ '\n')) (l := cs)
    have hbody : '\n' ∉ cs.takeWhile fun c => decide (c ≠ '\n') := fun hmem => by
      simpa using List.mem_takeWhile_imp hmem
    refine ⟨'/' :: '/' :: cs.takeWhile fun c => decide (c ≠ '\n'), ⟨?_, ?_⟩, .line hbody ?_, ?_⟩
    · rw [hp, List.cons_append, List.cons_append, hsplit]
    · simp only [List.length_cons]
      omega
    · cases hdrop : cs.dropWhile fun c => decide (c ≠ '\n') with
      | nil => exact .inl rfl
      | cons c rest =>
        have := List.head?_dropWhile_not (fun c => decide (c ≠ '\n')) cs
        rw [hdrop] at this
        exact .inr (by simpa using this)
    · rw [List.count_cons, List.count_cons, List.count_eq_zero_of_not_mem hbody]
      rfl
  · next cs hp =>
    split at h
    · next rest passed lines hs =>
      cases h
      obtain ⟨body, rfl, hbody, rfl, rfl⟩ := skipComment_some hs
      refine ⟨'/' :: '*' :: (body ++ ['*', '/']), ⟨by simp [hp], ?_⟩, .block hbody, ?_⟩
      · simp only [List.length_cons, List.length_append, List.length_nil]
        omega
      · simp
    · cases h
  · next c cs _ _ hp =>
    split at h
    · next hblank =>
      cases h
      refine ⟨[c], ⟨by simp [hp], rfl⟩, .blank hblank, ?_⟩
      simp only [List.count_singleton, beq_iff_eq]
      split <;> rfl
    · split at h
      · split at h <;> cases h
      · split at h
        · cases h
        · split at h
          · cases h
          · split at h <;> cases h

/-- The characters of a token, read alone, give the token. Line ends are only in string literals. -/
structure Spells (text : List Char) (t : Token) : Prop where
  nonempty : text ≠ []
  notFinish : t.isFinish = false
  lines : '\n' ∈ text → ∃ s, t = .string s ∧ '\n' ∈ s.toList
  alone : ∀ k l, next ⟨text, k, l⟩ = .read t ⟨[], k + text.length, l⟩

theorem newline_of_digits {ds : List Char} (h : ∀ d ∈ ds, d.isDigit = true) : '\n' ∉ ds :=
  fun hmem => absurd (h _ hmem) (by decide)

theorem spells_string (hc : c = '"' ∨ c = '\'') (hlines : '\n' ∈ text → '\n' ∈ s)
    (h : ∀ k, readString c text k = .ok (s, [], k + text.length)) :
    Spells (c :: text) (.string (String.ofList s)) where
  nonempty := List.cons_ne_nil _ _
  notFinish := rfl
  lines hmem := by
    refine ⟨_, rfl, ?_⟩
    obtain rfl | hmem := List.mem_cons.1 hmem
    · simp at hc
    · simpa using hlines hmem
  alone k l := by
    rw [next_quote hc (h 1), List.length_cons, Nat.add_comm 1]

theorem spells_number (h : Notated text whole fraction) :
    Spells text (.number ((Decimal.ofDigits whole fraction).toFloat false)) := by
  have hlength := h.length
  obtain ⟨htext, hne, hdigits⟩ := h
  have hread : readNumber (text ++ []) = (whole, fraction, []) :=
    readNumber_of_notated ⟨htext, hne, hdigits⟩ trivial
  obtain ⟨c, ds, rfl⟩ := List.exists_cons_of_ne_nil hne
  have hc : c.isDigit = true := hdigits c (by simp)
  have hnewline := newline_of_digits hdigits
  refine ⟨by simp [htext], rfl, fun hmem => ?_, fun k l => ?_⟩
  · rw [htext] at hmem
    cases fraction <;> simp_all
  · rw [htext] at hread ⊢
    rw [List.append_nil, List.cons_append] at hread
    rw [List.cons_append, next_digit hc hread]
    rw [← hlength, htext, List.cons_append]

theorem spells_word (hc : isWordStart c = true) :
    Spells ((c :: cs).takeWhile isWordPart) (.word (String.ofList ((c :: cs).takeWhile isWordPart))) := by
  have hpart : ∀ d ∈ (c :: cs).takeWhile isWordPart, isWordPart d = true := fun d => List.mem_takeWhile_imp
  have hcons : (c :: cs).takeWhile isWordPart = c :: cs.takeWhile isWordPart := by
    rw [List.takeWhile_cons, if_pos (isWordPart_of_isWordStart hc)]
  rw [hcons] at hpart ⊢
  refine ⟨List.cons_ne_nil _ _, rfl, fun hmem => absurd (hpart _ hmem) (by decide), fun k l => ?_⟩
  rw [next_wordStart hc, List.takeWhile_eq_self_iff.2 hpart, List.dropWhile_eq_nil_iff.2 hpart]

theorem spells_mark (m : Mark) : Spells m.text (.mark m) where
  nonempty := List.length_pos_iff.1 (length_text_pos m)
  notFinish := rfl
  lines hmem := by
    have hnone : '\n' ∉ m.text := by cases m <;> decide
    exact absurd hmem hnone
  alone k l := by
    have halone : next ⟨m.text ++ [], k, l⟩ = .read (.mark m) ⟨[], k + m.text.length, l⟩ := next_of_mark m trivial
    rwa [List.append_nil] at halone

/-- A step that reads a token passes its characters. -/
theorem next_read (h : next p = .read t r) : ∃ text, p.Passes text r ∧ Spells text t ∧ r.line = p.line := by
  unfold next at h
  split at h
  · cases h
  · cases h
  · split at h <;> cases h
  · next c cs _ _ hp =>
    split at h
    · cases h
    · split at h
      · next hquote =>
        split at h
        · next s rest passed hs =>
          cases h
          obtain ⟨text, rfl, rfl, hlines, halone⟩ := readString_ok hs
          exact ⟨c :: text, ⟨hp, by rw [List.length_cons, Nat.add_comm 1]⟩,
            spells_string hquote hlines halone, rfl⟩
        · cases h
      · split at h
        · next hdigit =>
          rcases hread : readNumber (c :: cs) with ⟨whole, fraction, rest⟩
          rw [hread] at h
          cases h
          obtain ⟨text, htext, hnotated⟩ := readNumber_notated hdigit hread
          exact ⟨text, ⟨hp.trans htext, by rw [hnotated.length]⟩, spells_number hnotated, rfl⟩
        · split at h
          · next hword =>
            cases h
            exact ⟨_, ⟨by rw [hp, List.takeWhile_append_dropWhile], rfl⟩, spells_word hword, rfl⟩
          · split at h
            · next m rest hm =>
              cases h
              exact ⟨m.text, ⟨hp.trans (readMark?_some hm), rfl⟩, spells_mark m, rfl⟩
            · cases h

theorem next_finished (h : next p = .finished) : p.ahead = [] := by
  unfold next at h
  split at h
  · assumption
  · cases h
  · split at h <;> cases h
  · split at h
    · cases h
    · split at h
      · split at h <;> cases h
      · split at h
        · cases h
        · split at h
          · cases h
          · split at h <;> cases h

end Token

/-! ## Texts -/

/-- A gap stands between the two places. -/
structure Place.Skips (p : Place) (gap : List Char) (q : Place) : Prop extends p.Passes gap q where
  isGap : Gap gap q.ahead
  line : q.line = p.line + gap.count '\n'

/-- A token stands between the two places. -/
structure Place.Reads (p : Place) (text : List Char) (t : Token) (q : Place) : Prop extends p.Passes text q where
  step : Token.next p = .read t q
  spells : Token.Spells text t
  line : q.line = p.line

theorem Place.Skips.step (hstep : Token.next p = .skipped r) (h : r.Skips gap q) :
    ∃ text, p.Skips (text ++ gap) q := by
  obtain ⟨text, hpasses, hfiller, hline⟩ := Token.next_skipped hstep
  refine ⟨text, hpasses.trans h.toPasses, .cons (h.ahead ▸ hfiller) h.isGap, ?_⟩
  rw [h.line, hline, List.count_append, Nat.add_assoc]

/-- The text from a place on is made of gaps and of the tokens of the lexemes. -/
inductive Tiled : Place → List Lexeme → Prop
  | finish {p q : Place} {gap : List Char} : p.Skips gap q → q.ahead = [] →
    Tiled p [⟨.finish, ⟨q.position, q.position, q.line⟩⟩]
  | token {p q r : Place} {gap text : List Char} {t : Token} {ls : List Lexeme} : p.Skips gap q →
    q.Reads text t r → Tiled r ls → Tiled p (⟨t, ⟨q.position, r.position, q.line⟩⟩ :: ls)

theorem tiled_of_lexFrom {ls : List Lexeme} (h : lexFrom p = .ok ls) : Tiled p ls := by
  have hnone (p : Place) : p.Skips [] p := ⟨.refl p, .nil, rfl⟩
  fun_induction lexFrom p generalizing ls with
  | case1 p hp =>
    cases h
    exact .finish (hnone p) (Token.next_finished hp)
  | case2 p rest hp _ ih =>
    cases ih h with
    | finish hskips hend =>
      obtain ⟨text, hskips⟩ := hskips.step hp
      exact .finish hskips hend
    | token hskips hreads hlater =>
      obtain ⟨text, hskips⟩ := hskips.step hp
      exact .token hskips hreads hlater
  | case3 p token rest hp _ later hlater ih =>
    cases h
    obtain ⟨text, hpasses, hspells, hline⟩ := Token.next_read hp
    exact .token (hnone p) ⟨hpasses, hp, hspells, hline⟩ (ih hlater)
  | case4 => cases h
  | case5 => cases h

/-- In the whole text the place stands behind the given beginning. -/
abbrev Place.Behind (p : Place) (cs before : List Char) : Prop :=
  (⟨cs, 0, 1⟩ : Place).Passes before p

namespace Place.Passes

variable {before : List Char}

theorem eq_append (hp : p.Behind cs before) : cs = before ++ p.ahead :=
  hp.ahead

theorem take_position (hp : p.Behind cs before) : cs.take p.position = before := by
  rw [hp.position, Nat.zero_add, hp.eq_append, List.take_left]

theorem drop_position (hp : p.Behind cs before) : cs.drop p.position = p.ahead := by
  rw [hp.position, Nat.zero_add, hp.eq_append, List.drop_left]

theorem extract_eq (hp : p.Behind cs before) (h : p.Passes text q) : cs.extract p.position q.position = text := by
  rw [List.extract_eq_take_drop, hp.drop_position, h.position, h.ahead, Nat.add_sub_cancel_left, List.take_left]

end Place.Passes

/-- In the text the lexeme is read where its place says. -/
def Lexeme.ReadIn (l : Lexeme) (cs : List Char) : Prop :=
  ∃ (before text : List Char) (q r : Place), q.Behind cs before ∧ q.Reads text l.token r ∧ l.span =
    ⟨q.position, r.position, q.line⟩

/-- Only a gap stands between the two places in the text. -/
def Span.Before (cs : List Char) (s t : Span) : Prop :=
  s.stop ≤ t.start ∧ Gap (cs.extract s.stop t.start) (cs.drop t.start)

theorem Place.Skips.spanBefore {before : List Char} (hp : p.Behind cs before) (h : p.Skips gap q)
    {s t : Span} (hs : s.stop = p.position) (ht : t.start = q.position) : s.Before cs t := by
  refine ⟨?_, ?_⟩
  · rw [hs, ht]
    exact h.position_le
  · rw [hs, ht, hp.extract_eq h.toPasses, (hp.trans h.toPasses).drop_position]
    exact h.isGap

namespace Tiled

variable {before : List Char} {ls : List Lexeme}

/-- There are tokens, and behind them the end of the text. -/
theorem tokens (h : Tiled p ls) (hp : p.Behind cs before) :
    ∃ ts line, ls = ts ++ [⟨.finish, ⟨cs.length, cs.length, line⟩⟩] ∧ ∀ l ∈ ts, l.ReadIn cs := by
  induction h generalizing before with
  | @finish p q gap hskips hend =>
    have hq := hp.trans hskips.toPasses
    have hlength : q.position = cs.length := by
      rw [hq.position, hq.eq_append, hend, List.append_nil, Nat.zero_add]
    exact ⟨[], q.line, by rw [hlength]; rfl, nofun⟩
  | token hskips hreads _ ih =>
    have hq := hp.trans hskips.toPasses
    obtain ⟨ts, line, rfl, hts⟩ := ih (hq.trans hreads.toPasses)
    exact ⟨_ :: ts, line, rfl, List.forall_mem_cons.2 ⟨⟨_, _, _, _, hq, hreads, rfl⟩, hts⟩⟩

/-- There are only gaps before the tokens, between them and behind them. -/
theorem chain (h : Tiled p ls) (hp : p.Behind cs before) {s : Span} (hs : s.stop = p.position) :
    (s :: ls.map (·.span)).IsChain (Span.Before cs) := by
  induction h generalizing before s with
  | finish hskips _ =>
    rw [List.map_singleton, List.isChain_cons_cons]
    exact ⟨hskips.spanBefore hp hs rfl, .singleton _⟩
  | token hskips hreads _ ih =>
    rw [List.map_cons, List.isChain_cons_cons]
    exact ⟨hskips.spanBefore hp hs rfl, ih ((hp.trans hskips.toPasses).trans hreads.toPasses) rfl⟩

/-- The lexemes stand apart and in order. -/
theorem pairwise (h : Tiled p ls) :
    (∀ l ∈ ls, p.position ≤ l.span.start) ∧ ls.Pairwise fun k l => k.span.stop ≤ l.span.start := by
  induction h with
  | finish hskips _ =>
    refine ⟨fun l hl => ?_, List.pairwise_singleton ..⟩
    obtain rfl := List.mem_singleton.1 hl
    exact hskips.position_le
  | token hskips hreads _ ih =>
    have hle := hskips.position_le
    have hle' := hreads.position_le
    exact ⟨List.forall_mem_cons.2
      ⟨hle, fun l hl => Nat.le_trans hle (Nat.le_trans hle' (ih.1 l hl))⟩, List.pairwise_cons.2 ih⟩

/-- The line of a lexeme goes up with the line ends that stand outside of tokens. -/
theorem line (h : Tiled p ls) (hp : p.Behind cs before) {ts later : List Lexeme} {l : Lexeme}
    (hls : ls = ts ++ l :: later) :
    l.span.line + (ts.map fun k => (cs.extract k.span.start k.span.stop).count '\n').sum +
      before.count '\n' = p.line + (cs.take l.span.start).count '\n' := by
  induction h generalizing before ts with
  | @finish p q gap hskips _ =>
    have htake := (hp.trans hskips.toPasses).take_position
    cases ts with
    | nil =>
      cases hls
      simp only [List.map_nil, List.sum_nil, hskips.line, htake, List.count_append]
      omega
    | cons k ts => simp at hls
  | @token p q r gap text t ls hskips hreads _ ih =>
    have hq := hp.trans hskips.toPasses
    cases ts with
    | nil =>
      cases hls
      simp only [List.map_nil, List.sum_nil, hskips.line, hq.take_position, List.count_append]
      omega
    | cons k ts =>
      obtain ⟨rfl, rfl⟩ := List.cons.inj hls
      have hlater := ih (hq.trans hreads.toPasses) rfl
      simp only [List.map_cons, List.sum_cons, hq.extract_eq hreads.toPasses,
        hreads.line, hskips.line, List.count_append] at hlater ⊢
      omega

end Tiled

namespace Lexeme.ReadIn

variable {l : Lexeme}

theorem start_lt (h : l.ReadIn cs) : l.span.start < l.span.stop := by
  obtain ⟨before, text, q, r, -, hreads, hspan⟩ := h
  have hpos := List.length_pos_iff.2 hreads.spells.nonempty
  rw [hspan, hreads.position]
  exact Nat.lt_add_of_pos_right hpos

theorem stop_le (h : l.ReadIn cs) : l.span.stop ≤ cs.length := by
  obtain ⟨before, text, q, r, hq, hreads, hspan⟩ := h
  have hr := hq.trans hreads.toPasses
  have hle : r.position ≤ (before ++ text ++ r.ahead).length := by
    rw [hr.position, Nat.zero_add]
    exact (List.sublist_append_left ..).length_le
  rwa [hspan, hr.eq_append]

theorem spells (h : l.ReadIn cs) : Token.Spells (cs.extract l.span.start l.span.stop) l.token := by
  obtain ⟨before, text, q, r, hq, hreads, hspan⟩ := h
  rw [hspan, hq.extract_eq hreads.toPasses]
  exact hreads.spells

end Lexeme.ReadIn

/-! ## Places of 32 bits -/

/-- What a place of 32 bits holds is below this number. -/
def Span.bound : Nat :=
  2 ^ 32

/-- The place can be noted in 32 bits for each of its parts. -/
def Span.Fits (s : Span) : Prop :=
  s.start < bound ∧ s.stop < bound ∧ s.line < bound

/-- No place goes beyond the text, and no line is more than one beyond the place. -/
theorem within_of_lex {source file : String} {ls : List Lexeme} (h : lex source file = .ok ls) :
    ∀ l ∈ ls, l.span.start ≤ l.span.stop ∧ l.span.stop ≤ source.toList.length ∧
      l.span.line ≤ l.span.start + 1 := by
  intro l hl
  have htiled := tiled_of_lexFrom (lex_eq_ok.1 h)
  have hline : l.span.line ≤ l.span.start + 1 := by
    obtain ⟨ts, later, hls⟩ := List.append_of_mem hl
    have hcount := htiled.line (.refl _) hls
    have hle := (List.count_le_length (a := '\n') (l := source.toList.take l.span.start)).trans
      (List.length_take_le ..)
    simp only [List.count_nil] at hcount
    omega
  obtain ⟨ts, line, rfl, hts⟩ := htiled.tokens (.refl _)
  obtain hl | hl := List.mem_append.1 hl
  · exact ⟨Nat.le_of_lt (hts l hl).start_lt, (hts l hl).stop_le, hline⟩
  · obtain rfl := List.mem_singleton.1 hl
    exact ⟨Nat.le_refl _, Nat.le_refl _, hline⟩

/-- In a text that is short enough all places can be noted. The end of a text of line ends only
stands in a line that is one beyond its length. -/
theorem spanFits_of_lex {source file : String} {ls : List Lexeme} (h : lex source file = .ok ls)
    (hlength : source.toList.length + 1 < Span.bound) : ∀ l ∈ ls, l.span.Fits := by
  intro l hl
  have hwithin := within_of_lex h l hl
  exact ⟨by omega, by omega, by omega⟩

theorem Token.Spells.lex (h : Spells text t) (file : String) : lex (String.ofList text) file =
      .ok [⟨t, ⟨0, text.length, 1⟩⟩, ⟨.finish, ⟨text.length, text.length, 1⟩⟩] := by
  rw [lex_eq_ok, String.toList_ofList, lexFrom_read (h.alone 0 1) (lexFrom_nil ..), Nat.zero_add]

/-- Nothing is lost in reading a text. The tokens stand in it in order, each as long as its place
says, with only white space and whole comments before, between and behind them, and the text of a
token alone is read as that token. -/
theorem lexing_loses_nothing {source file : String} {ls : List Lexeme} (h : lex source file = .ok ls) :
    let cs := source.toList
    (ls.Pairwise fun k l => k.span.stop ≤ l.span.start) ∧
    (⟨0, 0, 1⟩ :: ls.map (·.span)).IsChain (Span.Before cs) ∧
    ∃ ts line, ls = ts ++ [⟨.finish, ⟨cs.length, cs.length, line⟩⟩] ∧ ∀ l ∈ ts,
      l.token.isFinish = false ∧ l.span.start < l.span.stop ∧
      let text := cs.extract l.span.start l.span.stop
      ∀ name, lex (String.ofList text) name =
        .ok [⟨l.token, ⟨0, text.length, 1⟩⟩, ⟨.finish, ⟨text.length, text.length, 1⟩⟩] := by
  have htiled := tiled_of_lexFrom (lex_eq_ok.1 h)
  obtain ⟨ts, line, hls, hts⟩ := htiled.tokens (.refl _)
  refine ⟨htiled.pairwise.2, htiled.chain (.refl _) rfl, ts, line, hls, fun l hl => ?_⟩
  have hspells := (hts l hl).spells
  exact ⟨hspells.notFinish, (hts l hl).start_lt, hspells.lex⟩

/-- Comments of both kinds, a mark that another mark begins, and a string literal with a line
end. -/
def packedText : String :=
  "x/* = **/== '\\\n' // end"

theorem lexing_loses_nothing_of_packedText :
    ∃ ls, lex packedText "main.js" = .ok ls ∧ ls.map (·.span) = [⟨0, 1, 1⟩, ⟨9, 11, 1⟩, ⟨12, 16, 1⟩,
      ⟨23, 23, 1⟩] ∧ (⟨0, 0, 1⟩ :: ls.map (·.span)).IsChain (Span.Before packedText.toList) ∧
      ∃ ts line, ls = ts ++ [⟨.finish, ⟨23, 23, line⟩⟩] ∧ ∀ l ∈ ts, l.token.isFinish = false := by
  have hlook : ((lex packedText "main.js").toOption.any fun ls =>
      decide (ls.map (·.span) = [⟨0, 1, 1⟩, ⟨9, 11, 1⟩, ⟨12, 16, 1⟩, ⟨23, 23, 1⟩])) = true := by decide +kernel
  obtain ⟨ls, hls, hspans⟩ := Except.exists_of_any hlook
  obtain ⟨-, hchain, ts, line, hts, htokens⟩ := lexing_loses_nothing hls
  exact ⟨ls, hls, of_decide_eq_true hspans, hchain, ts, line, hts, fun l hl => (htokens l hl).1⟩

/-- The line of a token is one more than the number of line ends that stand before it and outside of
tokens, and can be noted in 32 bits. The only tokens with line ends in them are string literals with
line ends in their values. -/
theorem line_counts_gaps {source file : String} {ts later : List Lexeme} {l : Lexeme}
    (hlength : source.toList.length + 1 < Span.bound) (h : lex source file = .ok (ts ++ l :: later)) :
    let text (k : Lexeme) := source.toList.extract k.span.start k.span.stop
    l.span.Fits ∧
    l.span.line + (ts.map fun k => (text k).count '\n').sum = 1 + (source.toList.take l.span.start).count '\n' ∧
    ∀ k ∈ ts, '\n' ∈ text k → ∃ s, k.token = .string s ∧ '\n' ∈ s.toList := by
  have htiled := tiled_of_lexFrom (lex_eq_ok.1 h)
  refine ⟨spanFits_of_lex h hlength l (by simp), htiled.line (.refl _) rfl, fun k hk => ?_⟩
  obtain ⟨us, line, hls, hus⟩ := htiled.tokens (.refl _)
  obtain hk | hk := List.mem_append.1 (hls ▸ List.mem_append_left (l :: later) hk)
  · exact (hus k hk).spells.lines
  · obtain rfl := List.mem_singleton.1 hk
    simp

/-- A string literal with a line end in it, and a name behind it. -/
def brokenString : String :=
  "'a\\\nb' x"

theorem line_counts_gaps_of_brokenString :
    ∃ s x e, lex brokenString "main.js" = .ok [s, x, e] ∧ [s, x, e].map (·.span) =
      [⟨0, 6, 1⟩, ⟨7, 8, 1⟩, ⟨8, 8, 1⟩] ∧
      x.span.line + (brokenString.toList.extract s.span.start s.span.stop).count '\n' =
        1 + (brokenString.toList.take x.span.start).count '\n' := by
  have hlook : ((lex brokenString "main.js").toOption.any fun ls =>
      decide (ls.map (·.span) = [⟨0, 6, 1⟩, ⟨7, 8, 1⟩, ⟨8, 8, 1⟩])) = true := by decide +kernel
  obtain ⟨ls, hls, hspans⟩ := Except.exists_of_any hlook
  have hspans := of_decide_eq_true hspans
  obtain ⟨s, ls, rfl, -, hrest⟩ := List.map_eq_cons_iff.1 hspans
  obtain ⟨x, ls, rfl, -, hrest⟩ := List.map_eq_cons_iff.1 hrest
  obtain ⟨e, ls, rfl, -, hrest⟩ := List.map_eq_cons_iff.1 hrest
  obtain rfl := List.map_eq_nil_iff.1 hrest
  have hls' : lex brokenString "main.js" = .ok ([s] ++ x :: [e]) := hls
  exact ⟨s, x, e, hls, hspans, (line_counts_gaps (by decide +kernel) hls').2.1⟩

/-- The line end in the literal is not counted for the name behind it. -/
theorem line_misses_brokenString :
    ∃ ls l, lex brokenString "main.js" = .ok ls ∧ l ∈ ls ∧
      l.span.line ≠ 1 + (brokenString.toList.take l.span.start).count '\n' := by
  have hlook : ((lex brokenString "main.js").toOption.any fun ls => ls.any fun l =>
      l.span.line != 1 + (brokenString.toList.take l.span.start).count '\n') = true := by decide +kernel
  obtain ⟨ls, hls, hlook⟩ := Except.exists_of_any hlook
  obtain ⟨l, hl, hne⟩ := List.any_eq_true.1 hlook
  exact ⟨ls, l, hls, hl, bne_iff_ne.1 hne⟩

end RaiseScript
