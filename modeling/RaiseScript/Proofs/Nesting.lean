import RaiseScript.Proofs.Reading
import RaiseScript.Proofs.Headway
import RaiseScript.Proofs.Tiling

/-!
# Places are nested

The nodes of a tree lie on the lexemes they were read from (`Laid`), and the lexemes of a text stand
apart and in order. So the place of a node starts with its first lexeme and does not go beyond its
last one, a node inside another has its place inside the place of the other, and the statements of a
list stand one behind the other.
-/

namespace RaiseScript

/-! ## Lexemes in order -/

/-- The lexemes stand apart and in order, and none is empty. -/
structure Ordered (ls : List Lexeme) : Prop where
  apart : ls.Pairwise fun k l => k.span.stop ≤ l.span.start
  long : ∀ l ∈ ls, l.span.start < l.span.stop

namespace Ordered

variable {ls ls' : List Lexeme} {k l : Lexeme}

theorem sublist (h : Ordered ls') (hsub : ls.Sublist ls') : Ordered ls :=
  ⟨h.apart.sublist hsub, fun l hl => h.long l (hsub.subset hl)⟩

theorem stop_le (h : Ordered (ls ++ ls')) (hk : k ∈ ls) (hl : l ∈ ls') : k.span.stop ≤ l.span.start :=
  (List.pairwise_append.1 h.apart).2.2 k hk l hl

theorem head_le (h : Ordered ls) (hhead : ls.head? = some k) (hl : l ∈ ls) : k.span.start ≤ l.span.start := by
  obtain ⟨ls, rfl⟩ := List.head?_eq_some_iff.1 hhead
  obtain rfl | hl := List.mem_cons.1 hl
  · exact Nat.le_refl _
  · have hlong := h.long k List.mem_cons_self
    have hapart := List.rel_of_pairwise_cons h.apart hl
    omega

theorem le_last (h : Ordered ls) (hlast : ls.getLast? = some l) (hk : k ∈ ls) : k.span.stop ≤ l.span.stop := by
  obtain ⟨ls, rfl⟩ := List.getLast?_eq_some_iff.1 hlast
  obtain hk | hk := List.mem_append.1 hk
  · have hlong := h.long l (by simp)
    have hapart := h.stop_le hk List.mem_cons_self
    omega
  · exact Nat.le_of_eq (by rw [List.mem_singleton.1 hk])

/-- There are no more lexemes than characters. -/
theorem length_le (h : Ordered ls) {n : Nat} (hn : ∀ l ∈ ls, l.span.stop ≤ n) : ls.length ≤ n := by
  induction ls using List.reverseRecOn generalizing n with
  | nil => exact Nat.zero_le n
  | append_singleton ls l ih =>
    have hle := ih (h.sublist (List.sublist_append_left ..)) fun k hk => h.stop_le hk List.mem_cons_self
    have hlong := h.long l (by simp)
    have hstop := hn l (by simp)
    rw [List.length_append, List.length_singleton]
    omega

end Ordered

/-- The lexemes of a text, without the one that ends it, are in order. -/
theorem ordered_of_lex {source file : String} {ls : List Lexeme} (h : lex source file = .ok ls) :
    ∃ ts l, ls = ts ++ [l] ∧ l.token.isFinish = true ∧ Ordered ts := by
  have htiled := tiled_of_lexFrom (lex_eq_ok.1 h)
  obtain ⟨ts, line, rfl, hts⟩ := htiled.tokens (.refl _)
  exact ⟨ts, _, rfl, rfl, htiled.pairwise.2.sublist (List.sublist_append_left ..), fun l hl => (hts l hl).start_lt⟩

namespace Span.On

variable {s t : Span} {read read' : List Lexeme}

theorem mono (h : s.On read) (hsub : read ⊆ read') : s.On read' := by
  obtain ⟨⟨k, hk, hstart⟩, l, hl, hstop⟩ := h
  exact ⟨⟨k, hsub hk, hstart⟩, l, hsub hl, hstop⟩

/-- What lies on earlier lexemes starts and ends before what lies on later ones. -/
theorem before (h : s.On read) (h' : t.On read') (ho : Ordered (read ++ read')) :
    s.start < t.start ∧ s.stop ≤ t.start := by
  obtain ⟨⟨k, hk, hstart⟩, l, hl, hstop⟩ := h
  obtain ⟨⟨m, hm, hstart'⟩, -⟩ := h'
  have hlong := ho.long k (List.mem_append_left _ hk)
  have hkm := ho.stop_le hk hm
  have hlm := ho.stop_le hl hm
  omega

end Span.On

/-! ## Statements in line -/

namespace InLine

variable {read : List Lexeme} {ss : List Stmt}

theorem on (h : InLine read ss) : ∀ s ∈ ss, s.span.On read := by
  induction h with
  | nil => exact fun s hs => by cases hs
  | cons hs _ ih =>
    refine List.forall_mem_cons.2 ⟨hs.mono (List.subset_append_left ..), fun s hs => ?_⟩
    exact (ih s hs).mono (List.subset_append_right ..)

theorem pairwise (h : InLine read ss) (ho : Ordered read) : ss.Pairwise fun s t => s.span.stop ≤ t.span.start := by
  induction h with
  | nil => exact .nil
  | cons hs hss ih =>
    refine List.pairwise_cons.2 ⟨fun t ht => (hs.before (hss.on t ht) ho).2, ?_⟩
    exact ih (ho.sublist (List.sublist_append_right ..))

end InLine

/-! ## Nodes -/

/-- The node was read from some of the lexemes, and its place `s` is theirs. The places of the nodes
under it are within, and the statements of its lists stand in order. -/
structure Visit.Nested (v : Visit) (s : Span) (read : List Lexeme) : Prop where
  readFrom : ∃ part first last, part <:+: read ∧ v.ReadFrom part ∧ part.head? = some first ∧
    part.getLast? = some last ∧ s.start = first.span.start ∧ s.line = first.span.line ∧ s.stop ≤ last.span.stop
  within : ∀ w ∈ v.below, ∀ t, w.span? = some t → s.start ≤ t.start ∧ t.stop ≤ s.stop
  lists : ∀ ss ∈ v.lists, ss.Pairwise fun s t => s.span.stop ≤ t.span.start

namespace Visit.Nested

variable {v : Visit} {s : Span} {read read' : List Lexeme}

theorem mono (h : v.Nested s read) (hread : read <:+: read') : v.Nested s read' := by
  obtain ⟨⟨part, first, last, hpart, hplace⟩, hwithin, hlists⟩ := h
  exact ⟨⟨part, first, last, hpart.trans hread, hplace⟩, hwithin, hlists⟩

theorem on (h : v.Nested s read) : s.On read := by
  obtain ⟨part, first, last, hpart, -, hfirst, hlast, hstart, -, hstop⟩ := h.readFrom
  exact ⟨⟨first, hpart.subset (List.mem_of_mem_head? hfirst), hstart⟩,
    last, hpart.subset (List.mem_of_getLast? hlast), hstop⟩

theorem fits (h : v.Nested s read) (hread : ∀ l ∈ read, l.span.Fits) : s.Fits := by
  obtain ⟨part, first, last, hpart, -, hfirst, hlast, hstart, hline, hstop⟩ := h.readFrom
  obtain ⟨hfits, -, hfits'⟩ := hread first (hpart.subset (List.mem_of_mem_head? hfirst))
  exact ⟨hstart ▸ hfits, Nat.lt_of_le_of_lt hstop
    (hread last (hpart.subset (List.mem_of_getLast? hlast))).2.1, hline ▸ hfits'⟩

end Visit.Nested

/-- Only a jump may end before its last lexeme, and no nodes are under it. -/
theorem Visit.Spans.place {v : Visit} {vs : List Visit} {first last s : Span} (h : v.Spans first last)
    (hs : v.span? = some s) (hbelow : v.below = v :: vs) (hle : first.stop ≤ last.stop) :
    s.start = first.start ∧ s.line = first.line ∧ s.stop ≤ last.stop ∧ (last.stop ≤ s.stop ∨ vs = []) := by
  obtain hspan | ⟨kind, rfl⟩ := h
  · obtain rfl := Option.some.inj (hs.symm.trans hspan)
    exact ⟨rfl, rfl, Nat.max_le.2 ⟨Nat.le_refl _, hle⟩, .inl (Nat.le_max_left ..)⟩
  · obtain rfl := Option.some.inj hs
    exact ⟨rfl, rfl, hle, .inr (List.cons.inj hbelow).2.symm⟩

/-- Places are nested on lexemes in order. -/
theorem Laid.nested {read : List Lexeme} {vs : List Visit} (h : Laid read vs) (ho : Ordered read) :
    ∀ v ∈ vs, ∀ s, v.span? = some s → v.Nested s read := by
  induction h with
  | nil => exact fun v hv => by cases hv
  | append _ _ ih ih' =>
    intro v hv s hs
    obtain hv | hv := List.mem_append.1 hv
    · exact (ih (ho.sublist (List.sublist_append_left ..)) v hv s hs).mono (List.prefix_append ..).isInfix
    · exact (ih' (ho.sublist (List.sublist_append_right ..)) v hv s hs).mono (List.suffix_append ..).isInfix
  | expr _ ih => exact List.forall_mem_cons.2 ⟨fun s hs => (by cases hs), ih ho⟩
  | @node read skipped inner first last v vs hread hbelow hfirst hlast hspans hsplit _ _ hlists ih =>
    have hinner : inner <:+ read := hsplit ▸ List.suffix_append skipped inner
    have hrest (w : Visit) (hw : w ∈ vs) (t : Span) (ht : w.span? = some t) : w.Nested t read :=
      (ih (ho.sublist hinner.sublist) w hw t ht).mono hinner.isInfix
    refine List.forall_mem_cons.2 ⟨fun s hs => ?_, hrest⟩
    obtain ⟨hstart, hline, hstop, hlong⟩ :=
      hspans.place hs hbelow (ho.le_last hlast (List.mem_of_mem_head? hfirst))
    refine ⟨⟨read, first, last, List.infix_refl read, hread, hfirst, hlast, hstart, hline, hstop⟩,
      fun w hw t ht => ?_, fun ss hss => ?_⟩
    · obtain rfl | hw := List.mem_cons.1 (hbelow ▸ hw)
      · obtain rfl := Option.some.inj (hs.symm.trans ht)
        exact ⟨Nat.le_refl _, Nat.le_refl _⟩
      · obtain ⟨⟨k, hk, hstart'⟩, l, hl, hstop'⟩ := (hrest w hw t ht).on
        have hle := ho.head_le hfirst hk
        have hle' := ho.le_last hlast hl
        obtain hlong | rfl := hlong
        · exact ⟨by omega, by omega⟩
        · cases hw
    · obtain ⟨r, hr, hline⟩ := hlists ss hss
      exact hline.pairwise (ho.sublist (hr.trans hinner.sublist))

theorem span_of_attempt {w : Visit} {t : TryExpr} (h : w.attempt? = some t) : w.span? = some t.span := by
  cases w with
  | attempt u => rw [Option.some.inj h]; rfl
  | _ => cases h

theorem tag_of_attempt {w : Visit} {t : TryExpr} (h : w.attempt? = some t) : w.tag?.isSome := by
  cases w with
  | attempt u => rfl
  | _ => cases h

/-- A try expression starts before those that come after it in a walk, and these are inside it or
behind it. -/
theorem Laid.attempts {read : List Lexeme} {vs : List Visit} (h : Laid read vs)
    (ho : Ordered read) : (vs.filterMap Visit.attempt?).Pairwise fun t u =>
      t.span.start < u.span.start ∧ (u.span.stop ≤ t.span.stop ∨ t.span.stop ≤ u.span.start) := by
  induction h with
  | nil => exact .nil
  | append hus hvs ih ih' =>
    have hleft := ho.sublist (List.sublist_append_left ..)
    have hright := ho.sublist (List.sublist_append_right ..)
    rw [List.filterMap_append]
    refine List.pairwise_append.2 ⟨ih hleft, ih' hright, fun t ht u hu => ?_⟩
    obtain ⟨v, hv, ht⟩ := List.mem_filterMap.1 ht
    obtain ⟨w, hw, hu⟩ := List.mem_filterMap.1 hu
    have hbefore := (hus.nested hleft v hv _ (span_of_attempt ht)).on.before
      (hvs.nested hright w hw _ (span_of_attempt hu)).on ho
    exact ⟨hbefore.1, .inr hbefore.2⟩
  | expr _ ih =>
    rw [List.filterMap_cons_none rfl]
    exact ih ho
  | @node read skipped inner first last v vs hread hbelow hfirst hlast hspans hsplit htag hlaid hlists ih =>
    have hinner : inner <:+ read := hsplit ▸ List.suffix_append skipped inner
    have hrest := ih (ho.sublist hinner.sublist)
    cases hv : v.attempt? with
    | none =>
      rw [List.filterMap_cons_none hv]
      exact hrest
    | some t =>
      have hspan := span_of_attempt hv
      rw [List.filterMap_cons_some hv]
      refine List.pairwise_cons.2 ⟨fun u hu => ?_, hrest⟩
      obtain ⟨w, hw, hu⟩ := List.mem_filterMap.1 hu
      have hnested := (Laid.node hread hbelow hfirst hlast hspans hsplit htag hlaid hlists).nested
        ho v List.mem_cons_self _ hspan
      refine ⟨?_, .inl (hnested.within w (hbelow ▸ List.mem_cons_of_mem v hw) _ (span_of_attempt hu)).2⟩
      -- the keyword of the try expression was passed before what is inside it
      have hskipped : first ∈ skipped := by
        rw [hsplit, List.head?_append_of_ne_nil _ (htag (tag_of_attempt hv))] at hfirst
        exact List.mem_of_mem_head? hfirst
      have hmem := List.mem_of_mem_head? hfirst
      obtain ⟨⟨k, hk, hstart⟩, -⟩ := (hlaid.nested (ho.sublist hinner.sublist) w hw _ (span_of_attempt hu)).on
      have hlong := ho.long first hmem
      have hle := (hsplit ▸ ho).stop_le hskipped hk
      rw [(hspans.place hspan hbelow (ho.le_last hlast hmem)).1, hstart]
      omega

/-- Every try expression and every raise has a lexeme of its own, which is its keyword. -/
theorem Laid.length_tags {read : List Lexeme} {vs : List Visit} (h : Laid read vs) :
    (tags vs).length ≤ read.length := by
  induction h with
  | nil => exact Nat.zero_le _
  | append _ _ ih ih' =>
    rw [tags_append, List.length_append, List.length_append]
    exact Nat.add_le_add ih ih'
  | expr _ ih => simpa using ih
  | @node read skipped inner first last v vs _ _ _ _ _ hsplit htag _ _ ih =>
    rw [tags_cons, List.length_append, hsplit, List.length_append]
    refine Nat.add_le_add ?_ ih
    cases hv : v.tag? with
    | none => exact Nat.zero_le _
    | some t => exact List.length_pos_iff.2 (htag (by rw [hv]; rfl))

/-! ## Programs -/

/-- A program that is read lies on the lexemes that were passed. -/
theorem laid_of_parseLexemes {ts : List Lexeme} {l : Lexeme} {p : Program}
    (hl : l.token.isFinish = true) (h : parseLexemes (ts ++ [l]) = .ok p) :
    ∃ read, read <+: ts ∧ Laid read (walkStmts .all p) ∧ ∃ r, r.Sublist read ∧ InLine r p := by
  unfold parseLexemes at h
  cases hr : (Parser.statements (budgetFor (ts ++ [l])) false .program).run (.start (ts ++ [l])) with
  | error e => rw [hr] at h; cases h
  | ok r =>
    obtain ⟨q, c⟩ := r
    rw [hr] at h
    cases h
    have hready : (Nonterminal.statements false .program).Ready (.start (ts ++ [l])) :=
      ⟨⟨l, List.getLast?_concat .., hl⟩, fun h => by cases h⟩
    obtain ⟨-, read, hgoes, hlaid, hlists⟩ := Nonterminal.spec_of_gives hready ⟨_, hr⟩
    obtain ⟨rest, rfl, -⟩ := hgoes.within
    exact ⟨read, List.prefix_append .., hlaid, hlists q List.mem_cons_self⟩

/-- The nodes of a program that is read lie on lexemes in order. -/
theorem nested_of_parse {source file : String} {p : Program} (h : parse source file = .ok p) :
    ∃ ls, lex source file = .ok ls ∧
    (∀ v ∈ walkStmts .all p, ∀ s, v.span? = some s → v.Nested s ls) ∧
    (p.Pairwise fun s t => s.span.stop ≤ t.span.start) ∧
    (attempts p).Pairwise fun t u =>
      t.span.start < u.span.start ∧ (u.span.stop ≤ t.span.stop ∨ t.span.stop ≤ u.span.start) := by
  obtain ⟨ls, hls, hp⟩ := parse_eq_ok h
  obtain ⟨ts, l, rfl, hl, ho⟩ := ordered_of_lex hls
  obtain ⟨read, hread, hlaid, r, hr, hline⟩ := laid_of_parseLexemes hl hp
  have horead := ho.sublist hread.sublist
  refine ⟨ts ++ [l], hls, fun v hv s hs => ?_, hline.pairwise (horead.sublist hr), hlaid.attempts horead⟩
  exact (hlaid.nested horead v hv s hs).mono (hread.trans (List.prefix_append ..)).isInfix

/-- If the text is short enough, then the places in a program that is read can be noted. -/
theorem spanFits_of_parse {source file : String} {p : Program} (h : parse source file = .ok p)
    (hlength : source.toList.length + 1 < Span.bound) :
    ∀ v ∈ walkStmts .all p, ∀ s, v.span? = some s → s.Fits := by
  obtain ⟨ls, hls, hnodes, -⟩ := nested_of_parse h
  exact fun v hv s hs => (hnodes v hv s hs).fits (spanFits_of_lex hls hlength)

/-- The identities in a program that is read are below the length of its text. -/
theorem ids_lt_of_parse {source file : String} {p : Program} (h : parse source file = .ok p) :
    ∀ t ∈ tags (walkStmts .all p), t.id < source.toList.length := by
  intro t ht
  obtain ⟨ls, hls, hp⟩ := parse_eq_ok h
  obtain ⟨c', hcovers⟩ :=
    (yields_parseLexemes (Reading.plain_sees fun l _ => l.token.fits_any) hp).2.2 (sound_of_lex hls)
  have hwithin := within_of_lex hls
  obtain ⟨ts, l, rfl, hl, ho⟩ := ordered_of_lex hls
  obtain ⟨read, hread, hlaid, -⟩ := laid_of_parseLexemes hl hp
  calc t.id < c'.nextId := (hcovers.idsWithin t ht).2
    _ = (tags (walkStmts .all p)).length := by rw [hcovers.nextId]; exact Nat.zero_add _
    _ ≤ read.length := hlaid.length_tags
    _ ≤ ts.length := hread.length_le
    _ ≤ source.toList.length := ho.length_le fun k hk => (hwithin k (List.mem_append_left _ hk)).2.1

/-- One try expression is raised from another, and a jump ends without a semicolon. -/
def nestedTries : String :=
  "let x = try \x7b raise try \x7b raise y \x7d catch \x7b raise 2 \x7d; \x7d
  catch \x7b while (x) break
  raise 3 \x7d"

end RaiseScript
