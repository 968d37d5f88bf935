import RaiseScript.Proofs.Tagged
import RaiseScript.Proofs.Nonterminals

/-!
# Which lexemes a node was read from

A cursor goes past lexemes and never past the last one (`Cursor.Goes`). `Laid` says how the nodes of
a tree lie on the lexemes they were read from : the nodes under a node lie on some of its lexemes,
and nodes that stand side by side on different ones, in their order. The place of a node goes from
its first lexeme through its last.
-/

namespace RaiseScript

variable {read : List Lexeme} {ss ts : List Stmt} {n : Nat} {raising : Bool}

/-! ## Nodes on lexemes -/

/-- The place of a node that has one. -/
def Visit.span? : Visit → Option Span
  | .stmt s => some s.span
  | .func f => some f.span
  | .attempt t => some t.span
  | .expr _ => none

/-- The lists of statements that are parts of a node. -/
def Visit.lists : Visit → List (List Stmt)
  | .stmt (.block body _) => [body]
  | .stmt (.switch _ cs _) => cs.map (·.body)
  | .stmt (.guarded body handler finalizer _) => body :: ((handler.map (·.body)).toList ++ finalizer.toList)
  | .func ⟨_, _, .block body, _, _, _⟩ => [body]
  | .attempt t => t.body :: t.catchBody :: t.finallyBody.toList
  | _ => []

/-- The node is what a rule of the grammar gives from the lexemes. -/
inductive Visit.ReadFrom (read : List Lexeme) : Visit → Prop
  | stmt {n raising c s c'} : c.Goes read c' → Parser.statement n raising c = .ok (s, c') → ReadFrom read (.stmt s)
  | declared {n raising c f c'} : c.Goes read c' → Parser.statement n raising c =
    .ok (.func f, c') → ReadFrom read (.func f)
  | func {n c f c'} : c.Goes read c' → Parser.primary n c = .ok (.func f, c') →
    c.current.token.isMark .leftParen = false → ReadFrom read (.func f)
  | arrow {n isAsync ps c f c'} : c.Goes read c' → Parser.arrow n isAsync ps c = .ok (.func f, c') →
    ReadFrom read (.func f)
  | attempt {n c t c'} : c.Goes read c' → Parser.primary n c = .ok (.attempt t, c') →
    c.current.token.isMark .leftParen = false → ReadFrom read (.attempt t)

/-- The place starts with a lexeme and does not go beyond one. -/
def Span.On (s : Span) (read : List Lexeme) : Prop :=
  (∃ l ∈ read, s.start = l.span.start) ∧ ∃ l ∈ read, s.stop ≤ l.span.stop

/-- The statements lie on the lexemes one after the other. -/
inductive InLine : List Lexeme → List Stmt → Prop
  | nil : InLine [] []
  | cons {read read' : List Lexeme} {s : Stmt} {ss : List Stmt} :
    s.span.On read → InLine read' ss → InLine (read ++ read') (s :: ss)

theorem InLine.append {read' : List Lexeme} (h : InLine read ss) (h' : InLine read' ts) :
    InLine (read ++ read') (ss ++ ts) := by
  induction h with
  | nil => exact h'
  | cons hs _ ih =>
    rw [List.append_assoc]
    exact .cons hs ih

/-- The place of the node goes from the first place through the second. That of a jump is the
first. -/
def Visit.Spans (v : Visit) (first last : Span) : Prop :=
  v.span? = some (first.upTo last) ∨ ∃ kind, v = .stmt (.jump kind first)

/-- The nodes of a walk lie on the lexemes. -/
inductive Laid : List Lexeme → List Visit → Prop
  | nil (read : List Lexeme) : Laid read []
  | append {read read' : List Lexeme} {us vs : List Visit} : Laid read us → Laid read' vs →
    Laid (read ++ read') (us ++ vs)
  | expr {read : List Lexeme} {e : Expr} {vs : List Visit} : Laid read vs → Laid read (.expr e :: vs)
  | node {read skipped inner : List Lexeme} {first last : Lexeme} {v : Visit} {vs : List Visit} :
    v.ReadFrom read → v.below = v :: vs → read.head? = some first → read.getLast? = some last →
    v.Spans first.span last.span → read = skipped ++ inner → (v.tag?.isSome → skipped ≠ []) → Laid inner vs →
    (∀ ss ∈ v.lists, ∃ r, r.Sublist inner ∧ InLine r ss) → Laid read (v :: vs)

/-- From the first cursor to the second the nodes were read, and the lists of statements. -/
def Trail (c c' : Cursor) (vs : List Visit) (lists : List (List Stmt)) : Prop :=
  ∃ read, c.Goes read c' ∧ Laid read vs ∧ ∀ ss ∈ lists, ∃ r, r.Sublist read ∧ InLine r ss

namespace Trail

variable {c c₁ c' : Cursor} {us vs : List Visit} {ks ls : List (List Stmt)}

theorem of_goes (h : c.Goes read c') : Trail c c' [] [] :=
  ⟨read, h, .nil read, nofun⟩

theorem refl (h : c.Ends) : Trail c c [] [] :=
  of_goes (.refl h)

theorem goes (h : Trail c c' vs ls) : ∃ read, c.Goes read c' := by
  obtain ⟨read, hgoes, -⟩ := h
  exact ⟨read, hgoes⟩

theorem ends (h : Trail c c' vs ls) : c'.Ends := by
  obtain ⟨read, hgoes⟩ := h.goes
  exact hgoes.ends

theorem length_le (h : Trail c c' vs ls) : c'.ahead.length ≤ c.ahead.length := by
  obtain ⟨read, hgoes, -⟩ := h
  have := hgoes.length
  omega

theorem forget (h : Trail c c' vs ls) : Trail c c' [] [] := by
  obtain ⟨read, hgoes, -⟩ := h
  exact of_goes hgoes

theorem append (h : Trail c c₁ us ks) (h' : Trail c₁ c' vs ls) : Trail c c' (us ++ vs) (ks ++ ls) := by
  obtain ⟨read, hgoes, hlaid, hks⟩ := h
  obtain ⟨read', hgoes', hlaid', hls⟩ := h'
  refine ⟨read ++ read', hgoes.trans hgoes', hlaid.append hlaid', fun ss hss => ?_⟩
  obtain hss | hss := List.mem_append.1 hss
  · obtain ⟨r, hr, hlined⟩ := hks ss hss
    exact ⟨r, hr.trans (List.sublist_append_left read read'), hlined⟩
  · obtain ⟨r, hr, hlined⟩ := hls ss hss
    exact ⟨r, hr.trans (List.sublist_append_right read read'), hlined⟩

/-- Something without nodes was passed behind the nodes. -/
theorem past (h : Trail c c₁ vs ls) (h' : Trail c₁ c' [] []) : Trail c c' vs ls := by
  have := h.append h'
  rwa [List.append_nil, List.append_nil] at this

/-- Statements behind statements. -/
theorem join (h : Trail c c₁ us [ss]) (h' : Trail c₁ c' vs [ts]) : Trail c c' (us ++ vs) [ss ++ ts] := by
  obtain ⟨read, hgoes, hlaid, hks⟩ := h
  obtain ⟨read', hgoes', hlaid', hls⟩ := h'
  obtain ⟨r, hr, hlined⟩ := hks ss List.mem_cons_self
  obtain ⟨r', hr', hlined'⟩ := hls ts List.mem_cons_self
  refine ⟨read ++ read', hgoes.trans hgoes', hlaid.append hlaid', fun us hus => ?_⟩
  obtain rfl := List.mem_singleton.1 hus
  exact ⟨r ++ r', hr.append hr', hlined.append hlined'⟩

theorem expr (h : Trail c c' vs ls) (e : Expr) : Trail c c' (.expr e :: vs) ls := by
  obtain ⟨read, hgoes, hlaid, hls⟩ := h
  exact ⟨read, hgoes, hlaid.expr, hls⟩

theorem noLists (h : Trail c c' vs ls) : Trail c c' vs [] := by
  obtain ⟨read, hgoes, hlaid, -⟩ := h
  exact ⟨read, hgoes, hlaid, nofun⟩

end Trail

/-! ## Nodes that are being read -/

/-- What is under a node has been read, and its place goes from the given one through the last
lexeme that was passed. -/
def Opened (start : Span) (c : Cursor) (v : Visit) (c' : Cursor) : Prop :=
  v.Spans start c'.before ∧ ∃ vs, v.below = v :: vs ∧ Trail c c' vs v.lists

theorem Visit.Spans.on {v : Visit} {first last : Lexeme} (h : v.Spans first.span last.span)
    (hfirst : first ∈ read) (hlast : last ∈ read) : ∃ s, v.span? = some s ∧ s.On read := by
  obtain h | ⟨kind, rfl⟩ := h
  · refine ⟨_, h, ⟨first, hfirst, rfl⟩, ?_⟩
    rcases Nat.le_total last.span.stop first.span.stop with hle | hle
    · exact ⟨first, hfirst, Nat.le_of_eq (Nat.max_eq_right hle)⟩
    · exact ⟨last, hlast, Nat.le_of_eq (Nat.max_eq_left hle)⟩
  · exact ⟨_, rfl, ⟨first, hfirst, rfl⟩, first, hfirst, Nat.le_refl _⟩

namespace Opened

variable {c c₁ c' : Cursor} {start : Span} {v : Visit}

/-- Something without nodes was passed before. -/
theorem after (h : Opened start c₁ v c') (h₁ : Trail c c₁ [] []) : Opened start c v c' := by
  obtain ⟨hspans, vs, hbelow, htrail⟩ := h
  exact ⟨hspans, vs, hbelow, h₁.append htrail⟩

/-- The node is read from where the cursor stood at first. -/
theorem close (h : Opened c.current.span c₁ v c') (hskip : Trail c c₁ [] [])
    (hlt : c'.ahead.length < c.ahead.length)
    (htag : v.tag?.isSome → c₁.ahead.length < c.ahead.length)
    (hread : ∀ read, c.Goes read c' → v.ReadFrom read) :
    ∃ read s, c.Goes read c' ∧ Laid read v.below ∧ v.span? = some s ∧ s.On read := by
  obtain ⟨hspans, vs, hbelow, inner, hgoes, hlaid, hlists⟩ := h
  obtain ⟨skipped, hgoes₁, -⟩ := hskip
  have hgoes' := hgoes₁.trans hgoes
  have hne := hgoes'.ne_nil hlt
  obtain ⟨last, hlast, hbefore⟩ := hgoes'.getLast hne
  have hfirst := hgoes'.current hne
  rw [hbefore] at hspans
  obtain ⟨s, hs, hon⟩ := hspans.on (List.mem_of_mem_head? hfirst) (List.mem_of_getLast? hlast)
  refine ⟨skipped ++ inner, s, hgoes', ?_, hs, hon⟩
  rw [hbelow]
  exact .node (hread _ hgoes') hbelow hfirst hlast hspans rfl (fun ht => hgoes₁.ne_nil (htag ht)) hlaid hlists

/-- The node is read, and so are the nodes under it. -/
theorem trail (h : Opened c.current.span c₁ v c') (hskip : Trail c c₁ [] [])
    (hlt : c'.ahead.length < c.ahead.length)
    (htag : v.tag?.isSome → c₁.ahead.length < c.ahead.length)
    (hread : ∀ read, c.Goes read c' → v.ReadFrom read) : Trail c c' v.below [] := by
  obtain ⟨read, s, hgoes, hlaid, -⟩ := h.close hskip hlt htag hread
  exact ⟨read, hgoes, hlaid, nofun⟩

/-- A statement is read, and so are the nodes under it. -/
theorem stmt {s : Stmt} (h : Opened c.current.span c₁ (.stmt s) c') (hskip : Trail c c₁ [] [])
    (hlt : c'.ahead.length < c.ahead.length)
    (htag : (Visit.stmt s).tag?.isSome → c₁.ahead.length < c.ahead.length)
    (hread : Parser.statement n raising c = .ok (s, c')) :
    Trail c c' (s.walk .all) [[s]] := by
  obtain ⟨read, p, hgoes, hlaid, hspan, hon⟩ :=
    h.close hskip hlt htag fun read hgoes => .stmt hgoes hread
  obtain rfl := Option.some.inj hspan
  refine ⟨read, hgoes, hlaid, fun ss hss => ⟨read, .refl read, ?_⟩⟩
  obtain rfl := List.mem_singleton.1 hss
  simpa using InLine.cons hon .nil

/-- A declared function is read. -/
theorem declared {f : Func} (h : Opened c.current.span c (.func f) c') (hc : c.Ends)
    (hlt : c'.ahead.length < c.ahead.length) (hread : Parser.statement n raising c = .ok (.func f, c')) :
    Trail c c' ((Stmt.func f).walk .all) [[.func f]] := by
  have hfunc : Trail c c' (f.walk .all) [] := h.trail (.refl hc) hlt nofun fun read hgoes => .declared hgoes hread
  obtain ⟨hspan | ⟨kind, hjump⟩, -⟩ := h
  · exact stmt ⟨.inl hspan, f.walk .all, rfl, hfunc⟩ (.refl hc) hlt nofun hread
  · cases hjump

end Opened

end RaiseScript
