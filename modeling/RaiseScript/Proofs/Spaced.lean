import RaiseScript.Proofs.Relexed
import RaiseScript.Proofs.Readable
import RaiseScript.Options

/-!
# Written trees are told apart

In the pieces of a clean tree no token runs into the next one, whatever closes the tree behind it
(`Spaced`). Names and properties have to be words for it (`Spelling.Lexical`).
-/

namespace RaiseScript

variable {xs : List String}

open Piece

/-! ## Words -/

theorem isWord_iff {w : String} : IsWord w ↔ isNameStart w = true := by
  unfold IsWord isNameStart
  cases w.toList with
  | nil => simp
  | cons c cs => simp

instance : DecidablePred IsWord := fun _ => decidable_of_iff _ isWord_iff.symm

/-- Names and properties are words, and all numbers are literals with the property. -/
structure Spelling.Lexical (sp : Spelling) (P : Float → Prop) : Prop where
  name : ∀ x, sp.name x → IsWord x
  property : ∀ x, sp.property x → IsWord x
  number : ∀ x, sp.number x → IsLiteral x ∧ P x

/-! ## What closes a tree -/

/-- No token goes on. -/
def Closing (cs : List Char) : Prop :=
  Unworded cs ∧ Mild cs

@[simp] theorem mild_cons (c : Char) (cs : List Char) : Mild (c :: cs) ↔ c ∉ ['=', '>', '/', '*'] := Iff.rfl

/-- The characters that come behind an expression, but for the point. -/
def closers : List Char :=
  [' ', '\n', ')', ']', ',', ';', ':', '(', '[']

theorem closing_cons {c : Char} (h : c ∈ closers) (cs : List Char) : Closing (c :: cs) := by
  have hall : (closers.all fun c => !isWordPart c && c != '.' &&
    !List.contains ['=', '>', '/', '*'] c) = true := by
    decide
  have hc := List.all_eq_true.1 hall c h
  simp only [Bool.and_eq_true, Bool.not_eq_true', bne_iff_ne, List.contains_eq_mem, decide_eq_false_iff_not] at hc
  obtain ⟨⟨hword, hdot⟩, hmild⟩ := hc
  exact ⟨⟨hword, fun h => absurd h hdot⟩, hmild⟩

variable {P : Float → Prop} {w : String} {m : Mark} {ps qs : List Piece} {cs : List Char}

theorem IsWord.mild (h : IsWord w) (cs : List Char) : Mild (w.toList ++ cs) := by
  obtain ⟨c, ds, hw, hc, -⟩ := h
  rw [hw, List.cons_append, Mild]
  have := (isWordStart_plain hc).2
  simp only [List.mem_cons, List.not_mem_nil, or_false, not_or] at this ⊢
  exact ⟨this.2.2.2.1, this.2.2.2.2.1, this.2.2.1, this.2.2.2.2.2⟩

/-- A property behind an expression. -/
theorem closing_dot (h : IsWord w) (cs : List Char) : Closing ('.' :: (w.toList ++ cs)) := by
  obtain ⟨c, ds, hw, hc, -⟩ := h
  refine ⟨⟨by decide, fun _ d hd => ?_⟩, by simp⟩
  rw [hw] at hd
  cases hd
  exact (isWordStart_plain hc).1

/-! ## Pieces -/

@[simp] theorem legible_nil : Legible P [] cs := trivial

@[simp] theorem legible_word :
    Legible P (word w :: ps) cs ↔ (IsWord w ∧ Unworded (render ps ++ cs)) ∧ Legible P ps cs := Iff.rfl

@[simp] theorem legible_mark : Legible P (mark m :: ps) cs ↔ Mild (render ps ++ cs) ∧ Legible P ps cs := Iff.rfl

@[simp] theorem legible_blank : Legible P (blank :: ps) cs ↔ Legible P ps cs := by
  simp [Legible]

@[simp] theorem legible_break : Legible P (break_ :: ps) cs ↔ Legible P ps cs := by
  simp [Legible]

@[simp] theorem legible_indent (depth : Nat) : Legible P (indent depth :: ps) cs ↔ Legible P ps cs := by
  simp only [Legible, and_iff_right_iff_imp]
  exact fun _ c hc => Or.inl (List.eq_of_mem_replicate hc)

@[simp] theorem legible_append : Legible P (ps ++ qs) cs ↔ Legible P ps (render qs ++ cs) ∧ Legible P qs cs := by
  induction ps with
  | nil => simp
  | cons p ps ih =>
    cases p with
    | token t => simp [Legible, ih, and_assoc]
    | gap g => simp [Legible, ih, and_assoc]

/-- The pieces are told apart whatever closes them. -/
def Spaced (P : Float → Prop) (ps : List Piece) : Prop :=
  ∀ cs, Closing cs → Legible P ps cs

theorem IsLiteral.mild {x : Float} (h : IsLiteral x) (cs : List Char) : Mild ((numberText x).toList ++ cs) := by
  obtain ⟨n, hn, rfl⟩ := h
  rcases hn.eq_or_lt with rfl | hlt
  · rw [numberText_infinity]
    exact isWord_infinity.mild cs
  · obtain ⟨whole, fraction, ⟨hchars, hne, hdigits⟩, -⟩ := numberText_reads hlt
    rw [hchars]
    cases whole with
    | nil => exact absurd rfl hne
    | cons c whole =>
      intro hmem
      simp only [List.mem_cons, List.not_mem_nil, or_false] at hmem
      have hdigit := hdigits c (by simp)
      rcases hmem with rfl | rfl | rfl | rfl <;> cases hdigit

/-- What starts an expression does not go on with a mark. -/
theorem Opens.mild (h : Opens ps) (hs : Legible P ps cs) : Mild (render ps ++ cs) := by
  obtain ⟨t, qs, rfl, ht⟩ := h
  cases t with
  | word w =>
    rw [render_cons, List.append_assoc]
    exact hs.1.1.mild _
  | string s =>
    simp [stringLiteral]
  | number x =>
    rw [render_cons, List.append_assoc]
    exact hs.1.1.1.mild _
  | mark m => cases m <;> first | cases ht; done | simp
  | finish => cases ht

theorem Spaced.wrap (h : Spaced P ps) (ho : Opens ps) (needed : Bool) : Spaced P (wrap needed ps) := by
  intro cs hcs
  cases needed with
  | false => exact h cs hcs
  | true =>
    have hps := h (')' :: cs) (closing_cons (by decide) cs)
    simpa [RaiseScript.wrap, hcs.2, hps] using ho.mild hps

theorem Opens.wrap (h : Opens ps) (needed : Bool) : Opens (wrap needed ps) := by
  cases needed with
  | false => exact h
  | true => exact ⟨_, _, rfl, rfl⟩

theorem spaced_commas {qs : List (List Piece)} (h : ∀ q ∈ qs, Spaced P q) : Spaced P (commas qs) := by
  induction qs with
  | nil => exact fun _ _ => trivial
  | cons q qs ih =>
    rw [List.forall_mem_cons] at h
    intro cs hcs
    cases qs with
    | nil => exact h.1 cs hcs
    | cons q' qs =>
      have hq := h.1 (',' :: ' ' :: (render (commas (q' :: qs)) ++ cs)) (closing_cons (by decide) _)
      have hrest := ih h.2 cs hcs
      simp [commas, hq, hrest]

theorem mild_commas {qs : List (List Piece)} (h : ∀ q ∈ qs, Opens q) (hs : Legible P (commas qs) cs)
    (hcs : Closing cs) : Mild (render (commas qs) ++ cs) := by
  cases qs with
  | nil => exact hcs.2
  | cons q qs =>
    obtain ⟨t, rest, hq, ht⟩ := h q List.mem_cons_self
    refine Opens.mild ?_ hs
    cases qs with
    | nil => exact ⟨t, rest, hq, ht⟩
    | cons q' qs => exact ⟨t, _, by rw [commas, hq]; rfl, ht⟩

theorem unworded_star (cs : List Char) : Unworded ('*' :: cs) :=
  ⟨by decide, fun h => absurd h (by decide)⟩

theorem unworded_blank (cs : List Char) : Unworded (' ' :: cs) :=
  (closing_cons (by decide) cs).1

theorem unworded_semicolon (cs : List Char) : Unworded (';' :: cs) :=
  (closing_cons (by decide) cs).1

theorem unworded_colon (cs : List Char) : Unworded (':' :: cs) :=
  (closing_cons (by decide) cs).1

theorem unworded_paren (cs : List Char) : Unworded (')' :: cs) :=
  (closing_cons (by decide) cs).1

/-- Two operands with a mark between them. -/
theorem Spaced.operator (hp : Spaced P ps) (m : Mark) (hq : Spaced P qs) :
    Spaced P (ps ++ blank :: mark m :: blank :: qs) := by
  intro cs hcs
  have hin := hp (' ' :: (m.text ++ ' ' :: (render qs ++ cs))) (closing_cons (by decide) _)
  simp [-Mark.text, hin, hq cs hcs]

theorem BindingKind.isWord_keyword (kind : BindingKind) : IsWord kind.keyword := by
  cases kind <;> decide

theorem Jump.isWord_keyword (kind : Jump) : IsWord kind.keyword := by
  cases kind <;> decide

/-- The head of a branch, a loop or a switch. -/
theorem spaced_head (hw : IsWord w) (ho : Opens ps) (hp : Spaced P ps) (hq : Spaced P qs) :
    Spaced P (word w :: blank :: mark .leftParen :: (ps ++ mark .rightParen :: blank :: qs)) := by
  intro cs hcs
  have hin := hp (')' :: ' ' :: (render qs ++ cs)) (closing_cons (by decide) _)
  have hmild := ho.mild hin
  simp [hw, unworded_blank, hin, hmild, hq cs hcs]

theorem spaced_word (h : IsWord w) : Spaced P [word w] :=
  fun _ hcs => ⟨⟨h, hcs.1⟩, trivial⟩

theorem spaced_names (h : ∀ x ∈ xs, IsWord x) : Spaced P (commas (xs.map fun x => [word x])) := by
  refine spaced_commas fun q hq => ?_
  obtain ⟨x, hx, rfl⟩ := List.mem_map.1 hq
  exact spaced_word (h x hx)

theorem mild_names (h : ∀ x ∈ xs, IsWord x) (hcs : Closing cs) :
    Mild (render (commas (xs.map fun x => [word x])) ++ cs) := by
  cases xs with
  | nil => exact hcs.2
  | cons x xs =>
    have hx := h x List.mem_cons_self
    cases xs with
    | nil => simpa [commas] using hx.mild cs
    | cons y xs => simpa [commas] using hx.mild _

/-- What stands before the body of a function. -/
theorem legible_header {called : Option String} (isAsync : Bool) (form : FuncForm)
    (hx : ∀ x ∈ xs, IsWord x) (hcalled : ∀ x ∈ called, IsWord x) (cs : List Char) :
    Legible P (headerPieces called xs isAsync form) cs := by
  have hparams (cs : List Char) : Legible P (commas (xs.map fun x => [word x])) (')' :: cs) :=
    spaced_names hx _ (closing_cons (by decide) _)
  have hmild (cs : List Char) : Mild (render (commas (xs.map fun x => [word x])) ++ ')' :: cs) :=
    mild_names hx (closing_cons (by decide) _)
  have hblank (cs : List Char) : Unworded (' ' :: cs) := (closing_cons (by decide) _).1
  have hparen (cs : List Char) : Unworded ('(' :: cs) := (closing_cons (by decide) _).1
  have hasync : IsWord "async" := by decide
  have hfunction : IsWord "function" := by decide
  cases form <;> cases isAsync <;> cases called <;>
    simp_all [headerPieces, unworded_star]

/-- Lines between braces. -/
theorem spaced_braced (depth : Nat) (h : ∀ cs, Legible P ps cs) : Spaced P (braced depth ps) := by
  intro cs hcs
  unfold braced
  split
  · simp [hcs.2]
  · simp [hcs.2, h]

theorem legible_lineOf (depth : Nat) (h : Spaced P ps) (cs : List Char) : Legible P (lineOf depth ps) cs := by
  simpa [lineOf] using h _ (closing_cons (by decide) cs)

theorem Spaced.block (h : Spaced P ps) (depth : Nat) : Spaced P (braced depth (lineOf (depth + 1) ps)) :=
  spaced_braced depth (legible_lineOf (depth + 1) h)

theorem closing_writeHandler (depth : Nat) (handler : Option Handler) (hcs : Closing cs) :
    Closing (render (writeHandler depth handler) ++ cs) := by
  rcases handler with _ | ⟨_ | x, body⟩
  · exact hcs
  · exact closing_cons (by decide) _
  · exact closing_cons (by decide) _

theorem closing_writeFinalizer (depth : Nat) (finalizer : Option (List Stmt)) (hcs : Closing cs) :
    Closing (render (writeFinalizer depth finalizer) ++ cs) := by
  cases finalizer with
  | none => exact hcs
  | some body => exact closing_cons (by decide) _

/-! ## The walk -/

section

variable {sp : Spelling}

theorem Expr.opens (hsp : sp.Unreserved) (depth : Nat) {e : Expr} (h : Clean sp (e.walk .all)) :
    Opens (e.write depth) :=
  ((Phrase.expr e).readBack hsp depth h).whole.opens

theorem opensList (hsp : sp.Unreserved) (depth : Nat) {es : List Expr}
    (h : Clean sp (walkExprs .all es)) : ∀ q ∈ writeList depth es, Opens q := by
  induction es with
  | nil => simp [writeList]
  | cons e es ih =>
    simp only [walkExprs, clean_append] at h
    rw [writeList, List.forall_mem_cons]
    exact ⟨Expr.opens hsp depth h.1, ih h.2⟩

/-- The body of a branch or a loop, between braces unless it has its own. -/
theorem spaced_body {s : Stmt} (h : ∀ depth, Spaced P (s.write depth)) (own : Bool) (depth : Nat) :
    Spaced P (if own then s.write depth else braced depth (lineOf (depth + 1) (s.write (depth + 1)))) := by
  cases own with
  | false => exact (h (depth + 1)).block depth
  | true => exact h depth

variable (P) (sp) in
/-- The pieces of the phrase are told apart, if the names that it binds are spelled. -/
def Phrase.ToldApart (depth : Nat) : Phrase → Prop
  | .expr e => Spaced P (e.write depth)
  | .exprs es => ∀ q ∈ writeList depth es, Spaced P q
  | .func f => Spaced P (f.write depth)
  | .attempt _ => False
  | .stmt s => Spaced P (s.write depth)
  | .decls ds => (∀ d ∈ ds, sp.name d.name) → ∀ q ∈ writeDecls depth ds, Spaced P q
  | .cases ks => ∀ cs, Legible P (writeCases depth ks) cs
  | .handler k => (∀ h ∈ k, ∀ x ∈ h.param, sp.name x) → Spaced P (writeHandler depth k)
  | .block b => Spaced P (writeFinalizer depth b)
  | .stmts ss => ∀ cs, Legible P (writeLines depth ss) cs

theorem Phrase.spaced (hsp : sp.Unreserved) (hl : sp.Lexical P) (p : Phrase) (depth : Nat)
    (h : Clean sp (p.walk .all)) : p.ToldApart P sp depth := by
  have ho {e : Expr} (depth) : Clean sp (e.walk .all) → Opens (e.write depth) := Expr.opens hsp depth
  induction p generalizing depth with
    (simp only [Phrase.walk, Expr.walk, walkExprs, Func.walk, Reach.functions_all, if_true,
      TryExpr.walk_all, Stmt.walk, walkDecls, walkCases, walkHandler, walkBlock,
      walkStmts, clean_cons, clean_append] at h)
  | number v => exact fun cs hcs => ⟨⟨hl.number v h.1.2, hcs.1⟩, trivial⟩
  | string => exact fun cs _ => ⟨trivial, trivial⟩
  | bool b => cases b <;> exact spaced_word (by decide)
  | null | undefined | this => exact spaced_word (by decide)
  | ident x => exact spaced_word (hl.name x h.1.2)
  | array items ih =>
    intro cs hcs
    have hin := spaced_commas (ih depth h.2) _ (closing_cons (c := ']') (by decide) cs)
    have hmild := mild_commas (opensList hsp depth h.2) hin (closing_cons (by decide) cs)
    rw [Expr.write]
    simp [hin, hmild, hcs.2]
  | unary op arg ih =>
    have harg := (ih depth h.2).wrap (ho depth h.2)
    intro cs hcs
    rw [Expr.write, legible_append]
    refine ⟨?_, harg _ cs hcs⟩
    have hmild := ((ho depth h.2).wrap _).mild
      (harg (arg.strength < if op = .negate && arg.isNegation then 10 else 9) cs hcs)
    cases op with
    | typeName => simp [UnaryOp.pieces, (closing_cons (c := ' ') (by decide) _).1]; decide
    | _ => simpa [UnaryOp.pieces] using hmild
  | await arg ih =>
    have harg := (ih depth h.2).wrap (ho depth h.2) (arg.strength < 9)
    intro cs hcs
    rw [Expr.write]
    simp [harg cs hcs, unworded_blank, show IsWord "await" by decide]
  | binary op a b ha hb | logical op a b ha hb =>
    exact ((ha depth h.2.1).wrap (ho depth h.2.1) _).operator op.mark ((hb depth h.2.2).wrap (ho depth h.2.2) _)
  | assign target value ht hv => exact ((ht depth h.2.1).wrap (ho depth h.2.1) _).operator .assign (hv depth h.2.2)
  | member object x ih =>
    have hx : IsWord x := hl.property x h.1.2
    intro cs hcs
    have hin := (ih depth h.2).wrap (ho depth h.2) (object.strength < 10) _ (closing_dot hx cs)
    rw [Expr.write]
    simp [hin, hx.mild, hx, hcs.1]
  | index object key hobject hkey =>
    intro cs hcs
    have hkey := hkey depth h.2.2 _ (closing_cons (c := ']') (by decide) cs)
    have hin := (hobject depth h.2.1).wrap (ho depth h.2.1) (object.strength < 10) _
      (closing_cons (c := '[') (by decide) (render (key.write depth) ++ ']' :: cs))
    have hmild := (ho depth h.2.2).mild hkey
    rw [Expr.write]
    simp [hin, hkey, hmild, hcs.2]
  | call callee args hcallee hargs =>
    intro cs hcs
    have hargs := spaced_commas (hargs depth h.2.2) _ (closing_cons (c := ')') (by decide) cs)
    have hin := (hcallee depth h.2.1).wrap (ho depth h.2.1) (callee.strength < 10) _
      (closing_cons (c := '(') (by decide) (render (commas (writeList depth args)) ++ ')' :: cs))
    have hmild := mild_commas (opensList hsp depth h.2.2) hargs (closing_cons (by decide) cs)
    rw [Expr.write]
    simp [hin, hargs, hmild, hcs.2]
  | yieldNone delegate =>
    obtain rfl : delegate = false := h.1.2 rfl
    exact spaced_word (by decide)
  | yield arg delegate ih =>
    have harg := ih depth h.2
    intro cs hcs
    rw [Expr.write]
    cases delegate <;> simp [harg cs hcs, unworded_blank, unworded_star, show IsWord "yield" by decide]
  | func f ih | funcStmt f ih => exact ih depth h.2
  | attempt => cases h.2.1.1
  | clauses | raise => cases h.1.1
  | nilExprs => simp [Phrase.ToldApart, writeList]
  | consExprs e es ha hb =>
    rw [Phrase.ToldApart, writeList, List.forall_mem_cons]
    exact ⟨ha depth h.1, hb depth h.2⟩
  | funcBlock name xs body isAsync form span ih =>
    obtain ⟨⟨-, hxs, hname, -, -⟩, hbody⟩ := h
    intro cs hcs
    rw [Func.write, legible_append]
    exact ⟨legible_header isAsync form (fun x hx => hl.name x (hxs x hx))
      (fun x hx => hl.name x (hname x hx)) _, spaced_braced depth (ih (depth + 1) hbody) cs hcs⟩
  | funcExpr name xs value isAsync form span ih =>
    obtain ⟨⟨-, hxs, hname, -, -⟩, hvalue⟩ := h
    intro cs hcs
    rw [Func.write, legible_append]
    exact ⟨legible_header isAsync form (fun x hx => hl.name x (hxs x hx))
      (fun x hx => hl.name x (hname x hx)) _, ih depth hvalue cs hcs⟩
  | declare kind ds span ih =>
    obtain ⟨⟨-, hne, hds⟩, hinit⟩ := h
    have hdecls := spaced_commas (ih depth hinit fun d hd => (hds d hd).1)
    intro cs hcs
    rw [Stmt.write]
    simp [hdecls _ (closing_cons (c := ';') (by decide) cs), unworded_blank, hcs.2, kind.isWord_keyword]
  | exprStmt value span ih =>
    have hv := (ih depth h.2).wrap (ho depth h.2) value.isFunctionWord
    intro cs hcs
    rw [Stmt.write]
    simp [hv _ (closing_cons (c := ';') (by decide) cs), hcs.2]
  | blockStmt body span ih => exact spaced_braced depth (ih (depth + 1) h.2)
  | branch test body span ht hb | loop test body span ht hb =>
    exact spaced_head (by decide) (ho depth h.2.1) (ht depth h.2.1) (spaced_body (fun d => hb d h.2.2) _ depth)
  | branchElse test yes no span ht hyes hno =>
    have hyes := spaced_body (fun d => hyes d h.2.1.2) yes.isBlock depth
    have hno := spaced_body (fun d => hno d h.2.2) (no.isBlock || no.isBranch) depth
    refine spaced_head (by decide) (ho depth h.2.1.1) (ht depth h.2.1.1) ?_
    intro cs hcs
    have hlast := hno cs hcs
    simp only [Bool.or_eq_true] at hlast
    simp [hyes _ (closing_cons (c := ' ') (by decide) _), hlast, unworded_blank,
      show IsWord "else" by decide]
  | switch subject cases span hs hcases =>
    refine spaced_head (by decide) (ho depth h.2.1) (hs depth h.2.1) ?_
    intro cs hcs
    simp [hcases (depth + 1) h.2.2 _, hcs.2]
  | jump kind span =>
    intro cs hcs
    rw [Stmt.write]
    simp [kind.isWord_keyword, unworded_semicolon, hcs.2]
  | retNone span =>
    intro cs hcs
    rw [Stmt.write]
    simp [unworded_semicolon, hcs.2, show IsWord "return" by decide]
  | ret arg span ih | throw arg span ih =>
    intro cs hcs
    rw [Stmt.write]
    simp [ih depth h.2 _ (closing_cons (c := ';') (by decide) cs), unworded_blank, hcs.2,
      show IsWord "return" ∧ IsWord "throw" by decide]
  | guarded body handler finalizer span hb hh hf =>
    obtain ⟨⟨-, -, hparam⟩, ⟨hbody, hhandler⟩, hfinalizer⟩ := h
    have hb := spaced_braced depth (hb (depth + 1) hbody)
    have hh := hh depth hhandler hparam
    have hf := hf depth hfinalizer
    intro cs hcs
    have hlast := closing_writeFinalizer depth finalizer hcs
    have hnext := closing_writeHandler depth handler hlast
    rw [Stmt.write]
    simp [unworded_blank, show IsWord "try" by decide, hb _ hnext, hh _ hlast, hf cs hcs]
  | nilDecls => simp [Phrase.ToldApart, writeDecls]
  | bareDecl x ds ih =>
    intro hx
    rw [List.forall_mem_cons] at hx
    rw [writeDecls, List.forall_mem_cons]
    exact ⟨spaced_word (hl.name x hx.1), ih depth h hx.2⟩
  | consDecls x init ds hinit ih =>
    intro hx
    rw [List.forall_mem_cons] at hx
    rw [writeDecls, List.forall_mem_cons]
    exact ⟨(spaced_word (hl.name x hx.1)).operator .assign (hinit depth h.1), ih depth h.2 hx.2⟩
  | nilCases | nilStmts => exact fun _ => trivial
  | defaultCase body rest hb ih =>
    intro cs
    rw [writeCases, legible_append, legible_append]
    refine ⟨⟨legible_lineOf depth ?_ _, hb (depth + 1) h.1 _⟩, ih depth h.2 cs⟩
    intro cs hcs
    simp [hcs.2, unworded_colon, show IsWord "default" by decide]
  | consCases test body rest ht hb ih =>
    intro cs
    rw [writeCases, legible_append, legible_append]
    refine ⟨⟨legible_lineOf depth ?_ _, hb (depth + 1) h.1.2 _⟩, ih depth h.2 cs⟩
    intro cs hcs
    simp [ht depth h.1.1 _ (closing_cons (c := ':') (by decide) cs), hcs.2, unworded_blank,
      show IsWord "case" by decide]
  | noHandler => exact fun _ _ _ => trivial
  | noBlock => exact fun _ _ => trivial
  | handler param body ih =>
    have hb := spaced_braced depth (ih (depth + 1) h)
    intro hx cs hcs
    cases param with
    | none =>
      rw [writeHandler]
      simp [unworded_blank, show IsWord "catch" by decide, hb cs hcs]
    | some x =>
      have hword : IsWord x := hl.name x (hx ⟨some x, body⟩ rfl x rfl)
      rw [writeHandler]
      simp [unworded_blank, unworded_paren, show IsWord "catch" by decide, hb cs hcs, hword, hword.mild]
  | finalizer body ih =>
    have hb := spaced_braced depth (ih (depth + 1) h)
    intro cs hcs
    rw [writeFinalizer]
    simp [unworded_blank, show IsWord "finally" by decide, hb cs hcs]
  | consStmts s ss hs ih =>
    intro cs
    rw [writeLines, legible_append]
    exact ⟨legible_lineOf depth (hs depth h.1) _, ih depth h.2 cs⟩

end

end RaiseScript
