import RaiseScript.Proofs.Walk
import RaiseScript.Syntax.Printer

/-!
# What the printer refuses

The printer and the check behind lowering go through a tree apart from each other. `Refuses` ties
the outcome of printing to the nodes that the walk meets : a text is refused at the first try
expression or raise among them, and only there (`Phrase.refused`). So both stop at the same node,
and that node is not inside another one (`printer_agrees_with_check`).
-/

namespace RaiseScript

/-- What the printer says of a node. -/
def Visit.unlowered? : Visit → Option Unlowered
  | .attempt t => some ⟨.attempt, t.span⟩
  | .stmt (.raise _ _ span) => some ⟨.raise, span⟩
  | _ => none

theorem Visit.extension?_eq (v : Visit) : v.extension? = v.unlowered?.map (·.span) := by
  fun_cases Visit.unlowered? v <;> simp_all [Visit.extension?]

/-- The outcome is an error exactly if the nodes have one that is not standard, and it is about the
first one. -/
def Refuses {α : Type} (vs : List Visit) (x : Except Unlowered α) : Prop :=
  ∀ u, x = .error u ↔ vs.findSome? Visit.unlowered? = some u

namespace Refuses

variable {α β : Type} {v : Visit} {vs ws : List Visit} {x : Except Unlowered α} {f : α → Except Unlowered β}

theorem ok (a : α) : Refuses [] (.ok a) := by
  simp [Refuses]

theorem node (hv : v.unlowered? = none) (h : Refuses vs x) : Refuses (v :: vs) x := by
  intro u
  rw [List.findSome?_cons, hv]
  exact h u

theorem stop {u : Unlowered} (hv : v.unlowered? = some u) : Refuses (v :: vs) (.error u : Except Unlowered α) := by
  simp [Refuses, hv]

/-- One part after the other. -/
theorem bind (hx : Refuses vs x) (hf : ∀ a, Refuses ws (f a)) : Refuses (vs ++ ws) (x >>= f) := by
  intro u
  rw [List.findSome?_append]
  cases hvs : vs.findSome? Visit.unlowered? with
  | some w =>
    rw [(hx w).2 hvs]
    simp [Bind.bind, Except.bind]
  | none =>
    cases x with
    | error w => exact absurd ((hx w).1 rfl) (by simp [hvs])
    | ok a => exact hf a u

/-- The last part. -/
theorem last {g : α → β} (hx : Refuses vs x) : Refuses vs (x >>= fun a => .ok (g a)) := by
  simpa using hx.bind fun a => .ok (g a)

end Refuses

/-- Printing the phrase is refused at the first node that is not standard. -/
def Phrase.Refused : Phrase → Prop
  | .expr e => ∀ depth, Refuses (e.walk .all) (e.print depth)
  | .exprs es => ∀ depth, Refuses (walkExprs .all es) (printList depth es)
  | .func f => ∀ depth, Refuses (f.walk .all) (f.print depth)
  | .attempt _ => True
  | .stmt s => ∀ depth, Refuses (s.walk .all) (s.print depth)
  | .decls ds => ∀ depth, Refuses (walkDecls .all ds) (printDecls depth ds)
  | .cases cs => ∀ depth, Refuses (walkCases .all cs) (printCases depth cs)
  | .handler h => ∀ depth, Refuses (walkHandler .all h) (printHandler depth h)
  | .block b => ∀ depth, Refuses (walkBlock .all b) (printFinalizer depth b)
  | .stmts ss => ∀ depth, Refuses (walkStmts .all ss) (printLines depth ss)

theorem Phrase.refused (p : Phrase) : p.Refused := by
  induction p with
  | number | string | bool | null | undefined | this | ident | yieldNone | jump | retNone =>
    exact fun _ => .node rfl (.ok _)
  | nilExprs | nilDecls | nilCases | noHandler | noBlock | nilStmts => exact fun _ => .ok _
  | clauses => trivial
  | attempt t => exact fun _ => .node rfl (TryExpr.walk_all t ▸ .stop rfl)
  | raise => exact fun _ => .stop rfl
  | array _ h | unary _ _ h | member _ _ h | await _ h | yield _ _ h | declare _ _ _ h | exprStmt _ _ h | ret _ _ h
  | throw _ _ h | funcExpr _ _ _ _ _ _ h => exact fun depth => .node rfl (h depth).last
  | funcBlock _ _ _ _ _ _ h | blockStmt _ _ h => exact fun depth => .node rfl (h (depth + 1)).last
  | func _ h | funcStmt _ h => exact fun depth => .node rfl (h depth)
  | binary _ _ _ ha hb | logical _ _ _ ha hb | assign _ _ ha hb | index _ _ ha hb | call _ _ ha hb =>
    exact fun depth => .node rfl ((ha depth).bind fun _ => (hb depth).last)
  | branch _ _ _ ha hb | loop _ _ _ ha hb | switch _ _ _ ha hb =>
    exact fun depth => .node rfl ((ha depth).bind fun _ => (hb _).last)
  | branchElse _ _ _ _ ha hb hc =>
    intro depth
    rw [Stmt.walk, List.append_assoc]
    exact .node rfl ((ha depth).bind fun _ => (hb _).bind fun _ => (hc _).last)
  | guarded _ _ _ _ ha hb hc =>
    intro depth
    rw [Stmt.walk, List.append_assoc]
    exact .node rfl ((ha (depth + 1)).bind fun _ => (hb depth).bind fun _ => (hc depth).last)
  | bareDecl _ _ h => exact fun depth => (h depth).last
  | handler param _ h => cases param <;> exact fun depth => (h (depth + 1)).last
  | finalizer _ h => exact fun depth => (h (depth + 1)).last
  | consExprs _ _ ha hb | consDecls _ _ _ ha hb | consStmts _ _ ha hb =>
    exact fun depth => (ha depth).bind fun _ => (hb depth).last
  | defaultCase _ _ ha hb => exact fun depth => (ha (depth + 1)).bind fun _ => (hb depth).last
  | consCases _ _ _ ha hb hc =>
    intro depth
    rw [walkCases, List.append_assoc]
    exact (ha depth).bind fun _ => (hb (depth + 1)).bind fun _ => (hc depth).last

/-- The node at the position stands under a try expression or a raise. -/
def Enclosed (vs : List Visit) (i : Nat) : Prop :=
  ∃ (v : Visit) (before after : List Visit), v.extension?.isSome ∧ vs = before ++ v.below ++ after ∧
    before.length < i ∧ i < before.length + v.below.length

theorem Visit.below_of_extension {v : Visit} (h : v.extension?.isSome) : ∃ vs, v.below = v :: vs := by
  fun_cases Visit.extension? v with
  | case1 t => exact ⟨_, TryExpr.walk_all t⟩
  | case2 id value span => exact ⟨_, rfl⟩
  | case3 => simp_all [Visit.extension?]

/-- A node behind standard ones only is not under a try expression or a raise. -/
theorem not_enclosed {before after : List Visit} (h : Standard before) :
    ¬Enclosed (before ++ after) before.length := by
  rintro ⟨v, us, ws, hv, hvs, hlt, -⟩
  obtain ⟨below, hbelow⟩ := Visit.below_of_extension hv
  have hget := congrArg (·[us.length]?) hvs
  simp only [hbelow, List.append_assoc, List.getElem?_append_left hlt, List.getElem?_append_right
    (Nat.le_refl _), Nat.sub_self, List.cons_append, List.getElem?_cons_zero] at hget
  simp [h v (List.mem_of_getElem? hget)] at hv

/-- The printer and the check behind lowering refuse the same programs: those with a try expression
or a raise anywhere. Both report the place of the same node, the first one of the walk that is not
standard, and it is not inside another such node. -/
theorem printer_agrees_with_check (p : Program) (file : String) :
    let vs := walkStmts .all p
    ((∃ d, emit p file = .error d) ↔ ∃ b, ensureLowered p = .error b) ∧
    ((∃ d, emit p file = .error d) ↔ ∃ v ∈ vs, v.extension?.isSome) ∧
    ∀ d, emit p file = .error d → ensureLowered p = .error (.leftover, d.span) ∧
      ∃ before v after, vs = before ++ v :: after ∧ v.extension? = some d.span ∧ Standard before ∧
        ¬Enclosed vs before.length := by
  have hprint := Phrase.refused (.stmts p) 0
  have hfirst : firstExtension? p = ((walkStmts .all p).findSome? Visit.unlowered?).map (·.span) := by
    rw [firstExtension?, List.map_findSome?]
    exact congrArg (List.findSome? · _) (funext Visit.extension?_eq)
  intro vs
  have hemit (d : Diagnostic) : emit p file = .error d ↔
      ∃ u, vs.findSome? Visit.unlowered? = some u ∧ u.diagnostic file = d := by
    have hprint (u : Unlowered) : vs.findSome? Visit.unlowered? = some u ↔ printLines 0 p =
      .error u := (hprint u).symm
    simp only [hprint, emit]
    cases printLines 0 p with
    | ok text =>
      change Except.ok text = .error d ↔ _
      simp
    | error u =>
      change Except.error (u.diagnostic file) = .error d ↔ _
      simp
  have hcheck (d : Diagnostic) (h : emit p file = .error d) : firstExtension? p = some d.span := by
    obtain ⟨u, hu, rfl⟩ := (hemit d).1 h
    rw [hfirst, hu]
    rfl
  have hsome : (∃ d, emit p file = .error d) ↔ ∃ v ∈ vs, v.extension?.isSome := by
    rw [← List.findSome?_isSome_iff, ← firstExtension?, hfirst, Option.isSome_map, Option.isSome_iff_exists]
    simp only [hemit]
    constructor
    · rintro ⟨_, u, hu, _⟩
      exact ⟨u, hu⟩
    · rintro ⟨u, hu⟩
      exact ⟨_, u, hu, rfl⟩
  refine ⟨?_, hsome, fun d h => ⟨by rw [ensureLowered, hcheck d h], ?_⟩⟩
  · rw [hsome, ← List.findSome?_isSome_iff, ← firstExtension?, ensureLowered]
    cases firstExtension? p <;> simp
  · obtain ⟨before, v, after, hvs, hv, hbefore⟩ := List.findSome?_eq_some_iff.1 (hcheck d h)
    refine ⟨before, v, after, hvs, hv, hbefore, ?_⟩
    rw [show vs = _ from hvs]
    exact not_enclosed hbefore

/-- A raise of a try expression in a function, and another try expression behind it. -/
def scatteredLeftovers : Program :=
  let attempt (start : Nat) : Expr := .attempt ⟨0, [], none, [], none, none, ⟨start, start + 9, 1⟩, none, none⟩
  [.func ⟨some "f", [], .block [.raise 1 (attempt 20) ⟨14, 30, 1⟩], false, .plain, ⟨0, 32, 1⟩⟩,
    .expr (attempt 33) ⟨33, 43, 1⟩]

theorem printer_agrees_with_check_of_scatteredLeftovers :
    ∃ d, emit scatteredLeftovers "main.js" = .error d ∧ d.span = ⟨14, 30, 1⟩ ∧
      ensureLowered scatteredLeftovers = .error (.leftover, d.span) :=
  ⟨_, rfl, rfl, ((printer_agrees_with_check scatteredLeftovers "main.js").2.2 _ rfl).1⟩

end RaiseScript
