import RaiseScript.Proofs.Walk

/-!
# Raises stored in a temporary

`storeAll` changes nothing where nothing raises (`storeAll_eq_self`). It looks at the raises that
stand directly in the statements : those inside functions and inside other try expressions are not
changed.
-/

namespace RaiseScript

/-! ## One statement for many -/

@[simp] theorem storeRaises_asBranch (t : String) (span : Span) :
    ∀ ss : List Stmt, (asBranch span ss).storeRaises t = asBranch span (storeAll t ss)
  | [] => rfl
  | [_] => rfl
  | _ :: _ :: _ => rfl

@[simp] theorem raiseSites_asBranch (c : Clause) (span : Span) :
    ∀ ss : List Stmt, raiseSites c ((asBranch span ss).walk .surface) =
      raiseSites c (walkStmts .surface ss)
  | [] => rfl
  | [_] => by simp [asBranch, walkStmts]
  | _ :: _ :: _ => rfl

/-! ## Where nothing raises -/

@[simp] theorem storeAll_append (t : String) :
    ∀ ss ts : List Stmt, storeAll t (ss ++ ts) = storeAll t ss ++ storeAll t ts
  | [], _ => rfl
  | s :: ss, ts => by simp only [List.cons_append, storeAll, storeAll_append t ss ts]

/-- A phrase with the raises that stand directly in it stored. -/
@[simp] def Phrase.storeRaises (t : String) : Phrase → Phrase
  | .stmt s => .stmt (s.storeRaises t)
  | .cases cs => .cases (storeInCases t cs)
  | .handler h => .handler (storeInHandler t h)
  | .block b => .block (storeInBlock t b)
  | .stmts ss => .stmts (storeAll t ss)
  | .expr e => .expr e
  | .exprs es => .exprs es
  | .func f => .func f
  | .attempt t => .attempt t
  | .decls ds => .decls ds

section

attribute [local simp] Stmt.storeRaises storeInCases storeInHandler storeInBlock storeAll
  Stmt.walk walkCases walkHandler walkBlock walkStmts

/-- A phrase that raises nothing is left as it is. -/
theorem Phrase.storeRaises_eq_self (t : String) (c : Clause) (p : Phrase)
    (h : raiseSites c (p.walk .surface) = []) : p.storeRaises t = p := by
  induction p with
  | _ => simp_all

theorem storeAll_eq_self (t : String) (c : Clause) (ss : List Stmt)
    (h : raiseSites c (walkStmts .surface ss) = []) : storeAll t ss = ss :=
  Phrase.stmts.inj (Phrase.storeRaises_eq_self t c (.stmts ss) h)

end

/-! ## Standard trees raise nothing -/

theorem raiseSites_of_standard (c : Clause) (ss : List Stmt) (h : Standard (walkStmts .all ss)) :
    raiseSites c (walkStmts .surface ss) = [] := by
  refine List.filterMap_eq_nil_iff.2 fun v hv => ?_
  have hnone := h v ((surface_sublist (.stmts ss)).subset hv)
  unfold Visit.raiseSite?
  split
  · cases hnone
  · rfl

theorem storeAll_of_standard (t : String) {ss : List Stmt}
    (h : Standard (walkStmts .all ss)) : storeAll t ss = ss :=
  storeAll_eq_self t .body ss (raiseSites_of_standard .body ss h)

end RaiseScript
