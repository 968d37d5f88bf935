import RaiseScript.Proofs.Methods

/-!
# Lowered code does what the code did

The rules for the single kinds of expressions and statements are put together by induction on the
tree (`stagesExpr`, `runsStmts`).
-/

set_option linter.unusedSectionVars false

namespace RaiseScript

variable {S : Setting} {sp : Spelling} {k : Engines S}

/-! ## The walk -/

section

variable (k) (hS : S.Lowers sp)

include hS

theorem stagesRules : LoweringRules (StagesExpr sp k) (StagesExprs sp k) (fun _ => True)
    (RunsStmt sp k) (RunsDecls sp k) (RunsCases sp k) (fun o => ∀ h ∈ o, RunsStmts sp k h.body)
    (fun o => ∀ ss ∈ o, RunsStmts sp k ss) (RunsStmts sp k) where
  leaf he := by
    cases he with
    | number x => exact stagesExpr_number x
    | string x => exact stagesExpr_string x
    | bool x => exact stagesExpr_bool x
    | null => exact stagesExpr_null
    | undefined => exact stagesExpr_undefined
    | this => exact stagesExpr_this
    | ident x => exact stagesExpr_ident x
    | yield delegate => exact stagesExpr_yieldNone delegate
  strict {e _} he hall hes := by
    by_cases hplain : e.IsPlain
    · exact stagesExpr_strict he hplain hes
    · cases he with
      | unary op e =>
        cases op with
        | typeName => exact stagesExpr_typeName (hall e List.mem_cons_self)
        | _ => exact absurd ⟨by simp, by simp⟩ hplain
      | yield e delegate => exact stagesExpr_yieldSome e delegate
      | _ => exact absurd ⟨by simp, by simp⟩ hplain
  logical op := stagesExpr_logical op
  assignIdent x := stagesExpr_assignIdent x
  assign htarget _ _ := by
    -- Nothing else is a target.
    intro hoists p q h _ _ _ htame
    have hspelled := htame.head.spelled
    simp [Visit.Spelled, htarget] at hspelled
  callMember x := stagesExpr_callMember x
  callIndex := stagesExpr_callIndex
  func _ := stagesExpr_func hS _
  attempt _ := stagesExpr_attempt hS
  nilExprs := stagesExprs_nil
  consExprs := stagesExprs_cons
  funcBlock _ := trivial
  funcExpr _ := trivial
  leafStmt hst := by
    cases hst with
    | jump kind span => exact runsStmt_jump kind span
    | ret span => exact runsStmt_retNone span
  around hm he := by
    cases hm with
    | expr span => exact runsStmt_expr span he
    | ret span => exact runsStmt_ret span he
    | throw span => exact runsStmt_throw span he
    | raise id span => exact runsStmt_raise id span he
  declare := runsStmt_declare
  block span := runsStmt_block hS span
  branch span := runsStmt_branch hS span
  branchElse span := runsStmt_branchElse hS span
  loop span := runsStmt_loop hS span
  switch span := runsStmt_switch span
  guarded span := runsStmt_guarded hS span
  funcStmt _ := runsStmt_func _
  nilDecls := runsDecls_nil
  bareDecl := runsDecls_none
  consDecls := runsDecls_some
  nilCases := runsCases_nil
  defaultCase := runsCases_default hS
  consCases := runsCases_test hS
  noHandler := by simp
  handler _ hbody := by simpa using hbody
  noBlock := by simp
  finalizer hbody := by simpa using hbody
  nilStmts := runsStmts_nil
  consStmts := runsStmts_cons

theorem stagesExpr (e : Expr) : StagesExpr sp k e :=
  (stagesRules k hS).onExpr e

theorem stagesExprs (es : List Expr) : StagesExprs sp k es :=
  (stagesRules k hS).onExprs es

/-- Statements are met by what became of them. -/
theorem runsStmts (ss : List Stmt) : RunsStmts sp k ss :=
  (stagesRules k hS).onStmts ss

end

end RaiseScript
