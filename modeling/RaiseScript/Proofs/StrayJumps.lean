import RaiseScript.Proofs.Targets

/-!
# Jumps outside of loops

A `break` or a `continue` that stands in no loop of its function ends all the statements around it,
unless a finally block ends otherwise (`Escapes.ended`). The same holds of a `break` in no switch
and no loop. A program that is left in this way is given up. A function that is left in this way is
not : its call gives undefined, and the program goes on (`stray_jump_ends`).
-/

namespace RaiseScript

/-- How a jump ends a statement. -/
def Jump.exit : Jump → Exit
  | .leave => .broke
  | .again => .continued

/-- When the statements run, a jump has its turn that nothing around it catches, and then the
finally blocks over it come to their ends. They leave the last machine. -/
def Engine.Strays (k : Engine) (jump : Jump) (env : Env) (ss : List Stmt) (m u : Machine) : Prop :=
  ∃ env' sp n pending l, k.Escapes jump.exit env ss m env' (.jump jump sp) n pending ∧
    execStmt k env' (.jump jump sp) n = .error jump.exit l ∧ execPending k pending l = .ok () u

theorem Engine.Strays.ended {limits : Limits} {jump : Jump} {env : Env} {ss : List Stmt}
    {m u : Machine} (h : (Engine.unbounded limits).Strays jump env ss m u) :
    execAll (.unbounded limits) env ss m = .error jump.exit u := by
  obtain ⟨env', sp, n, pending, l, hescapes, hjump, hpending⟩ := h
  exact hescapes.ended hjump hpending

/-- A jump that nothing catches gives up the program if the program itself comes to it. If a
function comes to it, the call of the function ends and gives undefined. -/
theorem stray_jump_ends (limits : Limits) (jump : Jump) :
    (∀ {p : Program} {m n u : Machine}, declareFunctions Machine.globals p m = .ok () n →
      (Engine.unbounded limits).Strays jump Machine.globals p n u →
      m.run limits false p = (.error (.failed (.unsupported .strayJump)), u)) ∧
    ∀ {f : Func} {body : List Stmt} {outer env : Env} {this captured : Value} {args : List Value}
      {id : Nat} {m n u : Machine}, f.form ≠ .generator → m.depth < limits.maxDepth →
      f.body = .block body → openCall f body outer (if f.form == .arrow then captured else this)
      args m = .ok env n → (Engine.unbounded limits).Strays jump env body n u →
      ∃ w, (Engine.unbounded limits).call (.closure id f outer captured) this args m =
        .ok .undefined w ∧ w.output = u.output := by
  refine ⟨fun {p m n u} hn hstrays => ?_, fun hform hdepth hb ho hstrays => ?_⟩
  · have hbody : Machine.body limits false m.depth p m = .error jump.exit u := by
      rw [body_eq_unbounded, Run.bind_ok hn, hstrays.ended]
    rw [Machine.run, hbody]
    cases jump <;> rfl
  · have hvalue : jump.exit.value? = some .undefined := by cases jump <;> rfl
    exact call_of_ended hvalue hform hdepth hb ho hstrays.ended

/-- A `continue` in a try statement with a finally block. -/
def strayBody : List Stmt :=
  [.guarded [.jump .again ⟨22, 31, 1⟩] none (some [.expr (.string "last") ⟨45, 52, 1⟩]) ⟨16, 54, 1⟩]

theorem stray_jump_ends_of_strayBody :
    let k := Engine.unbounded ⟨100, 10⟩
    let f : Func := ⟨some "f", [], .block strayBody, false, .plain, ⟨0, 56, 1⟩⟩
    (∃ u, k.Strays .again Machine.globals strayBody Machine.start u ∧
      Machine.start.run ⟨100, 10⟩ false strayBody = (.error (.failed (.unsupported .strayJump)), u)) ∧
    ∃ env n u, openCall f strayBody Machine.globals .undefined [] Machine.start = .ok env n ∧
      k.Strays .again env strayBody n u ∧
      ∃ w, k.call (.closure 3 f Machine.globals .undefined) .undefined [] Machine.start = .ok .undefined w := by
  intro k f
  obtain ⟨hprogram, hcall⟩ := stray_jump_ends ⟨100, 10⟩ .again
  obtain ⟨u, hu⟩ : ∃ u, k.Strays .again Machine.globals strayBody Machine.start u :=
    ⟨_, _, _, _, _, _, @Engine.Escapes.inside _ _ _ _ _ [] [] _ _ _ _ _ _ _ _ _ _ rfl rfl
      (.guarded rfl) (@Engine.Escapes.here _ _ _ [] [] _ _ _ rfl), rfl, rfl⟩
  obtain ⟨env, n, ho, u', hu'⟩ : ∃ env n, openCall f strayBody Machine.globals .undefined
      [] Machine.start = .ok env n ∧ ∃ u, k.Strays .again env strayBody n u :=
    ⟨_, _, rfl, _, _, _, _, _, _, @Engine.Escapes.inside _ _ _ _ _ [] [] _ _ _ _ _ _ _ _ _ _ rfl rfl
      (.guarded rfl) (@Engine.Escapes.here _ _ _ [] [] _ _ _ rfl), rfl, rfl⟩
  have hw : ∃ w, k.call (.closure 3 f Machine.globals .undefined) .undefined [] Machine.start =
      .ok .undefined w ∧ w.output = u'.output := hcall (by decide) (by decide) rfl ho hu'
  exact ⟨⟨u, hu, hprogram rfl hu⟩, env, n, u', ho, hu', hw.imp fun w h => h.1⟩

/-- A function that a jump leaves, and a line that is printed after the call. -/
def leftFunction : String :=
  "function f() \x7b break; \x7d f(); console.log('after');"

/-- The jump does not give up the program. -/
theorem stray_jump_swallowed :
    ∃ p, parse leftFunction "main.js" = .ok p ∧ (Machine.start.run ⟨100, 10⟩ false p).1 = .ok () ∧
      (Machine.start.run ⟨100, 10⟩ false p).2.output = #["after"] := by
  have hlook : ((parse leftFunction "main.js").toOption.any fun p =>
      decide ((Machine.start.run ⟨100, 10⟩ false p).1 = .ok () ∧
        (Machine.start.run ⟨100, 10⟩ false p).2.output = #["after"])) = true := by decide +kernel
  obtain ⟨p, hp, hrun⟩ := Except.exists_of_any hlook
  exact ⟨p, hp, of_decide_eq_true hrun⟩

end RaiseScript
