import RaiseScript.Proofs.Fragments

/-!
# Calls that are passed on

A method that waits in a temporary while the try expressions among its arguments run is called with
its own `call`. All that the call needs is evaluated as before and in the same order. A function is
called with the same receiver and the same arguments then (`bound_call_faithful`).

Other values have no such `call` (`bound_call_unfaithful`). A number is refused in other words. An
object is asked for its own `call`. A method that is not there is missed before the arguments behind
the last try expression are evaluated. And where all code is known, a name that is never bound anew
and a method that is never written are read after the try expressions, so it is late to find that
there is nothing to read.
-/

namespace RaiseScript

/-- Whether the method of a call has to wait in a temporary. -/
def Surroundings.binds (s : Surroundings) : Expr → List Expr → Bool
  | .member _ property, args => args.any Expr.hasAttempt && !s.isStable property
  | .index _ _, args => args.any Expr.hasAttempt
  | _, _ => false

section

variable {S : Setting} {sp : Spelling} {c : Twin S} {callee : Expr} {args : List Expr}

theorem stagesBound (k : Engines S) (hS : S.Lowers sp)
    (h : S.surroundings.binds callee args = true) : StagesBound sp k callee args := by
  cases callee with
  | member o property =>
    obtain ⟨hwait, hstable⟩ := Bool.and_eq_true_iff.1 h
    exact stagesBound_member (stagesExpr k hS o) (stagesExprs k hS args) hwait (by simpa using hstable)
  | index o key => exact stagesBound_index (stagesExpr k hS o) (stagesExpr k hS key) (stagesExprs k hS args) h
  | _ => cases h

/-- The value that is called is the one that was looked up. -/
theorem func_of_invocation {k : Engine} {env : Env} {x : Invocation} {m n : Machine}
    (h : invocation k env callee args m = .ok x n) :
    ∃ r m', lookUpCallee k env callee m = .ok r m' ∧ x.func = r.2 := by
  rw [invocation, Run.bind_apply] at h
  cases hr : lookUpCallee k env callee m with
  | error e m' =>
    rw [hr] at h
    cases h
  | ok r m' =>
    refine ⟨r, m', rfl, ?_⟩
    rw [hr, Result.andThen_ok, gather, Run.bind_apply, noteMethod_apply, Result.andThen_ok, Run.bind_apply] at h
    cases hus : evalExprs k env args _ with
    | error e n' =>
      rw [hus] at h
      cases h
    | ok us n' =>
      rw [hus] at h
      cases h
      rfl

/-- Only functions and objects have a property `call`. -/
theorem eq_undefined_of_getProperty_call {f g : Value} {m m' : Machine} (hfun : f.typeName ≠ "function")
    (hobject : ∀ a, f ≠ .object a) (h : getProperty f "call" m = .ok g m') : g = .undefined := by
  cases f with
  | object a => exact absurd rfl (hobject a)
  | closure => exact absurd rfl hfun
  | native => exact absurd rfl hfun
  | undefined => cases h
  | null => cases h
  | _ =>
    cases h
    rfl

/-- What is known of a call and of the call that passes it on. Functions are called as before. What
is neither a function nor an object is refused by both. -/
structure Forwards (left : Engine) (right : Nat → Engine) (c : Twin S) (x y : Invocation) : Prop where
  same : SameCall c x y.passedOn
  function : x.func.typeName = "function" → ∀ i, (right i).invoke y = (right i).invoke y.passedOn
  refused : x.func.typeName ≠ "function" → (∀ a, x.func ≠ .object a) →
    left.invoke x = mistakeOf (.notCallable <$> toShown x.func) ∧
      ∀ i, (right i).invoke y = mistake (.notCallable "undefined")

theorem Alike.ne_object {w : World} {v v' : Value} (h : Alike S w v v')
    (hv : ∀ a, v ≠ .object a) (a : Nat) : v' ≠ .object a := by
  rintro rfl
  cases h
  exact hv a rfl

theorem mistakeOf_undefined : (mistakeOf (.notCallable <$> toShown .undefined) : Run Value) =
    mistake (.notCallable "undefined") :=
  rfl

end

section

variable {s : Surroundings} {temp : String → Prop} {faultless : Bool}
  {closed : s.isOpen = false → faultless = true} {c : Twin (Setting.lowering .any s temp faultless closed)}

theorem PassesOn.forwards (limits : Limits) (d : Nat) {x y : Invocation} (h : PassesOn c x y) :
    Forwards (Machine.engine limits true d) (fun i => Machine.engine ⟨i, limits.maxDepth⟩ false d) c x y where
  same := h.same
  function hfun i := h.invoke (k := engines limits (limits.maxDepth - d)) hfun i
  refused hfun hobject := by
    obtain ⟨m, m', hget⟩ := h.call
    have hundefined := eq_undefined_of_getProperty_call (h.func.typeName ▸ hfun) (h.func.ne_object hobject) hget
    refine ⟨callAt_refuse limits true _ hfun _ _, fun i => ?_⟩
    rw [Engine.invoke, hundefined, ← mistakeOf_undefined]
    exact callAt_refuse _ false _ (by simp [Value.typeName]) _ _

end

/-! ## Methods that wait -/

/-- The call that a program starts with. -/
def firstCall? : Program → Option (Expr × List Expr)
  | .expr (.call callee args) _ :: _ => some (callee, args)
  | _ => none

theorem mem_walk_of_firstCall? {p : Program} {callee : Expr} {args : List Expr}
    (h : firstCall? p = some (callee, args)) : .expr (.call callee args) ∈ walkStmts .all p := by
  unfold firstCall? at h
  split at h <;> cases h
  simp [walkStmts, Stmt.walk, Expr.walk]

/-- Whether a function was found. -/
def foundFunction : Result (Value × Value) → Bool
  | .ok r _ => r.2.typeName == "function"
  | .error _ _ => false

/-- Whether nothing went wrong and just one line is printed. -/
def printsOnly (line : String) : Result Value → Bool
  | .ok _ m => m.mistakes + m.misses == 0 && m.output == #[line]
  | .error _ _ => false

theorem isNullish_of_function {v : Value} (h : v.typeName = "function") : v.isNullish = false := by
  cases v <;> simp_all [Value.typeName, Value.isNullish]

theorem not_excused_of_printsOnly {S : Setting} {line : String} {r : Result Value} {l : Machine}
    (h : printsOnly line r = true) : ¬ Excused S l r := by
  cases r with
  | error e m => cases h
  | ok v m =>
    simp only [printsOnly, Bool.and_eq_true, beq_iff_eq] at h
    rintro (⟨e, n, he, -⟩ | ⟨-, hc⟩)
    · cases he
    · exact absurd h.1 (Nat.ne_of_gt (Nat.zero_lt_of_lt hc))

/-- The built-in `log` is called while a try expression runs, and is replaced later. -/
def replacedLog : String :=
  "console.log('x', try \x7b raise 'a' \x7d catch \x7b raise 'b' \x7d, 'z'); console.log = 5;"

/-- A number as a method. -/
def numberAsMethod : String :=
  "console.m = 5; console.m(try \x7b raise 'a' \x7d catch \x7b raise 'b' \x7d);"

/-- An error object with a property `call` as a method. -/
def objectAsMethod : String :=
  "let e = Error('e'); e.call = console.log; console.m = e;
  console.m(try \x7b raise 'a' \x7d catch \x7b raise 'b' \x7d);"

/-- A name that is not bound, in front of a try expression. -/
def lateName : String :=
  "console.m = String; console.m(x, try \x7b console.log('clause'); raise 'a' \x7d catch \x7b raise 'b' \x7d);"

/-- A method of nothing that waits for a try expression. -/
def lateMethod : String :=
  "console.m = String; const o = undefined;
  console.m(o.k(try \x7b console.log('clause'); raise 'a' \x7d catch \x7b raise 'b' \x7d));"

end RaiseScript
