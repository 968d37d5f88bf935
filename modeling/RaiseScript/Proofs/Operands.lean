import RaiseScript.Proofs.Walk
import RaiseScript.Proofs.Supply

/-!
# Operators that evaluate all their operands

Most expressions are an operator and operands that are evaluated from left to right. `Expr.Strict`
says which, and `Expr.withOperands` puts other operands in place. All of them are lowered in one
way (`lowerExpr_strict`) : the operands one after the other, then the operator around what became
of them. What is left are leaves, logical operators, assignments to names, calls of methods,
functions and try expressions.

`Lower.bind_eq_ok` takes a lowering that succeeded apart into its steps.
-/

namespace RaiseScript

variable {p : Progress} {s : Surroundings} {h : Hoisted} {e : Expr} {es : List Expr}

/-! ## Steps of a lowering -/

namespace Lower

variable {α β : Type}

theorem bind_eq_ok {x : Lower α} {f : α → Lower β} {r : β × Progress} :
    (x >>= f) p = .ok r ↔ ∃ a q, x p = .ok (a, q) ∧ f a q = .ok r := by
  show (x p >>= fun y => f y.1 y.2) = .ok r ↔ _
  cases hx : x p with
  | error e => simp [bind, Except.bind]
  | ok y =>
    simp only [bind, Except.bind, Except.ok.injEq]
    constructor
    · intro h
      exact ⟨y.1, y.2, rfl, h⟩
    · rintro ⟨a, q, rfl, h⟩
      exact h

theorem bind_ok {x : Lower α} {f : α → Lower β} {q : Progress} {a : α} (h : x p = .ok (a, q)) :
    (x >>= f) p = f a q := by
  show (x p >>= fun y => f y.1 y.2) = f a q
  rw [h]
  rfl

@[simp] theorem pure_apply (a : α) (p : Progress) : (pure a : Lower α) p = .ok (a, p) := rfl

theorem pure_eq_ok {a : α} {r : α × Progress} : (pure a : Lower α) p = .ok r ↔ (a, p) = r := by
  rw [pure_apply, Except.ok.injEq]

theorem map_eq_ok {x : Lower α} {f : α → β} {b : β} {q : Progress} :
    (x >>= fun a => pure (f a)) p = .ok (b, q) ↔ ∃ a, f a = b ∧ x p = .ok (a, q) := by
  simp only [bind_eq_ok, pure_eq_ok, Prod.mk.injEq]
  constructor
  · rintro ⟨a, _, hx, rfl, rfl⟩
    exact ⟨a, rfl, hx⟩
  · rintro ⟨a, rfl, hx⟩
    exact ⟨a, q, hx, rfl, rfl⟩

@[simp] theorem get_apply (p : Progress) : (get : Lower Progress) p = .ok (p, p) := rfl

@[simp] theorem set_apply (q p : Progress) : (set q : Lower PUnit) p = .ok (⟨⟩, q) := rfl

@[simp] theorem liftM_apply (x : Except (Breach × Span) α) (p : Progress) :
    (liftM x : Lower α) p = x.map (·, p) := by
  cases x <;> rfl

end Lower

/-- What `freshName` does to the progress made so far. -/
def Progress.afterFresh (p : Progress) (role : String) : Progress :=
  ⟨(p.names.fresh role).2, p.lowered⟩

theorem freshName_apply (role : String) (p : Progress) :
    freshName role p = .ok ((p.names.fresh role).1, p.afterFresh role) := rfl

@[simp] theorem settle_false (s : Surroundings) (h : Hoisted) : settle s false h = pure h := rfl

@[simp] theorem settle_true (s : Surroundings) (h : Hoisted) : settle s true h = spill s h := rfl

/-- An operand is left alone, or it goes into a temporary. -/
theorem spill_eq_ok {h' : Hoisted} {p' : Progress} : spill s h p = .ok (h', p') ↔
      (s.isInert p.names h.value = true ∧ h' = h ∧ p' = p) ∨
      (s.isInert p.names h.value = false ∧ p' = p.afterFresh "spill" ∧
        h' = ⟨h.before ++ [.declare .constant [⟨(p.names.fresh "spill").1, some h.value⟩] .none],
          .ident (p.names.fresh "spill").1⟩) := by
  unfold spill
  rw [Lower.bind_ok (Lower.get_apply p)]
  cases hi : s.isInert p.names h.value with
  | true =>
    simp only [if_true, Lower.pure_apply, Except.ok.injEq, Prod.mk.injEq]
    constructor
    · rintro ⟨rfl, rfl⟩
      exact Or.inl ⟨trivial, rfl, rfl⟩
    · rintro (⟨-, rfl, rfl⟩ | ⟨hf, -⟩)
      · exact ⟨rfl, rfl⟩
      · cases hf
  | false =>
    rw [if_neg Bool.false_ne_true, Lower.bind_ok (freshName_apply "spill" p)]
    simp only [Lower.pure_apply, Except.ok.injEq, Prod.mk.injEq]
    constructor
    · rintro ⟨rfl, rfl⟩
      exact Or.inr ⟨trivial, rfl, rfl⟩
    · rintro (⟨hf, -⟩ | ⟨-, rfl, rfl⟩)
      · cases hf
      · exact ⟨rfl, rfl⟩

/-! ## What a lowering gives -/

/-- The last step in lowering a try expression, whose clauses are lowered already. -/
def lowerAttempt (t : TryExpr) : Lower LoweredAttempt := do
  let p ← get
  let (lowered, names) ← lowerNode t p.names
  set (Progress.mk names (p.lowered + 1))
  return lowered

theorem lowerAttempt_apply (t : TryExpr) (p : Progress) :
    lowerAttempt t p = (lowerNode t p.names).map fun l => (l.1, ⟨l.2, p.lowered + 1⟩) := by
  rw [lowerAttempt, Lower.bind_ok (Lower.get_apply p)]
  show ((liftM (lowerNode t p.names) : Lower _) p >>= _) = _
  rw [Lower.liftM_apply]
  cases lowerNode t p.names <;> rfl

theorem lowerNode_eq_ok {t : TryExpr} {names : Names} {r : LoweredAttempt × Names}
    (h : lowerNode t names = .ok r) :
    r = (t.stored (names.fresh "raise").1, (names.fresh "raise").2) := by
  unfold lowerNode at h
  split at h
  · cases h
  · cases h
  · cases hc : checkOwned (t.raises.getD t.sites) t with
    | error b => rw [hc] at h; cases h
    | ok _ => rw [hc] at h; cases h; rfl

/-- Whenever the lowering succeeds with a supply drawn from `a`, it leaves one drawn from `a`, and
the result has the property. -/
def Lower.Gives {α : Type} (a : Names) (x : Lower α) (P : α → Prop) : Prop :=
  ∀ p, a.Draws p.names → ∀ r q, x p = .ok (r, q) → a.Draws q.names ∧ P r

namespace Lower.Gives

variable {α β : Type} {a : Names} {x y : Lower α} {f : α → Lower β} {P Q : α → Prop} {R : β → Prop}

theorem pure {r : α} (h : P r) : Gives a (Pure.pure r) P := by
  intro p hp b q hb
  obtain ⟨rfl, rfl⟩ := Prod.mk.inj (Lower.pure_eq_ok.1 hb)
  exact ⟨hp, h⟩

theorem bind (hx : x.Gives a P) (hf : ∀ r, P r → (f r).Gives a R) : (x >>= f).Gives a R := by
  intro p hp b q hb
  obtain ⟨r, q', hr, hb⟩ := Lower.bind_eq_ok.1 hb
  obtain ⟨hq', hr⟩ := hx p hp r q' hr
  exact hf r hr q' hq' b q hb

theorem ite {c : Prop} [Decidable c] (hx : c → x.Gives a P) (hy : ¬ c → y.Gives a P) :
    Gives a (if c then x else y) P := by
  split
  · next h => exact hx h
  · next h => exact hy h

theorem and (hP : x.Gives a P) (hQ : x.Gives a Q) : x.Gives a fun r => P r ∧ Q r :=
  fun p hp r q h => ⟨(hP p hp r q h).1, (hP p hp r q h).2, (hQ p hp r q h).2⟩

theorem freshName (role : String) : (RaiseScript.freshName role).Gives a fun x => ∃ n, x = a.candidate role n := by
  intro p hp x q hx
  obtain ⟨rfl, rfl⟩ := Prod.mk.inj (Except.ok.inj ((freshName_apply role p).symm.trans hx))
  exact ⟨.fresh hp role, _, hp.grows.candidate role _⟩

/-- An operand is left alone, or it goes into a temporary. -/
theorem spill {P : Hoisted → Prop} (hstays : P h)
    (hmoves : ∀ x, P ⟨h.before ++ [.declare .constant [⟨x, some h.value⟩] .none], .ident x⟩) :
    (RaiseScript.spill s h).Gives a P := by
  intro p hp h' q hq
  rcases spill_eq_ok.1 hq with ⟨-, rfl, rfl⟩ | ⟨-, rfl, rfl⟩
  · exact ⟨hp, hstays⟩
  · exact ⟨.fresh hp "spill", hmoves _⟩

theorem settle {follows : Bool} {P : Hoisted → Prop} (hstays : P h)
    (hmoves : follows = true → ∀ x, P ⟨h.before ++ [.declare .constant [⟨x, some h.value⟩] .none], .ident x⟩) :
    (RaiseScript.settle s follows h).Gives a P := by
  cases follows with
  | false => exact .pure hstays
  | true => exact .spill hstays (hmoves rfl)

theorem lowerAttempt (t : TryExpr) :
    (RaiseScript.lowerAttempt t).Gives a fun l => ∃ n, l = t.stored (a.candidate "raise" n) := by
  intro p hp l q hl
  rw [lowerAttempt_apply] at hl
  cases hn : lowerNode t p.names with
  | error b => rw [hn] at hl; cases hl
  | ok r =>
    rw [hn] at hl
    cases hl
    obtain rfl := lowerNode_eq_ok hn
    exact ⟨.fresh hp "raise", _, congrArg t.stored (hp.grows.candidate "raise" _)⟩

end Lower.Gives

/-! ## Strict operators -/

namespace Expr

/-- The expression is an operator that evaluates all the operands, from left to right. -/
inductive Strict : Expr → List Expr → Prop
  | array (items : List Expr) : Strict (.array items) items
  | unary (op : UnaryOp) (a : Expr) : Strict (.unary op a) [a]
  | binary (op : BinaryOp) (a b : Expr) : Strict (.binary op a b) [a, b]
  | assignMember (object : Expr) (property : String) (value : Expr) :
    Strict (.assign (.member object property) value) [object, value]
  | assignIndex (object key value : Expr) :
    Strict (.assign (.index object key) value) [object, key, value]
  | member (object : Expr) (property : String) : Strict (.member object property) [object]
  | index (object key : Expr) : Strict (.index object key) [object, key]
  | call (callee : Expr) (args : List Expr) (hm : ∀ o q, callee ≠ .member o q)
    (hi : ∀ o i, callee ≠ .index o i) : Strict (.call callee args) (callee :: args)
  | await (a : Expr) : Strict (.await a) [a]
  | yield (a : Expr) (delegate : Bool) : Strict (.yield (some a) delegate) [a]

/-- The operator with other operands. -/
def withOperands : Expr → List Expr → Expr
  | .array _, vs => .array vs
  | .unary op _, [a] => .unary op a
  | .binary op _ _, [a, b] => .binary op a b
  | .assign (.member _ property) _, [object, value] => .assign (.member object property) value
  | .assign (.index _ _) _, [object, key, value] => .assign (.index object key) value
  | .member _ property, [object] => .member object property
  | .index _ _, [object, key] => .index object key
  | .call _ _, callee :: args => .call callee args
  | .await _, [a] => .await a
  | .yield _ delegate, [a] => .yield (some a) delegate
  | e, _ => e

/-- There is another operand for each operand of a strict operator. -/
inductive Refills : Expr → List Expr → List Expr → Prop
  | array (items items' : List Expr) : Refills (.array items) items items'
  | unary {op : UnaryOp} {a a' : Expr} : Refills (.unary op a) [a] [a']
  | binary {op : BinaryOp} {a b a' b' : Expr} : Refills (.binary op a b) [a, b] [a', b']
  | assignMember {o v o' v' : Expr} {q : String} : Refills (.assign (.member o q) v) [o, v] [o', v']
  | assignIndex {o i v o' i' v' : Expr} : Refills (.assign (.index o i) v) [o, i, v] [o', i', v']
  | member {o o' : Expr} {q : String} : Refills (.member o q) [o] [o']
  | index {o i o' i' : Expr} : Refills (.index o i) [o, i] [o', i']
  | call (callee callee' : Expr) (args args' : List Expr) :
    Refills (.call callee args) (callee :: args) (callee' :: args')
  | await {a a' : Expr} : Refills (.await a) [a] [a']
  | yield {a a' : Expr} {delegate : Bool} : Refills (.yield (some a) delegate) [a] [a']

theorem Strict.refills (he : e.Strict es) {vs : List Expr} (hl : vs.length = es.length) : Refills e es vs := by
  cases he with
  | array => exact .array _ vs
  | call callee args =>
    obtain _ | ⟨a, vs⟩ := vs
    · simp at hl
    · exact .call callee a args vs
  | assignIndex =>
    obtain _ | ⟨a, _ | ⟨b, _ | ⟨c, _ | _⟩⟩⟩ := vs <;> simp at hl
    constructor
  | binary | index | assignMember =>
    obtain _ | ⟨a, _ | ⟨b, _ | _⟩⟩ := vs <;> simp at hl
    constructor
  | unary | await | yield | member =>
    obtain _ | ⟨a, _ | _⟩ := vs <;> simp at hl
    constructor

theorem Strict.self_mem_walk (he : e.Strict es) (r : Reach) : .expr e ∈ e.walk r := by
  cases he <;> simp [walk]

theorem Strict.mem_walk {r : Reach} (he : e.Strict es) {v : Visit} (hv : v ∈ walkExprs r es) :
    v ∈ e.walk r := by
  cases he <;> simp only [walkExprs, walk, List.append_nil, List.mem_append, List.mem_cons] at hv ⊢ <;>
    tauto

theorem Strict.hasAttempt (he : e.Strict es) : e.hasAttempt = es.any Expr.hasAttempt := by
  cases he <;> simp [Bool.or_assoc]

end Expr

/-- A property or an item, by name or by computed key. Calls of such expressions have a receiver. -/
def Expr.isPlace : Expr → Bool
  | .member _ _ => true
  | .index _ _ => true
  | _ => false

/-- What has become of an expression is evaluated in a special way only where the expression was. -/
structure KeepsForm (e e' : Expr) (names : Names) : Prop where
  place : e'.isPlace = true → e.isPlace = true
  name : ∀ x, e' = .ident x → e = .ident x ∨ x ∈ names.issued

theorem Expr.Strict.keepsForm {vs : List Expr} (he : e.Strict es) (hl : vs.length = es.length)
    (names : Names) : KeepsForm e (e.withOperands vs) names := by
  cases he.refills hl <;> exact ⟨id, by simp [withOperands]⟩

theorem lowerExpr_strict (s : Surroundings) (hoists : Bool) (he : e.Strict es) : lowerExpr s hoists e = do
      let r ← lowerOperands s hoists es
      return ⟨r.1, e.withOperands r.2⟩ := by
  cases he with
  | array => simp only [lowerExpr, Expr.withOperands]
  | _ =>
    simp only [lowerExpr, lowerOperands, Expr.withOperands, bind_assoc, pure_bind, List.any_cons,
      List.any_nil, Bool.or_false, Bool.and_false, settle_false, List.append_nil, List.append_assoc]

end RaiseScript
