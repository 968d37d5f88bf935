import RaiseScript.Proofs.ReachedStatements

/-!
# What a clause does to the function around it

A `return` in a clause of a try expression ends the function that the clause belongs to, and a `var`
there is seen in the rest of that function (`clauses_keep_function`). For a try expression that is
hoisted this is the function around it. A try expression in the body of an arrow function or in the
test of a case is a function of its own, so what its clauses do stays inside
(`clauses_lose_function`).
-/

namespace RaiseScript

variable {limits : Limits}
variable {m n u : Machine} {x : String} {env env' outer : Env} {v this captured : Value}
  {ds : List Declarator} {d : Declarator} {sp : Span} {f : Func} {body : List Stmt}
  {args : List Value} {e : Exit} {id : Nat} {own : Link} {around : List Link}

/-! ## Names that stay -/

theorem Machine.isSome_find?_append {chain : List Link} (hx : (m.find? x chain).isSome) :
    ∀ more : List Link, (m.find? x (more ++ chain)).isSome
  | [] => hx
  | l :: more => by
    rw [List.cons_append, Machine.find?_cons, Option.isSome_or, Machine.isSome_find?_append hx more,
      Bool.or_true]

/-- The scopes of a function whose own scope is there. -/
def Env.IsBody (env : Env) (m : Machine) : Prop :=
  ∃ i outer, env.chain = ⟨i, true⟩ :: outer ∧ i < m.scopes.size

theorem Env.IsBody.lt (hb : env.IsBody m) (h : env.chain = own :: around) : own.scope < m.scopes.size := by
  obtain ⟨i, outer, hchain, hlt⟩ := hb
  cases h.symm.trans hchain
  exact hlt

theorem Env.IsBody.prolongs (hb : env.IsBody m) (h : m.Prolongs n) : env.IsBody n := by
  obtain ⟨i, outer, hchain, hlt⟩ := hb
  exact ⟨i, outer, hchain, Nat.lt_of_lt_of_le hlt h.retains.size⟩

theorem Env.Inside.bodyChain (h : env'.Inside env) (hb : env.IsBody m) :
    RaiseScript.bodyChain env'.chain = env.chain := by
  obtain ⟨more, hmore, hinner⟩ := h
  obtain ⟨i, outer, hchain, -⟩ := hb
  rw [hmore, hchain, RaiseScript.bodyChain, List.dropWhile_append_of_pos (by simpa using hinner)]
  rfl

theorem declareInBody_eq (hbody : bodyChain env.chain = own :: around) (x : String)
    (v : Option Value) (m : Machine) :
    declareInBody env x v m = .ok () (if v.isSome || (m.find? x (own :: around)).isNone then
      m.declare own.scope x ⟨v.getD .undefined, true⟩ else m) := by
  change (if v.isSome || (m.lookup? x (bodyChain env.chain)).isNone then
    declareHere ⟨bodyChain env.chain, none⟩ x (v.getD .undefined) true else pure () : Run Unit) m = _
  rw [hbody, Machine.lookup?, Option.isNone_map]
  split <;> rfl

/-- After a `var` the name is bound in the scope of the function, unless it has no value and is seen
around that scope. -/
theorem bound_of_declareInBody {v : Option Value} (hbody : bodyChain env.chain = own :: around)
    (hlt : own.scope < m.scopes.size) (h : declareInBody env x v m = .ok () u)
    (hslip : v = none → u.find? x around = none) : (lookupIn u.scopes own.scope x).isSome := by
  rw [declareInBody_eq hbody] at h
  cases h
  split at hslip
  · next hbinds => rw [if_pos hbinds, Machine.lookupIn_declare, if_pos ⟨rfl, rfl, hlt⟩]; rfl
  · next hseen =>
    rw [Bool.or_eq_true, not_or, Bool.not_eq_true, Option.isSome_eq_false_iff, Option.isNone_iff_eq_none] at hseen
    have hfind : (m.find? x (own :: around)).isSome := by simpa [Option.isSome_iff_ne_none] using hseen.2
    rw [Machine.find?_cons, hslip hseen.1, Option.or_none, Option.isSome_map] at hfind
    rwa [if_neg (by simp [hseen])]

/-- After a `var` the name of its last declarator is bound in the scope of the function. -/
theorem bound_of_declare (hbody : bodyChain env.chain = own :: around) (hlt : own.scope < m.scopes.size)
    (h : execStmt (.unbounded limits) env (.declare .functionWide (ds ++ [d]) sp) m = .ok () u)
    (hslip : d.init = none → u.find? d.name around = none) :
    (lookupIn u.scopes own.scope d.name).isSome := by
  rw [execStmt_declare, execDecls_append, ← bind_assoc] at h
  obtain ⟨⟨⟩, l, hl, h⟩ := Run.bind_eq_ok.1 h
  have hltl := Nat.lt_of_lt_of_le hlt (Rising.of_ok hl).retains.size
  obtain ⟨x, _ | init⟩ := d
  · rw [execDecls] at h
    obtain ⟨⟨⟩, l', hl', h⟩ := Run.bind_eq_ok.1 h
    cases h
    exact bound_of_declareInBody hbody hltl hl' fun _ => hslip rfl
  · rw [execDecls] at h
    obtain ⟨v, l', hl', h⟩ := Run.bind_eq_ok.1 h
    obtain ⟨⟨⟩, l'', hl'', h⟩ := Run.bind_eq_ok.1 h
    cases h
    exact bound_of_declareInBody hbody (Nat.lt_of_lt_of_le hltl (Rising.of_ok hl').retains.size)
      hl'' fun hv => by cases hv

/-- What a declaration leaves comes after what some of its declarators leave. -/
theorem prolongs_of_declare {kind : BindingKind}
    (h : execStmt (.unbounded limits) env (.declare kind (ds ++ [d]) sp) m = .ok () u) (es : List Declarator) :
    u.Prolongs (Result.final (execStmt (.unbounded limits) env (.declare kind (ds ++ d :: es) sp) m)) := by
  rw [execStmt_declare] at h ⊢
  rw [← List.singleton_append, ← List.append_assoc, execDecls_append, ← bind_assoc, Run.bind_ok h]
  exact (rising_execDecls (.unbounded limits) env kind es).rises u

/-! ## Calls -/

/-- The scope of a call, with what is bound in it when its body starts. -/
def openCall (f : Func) (body : List Stmt) (outer : Env) (this : Value) (args : List Value) : Run Env := do
  let env ← newScope ⟨outer.chain, none⟩ true
  bindParams env f.params args
  modify fun m => { m with this, depth := m.depth + 1 }
  declareFunctions env body
  return env

theorem isBody_of_openCall (h : openCall f body outer this args m = .ok env n) : env.IsBody n := by
  obtain ⟨_, l₁, h₁, h⟩ := Run.bind_eq_ok.1 h
  obtain ⟨⟨⟩, l₂, h₂, h⟩ := Run.bind_eq_ok.1 h
  obtain ⟨⟨⟩, l₃, h₃, h⟩ := Run.bind_eq_ok.1 h
  obtain ⟨⟨⟩, l₄, h₄, h⟩ := Run.bind_eq_ok.1 h
  cases h
  cases h₁
  cases h₃
  have hsize₂ := (Rising.of_ok h₂).retains.size
  have hsize₄ := (Rising.of_ok h₄).retains.size
  simp only [Array.size_push] at hsize₂ hsize₄
  exact ⟨_, _, rfl, by omega⟩

/-- What a function gives when its body ends so. -/
def Exit.value? : Exit → Option Value
  | .returned v => some v
  | .broke | .continued => some .undefined
  | .thrown _ | .failed _ => none

theorem runBody_of_ended {k : Engine} (he : e.value? = some v) (hn : declareFunctions env body m = .ok () n)
    (hr : execAll k env body n = .error e u) : runBody k env (.block body) m = .ok v u := by
  have hbody : (do declareFunctions env body; execAll k env body; return .undefined : Run Value) m =
    .error e u := by
    rw [Run.bind_ok hn, Run.bind_error hr]
  cases e with
  | thrown | failed => cases he
  | returned | broke | continued =>
    cases he
    exact Run.bind_ok (outcome_error hbody)

/-- A call whose body ends in one of these ways gives a value, with nothing more printed. -/
theorem call_of_ended (he : e.value? = some v) (hform : f.form ≠ .generator)
    (hdepth : m.depth < limits.maxDepth) (hb : f.body = .block body)
    (ho : openCall f body outer (if f.form == .arrow then captured else this) args m = .ok env n)
    (hr : execAll (.unbounded limits) env body n = .error e u) :
    ∃ w, (Engine.unbounded limits).call (.closure id f outer captured) this args m = .ok v w ∧
      w.output = u.output := by
  obtain ⟨_, l₁, h₁, ho⟩ := Run.bind_eq_ok.1 ho
  obtain ⟨⟨⟩, l₂, h₂, ho⟩ := Run.bind_eq_ok.1 ho
  obtain ⟨⟨⟩, l₃, h₃, ho⟩ := Run.bind_eq_ok.1 ho
  obtain ⟨⟨⟩, l₄, h₄, ho⟩ := Run.bind_eq_ok.1 ho
  cases ho
  have hbody := runBody_of_ended he h₄ hr
  have hresolve : resolveCall (.closure id f outer captured) this args =
      (.closure id f outer captured, this, args) := by
    cases args <;> rfl
  have hform' : (f.form == .generator) = false := by simpa using hform
  rw [(ties_iff.2 rfl).call, callWithBody, hresolve]
  dsimp only
  rw [enter, hform', if_neg Bool.false_ne_true, Run.bind_ok (Run.get_apply m),
    if_neg (Nat.not_le.2 hdepth), Run.bind_ok h₁, Run.bind_ok h₂, Run.bind_ok (Run.get_apply l₂),
    Run.bind_ok h₃, hb, Run.bind_ok (outcome_ok hbody)]
  exact ⟨_, rfl, rfl⟩

/-- The statements run in `env` from the machine on as the body of a function of `q`, given by its
place, or as the program `q` itself. -/
inductive Frame (q : Program) : Option Span → Env → List Stmt → Machine → Prop
  | program {m n : Machine} (hm : 0 < m.scopes.size)
    (h : declareFunctions Machine.globals q m = .ok () n) : Frame q none Machine.globals q n
  | call {f : Func} {body : List Stmt} {outer env : Env} {this : Value} {args : List Value}
    {m n : Machine} (hf : .func f ∈ walkStmts .all q) (hb : f.body = .block body)
    (h : openCall f body outer this args m = .ok env n) : Frame q (some f.span) env body n

namespace Frame

variable {q : Program} {home : Option Span} {ss : List Stmt}

theorem isBody (h : Frame q home env ss m) : env.IsBody m := by
  cases h with
  | program hm h => exact ⟨0, [], rfl, Nat.lt_of_lt_of_le hm (Rising.of_ok h).retains.size⟩
  | call _ _ h => exact isBody_of_openCall h

/-- What stands in the body of a function stands in the program. -/
theorem anchors (h : Frame q home env ss m) {a : Anchored} (ha : a ∈ anchorsOfStmts home ss) :
    a ∈ q.anchors := by
  cases h with
  | program _ _ => exact ha
  | @call f _ _ _ _ _ _ _ hf hb _ =>
    refine Phrase.anchors_of_visit ?_ false none (.stmts q) hf
    obtain ⟨_, _, _, _, _, _⟩ := f
    cases hb
    exact ha

end Frame

/-! ## The functions of clauses -/

/-- Clauses work on the function that they belong to. Lowering leaves every `return` and every `var`
to its function : the one around a try expression that is hoisted, the one made for a try expression
that is wrapped. When a call of a function comes to a `return`, then the `return` belongs to it, and
the call gives the value that is returned, once the finally blocks around the `return` have come to
their ends. When a function or the program comes to a `var`, then the `var` belongs to it. From then
on the scope of the function itself binds the name, and every statement that it comes to later sees
it there, unless the `var` gives no value and the name is seen around the function already. -/
theorem clauses_keep_function {beginning : String} {p q : Program} {progress : Progress}
    (h : lowerProgram beginning p = .ok (q, progress)) (limits : Limits) :
    (∀ a, a ∈ q.anchors ↔ a ∈ p.anchors) ∧
    (∀ {f : Func} {body : List Stmt} {outer env env' : Env} {this captured v : Value} {args : List Value}
      {id : Nat} {arg : Option Expr} {sp : Span} {m n n' u u' : Machine}
      {pending : List (Env × Option (List Stmt))},
      .func f ∈ walkStmts .all q → f.body = .block body → f.form ≠ .generator →
      m.depth < limits.maxDepth →
      openCall f body outer (if f.form == .arrow then captured else this) args m = .ok env n →
      (Engine.unbounded limits).Reaches env body n env' (.ret arg sp) n' pending →
      execStmt (.unbounded limits) env' (.ret arg sp) n' = .error (.returned v) u →
      execPending (.unbounded limits) pending u = .ok () u' →
      ⟨some f.span, .ret sp⟩ ∈ p.anchors ∧
        ∃ w, (Engine.unbounded limits).call (.closure id f outer captured) this args m = .ok v w) ∧
    (∀ {home : Option Span} {env env' : Env} {own : Link} {around : List Link} {ss : List Stmt}
      {ds es : List Declarator} {d : Declarator} {sp : Span} {m n u : Machine}
      {pending : List (Env × Option (List Stmt))},
      Frame q home env ss m → env.chain = own :: around →
      (Engine.unbounded limits).Reaches env ss m env' (.declare .functionWide (ds ++ d :: es) sp) n pending →
      execStmt (.unbounded limits) env' (.declare .functionWide (ds ++ [d]) sp) n = .ok () u →
      ⟨home, .var d.name sp⟩ ∈ p.anchors ∧
        ((d.init = none → u.find? d.name around = none) →
          ∀ {env'' : Env} {s : Stmt} {n' : Machine} {pending' : List (Env × Option (List Stmt))},
            (Engine.unbounded limits).Reaches env ss m env'' s n' pending' → n.steps < n'.steps →
            bodyChain env''.chain = own :: around ∧ (lookupIn n'.scopes own.scope d.name).isSome ∧
              (n'.lookup? d.name env''.chain).isSome)) := by
  have hanchors := mem_anchors_of_lowerProgram h
  refine ⟨hanchors, ?_, ?_⟩
  · intro f body outer env env' this captured v args id arg sp m n n' u u' pending hf hb hform hdepth ho hr hs hp
    have hown : ⟨some f.span, .ret sp⟩ ∈ (Stmt.ret arg sp).anchors (some f.span) := by
      cases arg <;> simp [Stmt.anchors]
    exact ⟨(hanchors _).1 ((Frame.call hf hb ho).anchors (hr.anchors hown)),
      (call_of_ended rfl hform hdepth hb ho (hr.returned hs hp)).imp fun _ hw => hw.1⟩
  · intro home env env' own around ss ds es d sp m n u pending hframe hchain hr hu
    have hown : ⟨home, .var d.name sp⟩ ∈ (Stmt.declare .functionWide (ds ++ d :: es) sp).anchors home := by
      simp [Stmt.anchors, anchorsOfKind]
    refine ⟨(hanchors _).1 (hframe.anchors (hr.anchors hown)), fun hslip {env'' s n' pending'} hr' hlt => ?_⟩
    have hbody {inner : Env} (hinside : inner.Inside env) : bodyChain inner.chain = own :: around :=
      (hinside.bodyChain hframe.isBody).trans hchain
    have hsize := (hframe.isBody.prolongs hr.during.1).lt hchain
    have hbound := bound_of_declare (hbody hr.inside_scopes) hsize hu hslip
    have hlater := (prolongs_of_declare hu es).trans
      (hr.later hr' (fun hpart => by cases hpart) hlt)
    -- The scope of the function keeps the name, and every later statement has this scope around it.
    have hkept := hlater.retains.names own.scope d.name hbound
    obtain ⟨more, hmore, -⟩ := hr'.inside_scopes
    refine ⟨hbody hr'.inside_scopes, hkept, ?_⟩
    rw [Machine.lookup?, Option.isSome_map, hmore, hchain]
    exact Machine.isSome_find?_append
      (by rw [Machine.find?_cons, Option.isSome_or, Option.isSome_map, hkept]; rfl) more

/-- A function with a try expression that declares a name and returns it. -/
def returningClause : Program :=
  [.func ⟨some "f", [], .block [.declare .mutable [⟨"r", some (.attempt ⟨0,
    [.declare .functionWide [⟨"x", some (.string "b")⟩] ⟨29, 41, 1⟩, .ret (some (.ident "x")) ⟨42, 51, 1⟩],
    none, [], none, none, ⟨23, 64, 1⟩, none, some .valid⟩)⟩] ⟨15, 65, 1⟩], false, .plain, ⟨0, 67, 1⟩⟩]

/-- The body of the function after lowering. -/
def returningBody : List Stmt :=
  [.declare .mutable [⟨"__raise0", none⟩] ⟨23, 64, 1⟩,
    .guarded [.declare .functionWide [⟨"x", some (.string "b")⟩] ⟨29, 41, 1⟩,
      .ret (some (.ident "x")) ⟨42, 51, 1⟩] (some ⟨none, []⟩) none ⟨23, 64, 1⟩,
    .declare .mutable [⟨"r", some (.ident "__raise0")⟩] ⟨15, 65, 1⟩]

/-- The `return` in the clause ends the function, and the `var` before it is seen there. -/
theorem clauses_keep_function_of_returningClause :
    let f : Func := ⟨some "f", [], .block returningBody, false, .plain, ⟨0, 67, 1⟩⟩
    let k := Engine.unbounded ⟨100, 10⟩
    (∃ progress, lowerProgram "__" returningClause = .ok ([.func f], progress)) ∧
    ∃ env n env' n', openCall f returningBody Machine.globals .undefined [] Machine.start =
      .ok env n ∧ (∃ pending, k.Reaches env returningBody n env' (.ret (some (.ident "x"))
      ⟨42, 51, 1⟩) n' pending) ∧ ⟨some ⟨0, 67, 1⟩, .ret ⟨42, 51, 1⟩⟩ ∈ returningClause.anchors ∧
      (∃ w, k.call (.closure 3 f Machine.globals .undefined) .undefined [] Machine.start =
        .ok (.string "b") w) ∧
      ⟨some ⟨0, 67, 1⟩, .var "x" ⟨29, 41, 1⟩⟩ ∈ returningClause.anchors ∧
      ∃ own around, env.chain = own :: around ∧ bodyChain env'.chain = own :: around ∧
        (lookupIn n'.scopes own.scope "x").isSome ∧ (n'.lookup? "x" env'.chain).isSome := by
  intro f k
  obtain ⟨progress, hlow⟩ : ∃ progress, lowerProgram "__" returningClause = .ok ([.func f], progress) :=
    ⟨_, by with_unfolding_all rfl⟩
  obtain ⟨env, n, ho, env', n', pending, hret, env₀, n₀, pending₀, hvar, hlt, u, hu, u', hu', u₀,
      hu₀⟩ : ∃ env n, openCall f returningBody Machine.globals .undefined [] Machine.start =
      .ok env n ∧ ∃ env' n' pending, k.Reaches env returningBody n env' (.ret (some (.ident "x"))
      ⟨42, 51, 1⟩) n' pending ∧ ∃ env₀ n₀ pending₀, k.Reaches env returningBody n env₀
        (.declare .functionWide ([] ++ ⟨"x", some (.string "b")⟩ :: []) ⟨29, 41, 1⟩) n₀ pending₀ ∧
      n₀.steps < n'.steps ∧
      ∃ u, execStmt k env' (.ret (some (.ident "x")) ⟨42, 51, 1⟩) n' = .error (.returned (.string "b")) u ∧
      ∃ u', execPending k pending u = .ok () u' ∧
      ∃ u₀, execStmt k env₀ (.declare .functionWide ([] ++ [⟨"x", some (.string "b")⟩]) ⟨29, 41, 1⟩)
        n₀ = .ok () u₀ :=
    ⟨_, _, rfl, _, _, _, @Engine.Reaches.inside _ _ _ _ [_] [_] _ _ _ _ _ _ _ _ _ _ rfl
      (.guarded rfl) (@Engine.Reaches.here _ _ [_] [] _ _ _ rfl), _, _, _,
      @Engine.Reaches.inside _ _ _ _ [_] [_] _ _ _ _ _ _ _ _ _ _ rfl (.guarded rfl)
      (@Engine.Reaches.here _ _ [] [_] _ _ _ rfl), by decide, _, rfl, _, rfl, _, rfl⟩
  obtain ⟨-, hreturns, hvars⟩ := clauses_keep_function hlow ⟨100, 10⟩
  have hf : .func f ∈ walkStmts .all [.func f] := by simp [walkStmts, Stmt.walk, Func.walk, f]
  obtain ⟨hplace, hcall⟩ := hreturns hf rfl (by decide) (by decide) ho hret hu hu'
  obtain ⟨i, around, hchain, -⟩ := isBody_of_openCall ho
  obtain ⟨hplace₀, hseen⟩ := hvars (.call hf rfl ho) hchain hvar hu₀
  exact ⟨⟨progress, hlow⟩, env, n, env', n', ho, ⟨pending, hret⟩, hplace, hcall, hplace₀,
    ⟨i, true⟩, around, hchain, hseen (fun hnone => by cases hnone) hret hlt⟩

/-! ## Clauses that are functions -/

/-- A `return` in the body of an arrow function. -/
def wrappedReturn : String :=
  "console.log((() => 'a' + try \x7b return 'b'; \x7d catch \x7b \x7d)());"

/-- A `var` in the test of a case. -/
def wrappedVar : String :=
  "function f() \x7b switch ('k') \x7b case try \x7b var x = 'k'; raise x \x7d catch \x7b raise 'c' \x7d: return typeof x; \x7d \x7d
  console.log(f());"

/-- The function around a try expression that is wrapped is out of reach. The `return` should end
the arrow function, as it does when the program is run in place, but the function goes on with the
value that is returned. The name should be seen in the body of the case, but is not. -/
theorem clauses_lose_function :
    (BothRun wrappedReturn fun _ r r' => r.2.output = #["b"] ∧ r'.2.output = #["ab"]) ∧
    BothRun wrappedVar fun _ r r' => r.2.output = #["string"] ∧ r'.2.output = #["undefined"] :=
  ⟨bothRun_of_decide (by decide +kernel), bothRun_of_decide (by decide +kernel)⟩

end RaiseScript
