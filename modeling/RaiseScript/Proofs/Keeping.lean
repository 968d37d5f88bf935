import RaiseScript.Proofs.UntouchedState
import RaiseScript.Proofs.Traced

/-!
# Evaluation keeps what the program does not list

Every step of a run keeps what `Machine.Keeps` speaks of. This is shown for the evaluation that
lists the machines it passes through (`Tracing`), provided that calls do the same (`Tracer.Keeps`),
and calls do by induction on how deeply they may be nested (`keeps_traceCallAt`). Expressions open
no scope that was there before ; statements declare names in the scope they run in.
-/

set_option linter.unusedSectionVars false

namespace RaiseScript

variable {α β : Type} {p : Program}
variable {t : Nat → Prop} {m n : Machine} {x : Traced α} {o : Except Exit Unit} {f : α → Traced β}
  {v this : Value} {env : Env} {handler : Option Handler} {finalizer : Option (List Stmt)}
  {body : List Stmt} {span : Span} {args : List Value}

open Traced (step)

/-! ## Steps -/

/-- What a step of a run keeps, wherever it is taken. -/
structure Machine.Steps (p : Program) (m n : Machine) : Prop where
  within : n.Within p
  objects : m.heap.objects.size ≤ n.heap.objects.size
  fields : ∀ {a q}, a < m.heap.objects.size → ¬ Writable p q →
    (n.heap.fields a).lookup q = (m.heap.fields a).lookup q

theorem Machine.Keeps.steps (h : m.Keeps p t n) : m.Steps p n :=
  ⟨h.within, h.objects, h.fields⟩

/-- The machines follow from one another step by step, the first from `m`, and the last is `n`. -/
def Machine.Along (p : Program) (m : Machine) : List Machine → Machine → Prop
  | [], n => n = m
  | l :: ls, n => m.Steps p l ∧ l.Along p ls n

namespace Machine.Along

theorem append {m n o : Machine} : ∀ {ms ns : List Machine}, m.Along p ms n → n.Along p ns o →
    m.Along p (ms ++ ns) o
  | [], _, h, h' => by
    cases h
    exact h'
  | _ :: _, _, h, h' => ⟨h.1, h.2.append h'⟩

theorem isChain {m n : Machine} : ∀ {ms : List Machine}, m.Along p ms n → (m :: ms).IsChain (Machine.Steps p)
  | [], _ => .singleton m
  | _ :: _, h => .cons_cons h.1 h.2.isChain

theorem within {m n : Machine} : ∀ {ms : List Machine}, m.Along p ms n → ∀ l ∈ ms, l.Within p
  | _ :: _, h, _, .head _ => h.1.within
  | _ :: _, h, l, .tail _ hl => h.2.within l hl

end Machine.Along

/-- A traced run that started on `m` : every step and the run as a whole keep what is to be kept,
and what came out is as `R` says. -/
structure Tracing (p : Program) (t : Nat → Prop) (m : Machine) (R : Machine → α → Prop)
    (o : List Machine × Result α) : Prop where
  along : m.Along p o.1 (Result.final o.2)
  keeping : Keeping p t m R o.2

namespace Tracing

variable {u : Nat → Prop} {R : Machine → α → Prop} {R' : Machine → β → Prop}

theorem pure {a : α} (h : m.Within p) (ha : R m a) : Tracing p t m R ((Pure.pure a : Traced α) m) :=
  ⟨rfl, .pure h ha⟩

theorem step {x : Run α} (h : Keeping p t m R (x m)) : Tracing p t m R (Traced.step x m) :=
  ⟨⟨h.keeps.steps, rfl⟩, h⟩

theorem ofSealed {o : List Machine × Result α} (h : Tracing p Sealed m R o) : Tracing p t m R o :=
  ⟨h.along, h.keeping.ofSealed⟩

/-- What comes next may declare names in other scopes, if those are open or new. -/
theorem bindIn {u : α → Nat → Prop} (hx : Tracing p t m R (x m))
    (hf : ∀ n a, m.Keeps p t n → R n a → (∀ i < m.scopes.size, u a i → t i) ∧ Tracing p (u a) n R' (f a n)) :
    Tracing p t m R' ((x >>= f) m) := by
  show Tracing p t m R' (Traced.andThen x f m)
  unfold Traced.andThen
  generalize x m = o at hx
  obtain ⟨ms, r⟩ := o
  cases r with
  | error e n => exact ⟨hx.along, hx.keeping⟩
  | ok a n =>
    obtain ⟨hu, h⟩ := hf n a hx.keeping.1 hx.keeping.2
    exact ⟨hx.along.append h.along, h.keeping.after hx.keeping.1 hu⟩

theorem bind (hx : Tracing p t m R (x m)) (hf : ∀ n a, m.Keeps p t n → R n a → Tracing p t n R' (f a n)) :
    Tracing p t m R' ((x >>= f) m) :=
  hx.bindIn (u := fun _ => t) fun n a hn ha => ⟨fun _ _ hi => hi, hf n a hn ha⟩

theorem outcome (h : Tracing p t m R (x m)) : Tracing p t m (Keeping.Ended p R) (Traced.outcome x m) := by
  unfold Traced.outcome
  generalize x m = o at h
  obtain ⟨ms, r⟩ := o
  cases r <;> exact ⟨h.along, h.keeping⟩

end Tracing

/-- Calls keep what is to be kept. -/
def Tracer.Keeps (p : Program) (k : Tracer) : Prop :=
  ∀ {m : Machine} {f this : Value} {args : List Value}, m.Within p → f.Fits p m → this.Fits p m →
    (∀ v ∈ args, v.Fits p m) → Tracing p Sealed m (Value.Fits p) (k.call f this args m)

/-- All the values hold no other functions than those of the program. -/
def AllFit (p : Program) (m : Machine) (vs : List Value) : Prop :=
  ∀ v ∈ vs, v.Fits p m

theorem Value.Fits.later (h : v.Fits p m) (hn : m.Keeps p t n) : v.Fits p n :=
  h.mono hn.scopes

theorem Env.Within.later (h : env.Within m.scopes.size) (hn : m.Keeps p t n) : env.Within n.scopes.size :=
  h.mono hn.scopes

/-! ## Scopes of their own -/

section

variable {R : Machine → α → Prop}

theorem Env.Within.inside (h : env.Within m.scopes.size) (isBody : Bool) :
    (env.inside m isBody).Within (m.scopes.push []).size := by
  intro l hl
  rw [Array.size_push]
  cases hl with
  | head => exact Nat.lt_succ_self _
  | tail _ hl => exact Nat.lt_succ_of_lt (h l hl)

/-- What runs in a new scope may declare names in it. -/
theorem tracing_newScope (h : m.Within p) (he : env.Within m.scopes.size) {isBody : Bool} {f : Env → Traced α}
    (hf : ∀ n inner, m.Keeps p t n → inner.Within n.scopes.size → Tracing p inner.Open n R (f inner n)) :
    Tracing p t m R ((step (newScope env isBody) >>= f) m) := by
  have hm : m.Keeps p t { m with scopes := m.scopes.push [] } := .pushScope h
  have hnew : Keeping p t m (fun n inner => inner = env.inside m isBody ∧
      inner.Within n.scopes.size) (newScope env isBody m) := ⟨hm, rfl, he.inside isBody⟩
  refine (Tracing.step hnew).bindIn (u := fun inner => inner.Open) fun n inner hn hi => ⟨?_, hf n inner hn hi.2⟩
  rintro i hlt rfl
  rw [hi.1] at hlt
  exact absurd hlt (Nat.lt_irrefl _)

theorem keeping_bindParam (h : m.Within p) (env : Env) (param : Option String) (hv : v.Fits p m) :
    Keeping p env.Open m Whatever (bindParam env param v m) := by
  cases param with
  | none => exact .pure h trivial
  | some x => exact keeping_declareHere h true (Or.inl env.open_here) hv

theorem keeping_declareFunctions : ∀ {ss : List Stmt} {m : Machine}, m.Within p →
    env.Within m.scopes.size → PartOf p (walkStmts .all ss) →
    Keeping p env.Open m Whatever (declareFunctions env ss m)
  | [], m, h, _, _ => .pure h trivial
  | s :: ss, m, h, he, hs => by
    have hrest {n : Machine} (hn : m.Keeps p env.Open n) :
        Keeping p env.Open n Whatever (declareFunctions env ss n) :=
      keeping_declareFunctions hn.within (he.later hn) hs.right
    cases s with
    | func f =>
      have hfirst : declareFunctions env (.func f :: ss) =
          declareFunction env f >>= fun _ => declareFunctions env ss := by
        rw [declareFunctions, declareFunction]
        cases f.name <;> simp
      rw [hfirst]
      refine .bind (R := Whatever) ?_ fun n _ hn _ => hrest hn
      unfold declareFunction
      cases f.name with
      | none => exact .pure h trivial
      | some x =>
        refine (keeping_newClosure h hs.left.cons he).bind fun n v hn hv => ?_
        exact keeping_declareHere hn.within true (Or.inl env.open_here) hv
    | _ => exact hrest (.refl h)

end

/-! ## Control -/

section

theorem tracing_rounds {round : Traced Bool}
    (hr : ∀ {n : Machine}, m.Keeps p t n → Tracing p t n Whatever (round n)) :
    ∀ (fuel : Nat) {n : Machine}, m.Keeps p t n → Tracing p t n Whatever (Traced.rounds round fuel n)
  | 0, n, h => .step (.fail h.within _)
  | fuel + 1, n, h => by
    refine (hr h).bind fun o go ho _ => ?_
    cases go with
    | false => exact .pure ho.within trivial
    | true => exact tracing_rounds hr fuel (h.trans ho fun _ _ hi => hi)

theorem keeping_goesOn (h : m.Within p) (ho : Keeping.Ended p Whatever m o) :
    Keeping p t m Whatever (goesOn o m) := by
  match o, ho with
  | .ok (), _ | .error .continued, _ | .error .broke, _ => exact .pure h trivial
  | .error (.thrown v), ho | .error (.returned v), ho => exact .throw h ho
  | .error (.failed f), _ => exact .fail h f

theorem keeping_leaveSwitch (h : m.Within p) (ho : Keeping.Ended p Whatever m o) :
    Keeping p t m Whatever (leaveSwitch o m) := by
  match o, ho with
  | .error .broke, _ => exact .pure h trivial
  | .ok (), ho | .error .continued, ho | .error (.thrown v), ho | .error (.returned v), ho
  | .error (.failed f), ho => exact .conclude h ho

theorem tracing_catching (h : m.Within p) {handler : Value → Traced Unit} (ho : Keeping.Ended p Whatever m o)
    (hh : ∀ v, v.Fits p m → Tracing p t m Whatever (handler v m)) :
    Tracing p t m (Keeping.Ended p Whatever) (Traced.catching o handler m) := by
  match o, ho with
  | .error (.thrown v), ho => exact (hh v ho).outcome
  | .ok (), ho | .error .continued, ho | .error .broke, ho | .error (.returned v), ho
  | .error (.failed f), ho => exact .pure h ho

theorem tracing_finishing (h : m.Within p) {finalizer : Traced Unit} (ho : Keeping.Ended p Whatever m o)
    (hf : Tracing p t m Whatever (finalizer m)) : Tracing p t m Whatever (Traced.finishing o finalizer m) := by
  have hgo : Tracing p t m Whatever ((finalizer >>= fun _ => step (conclude o)) m) :=
    hf.bind fun n _ hn _ => .step (.conclude hn.within (by
      match o, ho with
      | .ok (), _ => trivial
      | .error e, ho => exact Exit.Within.mono hn.scopes ho))
  match o, ho with
  | .error (.failed f), _ => exact .step (.fail h f)
  | .ok (), _ | .error .continued, _ | .error .broke, _ | .error (.thrown v), _
  | .error (.returned v), _ => exact hgo

end

/-! ## The tree -/

section

variable {k : Tracer}

theorem keeping_bindDeclared {kind : BindingKind} {x : String} {v : Option Value} (h : m.Within p)
    (hx : kind = .functionWide → x ∈ reassigned p) (hv : (v.getD .undefined).Fits p m) :
    Keeping p env.Open m Whatever (bindDeclared env kind x v m) := by
  cases kind with
  | functionWide => exact keeping_declareInBody h (hx rfl) hv
  | «mutable» => exact keeping_declareHere h true (Or.inl env.open_here) hv
  | constant => exact keeping_declareHere h false (Or.inl env.open_here) hv

/-- The expression keeps what is to be kept, wherever it is evaluated. -/
def SparesExpr (p : Program) (k : Tracer) (e : Expr) : Prop :=
  ∀ {env : Env} {m : Machine}, m.Within p → env.Within m.scopes.size →
    Tracing p Sealed m (Value.Fits p) (traceExpr k env e m)

/-- The same for expressions one after the other. -/
def SparesExprs (p : Program) (k : Tracer) (es : List Expr) : Prop :=
  ∀ {env : Env} {m : Machine}, m.Within p → env.Within m.scopes.size →
    Tracing p Sealed m (AllFit p) (traceExprs k env es m)

/-- The same for code that may declare names in the scope it runs in. -/
def SparesAround (p : Program) (run : Env → Traced Unit) : Prop :=
  ∀ {env : Env} {m : Machine}, m.Within p → env.Within m.scopes.size → Tracing p env.Open m Whatever (run env m)

/-- The same for code that declares nothing in the scope it runs in. -/
def SparesSealed (p : Program) (run : Env → Traced Unit) : Prop :=
  ∀ {env : Env} {m : Machine}, m.Within p → env.Within m.scopes.size → Tracing p Sealed m Whatever (run env m)

/-- Functions are bound before the statements of a block run. -/
theorem SparesAround.inside (hb : SparesAround p (traceAll k · body))
    (hp : PartOf p (walkStmts .all body)) (h : m.Within p) (he : env.Within m.scopes.size) :
    Tracing p env.Open m Whatever ((step (declareFunctions env body) >>= fun _ => traceAll k env body) m) :=
  (Tracing.step (keeping_declareFunctions h he hp)).bind fun _ _ hn _ => hb hn.within (he.later hn)

/-- A block in a scope of its own, with a parameter. -/
theorem SparesAround.clause (hb : SparesAround p (traceAll k · body))
    (hp : PartOf p (walkStmts .all body)) (h : m.Within p) (he : env.Within m.scopes.size)
    (param : Option String) (hv : v.Fits p m) :
    Tracing p t m Whatever ((step (newScope env false) >>= fun inner => step (bindParam inner param v) >>=
      fun _ => step (declareFunctions inner body) >>= fun _ => traceAll k inner body) m) := by
  refine tracing_newScope h he fun n inner hn hi => ?_
  refine (Tracing.step (keeping_bindParam hn.within inner param (hv.later hn))).bind fun o _ ho _ => ?_
  exact hb.inside hp ho.within (hi.later ho)

/-- A block in a scope of its own. -/
theorem SparesAround.block (hb : SparesAround p (traceAll k · body))
    (hp : PartOf p (walkStmts .all body)) (h : m.Within p) (he : env.Within m.scopes.size) :
    Tracing p t m Whatever ((step (newScope env false) >>= fun inner =>
      step (declareFunctions inner body) >>= fun _ => traceAll k inner body) m) :=
  tracing_newScope h he fun _ _ hn hi => hb.inside hp hn.within hi

/-- The handler keeps what is to be kept, whatever came of the guarded block. -/
def SparesHandler (p : Program) (k : Tracer) (handler : Option Handler) : Prop :=
  ∀ {env : Env} {m : Machine} {first : Except Exit Unit}, m.Within p → env.Within m.scopes.size →
    Keeping.Ended p Whatever m first →
    Tracing p Sealed m (Keeping.Ended p Whatever) (traceHandler k env first handler m)

/-- A statement counts a step first. -/
theorem tracing_ticked {R : Machine → α → Prop} (limit : Nat) (h : m.Within p)
    (hx : ∀ n, m.Keeps p t n → Tracing p t n R (x n)) :
    Tracing p t m R ((step (tick limit) >>= fun _ => x) m) :=
  (Tracing.step (keeping_tick h _)).bind fun n _ hn _ => hx n hn

/-- A try statement declares nothing in the scope it runs in. -/
theorem sparesGuarded_of (hp : PartOf p (walkStmts .all body))
    (hbody : SparesAround p (traceAll k · body)) (hhandler : SparesHandler p k handler)
    (hfinally : SparesSealed p (traceFinally k · finalizer)) :
    SparesSealed p (traceStmt k · (.guarded body handler finalizer span)) := by
  intro env m h he
  refine tracing_ticked _ h fun n hn => ?_
  have he' := he.later hn
  refine (hbody.block hp hn.within he').outcome.bind fun o first ho hfirst => ?_
  refine (hhandler ho.within (he'.later ho) hfirst).bind fun o' second ho' hsecond => ?_
  exact tracing_finishing ho'.within hsecond (hfinally ho'.within ((he'.later ho).later ho'))

/-- The bodies of the cases from a position on. -/
theorem sparesCases_of {test : Option Expr} {cs : List Case} (hp : PartOf p (walkStmts .all body))
    (hbody : SparesAround p (traceAll k · body)) (hrest : ∀ i, SparesAround p (traceCases k · i cs)) (i : Nat) :
    SparesAround p (traceCases k · i (⟨test, body⟩ :: cs)) := by
  intro env m h he
  cases i with
  | succ i => exact hrest i h he
  | zero =>
    refine (Tracing.step (keeping_declareFunctions h he hp)).bind fun n _ hn _ => ?_
    refine (hbody hn.within (he.later hn)).bind fun o _ ho _ => ?_
    exact hrest 0 ho.within ((he.later hn).later ho)

variable (p k) in
/-- What keeps what is to be kept when a phrase is run. -/
def Phrase.Spares : Phrase → Prop
  | .expr e => SparesExpr p k e
  | .exprs es => SparesExprs p k es
  | .func _ | .attempt _ => True
  | .stmt s => SparesAround p (traceStmt k · s)
  | .decls ds => ∀ {kind}, (kind = .functionWide → ∀ x ∈ ds.map (·.name), x ∈ reassigned p) →
    SparesAround p (traceDecls k · kind ds)
  | .cases cs => (∀ {v} {env : Env} {m : Machine}, m.Within p → env.Within m.scopes.size →
    Tracing p Sealed m Whatever (traceChoice k env v cs m)) ∧ ∀ i, SparesAround p (traceCases k · i cs)
  | .handler h => SparesHandler p k h
  | .block b => SparesSealed p (traceFinally k · b)
  | .stmts ss => SparesAround p (traceAll k · ss)

variable (hk : k.Keeps p)

include hk

theorem Phrase.spares (q : Phrase) (hp : PartOf p (q.walk .all)) : q.Spares p k := by
  induction q with
  | number | string | bool | null | undefined => exact fun h _ => .step (.pure h trivial)
  | this => exact fun h _ => .step (.pure h h.this)
  | ident x => exact fun {env _} h _ => .step (keeping_readName h env x)
  | array items ih =>
    intro env m h he
    rw [traceExpr]
    refine (ih hp.cons h he).bind fun n vs hn hv => ?_
    exact .step (keeping_newArray hn.within hv)
  | unary op a ih =>
    intro env m h he
    have hstrict : Tracing p Sealed m (Value.Fits p) ((traceExpr k env a >>= fun v =>
        step (applyUnary op v)) m) :=
      (ih hp.cons h he).bind fun n v hn _ => .step (keeping_applyUnary hn.within op v)
    cases op with
    | typeName =>
      cases a with
      | ident x => exact .step (.pure h trivial)
      | _ => exact hstrict
    | _ => exact hstrict
  | binary op a b ha hb =>
    intro env m h he
    rw [traceExpr]
    refine (ha hp.cons.left h he).bind fun n x hn _ => ?_
    refine (hb hp.cons.right hn.within (he.later hn)).bind fun o y ho _ => ?_
    exact .step (keeping_applyBinary ho.within op x y)
  | logical op a b ha hb =>
    intro env m h he
    rw [traceExpr]
    refine (ha hp.cons.left h he).bind fun n x hn hx => ?_
    split
    · exact .pure hn.within hx
    · exact hb hp.cons.right hn.within (he.later hn)
  | assign target value _ hvalue hplace =>
    intro env m h he
    have hvalue : SparesExpr p k value := hvalue hp.cons.right
    cases target with simp only [Expr.place, List.forall_mem_cons] at hplace
    | ident x =>
      refine (hvalue h he).bind fun n v hn hv => ?_
      refine (Tracing.step (keeping_assignName hn.within (hp.rebinds List.mem_cons_self) hv)).bind
        fun o _ ho _ => ?_
      exact .pure ho.within (hv.later ho)
    | member object q =>
      refine (hplace.1 hp.cons.left.cons h he).bind fun n o hn _ => ?_
      refine (hvalue hn.within (he.later hn)).bind fun n' v hn' hv => ?_
      have hq : WritesOnly p (.string q) := writesOnly_string (hp.writes List.mem_cons_self)
      refine (Tracing.step (keeping_setIndex hn'.within hq hv)).bind fun l _ hl _ => ?_
      exact .pure hl.within (hv.later hl)
    | index object key =>
      refine (hplace.1 hp.cons.left.cons.left h he).bind fun n o hn _ => ?_
      refine (hplace.2.1 hp.cons.left.cons.right hn.within (he.later hn)).bind fun n' i hn' _ => ?_
      refine (hvalue hn'.within ((he.later hn).later hn')).bind fun n'' v hn'' hv => ?_
      refine (Tracing.step (keeping_setIndex hn''.within
        (fun _ _ q _ => hp.writesComputed rfl q) hv)).bind fun l _ hl _ => ?_
      exact .pure hl.within (hv.later hl)
    | _ => exact .step (keeping_misuse h _)
  | member object q ih =>
    intro env m h he
    rw [traceExpr]
    refine (ih hp.cons h he).bind fun n o hn _ => ?_
    exact .step (keeping_getProperty hn.within o q)
  | index object key ho hi =>
    intro env m h he
    rw [traceExpr]
    refine (ho hp.cons.left h he).bind fun n o hn _ => ?_
    refine (hi hp.cons.right hn.within (he.later hn)).bind fun n' i hn' _ => ?_
    exact .step (keeping_getIndex hn'.within o i)
  | call callee args hcallee hargs hplace =>
    intro env m h he
    have hargs : SparesExprs p k args := hargs hp.cons.right
    have hplain : Tracing p Sealed m (Value.Fits p) ((traceExpr k env callee >>= fun f =>
        traceExprs k env args >>= fun vs => k.call f .undefined vs) m) :=
      (hcallee hp.cons.left h he).bind fun n f hn hf => (hargs hn.within (he.later hn)).bind fun o vs ho hvs =>
        hk ho.within (hf.later ho) trivial hvs
    have hmethod {n : Machine} {f this : Value} (hn : m.Keeps p Sealed n) (hf : f.Fits p n)
        (ht : this.Fits p n) :
          Tracing p Sealed n (Value.Fits p) ((step (noteMethod (args.any Expr.hasAttempt) f) >>=
          fun _ => traceExprs k env args >>= fun vs => k.call f this vs) n) :=
      (Tracing.step (keeping_noteMethod hn.within _ f)).bind fun o _ ho _ =>
        (hargs ho.within ((he.later hn).later ho)).bind fun l vs hl hvs =>
          hk hl.within ((hf.later ho).later hl) ((ht.later ho).later hl) hvs
    cases callee with simp only [Expr.place, List.forall_mem_cons] at hplace
    | member object q =>
      refine (hplace.1 hp.cons.left.cons h he).bind fun n this hn ht => ?_
      refine (Tracing.step (keeping_getProperty hn.within this q)).bind fun o f ho hf => ?_
      exact hmethod (hn.trans ho fun _ _ hi => hi) hf (ht.later ho)
    | index object key =>
      refine (hplace.1 hp.cons.left.cons.left h he).bind fun n this hn ht => ?_
      refine (hplace.2.1 hp.cons.left.cons.right hn.within (he.later hn)).bind fun n' i hn' _ => ?_
      refine (Tracing.step (keeping_getIndex hn'.within this i)).bind fun o f ho hf => ?_
      exact hmethod ((hn.trans hn' fun _ _ hi => hi).trans ho fun _ _ hi => hi) hf ((ht.later hn').later ho)
    | _ => exact hplain
  | await a ih => exact fun h he => ih hp.cons h he
  | yieldNone | yield => exact fun h _ => .step (.fail h _)
  | func f => exact fun h he => .step (keeping_newClosure h hp.cons he)
  | attempt t =>
    cases t
    exact fun h _ => .step (.fail h (.unlowered .attempt))
  | funcBlock | funcExpr | clauses => trivial
  | nilExprs => exact fun h _ => .pure h fun _ hv => by cases hv
  | consExprs e es hhead htail =>
    intro env m h he
    refine (hhead hp.left h he).bind fun n v hn hv => ?_
    refine (htail hp.right hn.within (he.later hn)).bind fun o vs ho hvs => ?_
    exact .pure ho.within (List.forall_mem_cons.2 ⟨hv.later ho, hvs⟩)
  | declare kind ds span ih =>
    intro env m h he
    dsimp only
    rw [traceStmt]
    refine tracing_ticked _ h fun n hn => ih hp.cons (fun hkind x hx => ?_) hn.within (he.later hn)
    subst hkind
    exact hp.rebinds hx
  | exprStmt value span ih =>
    intro env m h he
    dsimp only
    rw [traceStmt]
    refine tracing_ticked _ h fun n hn => ?_
    refine (ih hp.cons hn.within (he.later hn)).ofSealed.bind fun o _ ho _ => ?_
    exact .pure ho.within trivial
  | blockStmt body span ih =>
    intro env m h he
    dsimp only
    rw [traceStmt]
    exact tracing_ticked _ h fun n hn => SparesAround.block (ih hp.cons) hp.cons hn.within (he.later hn)
  | branch test yes span ht hyes =>
    intro env m h he
    dsimp only
    rw [traceStmt]
    refine tracing_ticked _ h fun n hn => ?_
    refine (ht hp.cons.left hn.within (he.later hn)).ofSealed.bind fun o v ho _ => ?_
    split
    · exact hyes hp.cons.right ho.within ((he.later hn).later ho)
    · exact .pure ho.within trivial
  | branchElse test yes no span ht hyes hno =>
    intro env m h he
    dsimp only
    rw [traceStmt]
    refine tracing_ticked _ h fun n hn => ?_
    refine (ht hp.cons.left.left hn.within (he.later hn)).ofSealed.bind fun o v ho _ => ?_
    split
    · exact hyes hp.cons.left.right ho.within ((he.later hn).later ho)
    · exact hno hp.cons.right ho.within ((he.later hn).later ho)
  | loop test body span ht hb =>
    intro env m h he
    dsimp only
    rw [traceStmt]
    refine tracing_ticked _ h fun n hn => ?_
    refine .bind (x := step get) (R := Whatever) (.step ⟨.refl hn.within, trivial⟩) fun n₁ _ hn₁ _ => ?_
    refine tracing_rounds (m := n₁) (fun {n'} hn' => ?_) _ (.refl hn₁.within)
    refine tracing_ticked _ hn'.within fun o ho => ?_
    have he' := (((he.later hn).later hn₁).later hn').later ho
    refine (ht hp.cons.left ho.within he').ofSealed.bind fun o' v ho' _ => ?_
    split
    · refine (hb hp.cons.right ho'.within (he'.later ho')).outcome.bind fun l r hl hr => ?_
      exact .step (keeping_goesOn hl.within hr)
    · exact .pure ho'.within trivial
  | switch subject cases span hs hcases =>
    intro env m h he
    dsimp only
    rw [traceStmt]
    refine tracing_ticked _ h fun n hn => ?_
    refine (hs hp.cons.left hn.within (he.later hn)).ofSealed.bind fun o v ho _ => ?_
    refine tracing_newScope ho.within ((he.later hn).later ho) fun n' inner hn' hi => ?_
    refine ((hcases hp.cons.right).1 hn'.within hi).ofSealed.bind fun o' chosen ho' _ => ?_
    cases chosen <|> cases.findIdx? (·.test.isNone) with
    | none => exact .pure ho'.within trivial
    | some i =>
      refine ((hcases hp.cons.right).2 i ho'.within (hi.later ho')).outcome.bind fun l r hl hr => ?_
      exact .step (keeping_leaveSwitch hl.within hr)
  | jump kind =>
    cases kind
    · exact fun h _ => tracing_ticked _ h fun _ hn => .step (.throw (e := .broke) hn.within trivial)
    · exact fun h _ => tracing_ticked _ h fun _ hn => .step (.throw (e := .continued) hn.within trivial)
  | retNone =>
    exact fun h _ => tracing_ticked _ h fun _ hn => .step (.throw (e := .returned .undefined) hn.within trivial)
  | ret arg span ih | throw arg span ih =>
    intro env m h he
    dsimp only
    rw [traceStmt]
    refine tracing_ticked _ h fun n hn => ?_
    refine (ih hp.cons hn.within (he.later hn)).ofSealed.bind fun o v ho hv => ?_
    exact .step (.throw ho.within hv)
  | guarded body handler finalizer span hb hh hf =>
    exact fun h he => .ofSealed (sparesGuarded_of hp.cons.left.left (hb hp.cons.left.left)
      (hh hp.cons.left.right) (hf hp.cons.right) h he)
  | funcStmt => exact fun h _ => tracing_ticked _ h fun _ hn => .pure hn.within trivial
  | raise => exact fun h _ => tracing_ticked _ h fun _ hn => .step (.fail hn.within _)
  | nilDecls => exact fun _ _ _ h _ => .pure h trivial
  | bareDecl x ds ih =>
    intro kind hx env m h he
    dsimp only
    refine (Tracing.step (keeping_bindDeclared (v := none) h
      (fun hkind => hx hkind x List.mem_cons_self) trivial)).bind fun n _ hn _ => ?_
    exact ih hp (fun hkind y hy => hx hkind y (List.mem_cons_of_mem _ hy)) hn.within (he.later hn)
  | consDecls x init ds hinit ih =>
    intro kind hx env m h he
    dsimp only
    rw [traceDecls]
    refine (hinit hp.left h he).ofSealed.bind fun n v hn hv => ?_
    refine (Tracing.step (keeping_bindDeclared (v := some v) hn.within
      (fun hkind => hx hkind x List.mem_cons_self) hv)).bind fun o _ ho _ => ?_
    exact ih hp.right (fun hkind y hy => hx hkind y (List.mem_cons_of_mem _ hy)) ho.within ((he.later hn).later ho)
  | nilCases =>
    refine ⟨fun h _ => .pure h trivial, fun i {_ _} h _ => ?_⟩
    dsimp only
    rw [traceCases]
    exact .pure h trivial
  | defaultCase body cs hbody hcs =>
    refine ⟨fun {v env m} h he => ?_, fun i => sparesCases_of hp.left (hbody hp.left) (hcs hp.right).2 i⟩
    exact ((hcs hp.right).1 h he).bind fun n _ hn _ => .pure hn.within trivial
  | consCases test body cs ht hbody hcs =>
    refine ⟨fun {v env m} h he => ?_,
      fun i => sparesCases_of hp.left.right (hbody hp.left.right) (hcs hp.right).2 i⟩
    refine (ht hp.left.left h he).bind fun n w hn _ => ?_
    split
    · exact .pure hn.within trivial
    · exact ((hcs hp.right).1 hn.within (he.later hn)).bind fun o _ ho _ => .pure ho.within trivial
  | noHandler => exact fun h _ hfirst => .pure h hfirst
  | handler param body ih =>
    exact fun h he hfirst => tracing_catching h hfirst fun v hv =>
      SparesAround.clause (ih hp) hp h he param hv
  | noBlock => exact fun h _ => .pure h trivial
  | finalizer body ih =>
    intro env m h he
    dsimp only
    exact SparesAround.block (ih hp) hp h he
  | nilStmts => exact fun h _ => .pure h trivial
  | consStmts s ss hs hss =>
    intro env m h he
    dsimp only
    rw [traceAll]
    refine (hs hp.left h he).bind fun n _ hn _ => ?_
    exact hss hp.right hn.within (he.later hn)

theorem sparesExpr (e : Expr) (hp : PartOf p (e.walk .all)) : SparesExpr p k e :=
  (Phrase.expr e).spares hk hp

theorem sparesAll (ss : List Stmt) (hp : PartOf p (walkStmts .all ss)) :
    SparesAround p (traceAll k · ss) :=
  (Phrase.stmts ss).spares hk hp

theorem sparesGuarded (hp : PartOf p ((Stmt.guarded body handler finalizer span).walk .all)) :
    SparesSealed p (traceStmt k · (.guarded body handler finalizer span)) :=
  sparesGuarded_of hp.cons.left.left (sparesAll hk body hp.cons.left.left)
    ((Phrase.handler handler).spares hk hp.cons.left.right) ((Phrase.block finalizer).spares hk hp.cons.right)

/-! ## Calls -/

theorem sparesBody {f : Func} (hp : PartOf p (f.walk .all)) (h : m.Within p)
    (he : env.Within m.scopes.size) : Tracing p env.Open m (Value.Fits p) (traceBody k env f.body m) := by
  obtain ⟨_, _, body, _, _, _⟩ := f
  refine Tracing.bind (Tracing.outcome (R := Value.Fits p) ?_) fun n r hn hr => ?_
  · cases body with
    | block body =>
      refine (Tracing.step (keeping_declareFunctions h he hp.cons)).bind fun n _ hn _ => ?_
      refine (sparesAll hk body hp.cons hn.within (he.later hn)).bind fun o _ ho _ => ?_
      exact .pure ho.within trivial
    | expr value => exact (sparesExpr hk value hp.cons h he).ofSealed
  · cases r with
    | ok v => exact .step (.conclude hn.within hr)
    | error e =>
      cases e with
      | returned v => exact .pure hn.within hr
      | broke | continued => exact .pure hn.within trivial
      | thrown v => exact .step (.conclude hn.within hr)
      | failed f => exact .step (.conclude hn.within hr)

end

section

theorem keeping_bindParams : ∀ {ps : List String} {vs : List Value} {m : Machine}, m.Within p →
    AllFit p m vs → Keeping p env.Open m Whatever (bindParams env ps vs m)
  | [], _, _, h, _ => .pure h trivial
  | x :: ps, [], m, h, hv => by
    refine (keeping_declareHere (v := .undefined) h true (Or.inl env.open_here) trivial).bind fun n _ hn _ => ?_
    exact keeping_bindParams hn.within fun v hv => by cases hv
  | x :: ps, v :: vs, m, h, hv => by
    refine (keeping_declareHere h true (Or.inl env.open_here) (hv v List.mem_cons_self)).bind fun n _ hn _ => ?_
    exact keeping_bindParams hn.within fun u hu => (hv u (List.mem_cons_of_mem _ hu)).later hn

/-- The bodies of the functions of the program keep what is to be kept. -/
def SparesBodies (p : Program) (body : Env → FuncBody → Traced Value) : Prop :=
  ∀ {f : Func}, PartOf p (f.walk .all) → ∀ {env : Env} {m : Machine}, m.Within p →
    env.Within m.scopes.size → Tracing p env.Open m (Value.Fits p) (body env f.body m)

theorem keeping_setThis (h : m.Within p) (ht : this.Fits p m) (depth : Nat → Nat) : Keeping
      p t m Whatever ((modify fun m => { m with this, depth := depth m.depth } : Run Unit) m) :=
  ⟨.setThis h ht _, trivial⟩

theorem tracing_entry {body : Env → FuncBody → Traced Value} (hb : SparesBodies p body)
    (maxDepth : Nat) {f : Func} (h : m.Within p) (hf : PartOf p (f.walk .all))
    (he : env.Within m.scopes.size) (ht : this.Fits p m) (ha : AllFit p m args) :
    Tracing p Sealed m (Value.Fits p) (traceEntry maxDepth f env this args body m) := by
  have hget {t : Nat → Prop} {n : Machine} (hn : n.Within p) :
      Keeping p t n (fun o v => v = o) ((get : Run Machine) n) := ⟨.refl hn, rfl⟩
  unfold traceEntry
  split
  · exact .step (.fail h _)
  · refine (Tracing.step (hget h)).bind fun m' _ hm _ => ?_
    split
    · exact .step (keeping_misuse hm.within _)
    · have hinner : (Env.mk env.chain none).Within m'.scopes.size := he.later hm
      refine tracing_newScope hm.within hinner fun n inner hn hi => ?_
      have ht' := (ht.later hm).later hn
      refine (Tracing.step (keeping_bindParams hn.within fun v hv =>
        ((ha v hv).later hm).later hn)).bind fun o _ ho _ => ?_
      refine (Tracing.step (hget ho.within)).bind fun o' outer ho' heq => ?_
      have houter : outer.this.Fits p o' := heq ▸ ho'.within.this
      refine (Tracing.step (keeping_setThis ho'.within ((ht'.later ho).later ho') (· + 1))).bind fun l _ hl _ => ?_
      refine (hb hf hl.within (((hi.later ho).later ho').later hl)).outcome.bind fun l' r hl' hr => ?_
      refine (Tracing.step (keeping_setThis hl'.within ((houter.later hl).later hl') (· - 1))).bind
        fun z _ hz _ => .step (.conclude hz.within ?_)
      match r, hr with
      | .ok v, hv => exact Value.Fits.later hv hz
      | .error e, he => exact Exit.Within.mono hz.scopes he

theorem keeping_mapM_toShown : ∀ {vs : List Value} {m : Machine}, m.Within p →
    Keeping p Sealed m Whatever (vs.mapM toShown m)
  | [], _, h => .pure h trivial
  | v :: vs, m, h => by
    rw [List.mapM_cons]
    refine (keeping_convert h _ _).bind fun n _ hn _ => ?_
    refine (keeping_mapM_toShown hn.within).bind fun o _ ho _ => ?_
    exact .pure ho.within trivial

theorem keeping_callNative (kind : Native) (h : m.Within p) (ha : AllFit p m args) :
    Keeping p Sealed m (Value.Fits p) (callNative kind this args m) := by
  cases kind with
  | log =>
    refine (keeping_mapM_toShown h).bind fun n parts hn _ => ?_
    exact ⟨.of_eq hn.within rfl rfl rfl, trivial⟩
  | string =>
    cases args with
    | nil => exact .pure h trivial
    | cons v vs => exact (keeping_convert h _ _).bind fun n _ hn _ => .pure hn.within trivial
  | error =>
    cases args with
    | nil => exact keeping_newError h _ _
    | cons v vs => exact (keeping_convert h _ _).bind fun n _ hn _ => keeping_newError hn.within _ _
  | call => exact .pure h trivial
  | push =>
    cases this with
    | array a =>
      refine ⟨.setArrays h fun b v hv => ?_, trivial⟩
      rw [getD_modify] at hv
      split at hv
      · rw [Array.toList_appendList] at hv
        exact (List.mem_append.1 hv).elim (h.items b v) (ha v)
      · exact h.items b v hv
    | _ => exact keeping_misuse h _

theorem fits_resolveCall : ∀ {args : List Value} {f this : Value}, f.Fits p m → this.Fits p m →
    AllFit p m args → (resolveCall f this args).1.Fits p m ∧
      (resolveCall f this args).2.1.Fits p m ∧ AllFit p m (resolveCall f this args).2.2 := by
  intro args f this hf ht ha
  fun_induction resolveCall f this args with
  | case1 _ f this args ih =>
    exact ih ht (ha this List.mem_cons_self) fun v hv => ha v (List.mem_cons_of_mem _ hv)
  | case2 => exact ⟨trivial, trivial, ha⟩
  | case3 => exact ⟨ht, trivial, ha⟩
  | case4 => exact ⟨hf, ht, ha⟩

theorem tracing_call {body : Env → FuncBody → Traced Value} (hb : SparesBodies p body) (maxDepth : Nat)
    {f : Value} (h : m.Within p) (hf : f.Fits p m) (ht : this.Fits p m) (ha : AllFit p m args) :
    Tracing p Sealed m (Value.Fits p) (traceCall maxDepth body f this args m) := by
  obtain ⟨hf, ht, ha⟩ := fits_resolveCall hf ht ha
  unfold traceCall
  generalize resolveCall f this args = r at hf ht ha
  obtain ⟨g, this, args⟩ := r
  have hother : Keeping p Sealed m (Value.Fits p) ((mistakeOf (.notCallable <$> toShown g) : Run Value) m) := by
    refine keeping_mistakeOf h fun {n} hn => ?_
    exact (keeping_convert hn _ _).bind fun _ _ ho _ => .pure ho.within trivial
  cases g with
  | closure _ g env captured =>
    refine tracing_entry hb maxDepth h hf.1 hf.2.1 ?_ ha
    split
    · exact hf.2.2
    · exact ht
  | native _ kind => exact .step (keeping_callNative kind h ha)
  | _ => exact .step hother

end

/-- Calls keep what is to be kept, however deeply they may be nested. -/
theorem keeps_traceCallAt (limits : Limits) (fuel : Nat) :
    Tracer.Keeps p ⟨limits.maxSteps, traceCallAt limits fuel⟩ := by
  induction fuel with
  | zero =>
    exact fun h hf ht ha =>
      tracing_call (fun _ _ _ hn _ => .step (.fail hn _)) limits.maxDepth h hf ht ha
  | succ fuel ih =>
    exact fun h hf ht ha =>
      tracing_call (fun hp _ _ hn he => sparesBody ih hp hn he) limits.maxDepth h hf ht ha

end RaiseScript
