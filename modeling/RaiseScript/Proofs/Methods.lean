import RaiseScript.Proofs.Attempts

/-!
# Calls of methods

A method is looked up before the arguments are evaluated. Where a try expression among the arguments
is hoisted, the method has to wait for it. It is put into a temporary and called with the built-in
`call` (`stagesExpr_bound`), unless no part of the program writes the property (`Method`). Then it
is looked up on the right when its turn comes, and it is the same one.

A method that is not there, or is no function, makes the call go wrong on the left after its
arguments. On the right it may go wrong earlier, so such runs are left out of account.
-/

namespace RaiseScript

variable {S : Setting} {sp : Spelling} {k : Engines S} {n : Nat} {a b c d : Twin S} {env env' : Env}
  {r : Result Value} {e : Expr} {t : Touch} {x : String}
variable {hoists : Bool} {callee o key receiver : Expr} {es args us : List Expr} {p : Progress}
  {v o' f g : Value} {lo hi : Nat} {names : Names} {prop : String}

/-! ## Calls that are about to be made -/

/-- A call that is about to be made. -/
structure Invocation where
  func : Value
  this : Value
  args : List Value

/-- Makes the call. -/
def Engine.invoke (k : Engine) (c : Invocation) : Run Value :=
  k.call c.func c.this c.args

/-- The receiver of a call and the value that is called. -/
def lookUpCallee (k : Engine) (env : Env) : Expr → Run (Value × Value)
  | .member object property => do
    let this ← evalExpr k env object
    return (this, ← getProperty this property)
  | .index object key => do
    let this ← evalExpr k env object
    let i ← evalExpr k env key
    return (this, ← getIndex this i)
  | callee => do return (.undefined, ← evalExpr k env callee)

/-- The arguments of a call are evaluated after the value that is called was looked up. -/
def gather (k : Engine) (env : Env) (args : List Expr) (waits : Bool) (this f : Value) : Run Invocation := do
  noteMethod waits f
  return ⟨f, this, ← evalExprs k env args⟩

/-- All that a call needs is evaluated. -/
def invocation (k : Engine) (env : Env) (callee : Expr) (args : List Expr) : Run Invocation := do
  let r ← lookUpCallee k env callee
  gather k env args (callee.isPlace && args.any Expr.hasAttempt) r.1 r.2

theorem evalExpr_call (k : Engine) (env : Env) (callee : Expr) (args : List Expr) :
    evalExpr k env (.call callee args) = invocation k env callee args >>= k.invoke := by
  cases callee <;>
    simp [evalExpr, invocation, lookUpCallee, gather, Engine.invoke, Expr.isPlace, noteMethod]

instance rising_gather (k : Engine) [k.Rising] (env : Env) (args : List Expr) (waits : Bool)
    (this f : Value) : Rising (gather k env args waits this f) := by
  unfold gather
  infer_instance

instance rising_invoke (k : Engine) [k.Rising] (c : Invocation) : Rising (k.invoke c) := by
  unfold Engine.invoke
  infer_instance

/-! ## Methods that are called in place -/

section

variable (hs : callee.Strict es) (hplace : callee.isPlace = true)

include hs hplace

/-- The method is looked up, then the arguments are evaluated, then it is called. -/
theorem evalExpr_method (k : Engine) (env : Env) (args : List Expr) :
    evalExpr k env (.call callee args) = evalExprs k env es >>= fun vs => operate k callee vs >>= fun f =>
      noteMethod (args.any Expr.hasAttempt) f >>= fun _ => evalExprs k env args >>= fun us =>
        k.call f (vs.headD .undefined) us := by
  cases hs with
  | member o q => simp [evalExpr, evalExprs, operate]
  | index o i => simp [evalExpr, evalExprs, operate]
  | _ => cases hplace

theorem lowerExpr_method (s : Surroundings) (hwait : (hoists && args.any Expr.hasAttempt) = false) :
    lowerExpr s hoists (.call callee args) = lowerOperands s hoists es >>= fun r =>
      lowerOperands s hoists args >>= fun u => return ⟨r.1 ++ u.1, .call (callee.withOperands r.2) u.2⟩ := by
  cases hs with
  | member o q =>
    simp [lowerExpr, lowerOperands, Expr.withOperands, hwait]
  | index o i =>
    simp [lowerExpr, lowerOperands, Expr.withOperands, hwait]
  | _ => cases hplace

theorem Expr.Strict.isPlain_of_isPlace : callee.IsPlain := by
  cases hs with
  | member o q => exact ⟨by simp, by simp⟩
  | index o i => exact ⟨by simp, by simp⟩
  | _ => cases hplace

theorem Expr.Strict.isPlace_withOperands {vs : List Expr} (hl : vs.length = es.length) :
    (callee.withOperands vs).isPlace = true := by
  cases hs with
  | member o q =>
    obtain _ | ⟨a, _ | _⟩ := vs <;> simp at hl
    rfl
  | index o i =>
    obtain _ | ⟨a, _ | ⟨b, _ | _⟩⟩ := vs <;> simp at hl
    rfl
  | _ => cases hplace

end

theorem AlikeAll.headD {vs vs' : List Value} (h : AlikeAll c vs vs') :
    Alike S c.world (vs.headD .undefined) (vs'.headD .undefined) := by
  cases h with
  | nil => exact .undefined
  | cons h _ => exact h

theorem stagesExpr_method (hs : callee.Strict es) (hplace : callee.isPlace = true)
    (hes : StagesExprs sp k es) (hargs : StagesExprs sp k args) {q : Progress} {h : Hoisted}
    (hlow : lowerExpr S.surroundings hoists (.call callee args) p = .ok (h, q))
    (hwait : (hoists && args.any Expr.hasAttempt) = false)
    (hroom : hoists = false → (Expr.call callee args).hasAttempt = false) (hsup : Supplied sp S.temp p q)
    (htame : S.Tames sp ((Expr.call callee args).walk .all)) (hn : n ≤ a.left.nextId)
    (hp : Placed a.world env env') :
    Stage n (.temps env' p.names q.names) a (evalExpr k.left env (.call callee args) a.left)
      (fun i => execAll (k.right i) env' h.before)
      fun c => Ripe k n q.names c env env' (evalExpr k.left env (.call callee args) a.left) h.value := by
  have := k.rising
  rw [lowerExpr_method hs hplace _ hwait] at hlow
  obtain ⟨⟨before, vs⟩, p₁, hl₁, hlow⟩ := Lower.bind_eq_ok.1 hlow
  obtain ⟨⟨before', us⟩, p₂, hl₂, hlow⟩ := Lower.bind_eq_ok.1 hlow
  cases Lower.pure_eq_ok.1 hlow
  rw [Expr.hasAttempt_call, hs.hasAttempt] at hroom
  have htame₁ : S.Tames sp (walkExprs .all es) := fun v hv => htame.tail.left v (hs.mem_walk hv)
  have htame₂ := htame.tail.right
  have hlen := lowerOperands_length hl₁
  have hg₁ := lowerOperands_grows hl₁
  have hsup₂ := hsup.second hg₁
  have hg₂ := lowerOperands_grows hl₂
  obtain rfl : before' = [] := (lowerOperands_ahead hl₂).flat hwait
  have hstrict := hs.withOperands hlen (isPlace_of_lowerOperands hl₁ hsup.fits htame₁.lowerable)
  have hplace' := hs.isPlace_withOperands hplace hlen
  simp only [List.append_nil]
  rw [evalExpr_method hs hplace, Run.bind_apply]
  refine ((hes hl₁ (fun h => (Bool.or_eq_false_iff.1 (hroom h)).1) (hsup.first hg₂) htame₁ hn hp).within
    (Touch.temps_within (List.Subset.refl _) hg₂.issued)).map _ fun c hl hc => Or.inr ⟨rfl, fun d hd => ?_⟩
  simp only [evalExpr_method hstrict hplace', hs.operate_withOperands _ hlen]
  refine (hc d hd).bind .refl fun b us us' hb heval hus => ?_
  have hnb : n ≤ b.left.nextId := Nat.le_trans hn (Nat.le_trans hl.left.nextId (hd.left ▸ hb.left.nextId))
  have hpb := (((hp.mono hl.world).mono hd.world).mono hb.world)
  have hnode := htame.tail.left (.expr callee) (hs.self_mem_walk _)
  refine (meets_operate hs (hs.isPlain_of_isPlace hplace) hnode.writes hnode.computed
    (length_of_evalExprs _ _ _ heval) hus hnb).seq fun o f f' ho hf => ?_
  refine (meets_noteMethod _ _ f f').seq fun o' _ _ ho' _ => ?_
  have hl' := ho.trans ho' .refl
  have hno : Nat.le n o'.left.nextId := Nat.le_trans hnb hl'.left.nextId
  refine (hargs.flat hl₂ (fun h => (Bool.or_eq_false_iff.1 (hroom h)).2) rfl hsup₂ htame₂ hno
    (hpb.mono hl'.world)).seq fun m ws ws' hm hws => ?_
  exact k.call (Nat.le_trans hno hm.left.nextId) ((hf.mono ho'.world).mono hm.world)
    ((hus.headD.mono hl'.world).mono hm.world) hws

/-! ## Receivers that are looked at -/

/-- Values that have the same properties : the same values, or any two functions. -/
inductive Seen (S : Setting) (w : World) : Value → Value → Prop
  | alike {v v' : Value} (h : Alike S w v v') : Seen S w v v'
  | closures (i j : Nat) (f f' : Func) (env env' : Env) (this this' : Value) :
    Seen S w (.closure i f env this) (.closure j f' env' this')

theorem Seen.mono {v w : World} (h : v ≤ w) {o : Value} (ho : Seen S v o o') : Seen S w o o' := by
  cases ho with
  | alike ha => exact .alike (ha.mono h)
  | closures => exact .closures ..

theorem meets_getProperty_of_seen (hn : n ≤ c.left.nextId) {o : Value} (h : Seen S c.world o o')
    (q : String) : Meets n t c (getProperty o q c.left) (fun _ => getProperty o' q) AlikeIn := by
  cases h with
  | alike h => exact meets_getProperty hn h q
  | closures =>
    unfold getProperty
    dsimp only
    split
    · exact meets_newNative .call hn
    · exact .pure .undefined

theorem meets_getIndex_of_seen (hn : n ≤ c.left.nextId) {o i i' : Value} (h : Seen S c.world o o')
    (hi : Alike S c.world i i') : Meets n t c (getIndex o i c.left) (fun _ => getIndex o' i') AlikeIn := by
  cases h with
  | alike h => exact meets_getIndex hn h hi
  | closures =>
    refine (meets_toText hi).seq fun b q q' hl hq => ?_
    subst hq
    exact meets_getProperty_of_seen (Nat.le_trans hn hl.left.nextId) (.closures ..) q'

/-- What holds a value can be evaluated ahead of its turn, to look at the value. -/
theorem Held.peek (h : Held lo hi names c env env' v e) (hp : Placed c.world env env') :
    ∃ d v', (∀ m, Near m c d) ∧ (∀ m, Later m .none c d) ∧
      (∀ k : Engine, evalExpr k env' e c.right = .ok v' d.right) ∧ Seen S d.world v v' := by
  rcases h.read hp with ⟨v', heval, hv⟩ | ⟨i, f, f', rfl, rfl, -, -, -, -⟩
  · exact ⟨c, v', fun m => .refl m c, fun m => .refl m .none c, heval, .alike hv⟩
  · exact ⟨c.nameRight, _, fun m => .nameRight m c, fun m => c.later_nameRight m, fun _ => rfl, .closures ..⟩

/-! ## Methods in temporaries -/

/-- What looking up a property comes to. -/
inductive Looks (S : Setting) (v : Value) (q : String) : Prop
  | field (a : Nat) (h : v = .object a)
  | made (kind : Native) (h : getProperty v q = newNative kind)
    (h' : ∀ {w : World} {v' : Value}, Alike S w v v' → getProperty v' q = newNative kind)
  | plain (h : ∀ m, ∃ g, getProperty v q m = .ok g m ∧ g.typeName ≠ "function")

theorem looks (S : Setting) (hv : v.isNullish = false) (q : String) : Looks S v q := by
  have hnone : Value.undefined.typeName ≠ "function" := by simp [Value.typeName]
  have hcount (n : Nat) : (countValue n).typeName ≠ "function" := by simp [countValue, Value.typeName]
  cases v with
  | undefined => cases hv
  | null => cases hv
  | object a => exact .field a rfl
  | bool b => exact .plain fun m => ⟨_, rfl, hnone⟩
  | number x => exact .plain fun m => ⟨_, rfl, hnone⟩
  | string s =>
    refine .plain fun m => ?_
    unfold getProperty
    split
    · exact ⟨_, rfl, hcount _⟩
    · exact ⟨_, rfl, hnone⟩
  | array a =>
    by_cases hpush : q = "push"
    · subst hpush
      refine .made .push rfl fun {w v'} h => ?_
      cases h
      rfl
    · refine .plain fun m => ?_
      unfold getProperty
      rw [if_neg (c := (q == "push") = true) (by simpa using hpush)]
      split
      · exact ⟨_, rfl, hcount _⟩
      · exact ⟨_, rfl, hnone⟩
  | closure | native =>
    by_cases hcall : q = "call"
    · subst hcall
      refine .made .call rfl fun {w v'} h => ?_
      cases h
      rfl
    · refine .plain fun m => ⟨.undefined, ?_, hnone⟩
      unfold getProperty
      dsimp only
      rw [if_neg (by simpa using hcall)]
      rfl

/-- Looking up a property does nothing that can be seen. -/
theorem getProperty_near (hv : v.isNullish = false) (q : String) (c : Twin S) :
    ∃ d g, (∀ m, Near m c d) ∧ (∀ m, Later m .none c d) ∧ getProperty v q c.right = .ok g d.right := by
  cases looks S hv q with
  | field a h =>
    subst h
    exact ⟨c, _, fun m => .refl m c, fun m => .refl m .none c, rfl⟩
  | made kind h _ =>
    rw [h]
    exact ⟨c.nameRight, _, fun m => .nameRight m c, fun m => c.later_nameRight m, rfl⟩
  | plain h =>
    obtain ⟨g, hg, -⟩ := h c.right
    exact ⟨c, g, fun m => .refl m c, fun m => .refl m .none c, hg⟩

/-- Functions have the built-in `call`. -/
theorem exists_native_of_getProperty_call {m m' : Machine} (hf : f.typeName = "function")
    (h : getProperty f "call" m = .ok g m') : ∃ j, g = .native j .call := by
  cases f with
  | closure | native =>
    cases h
    exact ⟨_, rfl⟩
  | _ => simp [Value.typeName] at hf

/-- A method that is not there makes the call go wrong. -/
theorem excused_noteMethod (hS : S.faultless = true) (hf : f.isNullish = true) (m : Machine) :
    Excused S m (noteMethod true f m) := by
  rw [noteMethod_apply, hf]
  exact Or.inr ⟨hS, Nat.add_lt_add_left (Nat.lt_succ_self _) _⟩

theorem noteMethod_of_not_nullish (hf : f.isNullish = false) (waits : Bool) (m : Machine) :
    noteMethod waits f m = .ok () m := by
  rw [noteMethod_apply, hf, Bool.and_false]
  rfl

/-- The second call passes on the first one : it calls what the function has as `call`, with the
function as its receiver and the receiver in front of the arguments. -/
structure PassesOn (c : Twin S) (x y : Invocation) : Prop where
  func : Alike S c.world x.func y.this
  args : AlikeAll c (x.this :: x.args) y.args
  call : ∃ m m', getProperty y.this "call" m = .ok y.func m'

/-- The receiver and the arguments are evaluated behind the method. -/
theorem ActiveAll.gather {f' : Value} {rest : Result (List Value)}
    (hes : ActiveAll k hi c env' rest es) (hlo : lo ≤ hi) (hv : Held lo hi names c env env' v e)
    (hhi : hi ≤ c.left.nextId) (hp : Placed c.world env env') (hd : Near lo c d)
    (hf : Alike S d.world f f') (hg : ∃ m m', getProperty f' "call" m = .ok g m') :
    Meets lo .none d (Result.andThen rest fun us => pure ⟨f, v, us⟩)
      (fun i => evalExprs (k.right i) env' (e :: es) >>= fun ws => pure ⟨g, f', ws⟩) PassesOn := by
  have hall := hes.cons_held hlo hv hhi hp d hd
  have hsplit : (Result.andThen rest fun us => pure ⟨f, v, us⟩ : Result Invocation) =
      Result.andThen (Result.andThen rest fun vs => pure (v :: vs)) fun ws => pure ⟨f, v, ws.tail⟩ := by
    cases rest <;> rfl
  rw [hsplit]
  refine hall.bind .refl fun o ws ws' ho heq hws => .pure ⟨hf.mono ho.world, ?_, hg⟩
  cases rest with
  | error e m => cases heq
  | ok us m =>
    cases heq
    exact hws

/-- The call that a call of the built-in `call` comes to. -/
def Invocation.passedOn (y : Invocation) : Invocation :=
  ⟨y.this, y.args.headD .undefined, y.args.tail⟩

/-- The same function is called with the same receiver and the same arguments. -/
structure SameCall (c : Twin S) (x y : Invocation) : Prop where
  func : Alike S c.world x.func y.func
  this : Alike S c.world x.this y.this
  args : AlikeAll c x.args y.args

theorem SameCall.meets {x y : Invocation} (h : SameCall c x y) (hn : n ≤ c.left.nextId) :
    Meets n .none c (k.left.invoke x c.left) (fun i => (k.right i).invoke y) AlikeIn :=
  k.call hn h.func h.this h.args

theorem PassesOn.same {x y : Invocation} (h : PassesOn c x y) : SameCall c x y.passedOn := by
  refine ⟨h.func, h.args.headD, ?_⟩
  obtain ⟨g, f', _ | ⟨v', us'⟩⟩ := y
  · cases h.args
  · exact (List.forall₂_cons.1 h.args).2

theorem PassesOn.invoke {x y : Invocation} (h : PassesOn c x y) (hfun : x.func.typeName = "function") (i : Nat) :
    (k.right i).invoke y = (k.right i).invoke y.passedOn := by
  obtain ⟨g, f', _ | ⟨v', us'⟩⟩ := y
  · cases h.args
  obtain ⟨m, m', hget⟩ := h.call
  obtain ⟨j, rfl⟩ := exists_native_of_getProperty_call (h.func.typeName.trans hfun) hget
  exact k.pass i j f' v' us'

/-- Functions are called as before, and the call of anything else is out of account. -/
theorem PassesOn.meets (hS : S.faultless = true) {x y : Invocation} (h : PassesOn c x y) (hn : n ≤ c.left.nextId) :
    Meets n .none c (k.left.invoke x c.left) (fun i => (k.right i).invoke y) AlikeIn := by
  by_cases hfun : x.func.typeName = "function"
  · simp only [h.invoke hfun]
    exact h.same.meets hn
  · exact .excused (k.refuse hfun hS _ _ _)

/-- A property of a value that is held can be looked up. -/
theorem Held.due_member (h : Held lo hi names c env env' v e) (hp : Placed c.world env env')
    (hn : n ≤ c.left.nextId) (q : String) : Due k n c env' (getProperty v q c.left) (.member e q) := by
  intro d hd
  obtain ⟨d₁, v', hnear, hlater, heval, hv⟩ := (h.near (hd.le (Nat.zero_le _))).peek (hp.mono hd.world)
  have hleft : d₁.left = c.left := (hnear 0).left.trans hd.left
  rw [← hleft] at hn ⊢
  exact (meets_getProperty_of_seen hn hv q).after (hlater n) .refl
    (.of_eq fun i => heval (k.right i)) fun _ => rfl

/-- An item of a value that is held can be looked up once the key is there. -/
theorem Held.due_index {names' : Names} (h : Held lo hi names c env env' v e)
    (hp : Placed c.world env env') (hkey : Ripe k n names' c env env' r key)
    (hn : n ≤ c.left.nextId) : Due k n c env' (Result.andThen r (getIndex v)) (.index e key) := by
  intro d hd
  obtain ⟨d₁, v', hnear, hlater, heval, hv⟩ := (h.near (hd.le (Nat.zero_le _))).peek (hp.mono hd.world)
  have hleft : d₁.left = c.left := (hnear 0).left.trans hd.left
  refine Meets.after ?_ (hlater n) .refl (.of_eq fun i => heval (k.right i)) fun _ => rfl
  refine (hkey.active hp d₁ ((hd.le (Nat.zero_le n)).trans (hnear n) (Nat.le_refl _))).bind
    .refl fun b i i' hb _ hi => ?_
  exact meets_getIndex_of_seen (Nat.le_trans hn (hleft ▸ hb.left.nextId)) (hv.mono hb.world) hi

/-- What is left of a call that is passed on can run on both sides. -/
def Prepared (k : Engines S) (n : Nat) (c : Twin S) (env' : Env) (r : Result Invocation)
    (callee receiver : Expr) (args : List Expr) : Prop :=
  ∀ d, Near n c d → Meets n .none d r
    (fun i => invocation (k.right i) env' (.member callee "call") (receiver :: args)) PassesOn

/-- A method that waits in a temporary is called with the built-in `call`. -/
theorem stage_bound (hargs : StagesExprs sp k args) (before : List Stmt) {before' : List Stmt}
    {place : Expr} {p₂ p₃ q : Progress} {rplace : Result Value}
    (hplace : Stage c.left.nextId (.temps env' p₂.names p₃.names) c rplace
      (fun i => execAll (k.right i) env' before) fun b => Due k c.left.nextId b env' rplace place)
    (hg : p₂.names.Grows p₃.names) (hheld : Held n c.left.nextId p₂.names c env env' v receiver)
    (hl : lowerOperands S.surroundings true args (p₃.afterFresh "spill") = .ok ((before', us), q))
    (hsup : Supplied sp S.temp p₂ q) (htame : S.Tames sp (walkExprs .all args))
    (hn : n ≤ c.left.nextId) (hp : Placed c.world env env')
    (hnull : ∀ f m, rplace = .ok f m → f.isNullish = true → S.faultless = true) :
    Stage n (.temps env' p₂.names q.names) c (Result.andThen rplace (gather k.left env args true v))
      (fun i => execAll (k.right i) env'
        ((before ++ [.declare .constant [⟨(p₃.names.fresh "spill").1, some place⟩] .none]) ++ before'))
      fun b => Prepared k n b env' (Result.andThen rplace (gather k.left env args true v))
        (.ident (p₃.names.fresh "spill").1) receiver us := by
  have := k.rising
  have hfresh : p₃.names.Grows (p₃.afterFresh "spill").names := .fresh _ "spill"
  have hsup₄ := hsup.second (hg.trans hfresh)
  have hg₄ := lowerOperands_grows hl
  have hissued : (p₃.names.fresh "spill").1 ∈ (p₃.afterFresh "spill").names.issued := List.mem_cons_self
  have hnew : (p₃.names.fresh "spill").1 ∉ p₂.names.issued :=
    fun hm => p₃.names.fresh_notMem "spill" (hg.kept hsup.kept (hg.issued hm))
  have hbound := hplace.bindTemp hp hfresh.issued (hsup.temps _ (hg₄.issued hissued)) ⟨hissued, hnew⟩ false
  have hstored : Stage _ _ c rplace _ fun b => Done c.left.nextId (p₃.afterFresh "spill").names b
      env env' rplace (.ident (p₃.names.fresh "spill").1) := hbound.done hissued
  simp only [execAll_append _ _ (before ++ _)]
  refine Stage.le hn ?_
  refine (hstored.within (Touch.temps_within (List.Subset.refl _) hg₄.issued)).bind
    (Touch.temps_within (hg.trans hfresh).issued (List.Subset.refl _)) fun b hb hdone => ?_
  obtain ⟨f, hf, hheldf⟩ := hdone
  rw [hf, Result.andThen_ok, gather, Run.bind_apply]
  cases hnone : f.isNullish with
  | true => exact .excused ((excused_noteMethod (hnull f _ hf hnone) hnone b.left).andThen _)
  | false =>
    rw [noteMethod_of_not_nullish hnone, Result.andThen_ok, Run.bind_apply]
    have hpb := hp.mono hb.world
    have hnb : c.left.nextId ≤ b.left.nextId := hb.left.nextId
    have hheldb := hheld.later hb (Nat.le_refl _) hp.chains (fun _ => id) fun x hx =>
      ⟨hsup.temps x (((hg.trans hfresh).trans hg₄).issued hx), fun hcell => hcell.2.2 hx⟩
    refine Stage.le hnb (((hargs hl (fun h => by cases h) hsup₄ htame (Nat.le_refl _) hpb).map _
      fun d hd hactive e₀ he₀ => ?_))
    have hpd := hpb.mono hd.world
    -- Receiver and method are still there when all arguments are ready.
    have hheldd := hheldb.later hd hnb hpb.chains (fun _ => id) fun x hx =>
      ⟨hsup.temps x (((hg.trans hfresh).trans hg₄).issued hx),
        fun hcell => hcell.2.2 ((hg.trans hfresh).issued hx)⟩
    have hheldf := (hheldf.later hd (Nat.le_refl _) hpb.chains (fun _ => id) fun x hx =>
      ⟨hsup.temps x (hg₄.issued hx), fun hcell => hcell.2.2 hx⟩).near (he₀.le hn)
    have hpe := hpd.mono he₀.world
    obtain ⟨f', hread, hff⟩ : ∃ f', (∀ k : Engine, evalExpr k env' (.ident
        (p₃.names.fresh "spill").1) e₀.right = .ok f' e₀.right) ∧ Alike S e₀.world f f' := by
      rcases hheldf.read hpe with h | ⟨_, _, _, -, he, -⟩
      · exact h
      · cases he
    obtain ⟨e₁, g, hnear, hlater, hget⟩ := getProperty_near (hff.isNullish.trans hnone) "call" e₀
    simp only [invocation, lookUpCallee, gather, bind_assoc, pure_bind]
    have hself (d : Twin S) : Touch.none.Within d .none := .refl
    refine Meets.after ?_ (.refl n .none e₀) (hself _) (.of_eq fun i => hread (k.right i)) fun _ => rfl
    refine Meets.after ?_ (hlater n) (hself _) (.of_eq fun _ => hget) fun _ => rfl
    refine Meets.after (d := e₁.countRight e₁.right.steps e₁.right.mistakes _) ?_
      (e₁.later_countRight n _ _ _) (hself _) (.of_eq fun _ => noteMethod_apply _ g e₁.right) fun _ => rfl
    exact hactive.gather (Nat.le_trans hn hnb) (hheldd.weaken (Nat.le_refl _) hnb
      (List.Subset.refl _)) hd.left.nextId hpd ((he₀.trans (hnear n) (Nat.le_refl _)).trans
      (.noted n _ e₁) (Nat.le_refl _)) (hff.mono (hlater n).world) ⟨_, _, hget⟩

/-! ## Methods that stay where they are -/

/-- The value that `v` has under a property is there when its turn comes, if it is a function. A
built-in function was made as one of the numbers from `lo` to `hi`. -/
inductive Method (lo hi : Nat) (c : Twin S) (q : String) : Value → Value → Prop
  | field {a : Nat} {f : Value} (ha : a < c.left.heap.objects.size)
    (hf : (c.left.heap.fields a).lookup q = some f) : Method lo hi c q (.object a) f
  | made {v : Value} {i : Nat} (kind : Native) (hlo : lo ≤ i) (hhi : i < hi)
    (hfree : ∀ j, ¬ c.world.ids i j)
    (h : ∀ {w : World} {v' : Value}, Alike S w v v' → getProperty v' q = newNative kind) :
    Method lo hi c q v (.native i kind)
  | other {v f : Value} (hv : v.isNullish = false) (hf : f.typeName ≠ "function") : Method lo hi c q v f

namespace Method

variable {q : String} {v' : Value}

theorem later (h : Method lo hi c q v f) (hq : S.Stable q) (hl : Later n t c d) (hn : hi ≤ n) :
    Method lo hi d q v f := by
  cases h with
  | field ha hf => exact .field (Nat.lt_of_lt_of_le ha hl.left.objects) ((hl.left.field ha hq).trans hf)
  | made kind hlo hhi hfree h =>
    refine .made kind hlo hhi (fun j hj => ?_) h
    rcases hl.ids hj with hj | hj
    · exact hfree j hj
    · exact absurd hhi (Nat.not_lt.2 (Nat.le_trans hn hj))
  | other hv hf => exact .other hv hf

theorem near (h : Method lo hi c q v f) (hn : Near lo c d) : Method lo hi d q v f := by
  cases h with
  | field ha hf => exact .field (hn.left ▸ ha) (hn.left ▸ hf)
  | made kind hlo hhi hfree h =>
    refine .made kind hlo hhi (fun j hj => ?_) h
    rcases hn.ids hj with hj | hj
    · exact hfree j hj
    · exact absurd hlo (Nat.not_le.2 hj)
  | other hv hf => exact .other hv hf

/-- When its turn comes, the method is there on the right as well. -/
theorem eval (h : Method lo hi c q v f) (hhi : hi ≤ c.left.nextId) (hv : Alike S c.world v v') :
    ∃ d f', Near hi c d ∧ Later lo .none c d ∧ getProperty v' q c.right = .ok f' d.right ∧
      (f.typeName = "function" → Alike S d.world f f') := by
  cases h with
  | @field a f ha hf =>
    cases hv
    have hlook := c.agree.heap.lookup a q
    rw [hf] at hlook
    refine ⟨c, ((c.right.heap.fields a).lookup q).getD .undefined, .refl hi c, .refl lo .none c, rfl, fun _ => ?_⟩
    generalize (c.right.heap.fields a).lookup q = g at hlook
    cases hlook
    assumption
  | @made v i kind hlo hh hfree h =>
    have hi := Nat.lt_of_lt_of_le hh hhi
    rw [h hv]
    exact ⟨c.nameHeld i hi hfree, _, .nameHeld hi hfree hh, Twin.later_nameHeld hi hfree hlo, rfl,
      fun _ => .native kind (Or.inr ⟨rfl, rfl⟩)⟩
  | other hn hf =>
    obtain ⟨d, g, hnear, hlater, hget⟩ := getProperty_near (hv.isNullish.trans hn) q c
    exact ⟨d, g, hnear hi, hlater lo, hget, fun h => absurd h hf⟩

end Method

/-- The left looks up the method. -/
theorem getProperty_method (hS : S.faultless = true) (v : Value) (q : String) (c : Twin S) :
    Excused S c.left (getProperty v q c.left) ∨ ∃ d f, (∀ m, Later m .none c d) ∧ d.right = c.right ∧
      getProperty v q c.left = .ok f d.left ∧ Method c.left.nextId d.left.nextId d q v f := by
  cases hv : v.isNullish with
  | true =>
    cases v with
    | undefined => exact Or.inl (excused_mistake hS _ _)
    | null => exact Or.inl (excused_mistake hS _ _)
    | _ => cases hv
  | false =>
    refine Or.inr ?_
    cases looks S hv q with
    | field a h =>
      subst h
      refine ⟨c, _, fun m => .refl m .none c, rfl, rfl, ?_⟩
      cases hf : (c.left.heap.fields a).lookup q with
      | none => exact .other rfl (by simp [Value.typeName])
      | some f =>
        refine .field ?_ hf
        by_contra ha
        simp [Heap.fields, Array.getD, ha] at hf
    | made kind h h' =>
      have hfree (j : Nat) : ¬ c.world.ids c.left.nextId j := fun hj => Nat.lt_irrefl _ (c.agree.ids.lt_left hj)
      exact ⟨c.nameLeft, .native c.left.nextId kind, fun m => c.later_nameLeft m,
        rfl, by rw [h]; rfl, .made kind (Nat.le_refl _) (Nat.lt_succ_self _) hfree h'⟩
    | plain h =>
      obtain ⟨g, hg, hno⟩ := h c.left
      exact ⟨c, g, fun m => .refl m .none c, rfl, hg, .other hv hno⟩

/-- A method that no part of the program writes is looked up when its turn comes. -/
theorem stage_stable (hS : S.faultless = true) (hargs : StagesExprs sp k args)
    (hwait : args.any Expr.hasAttempt = true) {before : List Stmt} (hprop : S.Stable prop) {q : Progress}
    (hheld : Held n c.left.nextId p.names c env env' v receiver)
    (hl : lowerOperands S.surroundings true args p = .ok ((before, us), q)) (hsup : Supplied sp S.temp p q)
    (htame : S.Tames sp (walkExprs .all args)) (hn : n ≤ c.left.nextId)
    (hp : Placed c.world env env') :
    Stage n (.temps env' p.names q.names) c (Result.andThen (getProperty v prop c.left) fun f =>
        noteMethod (args.any Expr.hasAttempt) f >>= fun _ => evalExprs k.left env args >>= fun us =>
          k.left.call f v us)
      (fun i => execAll (k.right i) env' before)
      fun b => Ripe k n q.names b env env' (Result.andThen (getProperty v prop c.left) fun f =>
        noteMethod (args.any Expr.hasAttempt) f >>= fun _ => evalExprs k.left env args >>= fun us =>
          k.left.call f v us) (.call (.member receiver prop) us) := by
  have := k.rising
  rcases getProperty_method hS v prop c with hex | ⟨d, f, hlater, hright, hget, hmethod⟩
  · exact .excused (hex.andThen _)
  rw [hget, Result.andThen_ok, Run.bind_apply, hwait]
  cases hnull : f.isNullish with
  | true =>
    exact .excused (((excused_noteMethod hS hnull d.left).andThen _).earlier (hlater n).left.faults)
  | false =>
    rw [noteMethod_of_not_nullish hnull, Result.andThen_ok, Run.bind_apply]
    have hg := lowerOperands_grows hl
    have hnd : c.left.nextId ≤ d.left.nextId := (hlater n).left.nextId
    have hpd := hp.mono (hlater n).world
    have htemps : ∀ x ∈ p.names.issued, S.temp x := fun x hx => hsup.temps x (hg.issued hx)
    have hheldd := hheld.later (hlater c.left.nextId) (Nat.le_refl _) hp.chains (fun _ => id)
      fun x hx => ⟨htemps x hx, id⟩
    refine Stage.earlier ?_ ((hlater n).within .none) .refl hright
    refine Stage.le (Nat.le_trans hn hnd) (((hargs hl (fun h => by cases h) hsup htame
      (Nat.le_refl _) hpd).map _ fun b hb hactive => Or.inr ⟨rfl, fun e₀ he₀ => ?_⟩))
    have hheldb := (hheldd.later hb hnd hpd.chains (fun _ => id) fun x hx =>
      ⟨htemps x hx, fun hcell => hcell.2.2 hx⟩).near he₀
    have hmethod := (hmethod.later hprop hb (Nat.le_refl _)).near (he₀.le hn)
    have hpe := (hpd.mono hb.world).mono he₀.world
    have hnext : d.left.nextId ≤ e₀.left.nextId := he₀.left ▸ hb.left.nextId
    obtain ⟨e₁, v', hnear₁, hlater₁, heval, hv⟩ := hheldb.eval hpe (Nat.le_trans hnd hnext)
    obtain ⟨e₂, f', hnear₂, hlater₂, hget', hf⟩ := (hmethod.near hnear₁).eval (hnear₁.left ▸ hnext) hv
    have hlater₂ := hlater₂.le hn
    have hcall (k : Engine) : evalExpr k env' (.call (.member receiver prop) us) =
        evalExpr k env' receiver >>= fun v' => getProperty v' prop >>= fun f' =>
          noteMethod (us.any Expr.hasAttempt) f' >>= fun _ => evalExprs k env' us >>= fun ws =>
            k.call f' v' ws := by
      simp only [evalExpr]
    have hself (d : Twin S) : Touch.none.Within d .none := .refl
    refine Meets.after ?_ hlater₁ (hself _) (.of_eq fun i => heval (k.right i)) fun _ => rfl
    refine Meets.after ?_ hlater₂ (hself _) (.of_eq fun _ => hget') fun _ => rfl
    refine Meets.after (d := e₂.countRight e₂.right.steps e₂.right.mistakes _) ?_
      (e₂.later_countRight n _ _ _) (hself _) (.of_eq fun _ => noteMethod_apply _ f' e₂.right) fun _ => rfl
    have hnear := (he₀.trans hnear₁ hn).trans hnear₂ hnd
    refine ((hactive _ (hnear.trans (.noted _ _ e₂) (Nat.le_refl _))).le (Nat.le_trans hn hnd)).bind
      (hself _) fun o ws ws' ho _ hws => ?_
    by_cases hfun : f.typeName = "function"
    · have hno : n ≤ o.left.nextId := by
        have hle : e₂.left.nextId ≤ o.left.nextId := ho.left.nextId
        rw [hnear.left] at hle
        exact Nat.le_trans (Nat.le_trans hn hnd) (Nat.le_trans hb.left.nextId hle)
      exact k.call hno ((hf hfun).mono ho.world) ((hv.mono hlater₂.world).mono ho.world) hws
    · exact .excused (k.refuse hfun hS _ _ _)

/-! ## All calls of methods -/

/-- In open code the arguments of methods hold no try expressions. -/
theorem closed_of_waits (hplace : callee.isPlace = true) (hwait : args.any Expr.hasAttempt = true)
    (htame : S.Tames sp ((Expr.call callee args).walk .all)) : S.faultless = true := by
  refine S.closed_faultless ?_
  cases hopen : S.surroundings.isOpen with
  | false => rfl
  | true =>
    have hflat := htame.head.flat hopen
    rw [Visit.isFlat, hplace, hwait] at hflat
    cases hflat

variable (sp k) in
/-- A call whose method waits in a temporary is evaluated in stages. A method that is not there is
left out of account. -/
def StagesBound (callee : Expr) (args : List Expr) : Prop :=
  ∀ ⦃p q : Progress⦄ ⦃h : Hoisted⦄, lowerExpr S.surroundings true (.call callee args) p =
    .ok (h, q) → Supplied sp S.temp p q → S.Tames sp (callee.walk .all ++ walkExprs .all args) →
    ∀ ⦃n : Nat⦄ ⦃a : Twin S⦄ ⦃env env' : Env⦄, n ≤ a.left.nextId → Placed a.world env env' →
    (∀ r m, lookUpCallee k.left env callee a.left = .ok r m → r.2.isNullish = true → S.faultless = true) →
    ∃ f receiver us, h.value = callWith f receiver us ∧
      Stage n (.temps env' p.names q.names) a (invocation k.left env callee args a.left)
        (fun i => execAll (k.right i) env' h.before)
        fun b => Prepared k n b env' (invocation k.left env callee args a.left) f receiver us

theorem stagesBound_member (ho : StagesExpr sp k o) (hargs : StagesExprs sp k args)
    (hwait : args.any Expr.hasAttempt = true) (hstable : S.surroundings.isStable prop = false) :
    StagesBound sp k (.member o prop) args := by
  intro p q h hlow hsup htame n a env env' hn hp hnull
  have := k.rising
  rw [lowerExpr] at hlow
  simp only [hwait, hstable, Bool.true_and, Bool.not_false, if_true] at hlow
  obtain ⟨h₀, p₁, hl₁, hlow⟩ := Lower.bind_eq_ok.1 hlow
  obtain ⟨object, p₂, hl₂, hlow⟩ := Lower.bind_eq_ok.1 hlow
  obtain ⟨callee, p₃, hl₃, hlow⟩ := Lower.bind_eq_ok.1 hlow
  obtain ⟨⟨before, us⟩, p₄, hl₄, hlow⟩ := Lower.bind_eq_ok.1 hlow
  cases Lower.pure_eq_ok.1 hlow
  obtain ⟨-, rfl, rfl⟩ := (spill_eq_ok.1 hl₃).resolve_left fun h => by cases h.1
  refine ⟨_, _, _, rfl, ?_⟩
  have hfresh : p₂.names.Grows (p₂.afterFresh "spill").names := .fresh _ "spill"
  simp only [invocation, lookUpCallee, bind_assoc, pure_bind, Expr.isPlace, hwait, Bool.true_and]
  rw [Run.bind_apply]
  simp only [List.append_assoc]
  refine ho.spilledThen hl₁ hl₂ (hfresh.trans (lowerOperands_grows hl₄)) hsup htame.left.tail hn hp
    fun c v hnc hpc hsup₂ hv hheld => ?_
  have hplace : Due k c.left.nextId c env' (getProperty v prop c.left) (.member object.value prop) :=
    hheld.due_member hpc (Nat.le_refl _) prop
  rw [hv, Result.andThen_ok, Run.bind_apply]
  refine stage_bound hargs [] (.nothing hplace) (.refl _) hheld hl₄ hsup₂ htame.right hnc hpc
    fun f m hf => hnull (v, f) m ?_
  simp only [lookUpCallee, Run.bind_apply, hv, Result.andThen_ok, hf]
  rfl

theorem stagesBound_index (ho : StagesExpr sp k o) (hkey : StagesExpr sp k key) (hargs : StagesExprs sp k args)
    (hwait : args.any Expr.hasAttempt = true) : StagesBound sp k (.index o key) args := by
  intro p q h hlow hsup htame n a env env' hn hp hnull
  have := k.rising
  rw [lowerExpr] at hlow
  simp only [hwait, Bool.true_and, Bool.true_or, if_true] at hlow
  obtain ⟨h₀, p₁, hl₁, hlow⟩ := Lower.bind_eq_ok.1 hlow
  obtain ⟨object, p₂, hl₂, hlow⟩ := Lower.bind_eq_ok.1 hlow
  obtain ⟨key', p₃, hl₃, hlow⟩ := Lower.bind_eq_ok.1 hlow
  obtain ⟨callee, p₄, hl₄, hlow⟩ := Lower.bind_eq_ok.1 hlow
  obtain ⟨⟨before, us⟩, p₅, hl₅, hlow⟩ := Lower.bind_eq_ok.1 hlow
  cases Lower.pure_eq_ok.1 hlow
  obtain ⟨-, rfl, rfl⟩ := (spill_eq_ok.1 hl₄).resolve_left fun h => by cases h.1
  refine ⟨_, _, _, rfl, ?_⟩
  have hg₃ := lowerExpr_grows hl₃
  have hfresh : p₃.names.Grows (p₃.afterFresh "spill").names := .fresh _ "spill"
  have hg₅ := hfresh.trans (lowerOperands_grows hl₅)
  have heval : invocation k.left env (.index o key) args = evalExpr k.left env o >>= fun v =>
      (evalExpr k.left env key >>= getIndex v) >>= gather k.left env args true v := by
    simp only [invocation, lookUpCallee, bind_assoc, pure_bind, Expr.isPlace, hwait, Bool.true_and]
  rw [heval, Run.bind_apply]
  simp only [List.append_assoc]
  refine ho.spilledThen hl₁ hl₂ (hg₃.trans hg₅) hsup htame.left.tail.left hn hp
    fun c v hnc hpc hsup₂ hv hheld => ?_
  simp only [← List.append_assoc]
  have hplace := (hkey hl₃ (fun h => by cases h) (hsup₂.first hg₅) htame.left.tail.right (Nat.le_refl _) hpc).map
    (getIndex v) fun b hb hripe => (hheld.later hb (Nat.le_refl _) hpc.chains (fun _ => id) fun x hx =>
      ⟨hsup₂.temps x ((hg₃.trans hg₅).issued hx), fun hcell => hcell.2.2 hx⟩).due_index
        (hpc.mono hb.world) hripe hb.left.nextId
  rw [hv, Result.andThen_ok, Run.bind_apply, Run.bind_apply]
  refine stage_bound hargs key'.before hplace hg₃ hheld hl₅ hsup₂ htame.right hnc hpc
    fun f m hf => hnull (v, f) m ?_
  simp only [lookUpCallee, Run.bind_apply, hv, Result.andThen_ok, ← Result.andThen_andThen, hf]
  rfl

/-- The call is made once all that it needs is there. -/
theorem StagesBound.call (h : StagesBound sp k callee args) (hplace : callee.isPlace = true)
    (hwait : args.any Expr.hasAttempt = true) {q : Progress} {h₀ : Hoisted}
    (hlow : lowerExpr S.surroundings true (.call callee args) p = .ok (h₀, q)) (hsup : Supplied sp S.temp p q)
    (htame : S.Tames sp ((Expr.call callee args).walk .all)) (hn : n ≤ a.left.nextId)
    (hp : Placed a.world env env') :
    Stage n (.temps env' p.names q.names) a (evalExpr k.left env (.call callee args) a.left)
      (fun i => execAll (k.right i) env' h₀.before)
      fun c => Ripe k n q.names c env env' (evalExpr k.left env (.call callee args) a.left) h₀.value := by
  have := k.rising
  have hS := closed_of_waits hplace hwait htame
  obtain ⟨f, receiver, us, hvalue, hstage⟩ := h hlow hsup htame.tail hn hp fun _ _ _ _ => hS
  rw [hvalue, evalExpr_call, Run.bind_apply]
  refine hstage.map _ fun c hl hc => Or.inr ⟨rfl, fun d hd => ?_⟩
  simp only [callWith, evalExpr_call]
  refine (hc d hd).bind .refl fun o x y ho _ hxy => hxy.meets hS ?_
  exact Nat.le_trans hn (Nat.le_trans hl.left.nextId (hd.left ▸ ho.left.nextId))

theorem stagesExpr_callMember (prop : String) (ho : StagesExpr sp k o)
    (hargs : StagesExprs sp k args) : StagesExpr sp k (.call (.member o prop) args) := by
  intro hoists p q h hlow hroom hsup htame n a env env' hn hp
  have := k.rising
  cases hfollows : hoists && args.any Expr.hasAttempt with
  | false =>
    exact stagesExpr_method (.member o prop) rfl (stagesExprs_cons ho stagesExprs_nil)
      hargs hlow hfollows hroom hsup htame hn hp
  | true =>
    obtain ⟨rfl, hwait⟩ := Bool.and_eq_true_iff.1 hfollows
    cases hstable : S.surroundings.isStable prop with
    | false => exact (stagesBound_member ho hargs hwait hstable).call rfl hwait hlow hsup htame hn hp
    | true =>
      have hS := closed_of_waits rfl hwait htame
      rw [lowerExpr] at hlow
      simp only [hfollows, hstable, Bool.true_and, Bool.not_true, Bool.false_eq_true, if_false] at hlow
      obtain ⟨h₀, p₁, hl₁, hlow⟩ := Lower.bind_eq_ok.1 hlow
      obtain ⟨object, p₂, hl₂, hlow⟩ := Lower.bind_eq_ok.1 hlow
      obtain ⟨⟨before, us⟩, p₃, hl₃, hlow⟩ := Lower.bind_eq_ok.1 hlow
      cases Lower.pure_eq_ok.1 hlow
      have heval : evalExpr k.left env (.call (.member o prop) args) = evalExpr k.left env o >>= fun v =>
          getProperty v prop >>= fun f => noteMethod (args.any Expr.hasAttempt) f >>= fun _ =>
            evalExprs k.left env args >>= fun us => k.left.call f v us := by
        simp only [evalExpr]
      rw [heval, Run.bind_apply]
      refine ho.spilledThen hl₁ hl₂ (lowerOperands_grows hl₃) hsup htame.tail.left.tail hn hp
        fun c v hnc hpc hsup₂ hv hheld => ?_
      rw [hv, Result.andThen_ok, Run.bind_apply]
      exact stage_stable hS hargs hwait hstable hheld hl₃ hsup₂ htame.tail.right hnc hpc

theorem stagesExpr_callIndex (ho : StagesExpr sp k o) (hkey : StagesExpr sp k key)
    (hargs : StagesExprs sp k args) : StagesExpr sp k (.call (.index o key) args) := by
  intro hoists p q h hlow hroom hsup htame n a env env' hn hp
  cases hfollows : hoists && args.any Expr.hasAttempt with
  | false =>
    exact stagesExpr_method (.index o key) rfl (stagesExprs_cons ho
      (stagesExprs_cons hkey stagesExprs_nil)) hargs hlow hfollows hroom hsup htame hn hp
  | true =>
    obtain ⟨rfl, hwait⟩ := Bool.and_eq_true_iff.1 hfollows
    exact (stagesBound_index ho hkey hargs hwait).call rfl hwait hlow hsup htame hn hp

end RaiseScript
