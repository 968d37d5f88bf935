import RaiseScript.Proofs.Hygiene
import RaiseScript.Proofs.UntouchedState
import RaiseScript.Proofs.Limits

/-!
# Lowering keeps what programs do

Both sides start from the same machine (`Twin.same`), so the simulation applies to whole programs. A
program that was read and checked prints the same lines and comes to the same end as the program
that lowering makes of it (`lowering_faithful`). Runs in which the program makes a mistake are left
out of account, since a mistake in an operand that stays in place is noticed later than before.
-/

namespace RaiseScript

variable {fine fine' : Func → Prop} {m n : Machine} {p : Program} {S : Setting} {e : Exit}
  {limits : Limits} {direct : Bool}

/-! ## A machine next to itself -/

/-- Functions in the value are `fine`, and its numbers and scopes are there. -/
def Value.Sound (fine : Func → Prop) (scopes ids : Nat) : Value → Prop
  | .closure id f env this =>
    id < ids ∧ fine f ∧ (∀ l ∈ env.chain, l.scope < scopes) ∧ this.Sound fine scopes ids
  | .native id _ => id < ids
  | _ => True

/-- Every function that the machine holds is `fine`, and its number and its scopes are there. -/
structure Machine.Sound (fine : Func → Prop) (m : Machine) : Prop where
  bound : ∀ {i x b}, lookupIn m.scopes i x = some b → b.value.Sound fine m.scopes.size m.nextId
  items : ∀ a, ∀ v ∈ (m.heap.items a).toList, v.Sound fine m.scopes.size m.nextId
  fields : ∀ a, ∀ f ∈ m.heap.fields a, f.2.Sound fine m.scopes.size m.nextId
  this : m.this.Sound fine m.scopes.size m.nextId

theorem Value.Sound.imp (h : ∀ f, fine f → fine' f) {scopes ids : Nat} :
    ∀ {v : Value}, v.Sound fine scopes ids → v.Sound fine' scopes ids
  | .closure _ _ _ _, hv => ⟨hv.1, h _ hv.2.1, hv.2.2.1, hv.2.2.2.imp h⟩
  | .native _ _, hv => hv
  | .undefined, _ | .null, _ | .bool _, _ | .number _, _ | .string _, _ | .array _, _ | .object _, _ =>
    trivial

theorem Machine.Sound.imp (h : ∀ f, fine f → fine' f) (hm : m.Sound fine) : m.Sound fine' :=
  ⟨fun hb => (hm.bound hb).imp h, fun a v hv => (hm.items a v hv).imp h,
    fun a f hf => (hm.fields a f hf).imp h, hm.this.imp h⟩

/-- The numbers of a machine belong to themselves. -/
def World.same (m : Machine) : World where
  scopes i j := i = j ∧ i < m.scopes.size
  extra _ := False
  ids i j := i = j ∧ i < m.nextId
  slots _ _ := False

section

theorem Chains.same : ∀ {ls : List Link}, (∀ l ∈ ls, l.scope < m.scopes.size) → Chains (.same m) ls ls
  | [], _ => .nil
  | _ :: _, h =>
    .link ⟨rfl, h _ List.mem_cons_self⟩ rfl (.same fun l hl => h l (List.mem_cons_of_mem _ hl))

theorem Value.Sound.alike : ∀ {v : Value},
    v.Sound (fun f => S.code f f) m.scopes.size m.nextId → Alike S (.same m) v v
  | .undefined, _ => .undefined
  | .null, _ => .null
  | .bool b, _ => .bool b
  | .number x, _ => .number x
  | .string s, _ => .string s
  | .array a, _ => .array a
  | .object a, _ => .object a
  | .closure _ _ _ _, h => .closure ⟨rfl, h.1⟩ h.2.1 (.same h.2.2.1) h.2.2.2.alike
  | .native _ kind, h => .native kind ⟨rfl, h⟩

theorem Machine.Sound.matches (h : m.Sound fun f => S.code f f) : Matches S (.same m) m m where
  scopes := {
    lt_left := fun hij => hij.2
    lt_right := fun hij => hij.1 ▸ hij.2
    right_unique := fun hij hij' => hij.1.symm.trans hij'.1
    left_unique := fun hij hij' => hij.1.trans hij'.1.symm
    bindings := by
      rintro i _ x ⟨rfl, -⟩ -
      cases hb : lookupIn m.scopes i x with
      | none => exact .none
      | some b => exact .some ⟨(h.bound hb).alike, rfl⟩
    extra_lt := fun hj => hj.elim
    extra_apart := fun hj => hj.elim
    extra_bindings := fun hj => hj.elim }
  ids := ⟨fun hij => hij.2, fun hij => hij.1 ▸ hij.2, fun hij hij' => hij.1.symm.trans hij'.1,
    fun hij hij' => hij.1.trans hij'.1.symm⟩
  slots := ⟨False.elim, False.elim, fun hij => hij.elim, fun hij => hij.elim, False.elim⟩
  heap := {
    arrays := rfl
    objects := rfl
    items := fun a => List.forall₂_same.2 fun v hv => (h.items a v hv).alike
    fields := fun a => List.forall₂_same.2 fun f hf => ⟨rfl, (h.fields a f hf).alike⟩ }
  this := h.this.alike
  depth := rfl
  output := rfl

/-- The machine next to itself. -/
def Twin.same (m : Machine) (h : m.Sound fun f => S.code f f) : Twin S :=
  ⟨.same m, m, m, h.matches⟩

end

/-- A new machine holds built-in functions only. -/
theorem Machine.sound_start (fine : Func → Prop) : Machine.start.Sound fine where
  bound {i x b} hb := by
    obtain _ | i := i
    · have hscope : [("console", ⟨.object 0, false⟩), ("String", ⟨.native 1 .string, false⟩),
          ("Error", ⟨.native 2 .error, false⟩)].lookup x = some b := hb
      simp only [lookup_cons_ite, List.lookup_nil] at hscope
      repeat' split at hscope
      all_goals cases hscope
      all_goals simp [Value.Sound, Machine.start]
    · cases hb
  items a v hv := by cases hv
  fields a f hf := by
    obtain _ | a := a
    · have hfields : f ∈ [("log", Value.native 0 .log)] := hf
      obtain rfl := List.mem_singleton.1 hfields
      simp [Value.Sound, Machine.start]
    · cases hf
  this := trivial

/-! ## Whole programs -/

theorem Writable.not_isStable {q : String} (h : Writable p q) :
    (Surroundings.ofProgram p).isStable q = false := by
  cases hn : assignedProperties p with
  | none => simp [Surroundings.isStable, Surroundings.ofProgram, hn]
  | some names => simp [Surroundings.isStable, Surroundings.ofProgram, hn, h names hn]

/-- A program without complaints is as lowering expects it, if its try expressions and declarations
stand where they may. -/
theorem allTame_of_lowerable {sp : Spelling} {temp : String → Prop}
    (hl : Lowerable sp (walkStmts .all p))
    (hroom : ∀ v ∈ walkStmts .all p, v.leavesRoom = true)
    (hyields : ∀ v ∈ walkStmts .all p, v.yieldsPlain = true)
    (hbraced : ∀ v ∈ walkStmts .all p, v.isBraced = true) (hfree : ∀ x, temp x → x ∉ identifiers p) :
    AllTame sp (.ofProgram p) temp (walkStmts .all p) := by
  intro v hv
  have hpart : PartOf p [v] := fun u hu => List.mem_singleton.1 hu ▸ hv
  exact {
    ready := (hl v hv).1
    spelled := (hl v hv).2
    names := fun x hx ht => hfree x ht (List.mem_flatMap.2 ⟨v, hv, hx⟩)
    rebinds := fun _ x hx => hpart.rebinds hx
    writes := fun q hq => (hpart.writes hq).not_isStable
    computed := fun hc q => (hpart.writesComputed hc q).not_isStable
    room := hroom v hv
    yields := hyields v hv
    braced := fun _ => hbraced v hv
    flat := fun hopen => by cases hopen }

/-- Nothing but what a run prints and how it ends is compared. -/
def Machine.Shows (r r' : Except RunError Unit × Machine) : Prop :=
  r'.1 = r.1 ∧ r'.2.output = r.2.output

theorem ExitAlike.ending {w : World} {m' : Machine} (hm : Matches S w m m') {e' : Exit}
    (h : ExitAlike S w e e') : Machine.ending m'.heap e' = Machine.ending m.heap e := by
  cases h with
  | thrown hv => simp only [Machine.ending, hm.heap.depthBound, hm.heap.text? hv]
  | _ => rfl

/-- The run was stopped at its limit of steps. -/
def RunError.IsStop (r : Except RunError Unit) : Prop :=
  ∃ limit, r = .error (.failed (.stepLimit limit))

theorem Machine.run_of_ok (h : Machine.body limits direct m.depth p m = .ok () n) :
    m.run limits direct p = (.ok (), n) := by
  rw [Machine.run, h]

theorem Machine.run_of_error (h : Machine.body limits direct m.depth p m = .error e n) :
    m.run limits direct p = (.error (Machine.ending n.heap e), n) := by
  rw [Machine.run, h]

theorem RunError.isStop_of_stopped (h : Result.Stopped (Machine.body limits direct m.depth p m)) :
    RunError.IsStop (m.run limits direct p).1 := by
  obtain ⟨limit, m', hr⟩ := h
  rw [Machine.run_of_error hr]
  exact ⟨limit, rfl⟩

/-- A limit that is not reached does not matter for a program. -/
theorem Machine.run_outlasting (limits : Limits) (p : Program) {n : Nat} (hn : limits.maxSteps ≤ n)
    (hm : m.steps ≤ limits.maxSteps) : RunError.IsStop (m.run limits false p).1 ∨
      m.run ⟨n, limits.maxDepth⟩ false p = m.run limits false p := by
  have hparallel : Parallel (fun d {_} => Outlasts limits.maxSteps d) limits.maxSteps
      (Limits.mk n limits.maxDepth).maxSteps limits.maxDepth := parallel_outlasts hn
  have hsame := (hparallel.program rfl m.depth p).same rfl hm
  rw [run_traceProgram, run_traceProgram] at hsame
  exact hsame.imp RunError.isStop_of_stopped fun h => by rw [run, h, run]

section

variable {beginning : String} {q : Program} {progress : Progress}

/-- The run of a program is met by the run of what became of it. -/
theorem meets_body (limits : Limits) (hl : Lowerable .any (walkStmts .all p))
    (hsites : ∀ c, sitesIn c p = []) (hroom : ∀ v ∈ walkStmts .all p, v.leavesRoom = true)
    (hyields : ∀ v ∈ walkStmts .all p, v.yieldsPlain = true)
    (hbraced : ∀ v ∈ walkStmts .all p, v.isBraced = true)
    (hlow : lowerProgram beginning p = .ok (q, progress)) :
    Meets (S := .lowering .any (.ofProgram p) (· ∈ progress.names.issued) true fun _ => rfl) 0
      (.local Machine.globals Machine.globals) (.same Machine.start (Machine.sound_start _))
      (Machine.body limits true 0 p Machine.start) (fun i => Machine.body ⟨i, limits.maxDepth⟩ false 0 q)
      Anything := by
  have htame := allTame_of_lowerable hl hroom hyields hbraced (notMem_identifiers_of_issued hlow)
  have hsup : Supplied .any (· ∈ progress.names.issued) ⟨.forProgram beginning p, 0⟩ progress :=
    ⟨Spelling.any_fits _, by simp, fun _ hx => hx⟩
  exact meets_statements (engines limits limits.maxDepth) Setting.lowers_lowering
    (lowerProgram_eq_ok.1 hlow).1 hsup htame hsites (Nat.zero_le _)
      ⟨.same Machine.within_globals, List.cons_ne_nil _ _⟩
    ⟨List.cons_ne_nil _ _, List.cons_ne_nil _ _, rfl, Nat.zero_lt_one⟩

end

theorem Machine.run_snd (limits : Limits) (direct : Bool) (p : Program) (m : Machine) :
    (m.run limits direct p).2 = Result.final (Machine.body limits direct m.depth p m) := by
  rw [Machine.run]
  cases Machine.body limits direct m.depth p m <;> rfl

/-- Only runs that are stopped or in which something goes wrong are left out of account. -/
theorem Machine.not_excused_body (hstop : ¬ RunError.IsStop (Machine.start.run limits true p).1)
    (hmistakes : (Machine.start.run limits true p).2.mistakes = 0)
    (hmisses : (Machine.start.run limits true p).2.misses = 0) :
    ¬ Excused S Machine.start (Machine.body limits true Machine.start.depth p Machine.start) := by
  have hended := ((lasting_body limits true _ p).lasts Machine.start rfl
    (Nat.zero_le _)).resolve_left fun h => hstop (RunError.isStop_of_stopped h)
  rintro (⟨f, m, hf, ⟨limit, rfl⟩ | rfl⟩ | ⟨-, hc⟩)
  · rw [Machine.run_of_error hf] at hstop
    exact hstop ⟨limit, rfl⟩
  · exact hended.unexhausted m hf
  · rw [← Machine.run_snd, Machine.faults, Machine.faults, hmistakes, hmisses] at hc
    exact Nat.lt_irrefl _ hc

/-- Runs that meet show the same. -/
theorem Meets.shows {n : Nat} {t : Touch} {c : Twin S} {q : Program} {R : Twin S → Unit → Unit → Prop}
    (h : Meets n t c (Machine.body limits true c.left.depth p c.left)
      (fun i => Machine.body ⟨i, limits.maxDepth⟩ false c.right.depth q) R)
    (hex : ¬ Excused S c.left (Machine.body limits true c.left.depth p c.left)) :
    ∃ N, ∀ n ≥ N, Machine.Shows (c.left.run limits true p) (c.right.run ⟨n, limits.maxDepth⟩ false q) := by
  cases h with
  | excused h => exact absurd h hex
  | gives b _ _ _ hb hright _ =>
    obtain ⟨N, hN⟩ := hright
    refine ⟨N, fun n hn => ?_⟩
    rw [Machine.run_of_ok hb, Machine.run_of_ok (hN n hn)]
    exact ⟨rfl, b.agree.output⟩
  | exits b e e' _ hb hright he =>
    obtain ⟨N, hN⟩ := hright
    refine ⟨N, fun n hn => ?_⟩
    rw [Machine.run_of_error hb, Machine.run_of_error (hN n hn)]
    exact ⟨congrArg Except.error (he.ending b.agree), b.agree.output⟩

/-- Lowering keeps what a program does. Let a program be read and checked without complaints, with
no try expression in the body of an arrow function, in the test of a case or of a loop or under a
`yield`, and with no declaration as the whole body of a branch or of a loop. If its run in place
comes to an end, makes no mistake and finds every method for whose call it has to wait, then the
lowered program prints the same lines and comes to the same end, unless it is stopped at its limit
of steps, which it is not if the limit is high enough. -/
theorem lowering_faithful {source file : String} {o : Options} {p : Program} (limits : Limits)
    (ho : 1 ≤ o.maxErrors) (ha : analyze source file o = .ok (p, []))
    (hroom : ∀ v ∈ walkStmts .all p, v.leavesRoom = true)
    (hyields : ∀ v ∈ walkStmts .all p, v.yieldsPlain = true)
    (hbraced : ∀ v ∈ walkStmts .all p, v.isBraced = true)
    (hstop : ¬ RunError.IsStop (Machine.start.run limits true p).1)
    (hmistakes : (Machine.start.run limits true p).2.mistakes = 0)
    (hmisses : (Machine.start.run limits true p).2.misses = 0) :
    ∃ q progress, lowerProgram o.tempPrefix p = .ok (q, progress) ∧
      (∃ N, ∀ n ≥ N, Machine.Shows (Machine.start.run limits true p)
        (Machine.start.run ⟨n, limits.maxDepth⟩ false q)) ∧
      ∀ n, RunError.IsStop (Machine.start.run ⟨n, limits.maxDepth⟩ false q).1 ∨
        Machine.Shows (Machine.start.run limits true p) (Machine.start.run ⟨n, limits.maxDepth⟩ false q) := by
  obtain ⟨hl, hsites, -⟩ := lowerable_of_analyze ho ha
  obtain ⟨q, progress, hlow, -⟩ := lowerProgram_ok o.tempPrefix hl (hsites .body) (Spelling.any_fits _)
  have henough := (meets_body limits hl hsites hroom hyields hbraced hlow).shows
    (Machine.not_excused_body hstop hmistakes hmisses)
  refine ⟨q, progress, hlow, henough, fun n => ?_⟩
  obtain ⟨N, hN⟩ := henough
  refine (Machine.run_outlasting ⟨n, limits.maxDepth⟩ (m := Machine.start) q (Nat.le_max_left n N)
    (Nat.zero_le _)).imp_right fun h => ?_
  rw [← h]
  exact hN _ (Nat.le_max_right n N)

/-! ## Runs next to each other -/

/-- Reads, checks and lowers a program, runs both forms of it and looks at the two runs. -/
def compareRuns (source : String)
    (look : Program → Except RunError Unit × Machine → Except RunError Unit × Machine → Bool) : Bool :=
  (analyze source "main.js" ⟨"__", 10⟩).toOption.any fun r => r.2.isEmpty &&
    (lowerProgram "__" r.1).toOption.any fun s =>
      look r.1 (Machine.start.run ⟨100, 10⟩ true r.1) (Machine.start.run ⟨100, 10⟩ false s.1)

theorem exists_of_compareRuns {source : String}
    {look : Program → Except RunError Unit × Machine → Except RunError Unit × Machine → Bool}
    (h : compareRuns source look = true) :
    ∃ p q progress, analyze source "main.js" ⟨"__", 10⟩ = .ok (p, []) ∧
      lowerProgram "__" p = .ok (q, progress) ∧
      look p (Machine.start.run ⟨100, 10⟩ true p) (Machine.start.run ⟨100, 10⟩ false q) = true := by
  obtain ⟨⟨p, ds⟩, ha, h⟩ := Except.exists_of_any h
  obtain ⟨hds, h⟩ := Bool.and_eq_true_iff.1 h
  obtain rfl := List.isEmpty_iff.1 hds
  obtain ⟨⟨q, progress⟩, hlow, h⟩ := Except.exists_of_any h
  exact ⟨p, q, progress, ha, hlow, h⟩

/-- A program is read, checked and lowered, and this holds of it, of its own run and of the run of
what became of it. -/
def BothRun (source : String)
    (P : Program → Except RunError Unit × Machine → Except RunError Unit × Machine → Prop) : Prop :=
  ∃ p q progress, analyze source "main.js" ⟨"__", 10⟩ = .ok (p, []) ∧
    lowerProgram "__" p = .ok (q, progress) ∧
    P p (Machine.start.run ⟨100, 10⟩ true p) (Machine.start.run ⟨100, 10⟩ false q)

theorem bothRun_of_decide {source : String}
    {P : Program → Except RunError Unit × Machine → Except RunError Unit × Machine → Prop}
    [∀ p r r', Decidable (P p r r')] (h : compareRuns source (fun p r r' => decide (P p r r')) = true) :
    BothRun source P := by
  obtain ⟨p, q, progress, ha, hlow, h⟩ := exists_of_compareRuns h
  exact ⟨p, q, progress, ha, hlow, of_decide_eq_true h⟩

/-- An error is thrown, caught and raised while an operand waits. -/
def caughtError : String :=
  "function f(x) \x7b console.log(x); return x; \x7d
  f(f('a') + try \x7b raise 'q'; throw Error('b'); \x7d catch (c) \x7b raise c.message; \x7d finally (r) \x7b f(r); \x7d);"

/-- The operand is printed first, then what was raised, then the sum, before and after. -/
theorem lowering_faithful_of_caughtError :
    ∃ p q progress, analyze caughtError "main.js" ⟨"__", 10⟩ = .ok (p, []) ∧
      lowerProgram "__" p = .ok (q, progress) ∧
      (Machine.start.run ⟨100, 10⟩ true p).2.output = #["a", "b", "ab"] ∧
      ∃ N, ∀ n ≥ N, Machine.Shows (Machine.start.run ⟨100, 10⟩ true p) (Machine.start.run ⟨n, 10⟩ false q) := by
  have hlook : compareRuns caughtError (fun p r _ => r.1.toBool && r.2.mistakes == 0 &&
      r.2.misses == 0 && r.2.output == #["a", "b", "ab"] && (walkStmts .all p).all fun v =>
        v.leavesRoom && v.yieldsPlain && v.isBraced) = true := by decide +kernel
  obtain ⟨p, q, progress, ha, hlow, h⟩ := exists_of_compareRuns hlook
  simp only [Bool.and_eq_true, beq_iff_eq, List.all_eq_true] at h
  obtain ⟨⟨⟨⟨hok, hmistakes⟩, hmisses⟩, houtput⟩, hnodes⟩ := h
  have hstop : ¬ RunError.IsStop (Machine.start.run ⟨100, 10⟩ true p).1 := by
    rintro ⟨limit, hlimit⟩
    rw [hlimit] at hok
    cases hok
  obtain ⟨q', progress', hlow', henough, -⟩ := lowering_faithful ⟨100, 10⟩ (by decide) ha
    (fun v hv => (hnodes v hv).1.1) (fun v hv => (hnodes v hv).1.2) (fun v hv => (hnodes v hv).2) hstop
    hmistakes hmisses
  rw [hlow] at hlow'
  cases hlow'
  exact ⟨p, q, progress, ha, hlow, houtput, henough⟩

/-- A clause under a `yield` prints. -/
def yieldedClause : String :=
  "yield (try \x7b console.log('clause'); raise 'a' \x7d catch \x7b raise 'b' \x7d);"

/-- A method that is not there is called with a try expression and with a call that throws. -/
def missingMethod : String :=
  "let o = []; o['k'] = 'v'; function t() \x7b throw 'late'; \x7d
  o.m(try \x7b raise 'a' \x7d catch \x7b raise 'b' \x7d, t());"

/-- Something has to be asked of `yield` and of methods. A try expression under a `yield` is hoisted
in front of it, so what it prints is printed before the machine refuses the `yield`. A method that
is not there is called through its own `call`, which fails before the arguments behind a try
expression are evaluated. -/
theorem lowering_unfaithful :
    (BothRun yieldedClause fun p r r' =>
      (∀ v ∈ walkStmts .all p, v.leavesRoom = true ∧ v.isBraced = true) ∧
      r.1 = .error (.failed (.unsupported .yield)) ∧ r.2.mistakes = 0 ∧ r.2.output = #[] ∧
      r'.2.output = #["clause"]) ∧
    BothRun missingMethod fun p r r' =>
      (∀ v ∈ walkStmts .all p, v.leavesRoom = true ∧ v.isBraced = true) ∧
      r.1 = .error (.uncaught "late") ∧ r.2.mistakes = 0 ∧
      r'.1 = .error (.uncaught "TypeError: Cannot read properties of undefined (reading 'call')") :=
  ⟨bothRun_of_decide (by decide +kernel), bothRun_of_decide (by decide +kernel)⟩

end RaiseScript
