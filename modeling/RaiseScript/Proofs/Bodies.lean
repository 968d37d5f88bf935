import RaiseScript.Proofs.Simulation

/-!
# Calls of lowered functions

In `Setting.lowering` a function belongs to what lowering makes of it. The bodies of the two meet
(`meets_runBody`) if the calls inside them do, so all calls meet, by induction on how many may be
nested (`meets_callAt`). This gives the engines of both sides (`engines`).
-/

namespace RaiseScript

variable {sp : Spelling} {s : Surroundings} {temp : String → Prop} {n : Nat}
variable {f f' : Func} {p q : Progress}

/-! ## The setting -/

/-- The function `f'` is what lowering made of `f`. -/
structure Becomes (sp : Spelling) (s : Surroundings) (temp : String → Prop) (f f' : Func) : Prop where
  made : ∃ p q, lowerFunc s f p = .ok (f', q) ∧ Supplied sp temp p q
  tame : AllTame sp s temp (f.walk .all)

theorem lowerFunc_head (h : lowerFunc s f p = .ok (f', q)) :
    f'.name = f.name ∧ f'.params = f.params ∧ f'.form = f.form := by
  obtain ⟨name, params, body | value, isAsync, form, span⟩ := f
  all_goals
    rw [lowerFunc] at h
    obtain ⟨_, rfl, -⟩ := Lower.map_eq_ok.1 h
    exact ⟨rfl, rfl, rfl⟩

theorem Func.walk_eq_cons (f : Func) (s : Reach) : ∃ vs, f.walk s = .func f :: vs := by
  obtain ⟨_, _, _ | _, _, _, _⟩ := f <;> exact ⟨_, rfl⟩

theorem Becomes.params_apart (h : Becomes sp s temp f f') : ∀ x ∈ f.params, ¬ temp x := by
  intro x hx
  obtain ⟨vs, hvs⟩ := f.walk_eq_cons .all
  have htame := h.tame
  rw [hvs] at htame
  exact htame.head.names x (List.mem_append_right _ hx)

variable (sp s temp) in
/-- Functions belong to what lowering makes of them. -/
def Setting.lowering (faultless : Bool) (h : s.isOpen = false → faultless = true) : Setting where
  surroundings := s
  temp := temp
  code := Becomes sp s temp
  same_head hf := by
    obtain ⟨_, _, hl, -⟩ := hf.made
    exact lowerFunc_head hl
  params_apart := Becomes.params_apart
  faultless := faultless
  closed_faultless := h

variable {faultless : Bool} {closed : s.isOpen = false → faultless = true}

theorem Setting.lowers_lowering : (Setting.lowering sp s temp faultless closed).Lowers sp :=
  fun _ _ p q hl hs ht => ⟨⟨p, q, hl, hs⟩, ht⟩

/-! ## Bodies -/

/-- What a call gives when the body of its function ended so. -/
def leaveBody : Except Exit Value → Run Value
  | .error (.returned v) => return v
  | .error .broke => return .undefined
  | .error .continued => return .undefined
  | r => conclude r

instance rising_leaveBody (o : Except Exit Value) : Rising (leaveBody o) := by
  unfold leaveBody
  split <;> infer_instance

theorem runBody_block (k : Engine) (env : Env) (body : List Stmt) : runBody k env (.block body) =
    outcome (declareFunctions env body >>= fun _ => execAll k env body >>=
      fun _ => pure .undefined) >>= leaveBody := rfl

theorem runBody_expr (k : Engine) (env : Env) (e : Expr) :
    runBody k env (.expr e) = outcome (evalExpr k env e) >>= leaveBody := rfl

section

variable {S : Setting} {c : Twin S} {env env' : Env} {t : Touch}

theorem meets_leaveBody {o o' : Except Exit Value} (h : Outcomes AlikeIn c o o') :
    Meets n t c (leaveBody o c.left) (fun _ => leaveBody o') AlikeIn := by
  cases h with
  | ok h => exact .pure h
  | error h =>
    cases h with
    | thrown h => exact .throw (.thrown h)
    | returned h => exact .pure h
    | broke => exact .pure .undefined
    | continued => exact .pure .undefined
    | failed f => exact .throw (.failed f)

theorem Touch.stmt_within_local (c : Twin S) (env env' : Env) (p q : Names) :
    (Touch.stmt env env' p q .none).Within c (.local env env') where
  scope _ hi := hi
  cell _ hi := by
    rcases hi with hi | ⟨m, hm, -⟩
    · exact hi.1
    · cases hm
  slot _ hi := by
    obtain ⟨m, hm, -⟩ := hi
    cases hm
  aim m hm := by cases hm

/-- The statements of a body or of a program, with the functions they declare. -/
theorem meets_statements (k : Engines S) (hS : S.Lowers sp) {ss ss' : List Stmt}
    (hl : lowerStmts S.surroundings ss p = .ok (ss', q)) (hsup : Supplied sp S.temp p q)
    (htame : S.Tames sp (walkStmts .all ss)) (hsites : ∀ c, sitesIn c ss = [])
    (hn : n ≤ c.left.nextId) (hp : Placed c.world env env') (hf : Flush c.world env env') :
    Meets n (.local env env') c ((declareFunctions env ss >>= fun _ => execAll k.left env ss) c.left)
      (fun i => declareFunctions env' ss' >>= fun _ => execAll (k.right i) env' ss') Anything := by
  have := k.rising
  have hdecl := declares_lowerStmts hS hl hsup htame
  have hwell := (lowersStmts sp _ ss).of_eq_ok hsup.fits htame.lowerable hl
  refine (meets_declareFunctions hdecl hn hp.chains hf).seq fun b _ _ hb _ => ?_
  have hfaces : Faces n b env env' none "" q.names :=
    ⟨Nat.le_trans hn hb.left.nextId, (hp.mono hb.world).stands, (by simp), aimClear_none⟩
  have hruns := runsStmts k hS ss hl hsup htame hfaces (fun _ => hsites .body) (hf.mono hb.world)
  rw [(hwell.clean_of_sites hsup.fits (hsites .body)).storeAll] at hruns
  exact hruns.within (Touch.stmt_within_local b env env' p.names q.names)

theorem meets_runBody (k : Engines S) (hS : S.Lowers sp) (hf : Becomes sp S.surroundings S.temp f f')
    (hn : n ≤ c.left.nextId) (hp : Placed c.world env env') (hflush : Flush c.world env env') :
    Meets n (.local env env') c (runBody k.left env f.body c.left)
      (fun i => runBody (k.right i) env' f'.body) AlikeIn := by
  have := k.rising
  obtain ⟨⟨p, q, hl, hsup⟩, htame⟩ := hf
  obtain ⟨name, params, body | value, isAsync, form, span⟩ := f
  · rw [lowerFunc] at hl
    obtain ⟨body', p', hl, hr⟩ := Lower.bind_eq_ok.1 hl
    cases Lower.pure_eq_ok.1 hr
    have hsites : ∀ c, sitesIn c body = [] := htame.head.ready
    simp only [runBody_block]
    refine Meets.outcome (R := AlikeIn) ?_ .refl (fun _ _ => rfl)
      fun b o o' _ ho => meets_leaveBody ho
    simp only [← bind_assoc]
    exact (meets_statements k hS hl hsup htame.tail hsites hn hp hflush).seq fun b _ _ _ _ => .pure .undefined
  · rw [lowerFunc] at hl
    obtain ⟨h, rfl, hl'⟩ := Lower.map_eq_ok.1 hl
    have hroom : value.hasAttempt = false := by simpa [Visit.leavesRoom] using htame.head.room
    obtain ⟨-, hvalue⟩ := (stagesExpr k hS value).flat hl' hroom hsup htame.tail hn hp
    simp only [runBody_expr]
    exact (hvalue.within .none).outcome .refl (fun _ _ => rfl)
      fun b o o' _ ho => meets_leaveBody ho

end

/-! ## Calls -/

section

variable {S : Setting}

/-- Calls of values that belong together meet. -/
def CallsMeet (S : Setting) (call : Value → Value → List Value → Run Value)
    (call' : Nat → Value → Value → List Value → Run Value) : Prop :=
  ∀ {n : Nat} {c : Twin S} {f f' this this' : Value} {args args' : List Value}, n ≤ c.left.nextId →
    Alike S c.world f f' → Alike S c.world this this' → List.Forall₂ (Alike S c.world) args args' →
    Meets n .none c (call f this args c.left) (fun i => call' i f' this' args') AlikeIn

theorem callAt_refuse (limits : Limits) (direct : Bool) (fuel : Nat) {f : Value}
    (hf : f.typeName ≠ "function") (this : Value) (args : List Value) :
    callAt limits direct fuel f this args = mistakeOf (.notCallable <$> toShown f) := by
  cases f with
  | closure => exact absurd rfl hf
  | native => exact absurd rfl hf
  | _ => cases fuel <;> cases args <;> rfl

/-- The engines of both sides, if calls meet. -/
def enginesOf (limits : Limits) (direct : Bool) (fuel : Nat)
    (h : CallsMeet S (callAt limits true fuel) fun i => callAt ⟨i, limits.maxDepth⟩ direct fuel) :
    Engines S where
  left := ⟨limits.maxSteps, true, callAt limits true fuel⟩
  right i := ⟨i, direct, callAt ⟨i, limits.maxDepth⟩ direct fuel⟩
  direct := rfl
  rising := ⟨fun f this args => rising_callAt limits true fuel f this args⟩
  maxSteps _ := rfl
  call := h
  pass _ _ _ _ _ := by cases fuel <;> rfl
  refuse {f} hf hS this args m := by
    change Excused S m (callAt limits true fuel f this args m)
    rw [callAt_refuse limits true fuel hf]
    exact excused_mistakeOf hS _ m

end

theorem meets_callAt (limits : Limits) (fuel : Nat) :
    CallsMeet (Setting.lowering sp s temp faultless closed) (callAt limits true fuel)
      fun i => callAt ⟨i, limits.maxDepth⟩ false fuel := by
  induction fuel with
  | zero =>
    intro _ _ _ _ _ _ _ _ hn hf ht ha
    have hbodies : BodiesMeet (Setting.lowering sp s temp faultless closed)
        (fun _ _ => fail .exhausted) (fun _ _ _ => fail .exhausted) :=
      fun _ _ _ _ _ _ => .fail .exhausted
    exact meets_callWithBody hbodies limits.maxDepth hn hf ht ha
  | succ fuel ih =>
    intro _ _ _ _ _ _ _ _ hn hf ht ha
    let k := enginesOf limits false fuel ih
    have := k.rising
    have hbodies : BodiesMeet (Setting.lowering sp s temp faultless closed) (runBody k.left)
        (fun i => runBody (k.right i)) := fun hcode hn hc hflush _ _ =>
      meets_runBody k Setting.lowers_lowering hcode hn ⟨hc, hflush.2.1⟩ hflush
    exact meets_callWithBody hbodies limits.maxDepth hn hf ht ha

/-- The engines of both sides. -/
def engines (limits : Limits) (fuel : Nat) : Engines (Setting.lowering sp s temp faultless closed) :=
  enginesOf limits false fuel (meets_callAt limits fuel)

end RaiseScript
