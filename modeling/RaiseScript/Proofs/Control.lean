import RaiseScript.Proofs.Operators
import RaiseScript.Proofs.Walk

/-!
# Control on both sides

Rules for code that looks at how other code ended : try statements, loops, switches and calls. If
the other code on the left is out of account, so is the whole.
-/

namespace RaiseScript

variable {S : Setting} {α β γ δ : Type} {n : Nat} {t : Touch} {c : Twin S}
variable {x : Run α} {m m' : Machine} {a : α} {e : Exit} {y : Nat → Run α}
  {R : Twin S → α → β → Prop} {u : Touch} {o o' : Except Exit Unit} {F : Run Unit}
  {F' : Nat → Run Unit} {env env' : Env}

/-! ## Outcomes -/

/-- The same outcome, up to the numbers in values. -/
inductive Outcomes (R : Twin S → α → β → Prop) (b : Twin S) : Except Exit α → Except Exit β → Prop
  | ok {v : α} {v' : β} (h : R b v v') : Outcomes R b (.ok v) (.ok v')
  | error {e e' : Exit} (h : ExitAlike S b.world e e') : Outcomes R b (.error e) (.error e')

theorem outcome_ok (h : x m = .ok a m') : outcome x m = .ok (.ok a) m' := by
  rw [outcome, h]

theorem outcome_error (h : x m = .error e m') : outcome x m = .ok (.error e) m' := by
  rw [outcome, h]

theorem Ends.outcome_ok (h : Ends y m (.ok a m')) : Ends (fun k => outcome (y k)) m (.ok (.ok a) m') := by
  obtain ⟨N, hN⟩ := h
  exact ⟨N, fun k hk => RaiseScript.outcome_ok (hN k hk)⟩

theorem Ends.outcome_error (h : Ends y m (.error e m')) :
    Ends (fun k => outcome (y k)) m (.ok (.error e) m') := by
  obtain ⟨N, hN⟩ := h
  exact ⟨N, fun k hk => RaiseScript.outcome_error (hN k hk)⟩

/-- Code that hands on the failures of other code is out of account with it. -/
theorem Meets.outcome {y : Nat → Run β} {f : Except Exit α → Run γ} {g : Nat → Except Exit β → Run δ}
    {R' : Twin S → γ → δ → Prop} [∀ o, Rising (f o)] (h : Meets n t c (x c.left) y R) (hw : u.Within c t)
    (hfail : ∀ e m, f (.error (.failed e)) m = .error (.failed e) m)
    (hf : ∀ b o o', Later n t c b → Outcomes R b o o' → Meets n u b (f o b.left) (g · o') R') :
    Meets n t c ((RaiseScript.outcome x >>= f) c.left) (fun k => RaiseScript.outcome (y k) >>= g k) R' := by
  rw [Run.bind_apply]
  cases h with
  | gives b v v' hl hv hy hr =>
    rw [RaiseScript.outcome_ok hv]
    exact (hf b _ _ hl (.ok hr)).after hl hw hy.outcome_ok fun _ => rfl
  | exits b e e' hl he hy hr =>
    rw [RaiseScript.outcome_error he]
    exact (hf b _ _ hl (.error hr)).after hl hw hy.outcome_error fun _ => rfl
  | excused h =>
    refine .excused ?_
    rcases h with ⟨e, m, he, hex⟩ | ⟨hs, hc⟩
    · rw [RaiseScript.outcome_error he, Result.andThen_ok, hfail]
      exact Or.inl ⟨e, m, rfl, hex⟩
    · refine Excused.andThen (Or.inr ⟨hs, ?_⟩) f
      unfold RaiseScript.outcome
      cases hx : x c.left <;> rw [hx] at hc <;> exact hc

theorem meets_conclude {o : Except Exit α} {o' : Except Exit β} (h : Outcomes R c o o') :
    Meets n t c (conclude o c.left) (fun _ => conclude o') R := by
  cases h with
  | ok h => exact .pure h
  | error h => exact .throw h

/-- A try statement. -/
def attempted (body : Run Unit) (handler : Value → Run Unit) (finalizer : Run Unit) : Run Unit := do
  let first ← outcome body
  let second ← catching first handler
  finishing second finalizer

theorem meets_finishing (h : Outcomes Anything c o o') (hF : Meets n t c (F c.left) F' Anything) :
    Meets n t c (finishing o F c.left) (fun k => finishing o' (F' k)) Anything := by
  have hrest : Meets n t c ((F >>= fun _ => conclude o) c.left) (fun k => F' k >>=
      fun _ => conclude o') Anything := by
    refine hF.seq fun b _ _ hl _ => meets_conclude ?_
    cases h with
    | ok h => exact .ok trivial
    | error h => exact .error (h.mono hl.world)
  cases h with
  | ok h => exact hrest
  | error h =>
    cases h with
    | failed f => exact .fail f
    | _ => exact hrest

theorem meets_attempted {B : Run Unit} {H : Value → Run Unit} {B' : Nat → Run Unit}
    {H' : Nat → Value → Run Unit} [∀ v, Rising (H v)] [Rising F] (hB : Meets n t c (B c.left) B' Anything)
    (hH : ∀ b v v', Later n t c b → Alike S b.world v v' → Meets n t b (H v b.left) (H' · v') Anything)
    (hF : ∀ b, Later n t c b → Meets n t b (F b.left) F' Anything) :
    Meets n t c (attempted B H F c.left) (fun k => attempted (B' k) (H' k) (F' k)) Anything := by
  refine hB.outcome .refl (fun _ _ => rfl) fun b o o' hl ho => ?_
  have hkeep : Meets n t b ((pure o >>= fun o => finishing o F : Run Unit) b.left)
      (fun k => pure o' >>= fun o => finishing o (F' k)) Anything := by
    simp only [pure_bind]
    exact meets_finishing ho (hF b hl)
  cases ho with
  | ok h => exact hkeep
  | error h =>
    cases h with
    | thrown hv =>
      refine (hH b _ _ hl hv).outcome .refl (fun _ _ => rfl) fun d o o' hd ho => ?_
      exact meets_finishing ho (hF d (hl.trans hd .refl))
    | _ => exact hkeep

/-! ## Loops and switches -/

theorem meets_goesOn (h : Outcomes Anything c o o') :
    Meets n t c (goesOn o c.left) (fun _ => goesOn o') (fun _ go go' => go' = go) := by
  cases h with
  | ok h => exact .pure rfl
  | error h =>
    cases h with
    | thrown h => exact .throw (.thrown h)
    | returned h => exact .throw (.returned h)
    | broke => exact .pure rfl
    | continued => exact .pure rfl
    | failed f => exact .throw (.failed f)

theorem meets_leaveSwitch (h : Outcomes Anything c o o') :
    Meets n t c (leaveSwitch o c.left) (fun _ => leaveSwitch o') Anything := by
  cases h with
  | ok h => exact .pure trivial
  | error h =>
    cases h with
    | thrown h => exact .throw (.thrown h)
    | returned h => exact .throw (.returned h)
    | broke => exact .pure trivial
    | continued => exact .throw .continued
    | failed f => exact .throw (.failed f)

/-- A loop on the right goes on as long as the one on the left, if it may take enough steps. -/
theorem meets_rounds {round : Run Bool} {round' : Nat → Run Bool} [Rising round]
    (h : ∀ b, Later n t c b → Meets n t b (round b.left) round' (fun _ go go' => go' = go))
    (fuel done : Nat) :
    Meets n t c (rounds round fuel c.left) (fun k => rounds (round' k) (k - done)) Anything := by
  induction fuel generalizing c done with
  | zero => exact .excused (Or.inl ⟨.exhausted, _, rfl, Or.inr rfl⟩)
  | succ fuel ih =>
    refine Meets.congr_from (done + 1) (y := fun k => round' k >>= fun go =>
      if go then rounds (round' k) (k - (done + 1)) else pure ()) ?_ fun k hk => ?_
    · refine (h c (.refl n t c)).seq fun b go go' hl hgo => ?_
      subst hgo
      cases go' with
      | false => exact .pure trivial
      | true => exact ih (fun d hd => h d (hl.trans hd .refl)) (done + 1)
    · obtain ⟨i, rfl⟩ := Nat.exists_eq_add_of_le hk
      have hi : done + 1 + i - done = (done + 1 + i - (done + 1)) + 1 := by omega
      rw [hi]
      rfl

/-! ## Scopes of their own -/

/-- The environment in a scope that is made on the machine `m`. -/
def Env.inside (env : Env) (m : Machine) (isBody : Bool) : Env :=
  { env with chain := ⟨m.scopes.size, isBody⟩ :: env.chain }

theorem Chains.inside (h : Chains c.world env.chain env'.chain) (isBody : Bool) :
    Chains c.pushBoth.world (env.inside c.left isBody).chain (env'.inside c.right isBody).chain :=
  .link (Or.inr ⟨rfl, rfl⟩) rfl (h.mono (c.world.le_withScopes _ _))

theorem Flush.inside (c : Twin S) (env env' : Env) (isBody : Bool) :
    Flush c.pushBoth.world (env.inside c.left isBody) (env'.inside c.right isBody) :=
  ⟨List.cons_ne_nil _ _, List.cons_ne_nil _ _, Or.inr ⟨rfl, rfl⟩⟩

/-- A new scope on both sides and what runs in it. -/
theorem Meets.newScope {f : Env → Run α} {g : Nat → Env → Run β} {isBody : Bool}
    (h : Meets n u c.pushBoth (f (env.inside c.left isBody) c.pushBoth.left)
      (g · (env'.inside c.right isBody)) R) (hw : u.Within c t) :
    Meets n t c ((RaiseScript.newScope env isBody >>= f) c.left)
      (fun k => RaiseScript.newScope env' isBody >>= g k) R := by
  have hx : Ends (fun _ => RaiseScript.newScope env' isBody) c.right
      (.ok (env'.inside c.right isBody) c.pushBoth.right) := .of_eq fun _ => rfl
  exact h.after ((c.later_pushBoth n).within .none) hw hx fun _ => rfl

/-! ## Functions that are declared -/

/-- Binds a function to its name. -/
def declareFunction (env : Env) (f : Func) : Run Unit :=
  match f.name with
  | none => return ()
  | some name => do declareHere env name (← newClosure f env) true

/-- Binds functions to their names. -/
def declareAll (env : Env) : List Func → Run Unit
  | [] => return ()
  | f :: fs => do
    declareFunction env f
    declareAll env fs

instance rising_declareFunction (env : Env) (f : Func) : Rising (declareFunction env f) := by
  unfold declareFunction
  cases f.name <;> infer_instance

instance rising_declareAll (env : Env) : ∀ fs, Rising (declareAll env fs)
  | [] => rising_pure _
  | f :: fs => by
    have := rising_declareAll env fs
    unfold declareAll
    infer_instance

theorem declareFunctions_eq (env : Env) (ss : List Stmt) :
    declareFunctions env ss = declareAll env (funcsOf ss) := by
  induction ss with
  | nil => rfl
  | cons st ss ih =>
    cases st with
    | func f =>
      rw [declareFunctions, funcsOf, declareAll, ← ih, declareFunction]
      cases f.name <;> simp
    | _ => rw [declareFunctions, funcsOf, ih] <;> simp

/-- A function and what became of it can be declared. -/
structure Declares (S : Setting) (f f' : Func) : Prop where
  code : S.code f f'
  name : ∀ x ∈ f.name, ¬ S.temp x ∧ ¬ S.Steady x

theorem meets_declareFunction {f f' : Func} (h : Declares S f f') (hn : n ≤ c.left.nextId)
    (hc : Chains c.world env.chain env'.chain) (hf : Flush c.world env env') :
    Meets n t c (declareFunction env f c.left) (fun _ => declareFunction env' f') Anything := by
  unfold declareFunction
  rw [(S.same_head h.code).1]
  cases hname : f.name with
  | none => exact .pure trivial
  | some x =>
    obtain ⟨htemp, hsteady⟩ := h.name x hname
    refine (meets_newClosure hn h.code hc).seq fun b v v' hl hv => ?_
    exact meets_declareHere true (hf.mono hl.world) htemp hv fun hs => absurd hs hsteady

theorem meets_declareFunctions {ss ss' : List Stmt} (h : List.Forall₂ (Declares S) (funcsOf ss) (funcsOf ss'))
    (hn : n ≤ c.left.nextId) (hc : Chains c.world env.chain env'.chain) (hf : Flush c.world env env') :
    Meets n t c (declareFunctions env ss c.left) (fun _ => declareFunctions env' ss') Anything := by
  simp only [declareFunctions_eq]
  generalize funcsOf ss = fs, funcsOf ss' = fs' at h
  induction h generalizing c with
  | nil => exact .pure trivial
  | cons h _ ih =>
    refine (meets_declareFunction h hn hc hf).seq fun b _ _ hl _ => ?_
    exact ih (Nat.le_trans hn hl.left.nextId) (hc.mono hl.world) (hf.mono hl.world)

end RaiseScript
