import RaiseScript.Machine.Session
import RaiseScript.Proofs.CyclicValues
import RaiseScript.Proofs.Phrases

/-!
# What no run takes back

Whatever code does to a machine, the counts of its steps, of its mistakes and of its misses never go
down, no output and no name is taken back, and at the end the same call is in progress as at the
start. `Rising x` says so of a piece of code `x`. It is a class, so that the proof for a piece of
code is put together from its parts ; it holds of all expressions and statements as soon as it holds
of calls (`Engine.Rising`), and of calls by induction on how many may be nested (`rising_callAt`).

Most of what evaluation does at once is done by a `Primitive` : code that also takes no step, and
gives up the run only over a feature that is not supported or a value that contains itself.
-/

namespace RaiseScript

variable {scopes : Array Scope} {i : Nat} {x : String} {b m n a c : Machine} {f : Machine → Machine}

/-- How a run ends, and the machine it leaves. -/
abbrev Result (α : Type) := EStateM.Result Exit Machine α

variable {α β : Type}

namespace Result

/-- The machine that is left. -/
def final : Result α → Machine
  | .ok _ m => m
  | .error _ m => m

@[simp] theorem final_ok (a : α) (m : Machine) : final (.ok a m) = m := rfl

@[simp] theorem final_error (e : Exit) (m : Machine) : final (.error e m : Result α) = m := rfl

/-- Goes on after a value was given. -/
def andThen (r : Result α) (f : α → Run β) : Result β :=
  match r with
  | .ok a m => f a m
  | .error e m => .error e m

@[simp] theorem andThen_ok (a : α) (m : Machine) (f : α → Run β) :
    andThen (.ok a m) f = f a m := rfl

@[simp] theorem andThen_error (e : Exit) (m : Machine) (f : α → Run β) :
    andThen (.error e m) f = .error e m := rfl

/-- The same end with another machine. -/
def onFinal (g : Machine → Machine) : Result α → Result α
  | .ok a m => .ok a (g m)
  | .error e m => .error e (g m)

theorem final_onFinal (g : Machine → Machine) (r : Result α) : final (onFinal g r) = g (final r) := by
  cases r <;> rfl

end Result

theorem Run.bind_apply (x : Run α) (f : α → Run β) (m : Machine) :
    (x >>= f) m = Result.andThen (x m) f := by
  show EStateM.bind x f m = _
  unfold EStateM.bind
  cases x m <;> rfl

@[simp] theorem Run.pure_apply (a : α) (m : Machine) : (pure a : Run α) m = .ok a m := rfl

@[simp] theorem Run.get_apply (m : Machine) : (get : Run Machine) m = .ok m m := rfl

@[simp] theorem Run.modify_apply (f : Machine → Machine) (m : Machine) :
    (modify f : Run PUnit) m = .ok ⟨⟩ (f m) := rfl

@[simp] theorem Run.modifyGet_apply (f : Machine → α × Machine) (m : Machine) :
    (modifyGet f : Run α) m = .ok (f m).1 (f m).2 := rfl

@[simp] theorem Run.throw_apply (e : Exit) (m : Machine) : (throw e : Run α) m = .error e m := rfl

/-! ## Scopes -/

theorem lookup_cons_ite {α : Type} (x k : String) (a : α) (rest : List (String × α)) :
    ((k, a) :: rest).lookup x = if x = k then some a else rest.lookup x := by
  rw [List.lookup_cons]
  by_cases h : x = k
  · simp [h]
  · rw [beq_false_of_ne h, if_neg h]

theorem Scope.lookup_bind (x y : String) (b : Binding) : ∀ sc : Scope,
    (Scope.bind x b sc).lookup y = if y = x then some b else sc.lookup y
  | [] => by rw [Scope.bind, lookup_cons_ite]
  | (k, c) :: rest => by
    rw [Scope.bind]
    by_cases hk : k = x
    · subst hk
      rw [if_pos (by simp), lookup_cons_ite, lookup_cons_ite]
      by_cases h : y = k <;> simp [h]
    · rw [if_neg (by simpa using hk), lookup_cons_ite, lookup_cons_ite, Scope.lookup_bind x y b rest]
      by_cases h : y = k
      · subst h
        simp [hk]
      · simp [h]

/-- The binding of a name in one of many scopes. -/
def lookupIn (scopes : Array Scope) (i : Nat) (x : String) : Option Binding :=
  (scopes.getD i []).lookup x

theorem lookupIn_of_size_le (h : scopes.size ≤ i) (x : String) : lookupIn scopes i x = none := by
  simp [lookupIn, Array.getD, Nat.not_lt.2 h]

theorem lt_of_lookupIn {b : Binding} (h : lookupIn scopes i x = some b) : i < scopes.size := by
  by_contra hi
  rw [lookupIn_of_size_le (Nat.le_of_not_lt hi)] at h
  cases h

theorem lookupIn_push (scopes : Array Scope) (i : Nat) (x : String) :
    lookupIn (scopes.push []) i x = lookupIn scopes i x := by
  unfold lookupIn
  rcases Nat.lt_trichotomy i scopes.size with h | rfl | h
  · simp [Array.getD, h, Nat.lt_succ_of_lt h, Array.getElem_push]
  · simp [Array.getD]
  · simp [Array.getD, Nat.not_lt.2 (Nat.le_of_lt h), Nat.not_lt.2 (Nat.succ_le_of_lt h)]

namespace Machine

theorem find?_cons (m : Machine) (x : String) (l : Link) (c : List Link) :
    m.find? x (l :: c) = ((lookupIn m.scopes l.scope x).map (l.scope, ·)).or (m.find? x c) := by
  rw [find?, lookupIn]
  cases (m.scopes.getD l.scope []).lookup x <;> rfl

theorem find?_congr : ∀ {c : List Link},
    (∀ l ∈ c, lookupIn n.scopes l.scope x = lookupIn m.scopes l.scope x) → n.find? x c = m.find? x c
  | [], _ => rfl
  | l :: c, h => by
    rw [find?_cons, find?_cons, h l List.mem_cons_self,
      find?_congr fun l hl => h l (List.mem_cons_of_mem _ hl)]

theorem lookupIn_declare (m : Machine) (i j : Nat) (x y : String) (b : Binding) :
    lookupIn (m.declare i x b).scopes j y =
      if j = i ∧ y = x ∧ i < m.scopes.size then some b else lookupIn m.scopes j y := by
  unfold declare lookupIn
  by_cases hj : j = i
  · subst hj
    by_cases hlt : j < m.scopes.size
    · simp [Array.getD, hlt, Array.getElem_modify, Scope.lookup_bind]
    · simp [Array.getD, hlt]
  · by_cases hlt : j < m.scopes.size
    · simp [Array.getD, hlt, hj, Array.getElem_modify, Ne.symm hj]
    · simp [Array.getD, hlt, hj]

@[simp] theorem size_declare (m : Machine) (i : Nat) (x : String) (b : Binding) :
    (m.declare i x b).scopes.size = m.scopes.size := by
  simp [declare]

end Machine

/-! ## Going on -/

/-- Every scope is still there in the machine `n`, with every name that was bound in it. -/
structure Machine.Retains (m n : Machine) : Prop where
  size : m.scopes.size ≤ n.scopes.size
  names : ∀ i x, (lookupIn m.scopes i x).isSome → (lookupIn n.scopes i x).isSome

namespace Machine.Retains

theorem of_eq (h : n.scopes = m.scopes) : m.Retains n :=
  ⟨Nat.le_of_eq (congrArg Array.size h.symm), fun _ _ hx => h ▸ hx⟩

theorem trans (h : a.Retains b) (h' : b.Retains c) : a.Retains c :=
  ⟨Nat.le_trans h.size h'.size, fun i x hx => h'.names i x (h.names i x hx)⟩

theorem declare (m : Machine) (i : Nat) (x : String) (b : Binding) : m.Retains (m.declare i x b) where
  size := Nat.le_of_eq (m.size_declare i x b).symm
  names j y hy := by
    rw [lookupIn_declare]
    split
    · rfl
    · exact hy

end Machine.Retains

/-- The machine `n` may come after `m` when the same call is in progress. -/
structure Machine.Prolongs (m n : Machine) : Prop where
  steps : m.steps ≤ n.steps := by exact Nat.le_refl _
  mistakes : m.mistakes ≤ n.mistakes := by exact Nat.le_refl _
  misses : m.misses ≤ n.misses := by exact Nat.le_refl _
  depth : n.depth = m.depth := by rfl
  this : n.this = m.this := by rfl
  output : m.output.toList <+: n.output.toList := by exact List.prefix_refl _
  retains : m.Retains n := by exact .of_eq rfl

theorem Machine.Prolongs.refl (m : Machine) : m.Prolongs m where

theorem Machine.Prolongs.trans (h : a.Prolongs b) (h' : b.Prolongs c) : a.Prolongs c :=
  ⟨Nat.le_trans h.steps h'.steps, Nat.le_trans h.mistakes h'.mistakes, Nat.le_trans h.misses h'.misses,
    h'.depth.trans h.depth, h'.this.trans h.this, h.output.trans h'.output, h.retains.trans h'.retains⟩

/-- Code that takes nothing back. -/
class Rising (x : Run α) : Prop where
  rises : ∀ m : Machine, m.Prolongs (Result.final (x m))

theorem Rising.of_ok {x : Run α} [hx : Rising x] {a : α} (h : x m = .ok a n) : m.Prolongs n := by
  have hm := hx.rises m
  rwa [h] at hm

/-- What follows in the code comes later. -/
theorem Rising.andThen {x : Run α} {f : α → Run β} [hf : ∀ a, Rising (f a)] (m : Machine) :
    (Result.final (x m)).Prolongs (Result.final ((x >>= f) m)) := by
  rw [Run.bind_apply]
  cases x m with
  | ok a n => exact (hf a).rises n
  | error e n => exact .refl n

instance rising_pure (a : α) : Rising (pure a : Run α) :=
  ⟨fun m => .refl m⟩

instance rising_bind (x : Run α) (f : α → Run β) [hx : Rising x] [hf : ∀ a, Rising (f a)] :
    Rising (x >>= f) :=
  ⟨fun m => (hx.rises m).trans (Rising.andThen m)⟩

instance (x : Run α) (f : α → β) [Rising x] : Rising (f <$> x) :=
  inferInstanceAs (Rising (x >>= fun a => pure (f a)))

instance (c : Prop) [Decidable c] (x y : Run α) [Rising x] [Rising y] :
    Rising (if c then x else y) := by
  split <;> infer_instance

instance : Rising (get : Run Machine) :=
  ⟨fun m => .refl m⟩

instance rising_throw (e : Exit) : Rising (throw e : Run α) :=
  ⟨fun m => .refl m⟩

instance rising_fail (f : Failure) : Rising (fail f : Run α) :=
  rising_throw _

theorem rising_modify (h : ∀ m : Machine, m.Prolongs (f m)) : Rising (modify f : Run PUnit) :=
  ⟨h⟩

instance (x : Run α) [hx : Rising x] : Rising (outcome x) where
  rises m := by
    have hm := hx.rises m
    unfold outcome
    cases hr : x m <;> rw [hr] at hm <;> exact hm

instance (r : Except Exit α) : Rising (conclude r) := by
  cases r <;> unfold conclude <;> infer_instance

/-! ## Primitives -/

/-- The run was stopped because it took too long. -/
def Failure.IsLimit (f : Failure) : Prop :=
  (∃ limit, f = .stepLimit limit) ∨ f = .exhausted

/-- The failure is one for which a primitive gives up. -/
def Failure.Arises (h : Heap) : Failure → Prop
  | .unlowered _ => True
  | .unsupported _ => True
  | .endless => ∃ v, h.ContainsItself v
  | .stepLimit _ => False
  | .exhausted => False

/-- Code that the machine runs in one go. -/
class Primitive (x : Run α) : Prop where
  prolongs : ∀ m : Machine, m.Prolongs (Result.final (x m)) ∧ (Result.final (x m)).steps = m.steps
  arises : ∀ m f n, x m = .error (.failed f) n → f.Arises n.heap

instance (x : Run α) [hx : Primitive x] : Rising x :=
  ⟨fun m => (hx.prolongs m).1⟩

instance primitive_pure (a : α) : Primitive (pure a : Run α) :=
  ⟨fun m => ⟨.refl m, rfl⟩, fun _ _ _ h => by cases h⟩

instance (x : Run α) (f : α → Run β) [hx : Primitive x] [hf : ∀ a, Primitive (f a)] :
    Primitive (x >>= f) where
  prolongs m := by
    have hm := hx.prolongs m
    rw [Run.bind_apply]
    cases hr : x m with
    | error e n =>
      rw [hr] at hm
      exact hm
    | ok a n =>
      rw [hr] at hm
      have hn := (hf a).prolongs n
      exact ⟨hm.1.trans hn.1, hn.2.trans hm.2⟩
  arises m e n h := by
    rw [Run.bind_apply] at h
    cases hr : x m with
    | error e' n' =>
      rw [hr] at h
      cases h
      exact hx.arises m e n hr
    | ok a n' =>
      rw [hr] at h
      exact (hf a).arises n' e n h

instance (x : Run α) (f : α → β) [Primitive x] : Primitive (f <$> x) :=
  inferInstanceAs (Primitive (x >>= fun a => pure (f a)))

instance (c : Prop) [Decidable c] (x y : Run α) [Primitive x] [Primitive y] :
    Primitive (if c then x else y) := by
  split <;> infer_instance

instance : Primitive (get : Run Machine) :=
  ⟨fun m => ⟨.refl m, rfl⟩, fun _ _ _ h => by cases h⟩

/-- The code ends in a way that is not a failure. -/
def Exit.IsPlain : Exit → Prop
  | .failed _ => False
  | _ => True

theorem primitive_throw {e : Exit} (he : e.IsPlain) : Primitive (throw e : Run α) where
  prolongs m := ⟨.refl m, rfl⟩
  arises _ _ _ h := by
    cases h
    exact he.elim

instance (v : Value) : Primitive (throw (.thrown v) : Run α) := primitive_throw trivial

instance (v : Value) : Primitive (throw (.returned v) : Run α) := primitive_throw trivial

instance : Primitive (throw .broke : Run α) := primitive_throw trivial

instance : Primitive (throw .continued : Run α) := primitive_throw trivial

/-- The code did not fail. -/
def Unfailed (o : Except Exit α) : Prop :=
  ∀ f, o ≠ .error (.failed f)

theorem unfailed_or_failed (o : Except Exit α) : Unfailed o ∨ ∃ e, o = .error (.failed e) := by
  by_cases h : ∃ e, o = .error (.failed e)
  · exact Or.inr h
  · exact Or.inl fun e he => h ⟨e, he⟩

namespace Unfailed

theorem isPlain {e : Exit} (h : Unfailed (.error e : Except Exit α)) : e.IsPlain := by
  cases e with
  | failed f => exact h f rfl
  | _ => exact trivial

theorem primitive_conclude {o : Except Exit α} (h : Unfailed o) : Primitive (conclude o) := by
  cases o with
  | ok a => exact primitive_pure a
  | error e => exact primitive_throw h.isPlain

theorem primitive_goesOn {o : Except Exit Unit} (h : Unfailed o) : Primitive (goesOn o) := by
  unfold goesOn
  split
  · infer_instance
  · infer_instance
  · infer_instance
  · exact primitive_throw h.isPlain

theorem primitive_leaveSwitch {o : Except Exit Unit} (h : Unfailed o) : Primitive (leaveSwitch o) := by
  unfold leaveSwitch
  split
  · infer_instance
  · exact h.primitive_conclude

end Unfailed

instance (f : Feature) : Primitive (fail (.unsupported f) : Run α) :=
  ⟨fun m => ⟨.refl m, rfl⟩, fun _ _ _ h => by cases h; trivial⟩

instance (e : Extension) : Primitive (fail (.unlowered e) : Run α) :=
  ⟨fun m => ⟨.refl m, rfl⟩, fun _ _ _ h => by cases h; trivial⟩

theorem primitive_modify (h : ∀ m : Machine, m.Prolongs (f m) ∧ (f m).steps = m.steps) :
    Primitive (modify f : Run PUnit) :=
  ⟨h, fun _ _ _ he => by cases he⟩

theorem primitive_modifyGet {f : Machine → α × Machine}
    (h : ∀ m : Machine, m.Prolongs (f m).2 ∧ (f m).2.steps = m.steps) : Primitive (modifyGet f : Run α) :=
  ⟨h, fun _ _ _ he => by cases he⟩

instance (items : Array Value) : Primitive (newArray items) :=
  primitive_modifyGet fun _ => ⟨{}, rfl⟩

instance (fields : Fields Value) : Primitive (newObject fields) :=
  primitive_modifyGet fun _ => ⟨{}, rfl⟩

instance : Primitive newId :=
  primitive_modifyGet fun _ => ⟨{}, rfl⟩

instance (env : Env) (isBody : Bool) : Primitive (newScope env isBody) :=
  primitive_modifyGet fun _ => ⟨{ retains := ⟨by simp, fun i x hx => by rwa [lookupIn_push]⟩ }, rfl⟩

instance : Primitive newSlot :=
  primitive_modifyGet fun _ => ⟨{}, rfl⟩

instance (f : Func) (env : Env) : Primitive (newClosure f env) := by
  unfold newClosure
  infer_instance

instance (kind : Native) : Primitive (newNative kind) := by
  unfold newNative
  infer_instance

instance (name message : String) : Primitive (newError name message) := by
  unfold newError
  infer_instance

instance primitive_misuseOf (x : Run Misuse) [Primitive x] : Primitive (misuseOf x : Run α) := by
  unfold misuseOf
  infer_instance

instance primitive_mistakeOf (x : Run Misuse) [Primitive x] : Primitive (mistakeOf x : Run α) := by
  have : Primitive (modify fun m : Machine => { m with mistakes := m.mistakes + 1 } : Run PUnit) :=
    primitive_modify fun _ => ⟨{ mistakes := Nat.le_succ _ }, rfl⟩
  unfold mistakeOf
  infer_instance

instance (e : Misuse) : Primitive (misuse e : Run α) :=
  primitive_misuseOf _

instance (e : Misuse) : Primitive (mistake e : Run α) :=
  primitive_mistakeOf _

instance (waits : Bool) (f : Value) : Primitive (noteMethod waits f) := by
  have : Primitive (modify fun m : Machine => { m with misses := m.misses + 1 } : Run PUnit) :=
    primitive_modify fun _ => ⟨{ misses := Nat.le_succ _ }, rfl⟩
  unfold noteMethod
  infer_instance

/-- A conversion gives up only over a value that contains itself. -/
theorem primitive_convert {f : Heap → Nat → Value → Option α}
    (hf : ∀ (h : Heap) (v : Value), f h h.depthBound v = none → h.Knotted v) (v : Value) :
    Primitive (convert f v) := by
  refine ⟨fun m => ?_, fun m e n he => ?_⟩
  · rw [convert, Run.bind_apply, Run.get_apply, Result.andThen_ok]
    cases f m.heap m.heap.depthBound v <;> exact ⟨.refl m, rfl⟩
  · rw [convert, Run.bind_apply, Run.get_apply, Result.andThen_ok] at he
    cases hc : f m.heap m.heap.depthBound v with
    | some a =>
      rw [hc] at he
      cases he
    | none =>
      rw [hc] at he
      cases he
      obtain ⟨w, -, hw⟩ := hf m.heap v hc
      exact ⟨w, hw⟩

instance (v : Value) : Primitive (toNumber v) :=
  primitive_convert (fun _ _ => Heap.knotted_of_number?) v

instance (v : Value) : Primitive (toText v) :=
  primitive_convert (fun _ _ => Heap.knotted_of_text?) v

instance (v : Value) : Primitive (toShown v) :=
  primitive_convert (fun _ _ => Heap.knotted_of_shown?) v

instance (env : Env) (name : String) (v : Value) (isMutable : Bool) :
    Primitive (declareHere env name v isMutable) := by
  unfold declareHere
  split
  · infer_instance
  · exact primitive_modify fun m => ⟨{ retains := .declare m _ _ _ }, rfl⟩

instance (env : Env) (name : String) (v : Option Value) : Primitive (declareInBody env name v) := by
  unfold declareInBody
  infer_instance

instance (env : Env) (name : String) : Primitive (readName env name) := by
  have (v : Option Value) : Primitive (match v with
      | some v => pure v
      | none => mistake (.unbound name) : Run Value) := by
    cases v <;> infer_instance
  unfold readName
  infer_instance

instance (env : Env) (name : String) (v : Value) : Primitive (assignName env name v) := by
  have (b : Option (Nat × Binding)) : Primitive (match b with
      | none => misuse (.unbound name)
      | some (scope, b) =>
        if b.isMutable then modify fun m => m.declare scope name ⟨v, true⟩
        else misuse .constantAssigned : Run Unit) := by
    obtain _ | ⟨scope, b⟩ := b
    · infer_instance
    · have : Primitive (modify fun m : Machine => m.declare scope name ⟨v, true⟩ : Run PUnit) :=
        primitive_modify fun m => ⟨{ retains := .declare m _ _ _ }, rfl⟩
      dsimp only
      infer_instance
  unfold assignName
  infer_instance

instance (object : Value) (name : String) : Primitive (getProperty object name) := by
  cases object <;> unfold getProperty <;> infer_instance

instance (object key : Value) : Primitive (getIndex object key) := by
  unfold getIndex
  split <;> infer_instance

instance (object key v : Value) : Primitive (setIndex object key v) := by
  unfold setIndex
  split
  · have (a : Nat) (name : String) : Primitive (modify fun m : Machine => { m with heap :=
        { m.heap with objects := m.heap.objects.modify a (Fields.insert name v) } } : Run PUnit) :=
      primitive_modify fun _ => ⟨{}, rfl⟩
    infer_instance
  · split
    · infer_instance
    · exact primitive_modify fun _ => ⟨{}, rfl⟩
  all_goals infer_instance

instance (op : UnaryOp) (v : Value) : Primitive (applyUnary op v) := by
  cases op <;> unfold applyUnary <;> infer_instance

instance (f : Float → Float → α) (a b : Value) : Primitive (onNumbers f a b) := by
  unfold onNumbers
  infer_instance

instance (texts : String → String → Bool) (numbers : Float → Float → Bool)
    (a b : Value) : Primitive (compareWith texts numbers a b) := by
  unfold compareWith
  split <;> infer_instance

instance (op : BinaryOp) (a b : Value) : Primitive (applyBinary op a b) := by
  cases op <;> unfold applyBinary <;> infer_instance

instance primitive_declareFunctions (env : Env) : ∀ ss, Primitive (declareFunctions env ss)
  | [] => primitive_pure _
  | st :: ss => by
    have ih := primitive_declareFunctions env ss
    cases st with
    | func f =>
      unfold declareFunctions
      cases f.name <;> dsimp only <;> infer_instance
    | _ => exact ih

instance (env : Env) (kind : BindingKind) (name : String) (v : Option Value) :
    Primitive (bindDeclared env kind name v) := by
  cases kind <;> unfold bindDeclared <;> infer_instance

instance (env : Env) (param : Option String) (v : Value) : Primitive (bindParam env param v) := by
  cases param <;> unfold bindParam <;> infer_instance

instance primitive_bindParams (env : Env) : ∀ ps vs, Primitive (bindParams env ps vs)
  | [], _ => by unfold bindParams; infer_instance
  | _ :: ps, [] => by
    have := primitive_bindParams env ps []
    unfold bindParams
    infer_instance
  | _ :: ps, _ :: vs => by
    have := primitive_bindParams env ps vs
    unfold bindParams
    infer_instance

theorem primitive_mapM (f : Value → Run α) [∀ v, Primitive (f v)] :
    ∀ vs : List Value, Primitive (vs.mapM f)
  | [] => by rw [List.mapM_nil]; infer_instance
  | v :: vs => by
    have := primitive_mapM f vs
    rw [List.mapM_cons]
    infer_instance

instance (kind : Native) (this : Value) (args : List Value) :
    Primitive (callNative kind this args) := by
  unfold callNative
  cases kind with
  | log =>
    have := primitive_mapM toShown args
    have (line : String) :
        Primitive (modify fun m : Machine => { m with output := m.output.push line } : Run PUnit) :=
      primitive_modify fun _ => ⟨{ output := by simp }, rfl⟩
    dsimp only
    infer_instance
  | string => cases args <;> dsimp only <;> infer_instance
  | error => cases args <;> dsimp only <;> infer_instance
  | call => dsimp only; infer_instance
  | push =>
    cases this with
    | array a =>
      have : Primitive (modify fun m : Machine => { m with heap :=
          { m.heap with arrays := m.heap.arrays.modify a (· ++ args) } } : Run PUnit) :=
        primitive_modify fun _ => ⟨{}, rfl⟩
      dsimp only
      infer_instance
    | _ => dsimp only; infer_instance

instance (slot : Nat) : Primitive (readSlot slot) := by
  unfold readSlot
  infer_instance

instance (env : Env) (v : Value) : Primitive (storeRaised env v) := by
  unfold storeRaised
  split
  · infer_instance
  · exact primitive_modify fun _ => ⟨{}, rfl⟩

/-! ## Control -/

theorem tick_apply (limit : Nat) (m : Machine) : tick limit m =
    (if limit < m.steps + 1 then fail (.stepLimit limit) else pure () : Run Unit)
      { m with steps := m.steps + 1 } :=
  rfl

instance (n : Nat) : Rising (tick n) where
  rises m := by
    have h : m.Prolongs { m with steps := m.steps + 1 } := { steps := Nat.le_succ _ }
    rw [tick_apply]
    split <;> exact h

instance rising_rounds (round : Run Bool) [Rising round] : ∀ fuel, Rising (rounds round fuel)
  | 0 => rising_fail _
  | fuel + 1 => by
    have := rising_rounds round fuel
    unfold rounds
    infer_instance

instance (r : Except Exit Unit) : Rising (goesOn r) := by
  unfold goesOn
  split <;> infer_instance

instance (r : Except Exit Unit) : Rising (leaveSwitch r) := by
  unfold leaveSwitch
  split <;> infer_instance

instance (first : Except Exit Unit) (handler : Value → Run Unit)
    [∀ v, Rising (handler v)] : Rising (catching first handler) := by
  unfold catching
  split <;> infer_instance

instance (result : Except Exit Unit) (finalizer : Run Unit) [Rising finalizer] :
    Rising (finishing result finalizer) := by
  unfold finishing
  split <;> infer_instance

/-! ## The tree -/

/-- An engine whose calls take nothing back. -/
class Engine.Rising (k : Engine) : Prop where
  call : ∀ f this args, RaiseScript.Rising (k.call f this args)

section

variable (k : Engine) [hk : k.Rising]

instance (f this : Value) (args : List Value) : Rising (k.call f this args) :=
  hk.call f this args

/-- What takes nothing back when a phrase is run. -/
def Phrase.Rises : Phrase → Prop
  | .expr e => ∀ env, Rising (evalExpr k env e)
  | .exprs es => ∀ env, Rising (evalExprs k env es)
  | .func _ => True
  | .attempt t => ∀ env, Rising (evalExpr k env (.attempt t))
  | .stmt s => ∀ env, Rising (execStmt k env s)
  | .decls ds => ∀ env kind, Rising (execDecls k env kind ds)
  | .cases cs => (∀ env v, Rising (chooseCase k env v cs)) ∧ ∀ env i, Rising (execCases k env i cs)
  | .handler h => ∀ env r, Rising (execHandler k env r h)
  | .block b => ∀ env param, Rising (execFinally k env param b)
  | .stmts ss => ∀ env, Rising (execAll k env ss)

theorem Phrase.rises (p : Phrase) : p.Rises k := by
  induction p with (simp only [Phrase.Rises] at *)
  | unary op a ih =>
    intro env
    have hstrict : Rising (evalExpr k env a >>= applyUnary op) := inferInstance
    cases op with
    | typeName =>
      cases a with
      | ident => unfold evalExpr; infer_instance
      | _ => exact hstrict
    | _ => exact hstrict
  | assign a b ha hb hplace =>
    intro env
    cases a with simp only [Expr.place, List.forall_mem_cons] at hplace
    | member o q =>
      have := hplace.1
      unfold evalExpr
      infer_instance
    | index o i =>
      have := hplace.1
      have := hplace.2.1
      unfold evalExpr
      infer_instance
    | _ =>
      unfold evalExpr
      infer_instance
  | call callee args hf hargs hplace =>
    intro env
    have hplain : Rising (evalExpr k env callee >>= fun f =>
      evalExprs k env args >>= k.call f .undefined) := inferInstance
    cases callee with simp only [Expr.place, List.forall_mem_cons] at hplace
    | member o q =>
      have := hplace.1
      unfold evalExpr
      infer_instance
    | index o i =>
      have := hplace.1
      have := hplace.2.1
      unfold evalExpr
      infer_instance
    | _ => exact hplain
  | switch e cs span he hcs =>
    intro env
    obtain ⟨hchoose, hcases⟩ := hcs
    refine @rising_bind _ _ _ _ inferInstance fun _ => ?_
    refine @rising_bind _ _ _ _ inferInstance fun v => ?_
    refine @rising_bind _ _ _ _ inferInstance fun inner => ?_
    refine @rising_bind _ _ _ _ inferInstance fun chosen => ?_
    cases chosen <|> cs.findIdx? (·.test.isNone) <;> infer_instance
  | func f => exact fun env => inferInstanceAs (Rising (newClosure f env))
  | attempt t ih => exact ih
  | jump kind => cases kind <;> unfold execStmt <;> infer_instance
  | nilCases => exact ⟨fun _ _ => rising_pure _, fun _ _ => by unfold execCases; infer_instance⟩
  | defaultCase body cs hbody hcs | consCases e body cs he hbody hcs =>
    obtain ⟨hchoose, hcases⟩ := hcs
    refine ⟨fun env v => by unfold chooseCase; infer_instance, fun env i => ?_⟩
    cases i <;> unfold execCases <;> infer_instance
  | finalizer body ih =>
    intro env param
    unfold execFinally
    cases param <;> dsimp only <;> infer_instance
  | _ =>
    intros
    simp only [evalExpr, evalExprs, execStmt, execDecls, execHandler, execFinally, execAll]
    infer_instance

instance rising_evalExpr (env : Env) (e : Expr) : Rising (evalExpr k env e) :=
  (Phrase.expr e).rises k env

instance (env : Env) (es : List Expr) : Rising (evalExprs k env es) :=
  (Phrase.exprs es).rises k env

instance rising_execStmt (env : Env) (s : Stmt) : Rising (execStmt k env s) :=
  (Phrase.stmt s).rises k env

instance rising_execDecls (env : Env) (kind : BindingKind) (ds : List Declarator) :
    Rising (execDecls k env kind ds) :=
  (Phrase.decls ds).rises k env kind

instance (env : Env) (v : Value) (cs : List Case) : Rising (chooseCase k env v cs) :=
  ((Phrase.cases cs).rises k).1 env v

instance (env : Env) (i : Nat) (cs : List Case) : Rising (execCases k env i cs) :=
  ((Phrase.cases cs).rises k).2 env i

instance (env : Env) (first : Except Exit Unit) (h : Option Handler) :
    Rising (execHandler k env first h) :=
  (Phrase.handler h).rises k env first

instance (env : Env) (param : Option (String × Nat)) (b : Option (List Stmt)) :
    Rising (execFinally k env param b) :=
  (Phrase.block b).rises k env param

instance (env : Env) (ss : List Stmt) : Rising (execAll k env ss) :=
  (Phrase.stmts ss).rises k env

/-! ## Calls -/

instance (env : Env) (body : FuncBody) : Rising (runBody k env body) := by
  have (r : Except Exit Value) : Rising (match r with
      | .error (.returned v) => pure v
      | .error .broke => pure .undefined
      | .error .continued => pure .undefined
      | r => conclude r : Run Value) := by
    split <;> infer_instance
  cases body <;> unfold runBody <;> infer_instance

end

/-- A call goes one level deeper and comes back. -/
def deeper (this outer : Value) (x : Run α) : Run α := do
  modify fun m => { m with this, depth := m.depth + 1 }
  let result ← outcome x
  modify fun m => { m with this := outer, depth := m.depth - 1 }
  conclude result

theorem deeper_apply (this outer : Value) (x : Run α) (m : Machine) :
    deeper this outer x m =
      Result.onFinal (fun n => { n with this := outer, depth := n.depth - 1 })
        (x { m with this, depth := m.depth + 1 }) := by
  unfold deeper
  rw [Run.bind_apply, Run.modify_apply, Result.andThen_ok, Run.bind_apply, outcome]
  cases x { m with this, depth := m.depth + 1 } <;> rfl

instance (this : Value) (x : Run α) [hx : Rising x] :
    Rising (get >>= fun n => deeper this n.this x) where
  rises m := by
    have hm := hx.rises { m with this, depth := m.depth + 1 }
    have hback {n : Machine} (h : Machine.Prolongs { m with this, depth := m.depth + 1 } n) :
        m.Prolongs { n with this := m.this, depth := n.depth - 1 } :=
      ⟨h.steps, h.mistakes, h.misses, by simp [h.depth], rfl, h.output, h.retains.size, h.retains.names⟩
    rw [Run.bind_apply, Run.get_apply, Result.andThen_ok, deeper_apply]
    cases hr : x { m with this, depth := m.depth + 1 } <;> rw [hr] at hm <;> exact hback hm

theorem enter_eq (maxDepth : Nat) (f : Func) (env : Env) (this : Value) (args : List Value)
    (body : Env → FuncBody → Run Value) :
    enter maxDepth f env this args body = (do
      if f.form == .generator then fail (.unsupported .generators)
      else if maxDepth ≤ (← get).depth then misuse .tooDeep
      else
        let env ← newScope ⟨env.chain, none⟩ true
        bindParams env f.params args
        deeper this (← get).this (body env f.body)) := rfl

instance (maxDepth : Nat) (f : Func) (env : Env) (this : Value) (args : List Value)
    (body : Env → FuncBody → Run Value) [∀ env b, Rising (body env b)] :
    Rising (enter maxDepth f env this args body) := by
  rw [enter_eq]
  infer_instance

instance rising_callWithBody (maxDepth : Nat) (body : Env → FuncBody → Run Value) (f this : Value)
    (args : List Value) [∀ env b, Rising (body env b)] :
    Rising (callWithBody maxDepth body f this args) := by
  unfold callWithBody
  split <;> infer_instance

/-- No call takes anything back. -/
instance rising_callAt (limits : Limits) (direct : Bool) :
    ∀ fuel f this args, Rising (callAt limits direct fuel f this args)
  | 0, _, _, _ => rising_callWithBody _ _ _ _ _
  | fuel + 1, _, _, _ => by
    have : Engine.Rising ⟨limits.maxSteps, direct, callAt limits direct fuel⟩ :=
      ⟨rising_callAt limits direct fuel⟩
    unfold callAt
    infer_instance

instance rising_engine (limits : Limits) (direct : Bool) (depth : Nat) :
    (Machine.engine limits direct depth).Rising :=
  ⟨rising_callAt limits direct _⟩

end RaiseScript
