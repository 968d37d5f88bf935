import RaiseScript.Proofs.Changes

/-!
# The primitives of the machine

Every primitive of the machine does the same on both sides of a pair of machines that match :
reading and binding names, making values, converting them, reading and writing properties. Mistakes
are the same mistakes, unless runs with mistakes are out of account.
-/

namespace RaiseScript

variable {S : Setting} {α β : Type} {n : Nat} {t : Touch} {c : Twin S}
variable {env env' : Env} {R : Twin S → α → β → Prop} {x : String} {v v' : Value} {w : World}
  {ls ls' : List Link}

/-- The same value, as far as the pair `b` can tell. -/
def AlikeIn (b : Twin S) (v v' : Value) : Prop :=
  Alike S b.world v v'

/-- Nothing is said about values. -/
def Anything (_ : Twin S) (_ : α) (_ : β) : Prop :=
  True

namespace Meets

variable {r : Result α} {y : Nat → Run β}

/-- Counting a step on the left. -/
theorem tick_left {limit : Nat} {f : Unit → Run α}
    (h : Meets n t (c.countLeft (c.left.steps + 1) c.left.mistakes c.left.misses)
      (f () { c.left with steps := c.left.steps + 1 }) y R) :
    Meets n t c ((tick limit >>= f) c.left) y R := by
  have htick : tick limit c.left = (if limit < c.left.steps + 1 then RaiseScript.fail (.stepLimit limit)
      else Pure.pure () : Run Unit) { c.left with steps := c.left.steps + 1 } := rfl
  rw [Run.bind_apply, htick]
  split
  · exact .excused (Or.inl ⟨_, _, rfl, Or.inl ⟨limit, rfl⟩⟩)
  · exact h.earlier ((Twin.later_countLeft (Nat.le_refl _)).within .none) .refl rfl

/-- Counting a step on the right. -/
theorem tick_right (h : Meets n t (c.countRight (c.right.steps + 1) c.right.mistakes c.right.misses) r y R) :
    Meets n t c r (fun k => tick k >>= fun _ => y k) R := by
  have hl : Later n t c (c.countRight (c.right.steps + 1) c.right.mistakes c.right.misses) :=
    (c.later_countRight n _ _ _).within .none
  cases h with
  | excused h => exact .excused h
  | gives b v v' hb hv hy hrel => exact .gives b v v' (hl.trans hb .refl) hv hy.tick hrel
  | exits b e e' hb he hy hrel => exact .exits b e e' (hl.trans hb .refl) he hy.tick hrel

end Meets

/-! ## Making things -/

theorem meets_newArray {vs vs' : List Value} (h : List.Forall₂ (Alike S c.world) vs vs') :
    Meets n t c (newArray vs.toArray c.left) (fun _ => newArray vs'.toArray) AlikeIn := by
  have hm := c.agree.heap.pushArray (show List.Forall₂ (Alike S c.world) vs.toArray.toList vs'.toArray.toList by
    simpa using h)
  refine .gives (c.withHeaps _ _ hm) _ _
    ((Twin.later_withHeaps n hm (Nat.le_refl _) fun _ _ => rfl).within .none)
    rfl (.of_eq fun _ => rfl) ?_
  rw [c.agree.heap.arrays]
  exact .array _

theorem meets_newObject {fs fs' : Fields Value} (h : List.Forall₂ (FieldAlike S c.world) fs fs') :
    Meets n t c (newObject fs c.left) (fun _ => newObject fs') AlikeIn := by
  have hm := c.agree.heap.pushObject h
  refine .gives (c.withHeaps _ _ hm) _ _
    ((Twin.later_withHeaps n hm (by simp) fun {a q} ha _ => ?_).within .none)
    rfl (.of_eq fun _ => rfl) ?_
  · simp only [Heap.fields, getD_push, if_neg (Nat.ne_of_lt ha)]
  · rw [c.agree.heap.objects]
    exact .object _

theorem meets_newClosure {f f' : Func} (hn : n ≤ c.left.nextId) (hf : S.code f f')
    (hc : Chains c.world env.chain env'.chain) :
    Meets n t c (newClosure f env c.left) (fun _ => newClosure f' env') AlikeIn := by
  have hle := c.world.le_withIds c.left.nextId c.right.nextId
  exact .gives c.nameBoth _ _ ((Twin.later_nameBoth hn).within .none) rfl
    (.of_eq fun _ => rfl) (.closure (Or.inr ⟨rfl, rfl⟩) hf (hc.mono hle) (c.agree.this.mono hle))

theorem meets_newNative (kind : Native) (hn : n ≤ c.left.nextId) :
    Meets n t c (newNative kind c.left) (fun _ => newNative kind) AlikeIn :=
  .gives c.nameBoth _ _ ((Twin.later_nameBoth hn).within .none) rfl
    (.of_eq fun _ => rfl) (.native kind (Or.inr ⟨rfl, rfl⟩))

theorem errorFields_alike (w : World) (name message : String) : List.Forall₂ (FieldAlike S w)
    [("message", .string message), ("name", .string name)]
    [("message", .string message), ("name", .string name)] :=
  .cons ⟨rfl, .string message⟩ (.cons ⟨rfl, .string name⟩ .nil)

theorem meets_newError (name message : String) :
    Meets n t c (newError name message c.left) (fun _ => newError name message) AlikeIn :=
  meets_newObject (errorFields_alike _ name message)

/-! ## Mistakes -/

theorem meets_throwError (e : Misuse) :
    Meets n t c ((newError e.name e.message >>= fun v => throw (.thrown v) : Run α) c.left)
      (fun _ => newError e.name e.message >>= fun v => throw (.thrown v)) R := by
  have hm := c.agree.heap.pushObject (errorFields_alike c.world e.name e.message)
  refine .exits (c.withHeaps _ _ hm) (.thrown (.object c.left.heap.objects.size))
    (.thrown (.object c.right.heap.objects.size))
    ((Twin.later_withHeaps n hm (by simp) fun {a q} ha _ => ?_).within .none)
    rfl (.of_eq fun _ => rfl) ?_
  · simp only [Heap.fields, getD_push, if_neg (Nat.ne_of_lt ha)]
  · rw [c.agree.heap.objects]
    exact .thrown (.object _)

/-- The pair after a mistake was counted on both sides. -/
def Twin.mistaken (c : Twin S) : Twin S :=
  (c.countLeft c.left.steps (c.left.mistakes + 1) c.left.misses).countRight c.right.steps
    (c.right.mistakes + 1) c.right.misses

theorem Twin.later_mistaken (c : Twin S) : Later n t c c.mistaken :=
  ((Twin.later_countLeft (Nat.add_le_add_right (Nat.le_succ _) _)).trans
    (Twin.later_countRight _ n _ _ _) .refl).within .none

theorem meets_misuseOf {x : Run Misuse} {y : Run Misuse}
    (h : Meets n t c (x c.left) (fun _ => y) (fun _ e e' => e' = e)) :
    Meets n t c (misuseOf x c.left : Result α) (fun _ => misuseOf y) R := by
  refine h.seq fun b e e' _ he => ?_
  subst he
  exact meets_throwError e'

theorem meets_mistakeOf {x : Run Misuse} {y : Run Misuse}
    (h : Meets n t c.mistaken (x c.mistaken.left) (fun _ => y) (fun _ e e' => e' = e)) :
    Meets n t c (mistakeOf x c.left : Result α) (fun _ => mistakeOf y) R :=
  (meets_misuseOf h).after c.later_mistaken .refl
    (x := fun _ => modify fun m : Machine => { m with mistakes := m.mistakes + 1 })
    (.of_eq fun _ => rfl) fun _ => rfl

theorem meets_misuse (e : Misuse) : Meets n t c (misuse e c.left : Result α) (fun _ => misuse e) R :=
  meets_misuseOf (.pure rfl)

theorem meets_mistake (e : Misuse) : Meets n t c (mistake e c.left : Result α) (fun _ => mistake e) R :=
  meets_mistakeOf (.pure rfl)

/-- Runs with mistakes may be out of account. -/
theorem excused_mistakeOf (h : S.faultless = true) (x : Run Misuse) [hx : Rising x] (m : Machine) :
    Excused S m (mistakeOf x m : Result α) := by
  have hrising : Rising (x >>= fun e => newError e.name e.message >>= fun v => throw (.thrown v) : Run α) :=
    inferInstance
  have hr := hrising.rises { m with mistakes := m.mistakes + 1 }
  exact Or.inr ⟨h,
    Nat.add_lt_add_of_lt_of_le (Nat.lt_of_lt_of_le (Nat.lt_succ_self m.mistakes) hr.mistakes) hr.misses⟩

theorem excused_mistake (h : S.faultless = true) (e : Misuse) (m : Machine) :
    Excused S m (mistake e m : Result α) :=
  excused_mistakeOf h (pure e) m

theorem noteMethod_apply (waits : Bool) (f : Value) (m : Machine) :
    noteMethod waits f m =
      .ok () { m with misses := if waits && f.isNullish then m.misses + 1 else m.misses } := by
  unfold noteMethod
  split <;> rfl

/-- Only the left looks at the methods that are not there. -/
theorem meets_noteMethod (waits waits' : Bool) (f f' : Value) :
    Meets n t c (noteMethod waits f c.left) (fun _ => noteMethod waits' f') Anything := by
  rw [noteMethod_apply]
  exact .gives ((c.countLeft c.left.steps c.left.mistakes _).countRight c.right.steps c.right.mistakes _)
    () () (((Twin.later_countLeft (Nat.add_le_add_left (by split <;> simp) _)).trans
      (Twin.later_countRight _ n _ _ _) .refl).within .none) rfl
    (.of_eq fun _ => noteMethod_apply waits' f' c.right) trivial

/-! ## Conversions -/

theorem convert_apply (f : Heap → Nat → Value → Option α) (v : Value) (m : Machine) :
    convert f v m =
      (f m.heap m.heap.depthBound v).elim (.error (.failed .endless) m) (.ok · m) := by
  rw [convert, Run.bind_apply, Run.get_apply, Result.andThen_ok]
  cases f m.heap m.heap.depthBound v <;> rfl

theorem meets_convert {f : Heap → Nat → Value → Option α}
    (h : ∀ depth, f c.right.heap depth v' = f c.left.heap depth v) :
    Meets n t c (convert f v c.left) (fun _ => convert f v') (fun _ a a' => a' = a) := by
  have hright : convert f v' c.right = (f c.left.heap c.left.heap.depthBound v).elim
      (.error (.failed .endless) c.right) (.ok · c.right) := by
    rw [convert_apply, h, c.agree.heap.depthBound]
  rw [convert_apply]
  cases hf : f c.left.heap c.left.heap.depthBound v with
  | some a => exact .gives c a a (.refl n t c) rfl (.of_eq fun _ => by rw [hright, hf]; rfl) rfl
  | none =>
    exact .exits c _ _ (.refl n t c) rfl (.of_eq fun _ => by rw [hright, hf]; rfl) (.failed .endless)

theorem meets_toNumber (h : Alike S c.world v v') :
    Meets n t c (toNumber v c.left) (fun _ => toNumber v') (fun _ a a' => a' = a) :=
  meets_convert (c.agree.heap.number? h)

theorem meets_toText (h : Alike S c.world v v') :
    Meets n t c (toText v c.left) (fun _ => toText v') (fun _ a a' => a' = a) :=
  meets_convert (c.agree.heap.text? h)

theorem meets_toShown (h : Alike S c.world v v') :
    Meets n t c (toShown v c.left) (fun _ => toShown v') (fun _ a a' => a' = a) :=
  meets_convert (c.agree.heap.shown? h)

/-! ## Names -/

/-- The innermost scope. -/
def Env.here (env : Env) : Nat :=
  (env.chain.headD default).scope

/-- The innermost scopes on both sides belong together. -/
def Flush (w : World) (env env' : Env) : Prop :=
  env.chain ≠ [] ∧ env'.chain ≠ [] ∧ w.scopes env.here env'.here

theorem Flush.mono {v : World} (h : v ≤ w) (hf : Flush v env env') : Flush w env env' :=
  ⟨hf.1, hf.2.1, h.scopes hf.2.2⟩

theorem declareHere_apply (h : env.chain ≠ []) (x : String) (v : Value) (isMutable : Bool) (m : Machine) :
    declareHere env x v isMutable m = .ok () (m.declare env.here x ⟨v, isMutable⟩) := by
  unfold declareHere Env.here
  cases hc : env.chain with
  | nil => exact absurd hc h
  | cons l r => rfl

theorem meets_declareHere (isMutable : Bool) (hf : Flush c.world env env') (hx : ¬ S.temp x)
    (hv : Alike S c.world v v') (ht : S.Steady x → t.scope env.here) :
    Meets n t c (declareHere env x v isMutable c.left) (fun _ => declareHere env' x v' isMutable)
      Anything := by
  have hb : BoundAlike S c.world ⟨v, isMutable⟩ ⟨v', isMutable⟩ := ⟨hv, rfl⟩
  rw [declareHere_apply hf.1]
  exact .gives (c.declareBoth _ _ x _ _ hf.2.2 hb) () () (Twin.later_declareBoth n hf.2.2 hb hx ht)
    rfl (.of_eq fun _ => declareHere_apply hf.2.1 x v' isMutable c.right) trivial

theorem Chains.bodyChain (h : Chains w ls ls') : Chains w (bodyChain ls) (bodyChain ls') ∧
      ((RaiseScript.bodyChain ls = [] ∧ RaiseScript.bodyChain ls' = []) ∨
        Flush w ⟨RaiseScript.bodyChain ls, none⟩ ⟨RaiseScript.bodyChain ls', none⟩) := by
  unfold RaiseScript.bodyChain
  induction h with
  | nil => exact ⟨.nil, Or.inl ⟨rfl, rfl⟩⟩
  | @link l l' ls ls' hs hb hc ih =>
    cases hl : l.isBody with
    | true =>
      rw [hl] at hb
      simp only [List.dropWhile_cons, hl, hb, Bool.not_true, Bool.false_eq_true, if_false]
      exact ⟨.link hs (hb.trans hl.symm) hc, Or.inr ⟨by simp, by simp, hs⟩⟩
    | false =>
      simpa only [List.dropWhile_cons, hl, hb, Bool.not_false, if_true] using ih
  | extra hs hb _ ih => simpa only [List.dropWhile_cons, hb, Bool.not_false, if_true] using ih

theorem Twin.lookup? (c : Twin S) (hx : ¬ S.temp x) (hc : Chains c.world ls ls') :
    Option.Rel (Alike S c.world) (c.left.lookup? x ls) (c.right.lookup? x ls') := by
  have h := c.agree.scopes.find? hx hc
  unfold Machine.lookup?
  cases hl : c.left.find? x ls <;> cases hr : c.right.find? x ls' <;> rw [hl, hr] at h <;> cases h
  · exact .none
  · rename_i h
    exact .some h.2.value

theorem meets_declareInBody {v v' : Option Value} (hc : Chains c.world env.chain env'.chain)
    (hx : ¬ S.temp x) (hs : ¬ S.Steady x) (hv : Option.Rel (Alike S c.world) v v') :
    Meets n t c (declareInBody env x v c.left) (fun _ => declareInBody env' x v') Anything := by
  have hsome : v'.isSome = v.isSome := by cases hv <;> rfl
  have hvalue : Alike S c.world (v.getD .undefined) (v'.getD .undefined) := by
    cases hv with
    | none => exact .undefined
    | some hv => exact hv
  obtain ⟨hchain, hbody⟩ := hc.bodyChain
  have hnone : (c.right.lookup? x (bodyChain env'.chain)).isNone =
      (c.left.lookup? x (bodyChain env.chain)).isNone := by
    have h := c.lookup? hx hchain
    generalize c.left.lookup? x (bodyChain env.chain) = a, c.right.lookup? x (bodyChain env'.chain) = b at h
    cases h <;> rfl
  have happly (env : Env) (v : Option Value) (m : Machine) : declareInBody env x v m =
      (if v.isSome || (m.lookup? x (bodyChain env.chain)).isNone then
        declareHere ⟨bodyChain env.chain, none⟩ x (v.getD .undefined) true else pure () : Run Unit) m := rfl
  rw [happly]
  refine .congr (y := fun _ => if v.isSome || (c.left.lookup? x (bodyChain env.chain)).isNone then
    declareHere ⟨bodyChain env'.chain, none⟩ x (v'.getD .undefined) true else pure ()) ?_
    fun _ => by rw [happly, hsome, hnone]
  split
  · rcases hbody with ⟨he, he'⟩ | hf
    · rw [he, he']
      exact .pure trivial
    · exact meets_declareHere true hf hx hvalue fun h => absurd h hs
  · exact .pure trivial

theorem readName_apply (env : Env) (x : String) (m : Machine) :
    readName env x m =
      ((m.lookup? x env.chain).elim (mistake (.unbound x)) pure : Run Value) m := by
  rw [readName, Run.bind_apply, Run.get_apply, Result.andThen_ok]
  cases m.lookup? x env.chain <;> rfl

theorem meets_readName (hc : Chains c.world env.chain env'.chain) (hx : ¬ S.temp x) :
    Meets n t c (readName env x c.left) (fun _ => readName env' x) AlikeIn := by
  have h := c.lookup? hx hc
  rw [readName_apply]
  refine .congr (y := fun _ => (c.right.lookup? x env'.chain).elim (mistake (.unbound x)) pure) ?_
    fun _ => readName_apply env' x c.right
  generalize c.left.lookup? x env.chain = a, c.right.lookup? x env'.chain = b at h
  cases h with
  | none => exact meets_mistake _
  | some h => exact .pure h

theorem assignName_apply (env : Env) (x : String) (v : Value) (m : Machine) :
    assignName env x v m =
      ((m.find? x env.chain).elim (misuse (.unbound x)) fun p =>
        if p.2.isMutable then modify fun m => m.declare p.1 x ⟨v, true⟩
        else misuse .constantAssigned : Run Unit) m := by
  rw [assignName, Run.bind_apply, Run.get_apply, Result.andThen_ok]
  cases m.find? x env.chain <;> rfl

theorem meets_assignName (hc : Chains c.world env.chain env'.chain) (hx : ¬ S.temp x)
    (hs : ¬ S.Steady x) (hv : Alike S c.world v v') :
    Meets n t c (assignName env x v c.left) (fun _ => assignName env' x v') Anything := by
  have h := c.agree.scopes.find? hx hc
  rw [assignName_apply]
  refine .congr (y := fun _ => (c.right.find? x env'.chain).elim (misuse (.unbound x)) fun p =>
    if p.2.isMutable then modify fun m => m.declare p.1 x ⟨v', true⟩ else misuse .constantAssigned) ?_
    fun _ => assignName_apply env' x v' c.right
  generalize c.left.find? x env.chain = a, c.right.find? x env'.chain = b at h
  cases h with
  | none => exact meets_misuse _
  | some h =>
    rename_i p p'
    simp only [Option.elim_some, h.2.isMutable]
    split
    · have hb : BoundAlike S c.world ⟨v, true⟩ ⟨v', true⟩ := ⟨hv, rfl⟩
      exact .gives (c.declareBoth _ _ x _ _ h.1 hb) _ _
        (Twin.later_declareBoth n h.1 hb hx fun h => absurd h hs) rfl (.of_eq fun _ => rfl) trivial
    · exact meets_misuse _

end RaiseScript
