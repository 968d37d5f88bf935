import RaiseScript.Proofs.Control

/-!
# Calls on both sides

If the bodies of functions that belong together meet, then so do their calls (`meets_callWithBody`).
The built-in functions do the same on both sides.
-/

namespace RaiseScript

variable {S : Setting} {n : Nat} {t : Touch} {c : Twin S}
variable {env env' : Env} {vs vs' args args' : List Value} {this this' f f' : Value}
  {body : Env → FuncBody → Run Value} {body' : Nat → Env → FuncBody → Run Value}

/-! ## Parameters and receivers -/

theorem meets_bindParams {ps : List String} (hp : ∀ x ∈ ps, ¬ S.temp x) (hf : Flush c.world env env')
    (ht : t.scope env.here) (hv : List.Forall₂ (Alike S c.world) vs vs') :
    Meets n t c (bindParams env ps vs c.left) (fun _ => bindParams env' ps vs') Anything := by
  induction ps generalizing c vs vs' with
  | nil => exact .pure trivial
  | cons x ps ih =>
    have hx := hp x List.mem_cons_self
    have hps := fun y hy => hp y (List.mem_cons_of_mem x hy)
    cases hv with
    | nil =>
      refine (meets_declareHere true hf hx .undefined fun _ => ht).seq fun b _ _ hl _ => ?_
      exact ih hps (hf.mono hl.world) .nil
    | cons hv hvs =>
      refine (meets_declareHere true hf hx hv fun _ => ht).seq fun b _ _ hl _ => ?_
      exact ih hps (hf.mono hl.world) (hvs.imp fun _ _ => Alike.mono hl.world)

namespace Twin

/-- The pair when a call has begun. -/
def into (c : Twin S) {v v' : Value} (h : Alike S c.world v v') : Twin S where
  world := c.world
  left := { c.left with this := v, depth := c.left.depth + 1 }
  right := { c.right with this := v', depth := c.right.depth + 1 }
  agree := ⟨c.agree.scopes, c.agree.ids, c.agree.slots, c.agree.heap, h, by simp [c.agree.depth],
    c.agree.output⟩

/-- The pair `b` when a call that began in `c` has ended. -/
def backTo (b c : Twin S) (h : c.world ≤ b.world) : Twin S where
  world := b.world
  left := { b.left with this := c.left.this, depth := b.left.depth - 1 }
  right := { b.right with this := c.right.this, depth := b.right.depth - 1 }
  agree := ⟨b.agree.scopes, b.agree.ids, b.agree.slots, b.agree.heap, c.agree.this.mono h,
    by simp [b.agree.depth], b.agree.output⟩

theorem later_backTo {b : Twin S} {v v' : Value} {hv : Alike S c.world v v'}
    (h : Later n t (c.into hv) b) : Later n t c (b.backTo c h.world) where
  world := h.world
  ids := h.ids
  slots := h.slots
  left := ⟨h.left.scopes, h.left.nextId, h.left.slots, h.left.objects, h.left.steady, h.left.slot,
    h.left.field, h.left.faults⟩
  right := ⟨h.right.scopes, h.right.cell⟩
  this_left := rfl
  this_right := rfl
  depth := by simp [backTo, h.depth, into]
  aim m hm ha := by
    have hb := h.aim m hm ⟨ha.temp, ha.lt, ha.free, ha.stored⟩
    exact ⟨hb.temp, hb.lt, hb.free, hb.stored⟩

end Twin

theorem meets_deeper {x : Run Value} {y : Nat → Run Value} (ht : Alike S c.world this this')
    (h : Meets n t (c.into ht) (x (c.into ht).left) y AlikeIn) :
    Meets n t c (deeper this c.left.this x c.left) (fun k => deeper this' c.right.this (y k))
      AlikeIn := by
  let back (m : Machine) : Machine := { m with this := c.right.this, depth := m.depth - 1 }
  have hright {r : Result Value} (hy : Ends y (c.into ht).right r) :
      Ends (fun k => deeper this' c.right.this (y k)) c.right (Result.onFinal back r) := by
    obtain ⟨N, hN⟩ := hy
    exact ⟨N, fun k hk => (deeper_apply _ _ _ _).trans (congrArg (Result.onFinal back) (hN k hk))⟩
  have hleft : deeper this c.left.this x c.left = Result.onFinal
      (fun m => { m with this := c.left.this, depth := m.depth - 1 }) (x (c.into ht).left) :=
    deeper_apply _ _ _ _
  rw [hleft]
  cases h with
  | gives b v v' hl hv hy hr =>
    rw [hv]
    exact .gives (b.backTo c hl.world) v v' (Twin.later_backTo hl) rfl (hright hy) hr
  | exits b e e' hl he hy hr =>
    rw [he]
    exact .exits (b.backTo c hl.world) e e' (Twin.later_backTo hl) rfl (hright hy) hr
  | excused h =>
    refine .excused ?_
    rcases h with ⟨f, m, hf, hlimit⟩ | ⟨hs, hc⟩
    · rw [hf]
      exact Or.inl ⟨f, _, rfl, hlimit⟩
    · refine Or.inr ⟨hs, ?_⟩
      generalize x (c.into ht).left = r at hc ⊢
      cases r <;> exact hc

/-! ## Closures -/

/-- What may be declared by code that runs in scopes made for it. -/
def Touch.local (env env' : Env) : Touch where
  scope i := i = env.here
  cell i _ := i = env'.here
  slot _ := False
  aim := .none

theorem Touch.local_within (c : Twin S) (env env' : Env) (isBody : Bool) :
    (Touch.local (env.inside c.left isBody) (env'.inside c.right isBody)).Within c .none where
  scope hi he := absurd hi (he ▸ Nat.lt_irrefl _)
  cell hi he := absurd hi (he ▸ Nat.lt_irrefl _)
  slot _ h := h.elim
  aim _ hm := by cases hm

/-- The bodies of functions that belong together meet. -/
def BodiesMeet (S : Setting) (body : Env → FuncBody → Run Value)
    (body' : Nat → Env → FuncBody → Run Value) : Prop :=
  ∀ {n : Nat} {c : Twin S} {env env' : Env} {f f' : Func}, S.code f f' → n ≤ c.left.nextId →
    Chains c.world env.chain env'.chain → Flush c.world env env' → env.slot = none → env'.slot = none →
    Meets n (.local env env') c (body env f.body c.left) (body' · env' f'.body) AlikeIn

theorem enter_apply (maxDepth : Nat) (f : Func) (env : Env) (this : Value) (args : List Value)
    (body : Env → FuncBody → Run Value) (m : Machine) :
    enter maxDepth f env this args body m =
      (if f.form == .generator then fail (.unsupported .generators)
      else if maxDepth ≤ m.depth then misuse .tooDeep
      else newScope ⟨env.chain, none⟩ true >>= fun env =>
        bindParams env f.params args >>= fun _ => get >>= fun n =>
          deeper this n.this (body env f.body) : Run Value) m := by
  rw [enter_eq]
  split
  · rfl
  · show (if maxDepth ≤ m.depth then _ else _ : Run Value) m = _
    split <;> rfl

theorem meets_enter [∀ env b, Rising (body env b)] (hbody : BodiesMeet S body body') (maxDepth : Nat)
    {f f' : Func} (hn : n ≤ c.left.nextId) (hf : S.code f f') (hc : Chains c.world env.chain env'.chain)
    (ht : Alike S c.world this this') (ha : List.Forall₂ (Alike S c.world) args args') :
    Meets n .none c (enter maxDepth f env this args body c.left)
      (fun k => enter maxDepth f' env' this' args' (body' k)) AlikeIn := by
  obtain ⟨-, hparams, hform⟩ := S.same_head hf
  rw [enter_apply]
  refine Meets.congr ?_ fun k => enter_apply maxDepth f' env' this' args' (body' k) c.right
  rw [hform, c.agree.depth]
  split
  · exact .fail _
  split
  · exact meets_misuse _
  refine Meets.newScope (u := .local (Env.inside ⟨env.chain, none⟩ c.left true)
    (Env.inside ⟨env'.chain, none⟩ c.right true)) ?_ (Touch.local_within c _ _ true)
  have hle := c.world.le_withScopes c.left.scopes.size c.right.scopes.size
  have hflush := Flush.inside c ⟨env.chain, none⟩ ⟨env'.chain, none⟩ true
  have hchain : Chains c.pushBoth.world (Env.inside ⟨env.chain, none⟩ c.left true).chain
      (Env.inside ⟨env'.chain, none⟩ c.right true).chain :=
    .link (Or.inr ⟨rfl, rfl⟩) rfl (hc.mono hle)
  rw [hparams]
  refine (meets_bindParams (S.params_apart hf) hflush rfl (ha.imp fun _ _ => Alike.mono hle)).seq
    fun b _ _ hl _ => ?_
  have hthis : Alike S b.world this this' := (ht.mono hle).mono hl.world
  have hn' : n ≤ b.left.nextId := Nat.le_trans hn hl.left.nextId
  exact (meets_deeper hthis (hbody (c := b.into hthis) hf hn' (hchain.mono hl.world)
    (hflush.mono hl.world) rfl rfl)).congr fun _ => rfl

/-! ## Built-in functions -/

theorem meets_mapM_toShown (h : List.Forall₂ (Alike S c.world) vs vs') :
    Meets n t c (vs.mapM toShown c.left) (fun _ => vs'.mapM toShown) (fun _ a a' => a' = a) := by
  induction vs generalizing c vs' with
  | nil =>
    cases h
    exact .pure rfl
  | cons v vs ih =>
    obtain _ | ⟨hv, hvs⟩ := h
    have := primitive_mapM toShown vs
    simp only [List.mapM_cons]
    refine (meets_toShown hv).seq fun b s s' hl hs => ?_
    subst hs
    refine (ih (hvs.imp fun _ _ => Alike.mono hl.world)).seq fun d ss ss' _ hss => ?_
    subst hss
    exact .pure rfl

theorem meets_callNative (kind : Native) (ht : Alike S c.world this this')
    (ha : List.Forall₂ (Alike S c.world) args args') :
    Meets n t c (callNative kind this args c.left) (fun _ => callNative kind this' args') AlikeIn := by
  cases kind with
  | log =>
    have (line : String) :
      Rising (modify fun m : Machine => { m with output := m.output.push line } : Run PUnit) :=
      rising_modify fun _ => { output := by simp }
    refine Meets.seq (meets_mapM_toShown ha) fun b parts parts' _ hp => ?_
    subst hp
    exact .gives (b.print _) _ _ ((b.later_print n _).within .none) rfl
      (.of_eq fun _ => rfl) .undefined
  | string =>
    cases ha with
    | nil => exact .pure (.string "")
    | cons hv _ =>
      refine Meets.seq (meets_toText hv) fun b s s' _ hs => ?_
      subst hs
      exact .pure (.string s')
  | error =>
    cases ha with
    | nil => exact meets_newError "Error" ""
    | cons hv _ =>
      refine Meets.seq (meets_toText hv) fun b s s' _ hs => ?_
      subst hs
      exact meets_newError "Error" s'
  | call => exact .pure .undefined
  | push =>
    cases ht with
    | array a =>
      have happend (us us' : Array Value) (hu : List.Forall₂ (Alike S c.world) us.toList us'.toList) :
          List.Forall₂ (Alike S c.world) (us ++ args).toList (us' ++ args').toList := by
        simpa using List.rel_append hu ha
      have hm := c.agree.heap.modifyArray a happend
      refine .gives (c.withHeaps _ _ hm) _ _
        ((Twin.later_withHeaps n hm (Nat.le_refl _) fun _ _ => rfl).within .none) rfl
        (.of_eq fun _ => rfl) ?_
      rw [hm.itemsSize]
      exact .number _
    | _ => exact meets_misuse _

/-! ## Function values -/

theorem resolveCall_alike {w : World} (hf : Alike S w f f') (ht : Alike S w this this')
    (ha : List.Forall₂ (Alike S w) args args') :
    Alike S w (resolveCall f this args).1 (resolveCall f' this' args').1 ∧
      Alike S w (resolveCall f this args).2.1 (resolveCall f' this' args').2.1 ∧
      List.Forall₂ (Alike S w) (resolveCall f this args).2.2 (resolveCall f' this' args').2.2 := by
  induction ha generalizing f f' this this' with
  | nil =>
    cases hf with
    | native kind hid =>
      cases kind with
      | call =>
        cases ht with
        | native kind ht' => cases kind <;> exact ⟨by constructor <;> assumption, .undefined, .nil⟩
        | closure hid' hf' hc' ht' => exact ⟨.closure hid' hf' hc' ht', .undefined, .nil⟩
        | _ => exact ⟨by constructor, .undefined, .nil⟩
      | _ => exact ⟨.native _ hid, ht, .nil⟩
    | closure hid hf' hc ht' => exact ⟨.closure hid hf' hc ht', ht, .nil⟩
    | _ => exact ⟨by constructor, ht, .nil⟩
  | cons hv hvs ih =>
    cases hf with
    | native kind hid =>
      cases kind with
      | call => exact ih ht hv
      | _ => exact ⟨.native _ hid, ht, .cons hv hvs⟩
    | closure hid hf' hc ht' => exact ⟨.closure hid hf' hc ht', ht, .cons hv hvs⟩
    | _ => exact ⟨by constructor, ht, .cons hv hvs⟩

/-- Calls of values that belong together meet, if the bodies of functions do. -/
theorem meets_callWithBody [∀ env b, Rising (body env b)] (hbody : BodiesMeet S body body')
    (maxDepth : Nat) (hn : n ≤ c.left.nextId) (hf : Alike S c.world f f')
    (ht : Alike S c.world this this') (ha : List.Forall₂ (Alike S c.world) args args') :
    Meets n .none c (callWithBody maxDepth body f this args c.left)
      (fun k => callWithBody maxDepth (body' k) f' this' args') AlikeIn := by
  obtain ⟨hf, ht, ha⟩ := resolveCall_alike hf ht ha
  unfold callWithBody
  generalize resolveCall f this args = r, resolveCall f' this' args' = r' at hf ht ha
  obtain ⟨g, this, args⟩ := r
  obtain ⟨g', this', args'⟩ := r'
  have hother : Meets n .none c (mistakeOf (.notCallable <$> toShown g) c.left : Result Value)
      (fun _ => (mistakeOf (.notCallable <$> toShown g') : Run Value)) AlikeIn := by
    refine meets_mistakeOf ?_
    simp only [map_eq_pure_bind]
    refine (meets_toShown (c := c.mistaken) hf).seq fun b s s' _ hs => ?_
    subst hs
    exact .pure rfl
  cases hf with
  | closure hid hcode hc hcaptured =>
    dsimp only
    refine meets_enter hbody maxDepth hn hcode hc ?_ ha
    rw [(S.same_head hcode).2.2]
    split
    · exact hcaptured
    · exact ht
  | native kind hid => exact meets_callNative kind ht ha
  | _ => exact hother

end RaiseScript
