import RaiseScript.Proofs.Bodies

/-!
# The same code on machines that match

Code that uses no temporaries does the same on both machines of a pair (`Phrase.mirrors`). Its try
expressions run in place on both sides, in slots that belong together. The right machine may be
inside of extra scopes. This makes no difference, except that code which declares a name for the
scope it stands in (`Stmt.declaresHere`) has to stand in scopes that belong together.
-/

set_option linter.unusedSectionVars false

namespace RaiseScript

variable {α β : Type} {temp : String → Prop}
variable {f : Func} {S : Setting} {w : World} {slots slots' : Array Value} {i j : Nat} {v' : Value}
  {env env' : Env} {o value e test : Expr} {param : Option String} {body : List Stmt} {s yes : Stmt}
  {kind : BindingKind} {y : String} {ds : List Declarator} {cs : List Case}

/-! ## The setting -/

/-- No node of the walk uses one of the names. -/
def Avoids (temp : String → Prop) (vs : List Visit) : Prop :=
  ∀ v ∈ vs, ∀ x ∈ v.names, ¬ temp x

namespace Avoids

variable {v : Visit} {us vs : List Visit}

theorem head (h : Avoids temp (v :: vs)) {x : String} (hx : x ∈ v.names) : ¬ temp x :=
  h v List.mem_cons_self x hx

theorem tail (h : Avoids temp (v :: vs)) : Avoids temp vs :=
  fun u hu => h u (List.mem_cons_of_mem v hu)

theorem left (h : Avoids temp (us ++ vs)) : Avoids temp us :=
  fun u hu => h u (List.mem_append_left vs hu)

theorem right (h : Avoids temp (us ++ vs)) : Avoids temp vs :=
  fun u hu => h u (List.mem_append_right us hu)

theorem name (h : Avoids temp (f.walk .all)) : ∀ x ∈ f.name, ¬ temp x := by
  obtain ⟨us, hus⟩ := f.walk_eq_cons .all
  rw [hus] at h
  exact fun x hx => h.head (List.mem_append_left _ (Option.mem_toList.2 hx))

theorem params (h : Avoids temp (f.walk .all)) : ∀ x ∈ f.params, ¬ temp x := by
  obtain ⟨us, hus⟩ := f.walk_eq_cons .all
  rw [hus] at h
  exact fun x hx => h.head (List.mem_append_right _ hx)

end Avoids

variable (temp) in
/-- Both sides run the same code, which does not use temporaries. Nothing else is known of it. -/
def Setting.mirror : Setting where
  surroundings := .unknown
  temp := temp
  code f f' := f' = f ∧ Avoids temp (f.walk .all)
  same_head h := by
    rw [h.1]
    exact ⟨rfl, rfl, rfl⟩
  params_apart h := h.2.params
  faultless := false
  closed_faultless h := by cases h

theorem Setting.not_steady_mirror (x : String) : ¬ (Setting.mirror temp).Steady x :=
  fun h => by cases h.1

/-! ## Slots on both sides -/

/-- Two slots that have no counterpart yet are put together. -/
theorem SlotsMatch.push (h : SlotsMatch S w slots slots') :
    SlotsMatch S (w.withSlots slots.size slots'.size) (slots.push .undefined) (slots'.push .undefined) := by
  have hids : IdsMatch w.slots slots.size slots'.size := ⟨h.lt_left, h.lt_right, h.right_unique, h.left_unique⟩
  have hpairs := (hids.grow (w := { w with ids := w.slots }) (Nat.le_succ _)
    (Nat.le_succ _)).withIds (Nat.lt_succ_self slots.size) (Nat.lt_succ_self slots'.size)
    (fun _ hi => Nat.lt_irrefl _ (h.lt_left hi)) fun _ hi => Nat.lt_irrefl _ (h.lt_right hi)
  refine ⟨fun hi => ?_, fun hi => ?_, hpairs.right_unique, hpairs.left_unique, fun {i j} hi => ?_⟩
  · rw [Array.size_push]
    exact hpairs.lt_left hi
  · rw [Array.size_push]
    exact hpairs.lt_right hi
  · rw [getD_push, getD_push]
    rcases hi with hi | ⟨rfl, rfl⟩
    · rw [if_neg (Nat.ne_of_lt (h.lt_left hi)), if_neg (Nat.ne_of_lt (h.lt_right hi))]
      exact (h.values hi).mono (w.le_withSlots _ _)
    · rw [if_pos rfl, if_pos rfl]
      exact .undefined

/-- The same value goes into slots that belong together. -/
theorem SlotsMatch.store (h : SlotsMatch S w slots slots') (hij : w.slots i j) {v : Value} (hv : Alike S w v v')
    : SlotsMatch S w (slots.setIfInBounds i v) (slots'.setIfInBounds j v') := by
  refine ⟨fun hi => ?_, fun hi => ?_, h.right_unique, h.left_unique, fun {i' j'} hi => ?_⟩
  · rw [Array.size_setIfInBounds]
    exact h.lt_left hi
  · rw [Array.size_setIfInBounds]
    exact h.lt_right hi
  · rw [getD_setIfInBounds, getD_setIfInBounds]
    by_cases he : i' = i
    · subst he
      obtain rfl := h.right_unique hi hij
      rw [if_pos ⟨rfl, h.lt_left hi⟩, if_pos ⟨rfl, h.lt_right hi⟩]
      exact hv
    · have he' : j' ≠ j := fun hj => he (h.left_unique (hj ▸ hi) hij)
      rw [if_neg fun hc => he hc.1, if_neg fun hc => he' hc.1]
      exact h.values hi

/-- Code may store into this slot on the left. -/
def Touch.raising (slot : Option Nat) : Touch :=
  ⟨fun _ => False, fun _ _ => False, fun i => slot = some i, .none⟩

section

variable {n : Nat} {t : Touch} {c : Twin S}

namespace Twin

/-- The pair with a new slot on both sides. -/
def slotBoth (c : Twin S) : Twin S where
  world := c.world.withSlots c.left.slots.size c.right.slots.size
  left := { c.left with slots := c.left.slots.push .undefined }
  right := { c.right with slots := c.right.slots.push .undefined }
  agree := by
    have hle := c.world.le_withSlots c.left.slots.size c.right.slots.size
    exact ⟨c.agree.scopes.mono hle rfl rfl, c.agree.ids, c.agree.slots.push, c.agree.heap.mono hle,
      c.agree.this.mono hle, c.agree.depth, c.agree.output⟩

theorem later_slotBoth (n : Nat) (c : Twin S) : Later n .none c c.slotBoth :=
  ⟨c.world.le_withSlots _ _, Or.inl, Or.imp_right fun he => Nat.le_of_eq he.1.symm,
    ⟨Nat.le_refl _, Nat.le_refl _, by simp [slotBoth], Nat.le_refl _, fun _ _ _ => rfl,
      fun h _ => (getD_push _ _ _ _).trans (if_neg (Nat.ne_of_lt h)), fun _ _ => rfl, Nat.le_refl _⟩,
    ⟨Nat.le_refl _, fun _ _ _ => rfl⟩, rfl, rfl, rfl, by simp [Touch.none]⟩

/-- The pair after a value was stored in slots that belong together. -/
def storeBoth (c : Twin S) {i j : Nat} (hij : c.world.slots i j) {v v' : Value}
    (hv : Alike S c.world v v') : Twin S where
  world := c.world
  left := { c.left with slots := c.left.slots.setIfInBounds i v }
  right := { c.right with slots := c.right.slots.setIfInBounds j v' }
  agree := ⟨c.agree.scopes, c.agree.ids, c.agree.slots.store hij hv, c.agree.heap, c.agree.this,
    c.agree.depth, c.agree.output⟩

theorem later_storeBoth (n : Nat) (hij : c.world.slots i j) {v : Value}
    (hv : Alike S c.world v v') : Later n (.raising (some i)) c (c.storeBoth hij hv) where
  world := World.le_refl _
  ids := Or.inl
  slots := Or.inl
  left := by
    refine ⟨Nat.le_refl _, Nat.le_refl _, by simp [storeBoth], Nat.le_refl _, fun _ _ _ => rfl,
      fun {i'} _ hi => ?_, fun _ _ => rfl, Nat.le_refl _⟩
    have hne : i' ≠ i := fun he => hi (congrArg some he.symm)
    exact (getD_setIfInBounds _ _ _ _ _).trans (if_neg fun h => hne h.1)
  right := ⟨Nat.le_refl _, fun _ _ _ => rfl⟩
  this_left := rfl
  this_right := rfl
  depth := rfl
  aim m hm := by cases hm

end Twin

/-- A new slot on both sides and what runs with it. -/
theorem Meets.newSlot {f : Nat → Run α} {g : Nat → Nat → Run β} {R : Twin S → α → β → Prop} {u : Touch}
    (h : Meets n u c.slotBoth (f c.left.slots.size c.slotBoth.left) (g · c.right.slots.size) R)
    (hw : u.Within c t) :
    Meets n t c ((RaiseScript.newSlot >>= f) c.left) (fun k => RaiseScript.newSlot >>= g k) R := by
  have hx : Ends (fun _ => RaiseScript.newSlot) c.right (.ok c.right.slots.size c.slotBoth.right) :=
    .of_eq fun _ => rfl
  exact h.after ((c.later_slotBoth n).within .none) hw hx fun _ => rfl

theorem meets_readSlots (h : c.world.slots i j) : Meets n t c (readSlot i c.left) (fun _ => readSlot j) AlikeIn :=
  .gives c _ _ (.refl n t c) rfl (.of_eq fun _ => rfl) (c.agree.slots.values h)

theorem meets_storeBoth (h : Option.Rel c.world.slots env.slot env'.slot) {v : Value} (hv : Alike S c.world v v') :
    Meets n (.raising env.slot) c (storeRaised env v c.left) (fun _ => storeRaised env' v') Anything := by
  unfold storeRaised
  cases hs : env.slot with
  | none =>
    cases hs' : env'.slot with
    | none => exact .fail _
    | some j =>
      rw [hs, hs'] at h
      cases h
  | some i =>
    cases hs' : env'.slot with
    | none =>
      rw [hs, hs'] at h
      cases h
    | some j =>
      rw [hs, hs'] at h
      cases h with
      | some h =>
        exact .gives (c.storeBoth h hv) () () (Twin.later_storeBoth n h hv) rfl (.of_eq fun _ => rfl) trivial

/-! ## Where code stands -/

/-- Code stands in scopes and slots that belong together, but for extra scopes on the right. -/
structure Opposite (n : Nat) (c : Twin S) (env env' : Env) : Prop where
  next : n ≤ c.left.nextId
  chains : Chains c.world env.chain env'.chain
  slot : Option.Rel c.world.slots env.slot env'.slot

namespace Opposite

variable {b : Twin S}

theorem later (h : Opposite n c env env') (hl : Later n t c b) : Opposite n b env env' where
  next := Nat.le_trans h.next hl.left.nextId
  chains := h.chains.mono hl.world
  slot := by
    have hs := h.slot
    generalize env.slot = i, env'.slot = j at hs ⊢
    cases hs with
    | none => exact .none
    | some hs => exact .some (hl.world.slots hs)

theorem inside (h : Opposite n c env env') (isBody : Bool) :
    Opposite n c.pushBoth (env.inside c.left isBody) (env'.inside c.right isBody) where
  next := h.next
  chains := h.chains.inside isBody
  slot := h.slot

theorem withSlot (h : Opposite n c env env') : Opposite n c.slotBoth
    { env with slot := some c.left.slots.size } { env' with slot := some c.right.slots.size } where
  next := h.next
  chains := h.chains.mono (c.world.le_withSlots _ _)
  slot := .some (Or.inr ⟨rfl, rfl⟩)

end Opposite

end

/-! ## Expressions -/

section

variable (k : Engines (.mirror temp))

/-- The expression does the same on both sides. -/
def MirrorsExpr (e : Expr) : Prop :=
  Avoids temp (e.walk .all) → ∀ ⦃n : Nat⦄ ⦃c : Twin (.mirror temp)⦄ ⦃env env' : Env⦄,
    Opposite n c env env' → Meets n (.raising env.slot) c (evalExpr k.left env e c.left)
      (fun i => evalExpr (k.right i) env' e) AlikeIn

/-- The expressions do the same on both sides. -/
def MirrorsExprs (es : List Expr) : Prop :=
  Avoids temp (walkExprs .all es) → ∀ ⦃n : Nat⦄ ⦃c : Twin (.mirror temp)⦄ ⦃env env' : Env⦄,
    Opposite n c env env' → Meets n (.raising env.slot) c (evalExprs k.left env es c.left)
      (fun i => evalExprs (k.right i) env' es) AlikeAll

/-- The statements do the same on both sides. -/
def MirrorsStmts (ss : List Stmt) : Prop :=
  Avoids temp (walkStmts .all ss) → ∀ ⦃n : Nat⦄ ⦃c : Twin (.mirror temp)⦄ ⦃env env' : Env⦄,
    Opposite n c env env' → Flush c.world env env' → Meets n (.raising env.slot) c
      (execAll k.left env ss c.left) (fun i => execAll (k.right i) env' ss) Anything

variable {k} {es : List Expr}

theorem mirrorsExprs_nil : MirrorsExprs k [] := by
  intro _ n c env env' _
  exact .pure .nil

theorem mirrorsExprs_cons (he : MirrorsExpr k e) (hes : MirrorsExprs k es) : MirrorsExprs k (e :: es) := by
  intro ha n c env env' h
  have := k.rising
  refine (he ha.left h).seq fun b v v' hb hv => ?_
  refine (hes ha.right (h.later hb)).seq fun d vs vs' hd hvs => ?_
  exact .pure (.cons (hv.mono hd.world) hvs)

/-- An operator does the same if its operands do. -/
theorem mirrorsExpr_strict (he : e.Strict es) (hp : e.IsPlain) (hes : MirrorsExprs k es) : MirrorsExpr k e := by
  intro ha n c env env' h
  have := k.rising
  have ha' : Avoids temp (walkExprs .all es) := fun v hv => ha v (he.mem_walk hv)
  simp only [evalExpr_strict _ _ he hp]
  rw [Run.bind_apply]
  refine (hes ha' h).bind .refl fun b vs vs' hb heval hvs => ?_
  exact (meets_operate he hp (fun _ _ => rfl) (fun _ _ => rfl) (length_of_evalExprs _ _ _ heval) hvs
    (h.later hb).next).within .none

theorem mirrorsExpr_typeName (he : MirrorsExpr k e) : MirrorsExpr k (.unary .typeName e) := by
  intro ha n c env env' h
  have := k.rising
  by_cases hident : ∃ x, e = .ident x
  · obtain ⟨x, rfl⟩ := hident
    have hx : ¬ temp x := ha.tail.head (by simp [Visit.names])
    have hlook := c.lookup? hx h.chains
    refine .gives c _ _ (.refl n _ c) (by rw [evalExpr]; rfl) (.of_eq fun i => by rw [evalExpr]; rfl) ?_
    generalize c.left.lookup? x env.chain = v, c.right.lookup? x env'.chain = v' at hlook
    cases hlook with
    | none => exact .string _
    | some h =>
      simp only [Option.elim_some, h.typeName]
      exact .string _
  · simp only [evalExpr_typeName _ _ fun x hx => hident ⟨x, hx⟩]
    exact (he ha.tail h).seq fun b v v' _ hv => meets_applyUnary .typeName hv

/-- A name is assigned to, or there is no such target. -/
theorem mirrorsExpr_assign {target : Expr} (hm : ∀ o q, target ≠ .member o q) (hi : ∀ o i, target ≠ .index o i)
    (hv : MirrorsExpr k value) : MirrorsExpr k (.assign target value) := by
  intro ha n c env env' h
  have := k.rising
  cases target with
  | member o q => exact absurd rfl (hm o q)
  | index o i => exact absurd rfl (hi o i)
  | ident x =>
    have hx : ¬ temp x := ha.tail.left.head (by simp [Visit.names])
    refine (hv ha.tail.right h).seq fun b v v' hb hv => ?_
    refine (meets_assignName (h.later hb).chains hx (Setting.not_steady_mirror x) hv).seq fun d _ _ hd _ => ?_
    exact .pure (hv.mono hd.world)
  | _ =>
    exact meets_misuse _

theorem mirrorsExpr_method {callee : Expr} {args : List Expr} (hs : callee.Strict es)
    (hplace : callee.isPlace = true) (hes : MirrorsExprs k es) (hargs : MirrorsExprs k args) :
    MirrorsExpr k (.call callee args) := by
  intro ha n c env env' h
  have := k.rising
  have ha' : Avoids temp (walkExprs .all es) := fun v hv => ha.tail.left v (hs.mem_walk hv)
  simp only [evalExpr_method hs hplace]
  rw [Run.bind_apply]
  refine (hes ha' h).bind .refl fun b vs vs' hb heval hvs => ?_
  have hlook := meets_operate (k := k) hs (hs.isPlain_of_isPlace hplace) (fun _ _ => rfl)
    (fun _ _ => rfl) (length_of_evalExprs _ _ _ heval) hvs (h.later hb).next
  refine (hlook.within .none).seq fun d f f' hd hf => ?_
  refine (meets_noteMethod _ _ f f').seq fun o _ _ ho _ => ?_
  have hbo := hd.trans ho .refl
  have hopp := (h.later hb).later hbo
  refine (hargs ha.tail.right hopp).seq fun m us us' hm hus => ?_
  exact (k.call (hopp.later hm).next ((hf.mono ho.world).mono hm.world)
    ((hvs.headD.mono hbo.world).mono hm.world) hus).within .none

/-! ## Blocks and clauses -/

theorem declares_mirror : ∀ {ss : List Stmt}, Avoids temp (walkStmts .all ss) →
    List.Forall₂ (Declares (.mirror temp)) (funcsOf ss) (funcsOf ss) := by
  intro ss ha
  refine List.forall₂_same.2 fun f hf => ?_
  have hf : Avoids temp (f.walk .all) := by
    induction ss with
    | nil => cases hf
    | cons s ss ih =>
      rw [walkStmts] at ha
      cases s with
      | func g =>
        rcases List.mem_cons.1 hf with rfl | hf
        · rw [Stmt.walk] at ha
          exact ha.left.tail
        · exact ih ha.right hf
      | _ => exact ih ha.right hf
  exact ⟨⟨rfl, hf⟩, fun x hx => ⟨hf.name x hx, Setting.not_steady_mirror x⟩⟩

variable {n : Nat} {c : Twin (.mirror temp)} {ss : List Stmt}

/-- Statements run in a scope of their own, with the functions they declare. -/
theorem meets_within (hss : MirrorsStmts k ss) (ha : Avoids temp (walkStmts .all ss))
    (h : Opposite n c env env') (hf : Flush c.world env env') :
    Meets n (.raising env.slot) c ((declareFunctions env ss >>= fun _ => execAll k.left env ss) c.left)
      (fun i => declareFunctions env' ss >>= fun _ => execAll (k.right i) env' ss) Anything := by
  have := k.rising
  refine (meets_declareFunctions (declares_mirror ha) h.next h.chains hf).seq fun b _ _ hb _ => ?_
  exact hss ha (h.later hb) (hf.mono hb.world)

theorem mirrors_execBlock (hss : MirrorsStmts k ss) (ha : Avoids temp (walkStmts .all ss))
    (h : Opposite n c env env') :
    Meets n (.raising env.slot) c (execBlock k.left env ss c.left)
      (fun i => execBlock (k.right i) env' ss) Anything :=
  Meets.newScope (u := .raising env.slot)
    (meets_within hss ha (h.inside false) (Flush.inside c env env' false)) .refl

theorem mirrors_execClause (hss : MirrorsStmts k ss) (ha : Avoids temp (walkStmts .all ss))
    (hparam : ∀ x ∈ param, ¬ temp x) (h : Opposite n c env env') {v : Value}
    (hv : Alike (.mirror temp) c.world v v') :
    Meets n (.raising env.slot) c (execClause k.left env param ss v c.left)
      (fun i => execClause (k.right i) env' param ss v') Anything := by
  have := k.rising
  have hle := c.world.le_withScopes c.left.scopes.size c.right.scopes.size
  have hflush := Flush.inside c env env' false
  have hbind : Meets n (.raising env.slot) c.pushBoth (bindParam (env.inside c.left false) param v
      c.pushBoth.left) (fun _ => bindParam (env'.inside c.right false) param v') Anything := by
    cases param with
    | none => exact .pure trivial
    | some x =>
      exact meets_declareHere true hflush (hparam x rfl) (hv.mono hle)
        fun hs => absurd hs (Setting.not_steady_mirror x)
  refine Meets.newScope (u := .raising env.slot) (hbind.seq fun b _ _ hb _ => ?_) .refl
  exact meets_within hss ha ((h.inside false).later hb) (hflush.mono hb.world)

/-- The clauses of a try expression do the same on both sides. -/
theorem mirrors_execFinally {body : Option (List Stmt)} (hss : ∀ ss ∈ body, MirrorsStmts k ss)
    (ha : Avoids temp (walkBlock .all body)) (hparam : ∀ x ∈ param, ¬ temp x)
    (h : Opposite n c env env') (hij : c.world.slots i j) :
    Meets n (.raising env.slot) c (execFinally k.left env (param.map (·, i)) body c.left)
      (fun m => execFinally (k.right m) env' (param.map (·, j)) body) Anything := by
  have := k.rising
  cases body with
  | none =>
    exact .pure trivial
  | some ss =>
    have hflush := Flush.inside c env env' false
    cases param with
    | none => 
      exact mirrors_execBlock (hss ss rfl) ha h
    | some x =>
      simp only [execFinally, Option.map_some]
      refine Meets.newScope (u := .raising env.slot) ?_ .refl
      refine (meets_declareFunctions (declares_mirror ha) (h.inside false).next
        (h.inside false).chains hflush).seq fun b _ _ hb _ => ?_
      have hread : Meets n (.raising env.slot) b (readSlot i b.left) (fun _ => readSlot j) AlikeIn :=
        meets_readSlots (hb.world.slots hij)
      refine hread.seq fun d v v' hd hv => ?_
      refine (meets_declareHere true ((hflush.mono hb.world).mono hd.world) (hparam x rfl) hv
        fun hs => absurd hs (Setting.not_steady_mirror x)).seq fun o _ _ ho _ => ?_
      exact hss ss rfl ha ((((h.inside false).later hb).later hd).later ho)
        (((hflush.mono hb.world).mono hd.world).mono ho.world)

theorem mirrorsExpr_attempt (hk : ∀ i, (k.right i).direct = true) {t : TryExpr}
    (hbody : MirrorsStmts k t.body) (hcatch : MirrorsStmts k t.catchBody)
    (hfinally : ∀ ss ∈ t.finallyBody, MirrorsStmts k ss) : MirrorsExpr k (.attempt t) := by
  intro ha n c env env' h
  have := k.rising
  rw [Expr.walk, TryExpr.walk_all] at ha
  have hparam : ∀ x ∈ t.catchParam, ¬ temp x := fun x hx =>
    ha.tail.head (List.mem_append_left _ (Option.mem_toList.2 hx))
  have hfparam : ∀ x ∈ t.finallyParam, ¬ temp x := fun x hx =>
    ha.tail.head (List.mem_append_right _ (Option.mem_toList.2 hx))
  simp only [evalExpr_attempt k.direct, evalExpr_attempt (hk _)]
  have hw : (Touch.raising (some c.left.slots.size)).Within c (.raising env.slot) :=
    ⟨fun _ hu => hu.elim, fun _ hu => hu.elim,
      fun hi hu => absurd hi (Option.some.inj hu ▸ Nat.lt_irrefl _), fun _ hm => by cases hm⟩
  refine Meets.newSlot ?_ hw
  have hopp := h.withSlot
  have hslots : c.slotBoth.world.slots c.left.slots.size c.right.slots.size := Or.inr ⟨rfl, rfl⟩
  refine Meets.seq (R := Anything) (meets_attempted ?_ (fun b v v' hb hv => ?_) fun b hb => ?_)
    fun b _ _ hb _ => meets_readSlots (hb.world.slots hslots)
  · exact mirrors_execBlock hbody ha.tail.tail.left.left hopp
  · exact mirrors_execClause hcatch ha.tail.tail.left.right hparam (hopp.later hb) hv
  · exact mirrors_execFinally hfinally ha.tail.tail.right hfparam (hopp.later hb) (hb.world.slots hslots)

end

/-! ## Statements -/

/-- The statement declares a name for the scope it stands in, apart from functions and from names
that hold for a whole function. -/
def Stmt.declaresHere : Stmt → Bool
  | .declare kind _ _ => kind != .functionWide
  | .branch _ yes none _ => yes.declaresHere
  | .branch _ yes (some no) _ => yes.declaresHere || no.declaresHere
  | .loop _ body _ => body.declaresHere
  | _ => false

section

variable (k : Engines (.mirror temp))

/-- The statement does the same on both sides. -/
def MirrorsStmt (s : Stmt) : Prop :=
  Avoids temp (s.walk .all) → ∀ ⦃n : Nat⦄ ⦃c : Twin (.mirror temp)⦄ ⦃env env' : Env⦄,
    Opposite n c env env' → (s.declaresHere = true → Flush c.world env env') →
    Meets n (.raising env.slot) c (execStmt k.left env s c.left) (fun i => execStmt (k.right i) env' s) Anything

/-- The rest of a declaration does the same on both sides. -/
def MirrorsDecls (kind : BindingKind) (ds : List Declarator) : Prop :=
  Avoids temp (walkDecls .all ds) → (∀ d ∈ ds, ¬ temp d.name) →
    ∀ ⦃n : Nat⦄ ⦃c : Twin (.mirror temp)⦄ ⦃env env' : Env⦄, Opposite n c env env' →
    (kind ≠ .functionWide → Flush c.world env env') →
    Meets n (.raising env.slot) c (execDecls k.left env kind ds c.left)
      (fun i => execDecls (k.right i) env' kind ds) Anything

/-- The cases of a switch are chosen alike on both sides. -/
def MirrorsChoice (cs : List Case) : Prop :=
  Avoids temp (walkCases .all cs) → ∀ ⦃n : Nat⦄ ⦃c : Twin (.mirror temp)⦄ ⦃env env' : Env⦄
    ⦃v v' : Value⦄, Opposite n c env env' → Alike (.mirror temp) c.world v v' →
    Meets n (.raising env.slot) c (chooseCase k.left env v cs c.left)
      (fun i => chooseCase (k.right i) env' v' cs) (fun _ o o' => o' = o)

/-- The cases of a switch do the same on both sides. -/
def MirrorsCases (cs : List Case) : Prop :=
  Avoids temp (walkCases .all cs) → ∀ ⦃n : Nat⦄ ⦃c : Twin (.mirror temp)⦄ ⦃env env' : Env⦄
    ⦃skip : Nat⦄, Opposite n c env env' → Flush c.world env env' →
    Meets n (.raising env.slot) c (execCases k.left env skip cs c.left)
      (fun i => execCases (k.right i) env' skip cs) Anything

variable {k}

/-- A statement counts a step, and then it does the same on both sides. -/
theorem MirrorsStmt.ofRest {f : Engine → Env → Run Unit}
    (hexec : ∀ k env, execStmt k env s = tick k.maxSteps >>= fun _ => f k env)
    (h : Avoids temp (s.walk .all) → ∀ {n : Nat} {c : Twin (.mirror temp)} {env env' : Env},
      Opposite n c env env' → (s.declaresHere = true → Flush c.world env env') →
      Meets n (.raising env.slot) c (f k.left env c.left) (fun i => f (k.right i) env') Anything) :
    MirrorsStmt k s := by
  intro ha n c env env' hopp hf
  simp only [hexec, k.maxSteps]
  refine .ticked fun b hb => Meets.tick_right ?_
  have hl := hb.trans (b.later_countRight n (b.right.steps + 1) b.right.mistakes b.right.misses)
    .refl
  exact h ha (hopp.later hl) fun hd => (hf hd).mono hl.world

/-- A statement that evaluates one expression and then does something with the value. -/
theorem mirrorsStmt_ofExpr (he : MirrorsExpr k e) {f : Env → Value → Run Unit}
    (hexec : ∀ k env, execStmt k env s = tick k.maxSteps >>= fun _ => evalExpr k env e >>= f env)
    [∀ env v, Rising (f env v)] (hvisits : s.walk .all = .stmt s :: e.walk .all)
    (hf : ∀ {n : Nat} {b : Twin (.mirror temp)} {env env' : Env} {v v' : Value}, Opposite n b env env' →
      Alike (.mirror temp) b.world v v' →
      Meets n (.raising env.slot) b (f env v b.left) (fun _ => f env' v') Anything) : MirrorsStmt k s := by
  refine .ofRest hexec fun ha {n c env env'} h _ => ?_
  rw [hvisits] at ha
  exact (he ha.tail h).seq fun b v v' hb hv => hf (h.later hb) hv

theorem meets_bindMirrored {n : Nat} {c : Twin (.mirror temp)} {v v' : Option Value} (hy : ¬ temp y)
    (h : Opposite n c env env') (hf : kind ≠ .functionWide → Flush c.world env env')
    (hv : Option.Rel (Alike (.mirror temp) c.world) v v') :
    Meets n (.raising env.slot) c (bindDeclared env kind y v c.left)
      (fun _ => bindDeclared env' kind y v') Anything := by
  have hvalue : Alike (.mirror temp) c.world (v.getD .undefined) (v'.getD .undefined) := by
    cases hv with
    | none => exact .undefined
    | some hv => exact hv
  cases kind with
  | functionWide => exact meets_declareInBody h.chains hy (Setting.not_steady_mirror y) hv
  | mutable =>
    exact meets_declareHere true (hf (by simp)) hy hvalue fun hs => absurd hs (Setting.not_steady_mirror y)
  | constant =>
    exact meets_declareHere false (hf (by simp)) hy hvalue fun hs => absurd hs (Setting.not_steady_mirror y)

theorem mirrorsStmt_loop {body : Stmt} (span : Span) (htest : MirrorsExpr k test)
    (hbody : MirrorsStmt k body) : MirrorsStmt k (.loop test body span) := by
  intro ha n c env env' h hf
  have := k.rising
  let round (k : Engine) (env : Env) : Run Bool := tick k.maxSteps >>= fun _ => evalExpr k env test >>= fun v =>
    if v.truthy then outcome (execStmt k env body) >>= goesOn else pure false
  have hexec (k : Engine) (env : Env) : execStmt k env (.loop test body span) = tick k.maxSteps >>= fun _ =>
      get >>= fun m => rounds (round k env) (k.maxSteps + 1 - m.steps) := by rw [execStmt]
  have hround (b : Twin (.mirror temp)) (hb : Later n (.raising env.slot) c b) :
      Meets n (.raising env.slot) b (round k.left env b.left) (fun i => round (k.right i) env')
        (fun _ go go' => go' = go) := by
    simp only [round, k.maxSteps]
    refine .ticked fun d hd => Meets.tick_right ?_
    have hl := hd.trans (d.later_countRight n (d.right.steps + 1) d.right.mistakes d.right.misses)
      .refl
    have hopp := (h.later hb).later hl
    refine (htest ha.tail.left hopp).seq fun o v v' ho hv => ?_
    simp only [hv.truthy]
    split
    · refine (hbody ha.tail.right (hopp.later ho) fun hd => ?_).outcome .refl
        (fun _ _ => rfl) fun _ _ _ _ => meets_goesOn
      exact (hf hd).mono (World.le_trans hb.world (World.le_trans hl.world ho.world))
    · exact .pure rfl
  simp only [hexec, k.maxSteps]
  refine .ticked fun b hb => Meets.tick_right ?_
  have hl := (hb.trans (b.later_countRight n (b.right.steps + 1) b.right.mistakes b.right.misses)
    .refl).within (.none (t := .raising env.slot))
  refine Meets.congr (meets_rounds (fun d hd => hround d (hl.trans hd .refl))
    (k.left.maxSteps + 1 - b.left.steps) b.right.steps) fun i => ?_
  show rounds _ (i + 1 - (b.right.steps + 1)) _ = _
  rw [Nat.add_sub_add_right]

theorem mirrorsCases_cons {test : Option Expr} (hbody : MirrorsStmts k body)
    (hcs : MirrorsCases k cs) : MirrorsCases k (⟨test, body⟩ :: cs) := by
  intro ha n c env env' skip h hf
  have := k.rising
  have ha' : Avoids temp (walkStmts .all body) ∧ Avoids temp (walkCases .all cs) := by
    cases test <;> rw [walkCases] at ha
    · exact ⟨ha.left, ha.right⟩
    · exact ⟨ha.left.right, ha.right⟩
  cases skip with
  | zero =>
    simp only [execCases]
    simp only [← bind_assoc]
    refine (meets_within hbody ha'.1 h hf).seq fun b _ _ hb _ => ?_
    exact hcs ha'.2 (h.later hb) (hf.mono hb.world)
  | succ skip =>
    exact hcs ha'.2 h hf

theorem mirrorsStmt_switch {subject : Expr} (span : Span) (hsubject : MirrorsExpr k subject)
    (hchoice : MirrorsChoice k cs) (hcs : MirrorsCases k cs) : MirrorsStmt k (.switch subject cs span) := by
  have := k.rising
  refine .ofRest (f := fun k env => evalExpr k env subject >>= fun v => newScope env false >>= fun inner =>
    chooseCase k inner v cs >>= execChosen k inner cs) (fun _ _ => by rw [execStmt]; rfl)
    fun ha {n c env env'} h _ => ?_
  refine (hsubject ha.tail.left h).seq fun b v v' hb hv => ?_
  have hopp := (h.later hb).inside false
  have hflush := Flush.inside b env env' false
  refine Meets.newScope (u := .raising env.slot) ?_ .refl
  refine (hchoice ha.tail.right hopp (hv.mono (b.world.le_withScopes _ _))).seq fun d i i' hd hi => ?_
  subst hi
  unfold execChosen
  cases i' <|> cs.findIdx? (·.test.isNone) with
  | none => exact .pure trivial
  | some i =>
    exact (hcs ha.tail.right (hopp.later hd) (hflush.mono hd.world)).outcome .refl
      (fun _ _ => rfl) fun _ _ _ _ => meets_leaveSwitch

theorem mirrorsStmt_guarded {handler : Option Handler} {finalizer : Option (List Stmt)}
    (span : Span) (hbody : MirrorsStmts k body) (hhandler : ∀ h ∈ handler, MirrorsStmts k h.body)
    (hfinalizer : ∀ ss ∈ finalizer, MirrorsStmts k ss) :
    MirrorsStmt k (.guarded body handler finalizer span) := by
  have := k.rising
  refine .ofRest (execStmt_guarded · · body handler finalizer span) fun ha {n c env env'} h _ => ?_
  refine meets_attempted (mirrors_execBlock hbody ha.tail.left.left h) (fun b v v' hb hv => ?_) fun b hb => ?_
  · cases handler with
    | none => exact .throw (.thrown hv)
    | some clause =>
      obtain ⟨param, handlerBody⟩ := clause
      exact mirrors_execClause (hhandler _ rfl) ha.tail.left.right
        (fun x hx => ha.head (Option.mem_toList.2 hx)) (h.later hb) hv
  · cases finalizer with
    | none => exact .pure trivial
    | some ss => exact mirrors_execBlock (hfinalizer ss rfl) ha.tail.right (h.later hb)

/-! ## The walk -/

variable (k) in
/-- What a part of a program does alike on both sides. -/
def Phrase.Mirrors : Phrase → Prop
  | .expr e => MirrorsExpr k e
  | .exprs es => MirrorsExprs k es
  | .func _ => True
  | .attempt t => MirrorsExpr k (.attempt t)
  | .stmt s => MirrorsStmt k s
  | .decls ds => ∀ kind, MirrorsDecls k kind ds
  | .cases cs => MirrorsChoice k cs ∧ MirrorsCases k cs
  | .handler h => ∀ clause ∈ h, MirrorsStmts k clause.body
  | .block b => ∀ ss ∈ b, MirrorsStmts k ss
  | .stmts ss => MirrorsStmts k ss

theorem Phrase.mirrors (hk : ∀ i, (k.right i).direct = true) (p : Phrase) : p.Mirrors k := by
  have := k.rising
  induction p with simp only [Phrase.Mirrors] at *
  | number | string | bool | null | undefined =>
    intro _ n c env env' _
    simp only [evalExpr]
    exact .pure (by constructor)
  | this =>
    intro _ n c env env' _
    simp only [evalExpr]
    exact .gives c _ _ (.refl n _ c) rfl (.of_eq fun _ => rfl) c.agree.this
  | ident x =>
    intro ha n c env env' h
    simp only [evalExpr]
    exact meets_readName h.chains (ha.head (by simp [Visit.names]))
  | array items ih => exact mirrorsExpr_strict (.array items) ⟨by simp, by simp⟩ ih
  | unary op e ih =>
    cases op with
    | typeName => exact mirrorsExpr_typeName ih
    | _ => exact mirrorsExpr_strict (.unary _ e) ⟨by simp, by simp⟩ (mirrorsExprs_cons ih mirrorsExprs_nil)
  | binary op a b ha hb =>
    exact mirrorsExpr_strict (.binary op a b) ⟨by simp, by simp⟩
      (mirrorsExprs_cons ha (mirrorsExprs_cons hb mirrorsExprs_nil))
  | logical op a b hl hr =>
    intro ha n c env env' h
    rw [Expr.walk] at ha
    simp only [evalExpr]
    refine (hl ha.tail.left h).seq fun o v v' ho hv => ?_
    simp only [hv.decides op]
    split
    · exact .pure hv
    · exact hr ha.tail.right (h.later ho)
  | assign target value _ hv hplace =>
    cases target with simp only [Expr.place, List.forall_mem_cons] at hplace
    | member o q =>
      exact mirrorsExpr_strict (.assignMember o q value) ⟨by simp, by simp⟩
        (mirrorsExprs_cons hplace.1 (mirrorsExprs_cons hv mirrorsExprs_nil))
    | index o i =>
      exact mirrorsExpr_strict (.assignIndex o i value) ⟨by simp, by simp⟩
        (mirrorsExprs_cons hplace.1 (mirrorsExprs_cons hplace.2.1 (mirrorsExprs_cons hv mirrorsExprs_nil)))
    | _ => exact mirrorsExpr_assign (by simp) (by simp) hv
  | member o q ih =>
    exact mirrorsExpr_strict (.member o q) ⟨by simp, by simp⟩ (mirrorsExprs_cons ih mirrorsExprs_nil)
  | index o i ho hi =>
    exact mirrorsExpr_strict (.index o i) ⟨by simp, by simp⟩
      (mirrorsExprs_cons ho (mirrorsExprs_cons hi mirrorsExprs_nil))
  | call callee args hcallee hargs hplace =>
    cases callee with simp only [Expr.place, List.forall_mem_cons] at hplace
    | member o q =>
      exact mirrorsExpr_method (.member o q) rfl (mirrorsExprs_cons hplace.1 mirrorsExprs_nil) hargs
    | index o i =>
      exact mirrorsExpr_method (.index o i) rfl
        (mirrorsExprs_cons hplace.1 (mirrorsExprs_cons hplace.2.1 mirrorsExprs_nil)) hargs
    | _ =>
      exact mirrorsExpr_strict (.call _ args (by simp) (by simp)) ⟨by simp, by simp⟩
        (mirrorsExprs_cons hcallee hargs)
  | await e ih =>
    exact mirrorsExpr_strict (.await e) ⟨by simp, by simp⟩ (mirrorsExprs_cons ih mirrorsExprs_nil)
  | yieldNone | yield =>
    intro _ n c env env' _
    simp only [evalExpr]
    exact .fail _
  | func f =>
    intro ha n c env env' h
    rw [Expr.walk] at ha
    simp only [evalExpr]
    exact meets_newClosure h.next ⟨rfl, ha.tail⟩ h.chains
  | attempt t ih => exact ih
  | clauses _ _ _ _ _ _ _ _ _ hbody hcatch hfinally => exact mirrorsExpr_attempt hk hbody hcatch hfinally
  | nilExprs => exact mirrorsExprs_nil
  | consExprs e es he hes => exact mirrorsExprs_cons he hes
  | declare kind ds span hds =>
    refine .ofRest (execStmt_declare · · kind ds span) fun ha {n c env env'} h hf => ?_
    rw [Stmt.walk] at ha
    exact hds kind ha.tail (fun d hd => ha.head (List.mem_map_of_mem hd)) h fun hk =>
      hf (by simpa [Stmt.declaresHere] using hk)
  | exprStmt e span ih =>
    exact mirrorsStmt_ofExpr (f := fun _ _ => pure ()) ih (fun _ _ => by rw [execStmt])
      (by rw [Stmt.walk]) fun _ _ => .pure trivial
  | blockStmt body span ih =>
    refine .ofRest (f := fun k env => execBlock k env body) (fun _ _ => by rw [execStmt]; rfl)
      fun ha {n c env env'} h _ => ?_
    rw [Stmt.walk] at ha
    exact mirrors_execBlock ih ha.tail h
  | branch test yes span htest hyes =>
    refine .ofRest (f := fun k env => evalExpr k env test >>= fun v =>
      if v.truthy then execStmt k env yes else pure ()) (fun _ _ => by rw [execStmt])
      fun ha {n c env env'} h hf => ?_
    rw [Stmt.walk] at ha
    refine (htest ha.tail.left h).seq fun b v v' hb hv => ?_
    simp only [hv.truthy]
    split
    · exact hyes ha.tail.right (h.later hb) fun hd => (hf hd).mono hb.world
    · exact .pure trivial
  | branchElse test yes no span htest hyes hno =>
    refine .ofRest (f := fun k env => evalExpr k env test >>= fun v =>
      if v.truthy then execStmt k env yes else execStmt k env no) (fun _ _ => by rw [execStmt])
      fun ha {n c env env'} h hf => ?_
    rw [Stmt.walk] at ha
    refine (htest ha.tail.left.left h).seq fun b v v' hb hv => ?_
    simp only [Stmt.declaresHere, Bool.or_eq_true] at hf
    simp only [hv.truthy]
    split
    · exact hyes ha.tail.left.right (h.later hb) fun hd => (hf (Or.inl hd)).mono hb.world
    · exact hno ha.tail.right (h.later hb) fun hd => (hf (Or.inr hd)).mono hb.world
  | loop test body span htest hbody => exact mirrorsStmt_loop span htest hbody
  | switch subject cs span hsubject hcs => exact mirrorsStmt_switch span hsubject hcs.1 hcs.2
  | jump kind span =>
    refine .ofRest (f := fun _ _ => throw (kind.rec .broke .continued))
      (fun _ _ => by cases kind <;> rw [execStmt]) fun _ {_ _ _ _} _ _ => ?_
    cases kind <;> exact .throw (by constructor)
  | retNone span =>
    exact .ofRest (f := fun _ _ => throw (.returned .undefined)) (fun _ _ => by rw [execStmt])
      fun _ {_ _ _ _} _ _ => .throw (.returned .undefined)
  | ret e span ih =>
    exact mirrorsStmt_ofExpr (f := fun _ v => throw (.returned v)) ih (fun _ _ => by rw [execStmt])
      (by rw [Stmt.walk]) fun _ hv => .throw (.returned hv)
  | throw e span ih =>
    exact mirrorsStmt_ofExpr (f := fun _ v => throw (.thrown v)) ih (fun _ _ => by rw [execStmt])
      (by rw [Stmt.walk]) fun _ hv => .throw (.thrown hv)
  | guarded _ _ _ span hbody hhandler hfinalizer => exact mirrorsStmt_guarded span hbody hhandler hfinalizer
  | funcStmt f =>
    exact .ofRest (f := fun _ _ => pure ()) (fun _ _ => by rw [execStmt]) fun _ {_ _ _ _} _ _ => .pure trivial
  | raise id e span ih =>
    refine .ofRest (f := fun k env => if k.direct then evalExpr k env e >>= storeRaised env
      else fail (.unlowered .raise)) (fun _ _ => by rw [execStmt]) fun ha {n c env env'} h _ => ?_
    rw [Stmt.walk] at ha
    simp only [k.direct, hk, if_true]
    exact (ih ha.tail h).seq fun b v v' hb hv => meets_storeBoth (h.later hb).slot hv
  | nilDecls =>
    intro kind _ _ n c env env' _ _
    simp only [execDecls]
    exact .pure trivial
  | bareDecl x ds hds =>
    intro kind ha hnames n c env env' h hf
    simp only [execDecls]
    refine (meets_bindMirrored (hnames _ List.mem_cons_self) h hf .none).seq fun b _ _ hb _ => ?_
    exact hds kind ha (fun d hd => hnames d (List.mem_cons_of_mem _ hd)) (h.later hb)
      fun hk => (hf hk).mono hb.world
  | consDecls x e ds he hds =>
    intro kind ha hnames n c env env' h hf
    simp only [execDecls]
    refine (he ha.left h).seq fun b v v' hb hv => ?_
    have hbind := meets_bindMirrored (hnames _ List.mem_cons_self) (h.later hb)
      (fun hk => (hf hk).mono hb.world) (.some hv)
    refine hbind.seq fun d _ _ hd _ => ?_
    exact hds kind ha.right (fun d hd => hnames d (List.mem_cons_of_mem _ hd))
      ((h.later hb).later hd) fun hk => ((hf hk).mono hb.world).mono hd.world
  | nilCases =>
    refine ⟨fun _ n c env env' v v' _ _ => ?_, fun _ n c env env' skip _ _ => ?_⟩
    · simp only [chooseCase]
      exact .pure rfl
    · simp only [execCases]
      exact .pure trivial
  | defaultCase body cs hbody hcs =>
    refine ⟨fun ha n c env env' v v' h hv => ?_, mirrorsCases_cons hbody hcs.2⟩
    simp only [chooseCase]
    refine (hcs.1 ha.right h hv).seq fun b o o' _ ho => ?_
    subst ho
    exact .pure rfl
  | consCases test body cs htest hbody hcs =>
    refine ⟨fun ha n c env env' v v' h hv => ?_, mirrorsCases_cons hbody hcs.2⟩
    simp only [chooseCase]
    refine (htest ha.left.left h).seq fun b u u' hb hu => ?_
    simp only [b.agree.ids.strictlyEquals hu (hv.mono hb.world)]
    split
    · exact .pure rfl
    · refine (hcs.1 ha.right (h.later hb) (hv.mono hb.world)).seq fun d o o' _ ho => ?_
      subst ho
      exact .pure rfl
  | noHandler | noBlock => simp
  | handler param body ih => simpa using ih
  | finalizer body ih => simpa using ih
  | nilStmts =>
    intro _ n c env env' _ _
    simp only [execAll]
    exact .pure trivial
  | consStmts s ss hs hss =>
    intro ha n c env env' h hf
    simp only [execAll]
    refine (hs ha.left h fun _ => hf).seq fun b _ _ hb _ => ?_
    exact hss ha.right (h.later hb) (hf.mono hb.world)

end

/-! ## Calls -/

theorem Touch.raising_within_local (c : Twin S) (h : env.slot = .none) (env' : Env) :
    (Touch.raising env.slot).Within c (.local env env') :=
  ⟨fun _ hu => hu.elim, fun _ hu => hu.elim, (fun _ hu => by cases h.symm.trans hu), fun _ hm => by cases hm⟩

theorem bodiesMeet_mirror (k : Engines (.mirror temp)) (hk : ∀ i, (k.right i).direct = true) :
    BodiesMeet (.mirror temp) (runBody k.left) (fun i => runBody (k.right i)) := by
  intro n c env env' f f' hcode hn hc hflush hs hs'
  have := k.rising
  obtain ⟨rfl, ha⟩ := hcode
  have hopp : Opposite n c env env' := ⟨hn, hc, by rw [hs, hs']; exact .none⟩
  have hw := Touch.raising_within_local c hs env'
  obtain ⟨name, params, body | value, isAsync, form, span⟩ := f'
  · simp only [runBody_block]
    refine Meets.outcome (R := AlikeIn) ?_ .refl (fun _ _ => rfl)
      fun b o o' _ ho => meets_leaveBody ho
    simp only [← bind_assoc]
    refine ((meets_within ((Phrase.stmts body).mirrors hk) ha.tail hopp hflush).within hw).seq
      fun b _ _ _ _ => .pure .undefined
  · simp only [runBody_expr]
    exact (((Phrase.expr value).mirrors hk ha.tail hopp).within hw).outcome .refl
      (fun _ _ => rfl) fun b o o' _ ho => meets_leaveBody ho

theorem callsMeet_mirror (limits : Limits) (fuel : Nat) : CallsMeet (.mirror temp)
    (callAt limits true fuel) fun i => callAt ⟨i, limits.maxDepth⟩ true fuel := by
  induction fuel with
  | zero =>
    intro _ _ _ _ _ _ _ _ hn hf ht ha
    have hbodies : BodiesMeet (.mirror temp) (fun _ _ => fail .exhausted) (fun _ _ _ => fail .exhausted) :=
      fun _ _ _ _ _ _ => .fail .exhausted
    exact meets_callWithBody hbodies limits.maxDepth hn hf ht ha
  | succ fuel ih =>
    intro _ _ _ _ _ _ _ _ hn hf ht ha
    let k := enginesOf limits true fuel ih
    have := k.rising
    exact meets_callWithBody (bodiesMeet_mirror k fun _ => rfl) limits.maxDepth hn hf ht ha

/-- The engines of both sides. -/
def mirrorEngines (limits : Limits) (fuel : Nat) : Engines (.mirror temp) :=
  enginesOf limits true fuel (callsMeet_mirror limits fuel)

end RaiseScript
