import RaiseScript.Proofs.Mirrored
import RaiseScript.Proofs.Fragments

/-!
# Code that imitates other code

When two pieces of code are compared on one and the same machine, only what code can get at counts.
A `View` says what is in sight of it : scopes, functions and slots. A machine is covered by a view
if what is in sight leads to nothing else, and if the functions in sight use no temporaries
(`View.Covers`). Then `Imitates` says that one piece of code does what another one does, on every
machine that is covered.

Machines that match put what belongs to the left one in sight on the right one (`Matches.covers`),
and matching is transitive (`Matches.trans`). So code imitates other code on a machine of its own as
well (`Imitates.after`).
-/

namespace RaiseScript

variable {α β γ : Type} {temp : String → Prop} {u v w : World}
variable {env env' : Env} {c : List Link} {a : Value} {as : List α} {bs : List β} {m : Machine}
  {r : Result α} {y : Nat → Run β} {r' : Result β} {x : Run α} {d : Nat}

/-! ## Views -/

/-- What is in sight of a machine. -/
structure View where
  scopes : Nat → Prop
  ids : Nat → Prop
  slots : Nat → Prop

/-- What is in sight belongs to itself. -/
def View.world (s : View) : World where
  scopes i j := i = j ∧ s.scopes i
  extra _ := False
  ids i j := i = j ∧ s.ids i
  slots i j := i = j ∧ s.slots i

variable (temp) in
/-- What is in sight leads to nothing that is not, and its functions use no temporaries. -/
def View.Covers (s : View) (m : Machine) : Prop :=
  Matches (.mirror temp) s.world m m

/-- The code is in sight of where it stands. -/
structure View.Holds (s : View) (env : Env) : Prop where
  scopes : ∀ l ∈ env.chain, s.scopes l.scope
  slot : ∀ i ∈ env.slot, s.slots i

theorem View.chains {s : View} {ls : List Link} (h : ∀ l ∈ ls, s.scopes l.scope) : Chains s.world ls ls := by
  induction ls with
  | nil => exact .nil
  | cons l ls ih =>
    exact .link ⟨rfl, h l List.mem_cons_self⟩ rfl (ih fun k hk => h k (List.mem_cons_of_mem l hk))

theorem View.Holds.slots {s : View} (h : s.Holds env) : Option.Rel s.world.slots env.slot env.slot := by
  have hs := h.slot
  generalize env.slot = o at hs ⊢
  cases o with
  | none => exact .none
  | some i => exact .some ⟨rfl, hs i rfl⟩

/-- What belongs to something on the left, or is extra, is in sight on the right. -/
def World.rightView (w : World) : View where
  scopes j := (∃ i, w.scopes i j) ∨ w.extra j
  ids j := ∃ i, w.ids i j
  slots j := ∃ i, w.slots i j

theorem Chains.inSight {c' : List Link} (h : Chains w c c') : ∀ l ∈ c', w.rightView.scopes l.scope := by
  induction h with
  | nil => exact fun _ hl => by cases hl
  | link hs _ _ ih => exact List.forall_mem_cons.2 ⟨Or.inl ⟨_, hs⟩, ih⟩
  | extra hs _ _ ih => exact List.forall_mem_cons.2 ⟨Or.inr hs, ih⟩

theorem Alike.inSight {a' : Value} (h : Alike (.mirror temp) w a a') :
    Alike (.mirror temp) w.rightView.world a' a' := by
  induction h with
  | closure hid hf hc _ ih =>
    obtain ⟨rfl, hf⟩ := hf
    exact .closure ⟨rfl, _, hid⟩ ⟨rfl, hf⟩ (View.chains hc.inSight) ih
  | native kind hid => exact .native kind ⟨rfl, _, hid⟩
  | _ => constructor

theorem forall₂_right {R : α → β → Prop} {R' : β → β → Prop} (h : ∀ a b, R a b → R' b b)
    (hs : List.Forall₂ R as bs) : List.Forall₂ R' bs bs := by
  induction hs with
  | nil => exact .nil
  | cons hab _ ih => exact .cons (h _ _ hab) ih

/-- What belongs to the left machine is all that is in sight on the right one. -/
theorem Matches.covers {m' : Machine} (h : Matches (.mirror temp) w m m') : w.rightView.Covers temp m' where
  scopes := {
    lt_left := by
      rintro i _ ⟨rfl, ⟨_, hs⟩ | hs⟩
      exacts [h.scopes.lt_right hs, h.scopes.extra_lt hs]
    lt_right := by
      rintro i _ ⟨rfl, ⟨_, hs⟩ | hs⟩
      exacts [h.scopes.lt_right hs, h.scopes.extra_lt hs]
    right_unique := fun h h' => h.1.symm.trans h'.1
    left_unique := fun h h' => h.1.trans h'.1.symm
    bindings := by
      rintro j _ x ⟨rfl, ⟨i, hs⟩ | hs⟩ hx
      · have hb := h.scopes.bindings hs hx
        generalize lookupIn m.scopes i x = b, lookupIn m'.scopes j x = b' at hb
        cases hb with
        | none => exact .none
        | some hb => exact .some ⟨hb.value.inSight, rfl⟩
      · rw [h.scopes.extra_bindings hs hx]
        exact .none
    extra_lt := False.elim
    extra_apart := fun he => he.elim
    extra_bindings := fun he => he.elim }
  ids := {
    lt_left := by
      rintro j _ ⟨rfl, i, hi⟩
      exact h.ids.lt_right hi
    lt_right := by
      rintro j _ ⟨rfl, i, hi⟩
      exact h.ids.lt_right hi
    right_unique := fun h h' => h.1.symm.trans h'.1
    left_unique := fun h h' => h.1.trans h'.1.symm }
  slots := {
    lt_left := by
      rintro j _ ⟨rfl, i, hi⟩
      exact h.slots.lt_right hi
    lt_right := by
      rintro j _ ⟨rfl, i, hi⟩
      exact h.slots.lt_right hi
    right_unique := fun h h' => h.1.symm.trans h'.1
    left_unique := fun h h' => h.1.trans h'.1.symm
    values := by
      rintro j _ ⟨rfl, i, hi⟩
      exact (h.slots.values hi).inSight }
  heap := ⟨rfl, rfl, fun a => forall₂_right (fun _ _ => Alike.inSight) (h.heap.items a),
    fun a => forall₂_right (fun _ _ hf => ⟨rfl, hf.2.inSight⟩) (h.heap.fields a)⟩
  this := h.this.inSight
  depth := rfl
  output := rfl

/-! ## One world after another -/

/-- What belongs together by way of a machine in the middle. -/
def World.trans (u v : World) : World where
  scopes i k := ∃ j, u.scopes i j ∧ v.scopes j k
  extra k := v.extra k ∨ ∃ j, u.extra j ∧ v.scopes j k
  ids i k := ∃ j, u.ids i j ∧ v.ids j k
  slots i k := ∃ j, u.slots i j ∧ v.slots j k

/-- What belonged together is in sight in the middle, so it still does. -/
theorem World.le_trans_of_rightView (hu : w ≤ u) (hv : w.rightView.world ≤ v) : w ≤ u.trans v where
  scopes {i j} h := ⟨j, hu.scopes h, hv.scopes ⟨rfl, Or.inl ⟨i, h⟩⟩⟩
  extra {j} h := Or.inr ⟨j, hu.extra h, hv.scopes ⟨rfl, Or.inr h⟩⟩
  ids {i j} h := ⟨j, hu.ids h, hv.ids ⟨rfl, i, h⟩⟩
  slots {i j} h := ⟨j, hu.slots h, hv.slots ⟨rfl, i, h⟩⟩

theorem Chains.trans {a b : List Link} (h : Chains u a b) (h' : Chains v b c) : Chains (u.trans v) a c := by
  induction h' generalizing a with
  | nil =>
    cases h
    exact .nil
  | link hs hb _ ih =>
    cases h with
    | link hs' hb' hc => exact .link ⟨_, hs', hs⟩ (hb.trans hb') (ih hc)
    | extra hs' hb' hc => exact .extra (Or.inr ⟨_, hs', hs⟩) (hb.trans hb') (ih hc)
  | extra hs hb _ ih => exact .extra (Or.inl hs) hb (ih h)

theorem Alike.trans {b c : Value} (h : Alike (.mirror temp) u a b)
    (h' : Alike (.mirror temp) v b c) : Alike (.mirror temp) (u.trans v) a c := by
  induction h generalizing c with
  | closure hid hf hc _ ih =>
    cases h' with
    | closure hid' hf' hc' ht' =>
      exact .closure ⟨_, hid, hid'⟩ ⟨hf'.1.trans hf.1, hf.2⟩ (hc.trans hc') (ih ht')
  | native kind hid =>
    cases h' with
    | native _ hid' => exact .native kind ⟨_, hid, hid'⟩
  | _ =>
    cases h'
    constructor

theorem ExitAlike.trans {a b c : Exit} (h : ExitAlike (.mirror temp) u a b)
    (h' : ExitAlike (.mirror temp) v b c) : ExitAlike (.mirror temp) (u.trans v) a c := by
  cases h with
  | thrown h =>
    cases h' with
    | thrown h' => exact .thrown (h.trans h')
  | returned h =>
    cases h' with
    | returned h' => exact .returned (h.trans h')
  | _ =>
    cases h'
    constructor

theorem forall₂_trans {R : α → β → Prop} {R' : β → γ → Prop} {T : α → γ → Prop}
    (h : ∀ a b c, R a b → R' b c → T a c) {cs : List γ} (hr : List.Forall₂ R as bs)
    (hr' : List.Forall₂ R' bs cs) : List.Forall₂ T as cs := by
  induction hr generalizing cs with
  | nil =>
    cases hr'
    exact .nil
  | cons hab _ ih =>
    cases hr' with
    | cons hbc hrest => exact .cons (h _ _ _ hab hbc) (ih hrest)

/-- Numbers that belong together one by one do so by way of others. -/
theorem IdsMatch.trans {r s : Nat → Nat → Prop} {k m n : Nat} (h : IdsMatch r k m)
    (h' : IdsMatch s m n) : IdsMatch (fun i k => ∃ j, r i j ∧ s j k) k n where
  lt_left := by
    rintro i l ⟨j, hi, -⟩
    exact h.lt_left hi
  lt_right := by
    rintro i l ⟨j, -, hj⟩
    exact h'.lt_right hj
  right_unique := by
    rintro i l l' ⟨j, hi, hj⟩ ⟨j', hi', hj'⟩
    obtain rfl := h.right_unique hi hi'
    exact h'.right_unique hj hj'
  left_unique := by
    rintro i i' l ⟨j, hi, hj⟩ ⟨j', hi', hj'⟩
    obtain rfl := h'.left_unique hj hj'
    exact h.left_unique hi hi'

theorem ScopesMatch.trans {a b c : Array Scope} (h : ScopesMatch (.mirror temp) u a b)
    (h' : ScopesMatch (.mirror temp) v b c) : ScopesMatch (.mirror temp) (u.trans v) a c := by
  have hids : IdsMatch u.scopes a.size b.size := ⟨h.lt_left, h.lt_right, h.right_unique, h.left_unique⟩
  have hpairs := hids.trans ⟨h'.lt_left, h'.lt_right, h'.right_unique, h'.left_unique⟩
  refine ⟨hpairs.lt_left, hpairs.lt_right, hpairs.right_unique, hpairs.left_unique, ?_, ?_, ?_, ?_⟩
  · rintro i l x ⟨j, hi, hj⟩ hx
    have hb := h.bindings hi hx
    have hb' := h'.bindings hj hx
    generalize lookupIn a i x = p, lookupIn b j x = q, lookupIn c l x = r at hb hb'
    cases hb with
    | none =>
      cases hb'
      exact .none
    | some hb =>
      cases hb' with
      | some hb' => exact .some ⟨hb.value.trans hb'.value, hb'.isMutable.trans hb.isMutable⟩
  · rintro l (hl | ⟨j, hj, hl⟩)
    exacts [h'.extra_lt hl, h'.lt_right hl]
  · rintro i l (hl | ⟨j, hj, hl⟩) ⟨j', hi, hl'⟩
    · exact h'.extra_apart hl hl'
    · obtain rfl := h'.left_unique hl hl'
      exact h.extra_apart hj hi
  · rintro l x (hl | ⟨j, hj, hl⟩) hx
    · exact h'.extra_bindings hl hx
    · have hb := h'.bindings hl hx
      rw [h.extra_bindings hj hx] at hb
      generalize lookupIn c l x = r at hb ⊢
      cases hb
      rfl

theorem SlotsMatch.trans {a b c : Array Value} (h : SlotsMatch (.mirror temp) u a b)
    (h' : SlotsMatch (.mirror temp) v b c) : SlotsMatch (.mirror temp) (u.trans v) a c := by
  have hids : IdsMatch u.slots a.size b.size := ⟨h.lt_left, h.lt_right, h.right_unique, h.left_unique⟩
  have hpairs := hids.trans ⟨h'.lt_left, h'.lt_right, h'.right_unique, h'.left_unique⟩
  refine ⟨hpairs.lt_left, hpairs.lt_right, hpairs.right_unique, hpairs.left_unique, ?_⟩
  rintro i l ⟨j, hi, hj⟩
  exact (h.values hi).trans (h'.values hj)

/-- Matching is transitive. -/
theorem Matches.trans {a b c : Machine} (h : Matches (.mirror temp) u a b)
    (h' : Matches (.mirror temp) v b c) : Matches (.mirror temp) (u.trans v) a c where
  scopes := h.scopes.trans h'.scopes
  ids := h.ids.trans h'.ids
  slots := h.slots.trans h'.slots
  heap := ⟨h'.heap.arrays.trans h.heap.arrays, h'.heap.objects.trans h.heap.objects,
    fun i => forall₂_trans (fun _ _ _ hv hv' => hv.trans hv') (h.heap.items i) (h'.heap.items i),
    fun i => forall₂_trans (fun _ _ _ hf hf' => ⟨hf.1.trans hf'.1, hf.2.trans hf'.2⟩)
      (h.heap.fields i) (h'.heap.fields i)⟩
  this := h.this.trans h'.this
  depth := h'.depth.trans h.depth
  output := h'.output.trans h.output

/-! ## Ends that are alike -/

section

variable (S : Setting) (R : World → α → β → Prop)

/-- The same way to end, with machines that match. -/
inductive SameEnd (w : World) : Result α → Result β → Prop
  | ok {a : α} {b : β} {m m' : Machine} (h : R w a b) (hm : Matches S w m m') :
    SameEnd w (.ok a m) (.ok b m')
  | error {e e' : Exit} {m m' : Machine} (h : ExitAlike S w e e') (hm : Matches S w m m') :
    SameEnd w (.error e m) (.error e' m')

/-- With enough steps the code comes to the same end as `r`. What belongs together in `w` does so
in the end. -/
def EndsLike (w : World) (r : Result α) (y : Nat → Run β) (m : Machine) : Prop :=
  ∃ w' r', w ≤ w' ∧ Ends y m r' ∧ SameEnd S R w' r r'

variable {S R}

theorem Meets.endsLike {n : Nat} {t : Touch} {c : Twin S} {Q : Twin S → α → β → Prop} (h : Meets n t c r y Q)
    (hex : ¬ Excused S c.left r) (hQ : ∀ b v v', Q b v v' → R b.world v v') :
      EndsLike S R c.world r y c.right := by
  cases h with
  | excused h => exact absurd h hex
  | gives b v v' hl hv hy hr => exact ⟨b.world, _, hl.world, hy, hv ▸ .ok (hQ b v v' hr) b.agree⟩
  | exits b e e' hl he hy hr => exact ⟨b.world, _, hl.world, hy, he ▸ .error hr b.agree⟩

/-- A run that ends like one that was not stopped was not stopped itself. -/
theorem SameEnd.not_stopped {u : Machine} (h : SameEnd S R w r r') (hex : ¬ Excused S u r) :
    ¬ Result.Stopped r' := by
  rintro ⟨limit, n, rfl⟩
  cases h with
  | error he _ =>
    cases he
    exact hex (Or.inl ⟨_, _, rfl, Or.inl ⟨limit, rfl⟩⟩)

theorem SameEnd.trans {R' : World → β → γ → Prop} {T : World → α → γ → Prop}
    {Q : World → α → β → Prop} (hT : ∀ a b c, Q u a b → R' v b c → T (u.trans v) a c)
    {r'' : Result γ} (h : SameEnd (.mirror temp) Q u r r')
    (h' : SameEnd (.mirror temp) R' v r' r'') : SameEnd (.mirror temp) T (u.trans v) r r'' := by
  cases h with
  | ok hab hm =>
    cases h' with
    | ok hbc hm' => exact .ok (hT _ _ _ hab hbc) (hm.trans hm')
  | error he hm =>
    cases h' with
    | error he' hm' => exact .error (he.trans he') (hm.trans hm')

end

/-! ## Ends of code that is put together -/

section

variable {δ : Type} {S : Setting} {n : Machine} {Q : World → α → β → Prop}
  {R : World → γ → δ → Prop}

theorem EndsLike.congr {z : Nat → Run β} (h : EndsLike S Q w r y m) (hz : ∀ k, z k m = y k m) :
    EndsLike S Q w r z m := by
  obtain ⟨v, r', hv, ⟨N, hN⟩, hr⟩ := h
  exact ⟨v, r', hv, ⟨N, fun k hk => (hz k).trans (hN k hk)⟩, hr⟩

theorem EndsLike.of_le {v : World} (hv : v ≤ w) (h : EndsLike S Q w r y m) : EndsLike S Q v r y m := by
  obtain ⟨u, r', hu, hy, hr⟩ := h
  exact ⟨u, r', World.le_trans hv hu, hy, hr⟩

theorem EndsLike.bind {f : α → Run γ} {g : Nat → β → Run δ} (h : EndsLike S Q w r y m)
    (hf : ∀ v a b u u', w ≤ v → r = .ok a u → Q v a b → Matches S v u u' → EndsLike S R v (f a u) (g · b) u') :
    EndsLike S R w (Result.andThen r f) (fun k => y k >>= g k) m := by
  obtain ⟨v, r', hv, hy, hr⟩ := h
  cases hr with
  | error he hm => exact ⟨v, _, hv, hy.bind_error, .error he hm⟩
  | ok hab hm =>
    obtain ⟨v', r'', hv', hg, hr⟩ := hf v _ _ _ _ hv rfl hab hm
    exact ⟨v', r'', World.le_trans hv hv', hy.bind hg, hr⟩

theorem EndsLike.tick_right (h : EndsLike S Q w r y { m with steps := m.steps + 1 }) :
    EndsLike S Q w r (fun k => tick k >>= fun _ => y k) m := by
  obtain ⟨v, r', hv, hy, hr⟩ := h
  exact ⟨v, r', hv, hy.tick, hr⟩

/-- A loop goes on after rounds that end alike, or is left after both. -/
theorem EndsLike.goesOn {x : Run Unit} {y : Nat → Run Unit} (h : EndsLike S (fun _ _ _ => True) w (x m) y n) :
    EndsLike S (fun _ go go' => go' = go) w ((outcome x >>= RaiseScript.goesOn) m)
      (fun k => outcome (y k) >>= RaiseScript.goesOn) n := by
  obtain ⟨v, r', hv, hy, hr⟩ := h
  rw [Run.bind_apply]
  generalize hx : x m = r at hr
  cases hr with
  | ok _ hm =>
    rw [outcome_ok hx]
    exact ⟨v, _, hv, hy.outcome_ok.bind (.of_eq fun _ => rfl), .ok rfl hm⟩
  | error he hm =>
    rw [outcome_error hx]
    cases he with
    | thrown hu => exact ⟨v, _, hv, hy.outcome_error.bind (.of_eq fun _ => rfl), .error (.thrown hu) hm⟩
    | returned hu => exact ⟨v, _, hv, hy.outcome_error.bind (.of_eq fun _ => rfl), .error (.returned hu) hm⟩
    | broke => exact ⟨v, _, hv, hy.outcome_error.bind (.of_eq fun _ => rfl), .ok rfl hm⟩
    | continued => exact ⟨v, _, hv, hy.outcome_error.bind (.of_eq fun _ => rfl), .ok rfl hm⟩
    | failed f => exact ⟨v, _, hv, hy.outcome_error.bind (.of_eq fun _ => rfl), .error (.failed f) hm⟩

/-- If each round on the right ends like one on the left, then so do all of them, given enough
steps. -/
theorem EndsLike.rounds {round : Run Bool} {round' : Nat → Run Bool} [hr : Rising round]
    (h : ∀ v m n, w ≤ v → Matches S v m n → m.depth = d → ¬ Excused S m (round m) →
      EndsLike S (fun _ go go' => go' = go) v (round m) round' n) (fuel done : Nat) (hm : Matches S w m n)
    (hd : m.depth = d) (hex : ¬ Excused S m (rounds round fuel m)) :
    EndsLike S (fun _ _ _ => True) w (RaiseScript.rounds round fuel m)
      (fun k => RaiseScript.rounds (round' k) (k - done)) n := by
  induction fuel generalizing w m n done with
  | zero => exact absurd (Or.inl ⟨.exhausted, m, rfl, Or.inr rfl⟩) hex
  | succ fuel ih =>
    have hrun : RaiseScript.rounds round (fuel + 1) m = Result.andThen (round m) fun go =>
        if go then RaiseScript.rounds round fuel else pure () := by rw [RaiseScript.rounds, Run.bind_apply]
    rw [hrun] at hex ⊢
    have hround : ¬ Excused S m (round m) := fun hx => hex (hx.andThen _)
    have hrest : EndsLike S (fun _ _ _ => True) w
        (Result.andThen (round m) fun go => if go then RaiseScript.rounds round fuel else pure ())
        (fun k => round' k >>= fun go => if go then RaiseScript.rounds (round' k) (k - (done + 1)) else pure ())
        n := by
      refine (h w m n (World.le_refl w) hm hd hround).bind fun v go go' u u' hv hok hgo hu => ?_
      rw [hok] at hex
      subst hgo
      cases go' with
      | false => exact ⟨v, _, World.le_refl v, .of_eq fun _ => rfl, .ok trivial hu⟩
      | true =>
        have hrises := hr.rises m
        rw [hok] at hrises
        exact ih (fun v' m n hle => h v' m n (World.le_trans hv hle)) (done + 1) hu (hrises.depth.trans hd)
          fun hx => hex (hx.earlier (Nat.add_le_add hrises.mistakes hrises.misses))
    obtain ⟨v, r', hv, ⟨N, hN⟩, hr⟩ := hrest
    refine ⟨v, r', hv, ⟨max N (done + 1), fun k hk => ?_⟩, hr⟩
    rw [← hN k (Nat.le_trans (Nat.le_max_left _ _) hk)]
    have hk' : k - done = (k - (done + 1)) + 1 := by
      have := Nat.le_trans (Nat.le_max_right N (done + 1)) hk
      omega
    show RaiseScript.rounds (round' k) (k - done) n = _
    rw [hk']
    rfl

/-- Code that is not out of account has not been stopped at its first step. -/
theorem tick_bind_of_not_excused {limit : Nat} {u : Machine} (h : ¬ Excused S u ((tick limit >>= fun _ => x) m)) :
    (tick limit >>= fun _ => x) m = x { m with steps := m.steps + 1 } := by
  rw [Run.bind_apply, tick_apply] at h ⊢
  split at h
  · exact absurd (Or.inl ⟨_, _, rfl, Or.inl ⟨limit, rfl⟩⟩) h
  · rename_i hlt
    rw [if_neg hlt]
    rfl

end

/-! ## Imitation -/

section

variable (temp) in
/-- On every machine that is covered, `y` comes to the same end as `x` if it may take enough steps
and `x` is not stopped. In the end everything belongs together that `grow` asks for. -/
def Imitates (R : World → α → β → Prop) (grow : World → Machine → World) (x : Engine → Env → Run α)
    (y : Engine → Env → Run β) : Prop :=
  ∀ (limits : Limits) (s : View) (m : Machine) (env : Env), s.Covers temp m → s.Holds env →
    m.steps ≤ limits.maxSteps → ¬ Result.Stopped (x (Machine.engine limits true m.depth) env m) →
    EndsLike (.mirror temp) R (grow s.world m) (x (Machine.engine limits true m.depth) env m)
      (fun i => y (Machine.engine ⟨i, limits.maxDepth⟩ true m.depth) env) m

theorem Opposite.holds {n : Nat} {c : Twin (.mirror temp)} (h : Opposite n c env env') :
    c.world.rightView.Holds env' where
  scopes := h.chains.inSight
  slot := by
    have hs := h.slot
    generalize env.slot = o, env'.slot = o' at hs ⊢
    cases hs with
    | none => exact fun _ hi => by cases hi
    | some hs =>
      rintro i ⟨⟩
      exact ⟨_, hs⟩

/-- If `x` on the right ends like the left, then so does what imitates `x`. -/
theorem Imitates.after {R : World → α → β → Prop} {grow : World → Machine → World} {x : Engine → Env → Run α}
    {y : Engine → Env → Run β} (h : Imitates temp R grow x y) {n maxDepth : Nat} {c : Twin (.mirror temp)}
    (hopp : Opposite n c env env') {Q : World → γ → α → Prop} {T : World → γ → β → Prop}
    (hT : ∀ u v a b d, Q u a b → R v b d → T (u.trans v) a d)
    (hw : ∀ u v, c.world ≤ u → grow c.world.rightView.world c.right ≤ v → w ≤ u.trans v) {r : Result γ}
    {l : Machine} (hex : ¬ Excused (.mirror temp) l r) (hx : EndsLike (.mirror temp) Q c.world r
      (fun i => x (Machine.engine ⟨i, maxDepth⟩ true c.right.depth) env') c.right) :
    EndsLike (.mirror temp) T w r
      (fun i => y (Machine.engine ⟨i, maxDepth⟩ true c.right.depth) env') c.right := by
  obtain ⟨u, r', hu, ⟨N, hN⟩, hr'⟩ := hx
  have hrun : x (Machine.engine ⟨max N c.right.steps, maxDepth⟩ true c.right.depth) env' c.right = r' :=
    hN _ (Nat.le_max_left _ _)
  have hy := h ⟨max N c.right.steps, maxDepth⟩ c.world.rightView c.right env'
    c.agree.covers hopp.holds (Nat.le_max_right _ _) (by rw [hrun]; exact hr'.not_stopped hex)
  rw [hrun] at hy
  obtain ⟨v, r'', hv, hends, hr''⟩ := hy
  exact ⟨u.trans v, r'', hw u v hu hv, hends, hr'.trans (hT u v) hr''⟩

/-- A run that is not stopped is not out of account. -/
theorem not_excused_of_lasting {n : Nat} (hx : Lasting n d x) (hd : m.depth = d) (hs : m.steps ≤ n)
    (hstop : ¬ Result.Stopped (x m)) : ¬ Excused (.mirror temp) m (x m) := by
  have hended := (hx.lasts m hd hs).resolve_left hstop
  rintro (⟨f, m', hf, ⟨limit, rfl⟩ | rfl⟩ | ⟨hfaultless, -⟩)
  · exact hstop ⟨limit, m', hf⟩
  · exact hended.unexhausted m' hf
  · cases hfaultless

theorem View.Holds.opposite {s : View} (hc : s.Covers temp m) (h : s.Holds env) :
    Opposite 0 ⟨s.world, m, m, hc⟩ env env :=
  ⟨Nat.zero_le _, View.chains h.scopes, h.slots⟩

end

end RaiseScript
