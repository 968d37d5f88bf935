import RaiseScript.Proofs.ParallelRuns

/-!
# The run under a lower limit

Of the same code with two limits on steps, the run under the lower one either is the run under the
higher one, or it is stopped on the way (`Outlasts`). When it is stopped, nothing runs any more :
from the machine that has exceeded the limit on, only the calls in progress are left
(`Machine.SameButCall`). In particular no scope is opened, as a catch or a finally block would do
first. `parallel_outlasts` takes this through the evaluator.
-/

namespace RaiseScript

variable {α β : Type} {n n' d : Nat}
variable {e : Exit} {x y : Traced α} {f g : α → Traced β} {m : Machine}

open Traced (step)

/-! ## Traced runs one after the other -/

/-- The machine in a call. -/
def Machine.into (m : Machine) (this : Value) : Machine :=
  { m with this, depth := m.depth + 1 }

/-- The machine back from a call. -/
def Machine.back (m : Machine) (this : Value) : Machine :=
  { m with this, depth := m.depth - 1 }

namespace Traced

section

variable {m' : Machine} {ms : List Machine}

theorem bind_ok {a : α} (h : x m = (ms, .ok a m')) :
    (x >>= f) m = (ms ++ (f a m').1, (f a m').2) := by
  show andThen x f m = _
  rw [andThen, h]

theorem bind_error (h : x m = (ms, .error e m')) : (x >>= f) m = (ms, .error e m') := by
  show andThen x f m = _
  rw [andThen, h]

theorem outcome_ok {a : α} (h : x m = (ms, .ok a m')) : outcome x m = (ms, .ok (.ok a) m') := by
  rw [outcome, h]

theorem outcome_error (h : x m = (ms, .error e m')) : outcome x m = (ms, .ok (.error e) m') := by
  rw [outcome, h]

end

theorem deeper_apply (this : Value) (x : Traced α) (m : Machine) :
    deeper this x m =
      (m :: m.into this :: (x (m.into this)).1 ++ [(Result.final (x (m.into this)).2).back m.this,
          (Result.final (x (m.into this)).2).back m.this],
        Result.onFinal (·.back m.this) (x (m.into this)).2) := by
  have hinner : deeper this x m = (m :: m.into this :: ((do
      let result ← outcome x
      step (modify (·.back m.this))
      step (conclude result) : Traced α) (m.into this)).1, ((do
      let result ← outcome x
      step (modify (·.back m.this))
      step (conclude result) : Traced α) (m.into this)).2) := rfl
  rw [hinner]
  rcases hx : x (m.into this) with ⟨ms, ⟨a, u⟩ | ⟨e, u⟩⟩
  · rw [bind_ok (outcome_ok hx)]
    rfl
  · rw [bind_ok (outcome_error hx)]
    rfl

theorem tick_apply (limit : Nat) (m : Machine) :
    step (tick limit) m = ([{ m with steps := m.steps + 1 }], if limit < m.steps + 1 then
        .error (.failed (.stepLimit limit)) { m with steps := m.steps + 1 }
      else .ok () { m with steps := m.steps + 1 }) := by
  rw [step, RaiseScript.tick_apply]
  split <;> rfl

theorem final_outcome (x : Traced α) (m : Machine) :
    Result.final (outcome x m).2 = Result.final (x m).2 := by
  rcases hx : x m with ⟨ms, ⟨a, u⟩ | ⟨e, u⟩⟩
  · rw [outcome_ok hx]
    rfl
  · rw [outcome_error hx]
    rfl

/-! ## Going forward -/

/-- From a machine with `d` calls in progress the code only goes forward. -/
def Forward (d : Nat) (x : Traced α) : Prop :=
  ∀ m : Machine, m.depth = d → m.Prolongs (Result.final (x m).2)

namespace Forward

theorem pure (a : α) : (pure a : Traced α).Forward d :=
  fun m _ => .refl m

theorem primitive (x : Run α) [hx : Primitive x] : (step x).Forward d :=
  fun m _ => (hx.prolongs m).1

theorem failed (e : Failure) : (step (fail e) : Traced α).Forward d :=
  fun m _ => .refl m

theorem tick (limit : Nat) : (step (tick limit)).Forward d := by
  intro m _
  have h : m.Prolongs { m with steps := m.steps + 1 } := { steps := Nat.le_succ _ }
  rw [tick_apply]
  split <;> exact h

/-- What follows goes forward from where the code ended. -/
theorem andThen (hx : x.Forward d) (hf : ∀ a, (f a).Forward d) (hd : m.depth = d) :
    (Result.final (x m).2).Prolongs (Result.final ((x >>= f) m).2) := by
  have hm := hx m hd
  rcases hr : x m with ⟨ms, ⟨a, u⟩ | ⟨e, u⟩⟩
  · rw [hr] at hm
    rw [bind_ok hr]
    exact hf a u (hm.depth.trans hd)
  · rw [bind_error hr]
    exact .refl u

theorem bind (hx : x.Forward d) (hf : ∀ a, (f a).Forward d) : (x >>= f).Forward d :=
  fun m hd => (hx m hd).trans (hx.andThen hf hd)

/-- Code that starts with a tick takes a step. -/
theorem steps_lt_of_tick (hx : x.Forward d) (limit : Nat) (hd : m.depth = d) :
    m.steps < (Result.final ((do step (RaiseScript.tick limit); x : Traced α) m).2).steps := by
  have hle := ((tick limit).andThen (fun _ => hx) hd).steps
  rw [tick_apply] at hle
  split at hle <;> exact hle

theorem outcome (hx : x.Forward d) : (Traced.outcome x).Forward d :=
  fun m hd => final_outcome x m ▸ hx m hd

/-- Code that looks at an outcome and passes on failures. -/
theorem settled {f : Except Exit α → Traced β} (hfail : ∀ e, f (.error (.failed e)) = step (fail e))
    (hf : ∀ o, Unfailed o → (f o).Forward d) (o : Except Exit α) : (f o).Forward d := by
  obtain ho | ⟨e, rfl⟩ := unfailed_or_failed o
  · exact hf o ho
  · rw [hfail]
    exact failed e

theorem rounds {x : Traced Bool} (hx : x.Forward d) (fuel : Nat) : (Traced.rounds x fuel).Forward d := by
  induction fuel with
  | zero => exact failed _
  | succ fuel ih =>
    refine bind hx fun b => ?_
    cases b
    · exact pure _
    · exact ih

theorem loop {limit : Nat} {x : Traced Bool} (hx : x.Forward d) : (Traced.loop limit x).Forward d :=
  bind (primitive get) fun _ => rounds (bind (tick limit) fun _ => hx) _

theorem deeper (this : Value) (hx : x.Forward (d + 1)) : (Traced.deeper this x).Forward d := by
  intro m hd
  have hm := hx (m.into this) (congrArg (· + 1) hd)
  have hback {u : Machine} (h : (m.into this).Prolongs u) : m.Prolongs (u.back m.this) :=
    ⟨h.steps, h.mistakes, h.misses, by simp [Machine.back, h.depth, Machine.into], rfl, h.output, h.retains.size,
      h.retains.names⟩
  rw [deeper_apply]
  rcases hr : x (m.into this) with ⟨ms, ⟨a, u⟩ | ⟨e, u⟩⟩ <;> rw [hr] at hm <;> exact hback hm

end Forward

end Traced

/-! ## The run under the lower limit -/

/-- The machines differ at most in the call in progress. -/
def Machine.SameButCall (m u : Machine) : Prop :=
  u = { m with this := u.this, depth := u.depth }

namespace Machine.SameButCall

variable {a b c : Machine}

theorem symm_trans (hb : a.SameButCall b) (hc : a.SameButCall c) : b.SameButCall c := by
  unfold Machine.SameButCall at *
  rw [hc, hb]

theorem back (h : a.SameButCall b) (this : Value) : a.SameButCall (b.back this) := by
  unfold Machine.SameButCall Machine.back at *
  rw [h]

theorem output (h : a.SameButCall b) : b.output = a.output := by
  rw [h]

theorem steps (h : a.SameButCall b) : b.steps = a.steps := by
  rw [h]

end Machine.SameButCall

/-- The run came to its own end within `n` steps. -/
structure Result.Within (n d : Nat) (r : Result α) : Prop where
  steps : (Result.final r).steps ≤ n
  depth : (Result.final r).depth = d
  arises : ∀ f m, r = .error (.failed f) m → f.Arises m.heap

/-- The two runs are the same, and take at most `n` steps. -/
structure Agrees (n d : Nat) (r r' : List Machine × Result α) : Prop where
  same : r' = r
  within : ∀ u ∈ r.1, u.steps ≤ n
  ended : r.2.Within n d

/-- The first run takes one step more than `n` and is stopped, and what it has printed until
then is also printed by the second. -/
def CutShort (n : Nat) (r r' : List Machine × Result α) : Prop :=
  ∃ before m after stop, r = (before ++ m :: after, .error (.failed (.stepLimit n)) stop) ∧
    (∀ u ∈ before, u.steps ≤ n) ∧ m.steps = n + 1 ∧ (∀ u ∈ stop :: after, m.SameButCall u) ∧
    m.output.toList <+: (Result.final r'.2).output.toList

/-- The second run is the first, or goes on where the first is stopped after `n` steps. -/
def GoesOn (n d : Nat) (r r' : List Machine × Result α) : Prop :=
  Agrees n d r r' ∨ CutShort n r r'

/-- The code `y` does what `x` does, and goes on where `x` is stopped after `n` steps. -/
structure Outlasts (n d : Nat) (x y : Traced α) : Prop where
  left : x.Forward d
  right : y.Forward d
  goesOn : ∀ m : Machine, m.depth = d → m.steps ≤ n → GoesOn n d (x m) (y m)

namespace GoesOn

/-- No more than one step beyond `n` is counted. -/
theorem steps_le {r r' : List Machine × Result α} (h : GoesOn n d r r') : ∀ u ∈ r.1, u.steps ≤ n + 1 := by
  rcases h with h | ⟨before, m, after, stop, rfl, hbefore, hover, hstill, -⟩
  · exact fun u hu => Nat.le_succ_of_le (h.within u hu)
  · refine List.forall_mem_append.2 ⟨fun u hu => Nat.le_succ_of_le (hbefore u hu), ?_⟩
    refine List.forall_mem_cons.2 ⟨Nat.le_of_eq hover, fun u hu => Nat.le_of_eq ?_⟩
    rw [(hstill u (List.mem_cons_of_mem _ hu)).steps, hover]

/-- The same machines passed before. -/
theorem append {ms : List Machine} {r r' : List Machine × Result α} (hms : ∀ u ∈ ms, u.steps ≤ n)
    (h : GoesOn n d r r') : GoesOn n d (ms ++ r.1, r.2) (ms ++ r'.1, r'.2) := by
  rcases h with h | ⟨before, m, after, stop, rfl, hbefore, hover, hstill, hprinted⟩
  · obtain rfl := h.same
    exact Or.inl ⟨rfl, List.forall_mem_append.2 ⟨hms, h.within⟩, h.ended⟩
  · exact Or.inr ⟨ms ++ before, m, after, stop, by simp, List.forall_mem_append.2 ⟨hms, hbefore⟩,
      hover, hstill, hprinted⟩

/-- Code that follows on a value. The second run goes forward whatever it does. -/
theorem bind (hy : y.Forward d) (hg : ∀ a, (g a).Forward d) (hd : m.depth = d) (h : GoesOn n d (x m) (y m))
    (hf : ∀ ms a u, x m = (ms, .ok a u) → u.depth = d → u.steps ≤ n → GoesOn n d (f a u) (g a u)) :
    GoesOn n d ((x >>= f) m) ((y >>= g) m) := by
  have hforward := (hy.andThen hg hd).output
  rcases h with ⟨hsame, hwithin, hended⟩ | ⟨before, c, after, stop, hr, hbefore, hover, hstill, hprinted⟩
  · rcases hr : x m with ⟨ms, ⟨a, u⟩ | ⟨e, u⟩⟩
    · rw [hr] at hsame hwithin hended
      rw [Traced.bind_ok hr, Traced.bind_ok hsame]
      exact append hwithin (hf ms a u hr hended.depth hended.steps)
    · rw [hr] at hsame hwithin hended
      rw [Traced.bind_error hr, Traced.bind_error hsame]
      exact Or.inl ⟨rfl, hwithin, hended.steps, hended.depth,
        fun f v hv => hended.arises f v (by cases hv; rfl)⟩
  · rw [Traced.bind_error hr]
    exact Or.inr ⟨before, c, after, stop, rfl, hbefore, hover, hstill, hprinted.trans hforward⟩

/-- Code that looks at an outcome. A failure of either run is passed on. -/
theorem outcome {f g : Except Exit α → Traced β} (hy : y.Forward d) (hg : ∀ o, (g o).Forward d)
    (hffail : ∀ e, f (.error (.failed e)) = step (fail e))
    (hgfail : ∀ e, g (.error (.failed e)) = step (fail e)) (hd : m.depth = d) (h : GoesOn n d (x m) (y m))
    (hf : ∀ o, Unfailed o → ∀ u : Machine, u.depth = d → u.steps ≤ n → GoesOn n d (f o u) (g o u)) :
    GoesOn n d ((Traced.outcome x >>= f) m) ((Traced.outcome y >>= g) m) := by
  have hforward := (hy.outcome.andThen hg hd).output
  rw [Traced.final_outcome] at hforward
  rcases h with ⟨hsame, hwithin, hended⟩ | ⟨before, c, after, stop, hr, hbefore, hover, hstill, hprinted⟩
  · rcases hr : x m with ⟨ms, ⟨a, u⟩ | ⟨e, u⟩⟩
    · rw [hr] at hsame hwithin hended
      rw [Traced.bind_ok (Traced.outcome_ok hr), Traced.bind_ok (Traced.outcome_ok hsame)]
      exact append hwithin (hf _ (fun _ h => by cases h) u hended.depth hended.steps)
    · rw [hr] at hsame hwithin hended
      rw [Traced.bind_ok (Traced.outcome_error hr), Traced.bind_ok (Traced.outcome_error hsame)]
      refine append hwithin ?_
      obtain ho | ⟨e', he⟩ := unfailed_or_failed (.error e : Except Exit α)
      · exact hf _ ho u hended.depth hended.steps
      · cases he
        rw [hffail, hgfail]
        exact Or.inl ⟨rfl, List.forall_mem_singleton.2 hended.steps, hended.steps, hended.depth,
          fun f v hv => hended.arises f v (by cases hv; rfl)⟩
  · rw [Traced.bind_ok (Traced.outcome_error hr), hffail]
    refine Or.inr ⟨before, c, after ++ [stop], stop, by simp [step, fail], hbefore, hover, ?_,
      hprinted.trans hforward⟩
    intro u hu
    refine hstill u ?_
    simp only [List.mem_cons, List.mem_append] at hu ⊢
    tauto

end GoesOn

theorem Result.Within.back {r : Result α} (h : r.Within n (d + 1)) (this : Value) :
    (r.onFinal (·.back this)).Within n d where
  steps := by
    rw [Result.final_onFinal]
    exact h.steps
  depth := by
    rw [Result.final_onFinal]
    exact congrArg (· - 1) h.depth
  arises := by
    intro f m hm
    cases r with
    | ok a u => cases hm
    | error e u =>
      cases hm
      exact h.arises f u rfl

namespace Outlasts

theorem primitive (x : Run α) [hx : Primitive x] : Outlasts n d (step x) (step x) where
  left := .primitive x
  right := .primitive x
  goesOn m hd hs := by
    obtain ⟨hm, hsteps⟩ := hx.prolongs m
    have hle : (Result.final (x m)).steps ≤ n := by omega
    refine Or.inl ⟨rfl, by simpa [step] using hle, hle, hm.depth.trans hd, hx.arises m⟩

theorem pure (a : α) : Outlasts n d (pure a) (pure a) where
  left := .pure a
  right := .pure a
  goesOn _ hd hs := Or.inl ⟨rfl, nofun, hs, hd, nofun⟩

theorem bind (hx : Outlasts n d x y) (hf : ∀ a, Outlasts n d (f a) (g a)) :
    Outlasts n d (x >>= f) (y >>= g) where
  left := hx.left.bind fun a => (hf a).left
  right := hx.right.bind fun a => (hf a).right
  goesOn m hd hs := .bind hx.right (fun a => (hf a).right) hd (hx.goesOn m hd hs)
    fun _ a u _ => (hf a).goesOn u

theorem tick (h : n ≤ n') : Outlasts n d (step (tick n)) (step (tick n')) where
  left := .tick n
  right := .tick n'
  goesOn m hd hs := by
    rw [Traced.tick_apply, Traced.tick_apply]
    by_cases hn : n < m.steps + 1
    · rw [if_pos hn]
      have hover : m.steps + 1 = n + 1 := by omega
      refine Or.inr ⟨[], _, [], _, rfl, nofun, hover, by simp [Machine.SameButCall], ?_⟩
      split <;> exact List.prefix_refl _
    · rw [if_neg hn, if_neg (by omega)]
      have hle : m.steps + 1 ≤ n := by omega
      exact Or.inl ⟨rfl, by simpa using hle, hle, hd, nofun⟩

theorem outcome {f g : Except Exit α → Traced β} (hx : Outlasts n d x y)
    (hffail : ∀ e, f (.error (.failed e)) = step (fail e))
    (hgfail : ∀ e, g (.error (.failed e)) = step (fail e)) (hf : ∀ o, Unfailed o → Outlasts n d (f o) (g o)) :
    Outlasts n d (Traced.outcome x >>= f) (Traced.outcome y >>= g) where
  left := hx.left.outcome.bind (.settled hffail fun o ho => (hf o ho).left)
  right := hx.right.outcome.bind (.settled hgfail fun o ho => (hf o ho).right)
  goesOn m hd hs := .outcome hx.right (.settled hgfail fun o ho => (hf o ho).right) hffail hgfail hd
    (hx.goesOn m hd hs) fun o ho => (hf o ho).goesOn

/-- With fuel for more rounds than steps are left the fuel makes no difference, since a round that
comes to an end has taken a step. -/
theorem rounds {x y : Traced Bool} (hx : Outlasts n d x y)
    (hstep : ∀ {m ms b u}, m.depth = d → x m = (ms, .ok b u) → m.steps < u.steps) :
    ∀ fuel fuel' (m : Machine), m.depth = d → m.steps ≤ n → n < fuel + m.steps →
      n < fuel' + m.steps → GoesOn n d (Traced.rounds x fuel m) (Traced.rounds y fuel' m)
  | 0, _, m, _, hs, hfuel, _ => absurd hfuel (by omega)
  | _, 0, m, _, hs, _, hfuel' => absurd hfuel' (by omega)
  | fuel + 1, fuel' + 1, m, hd, hs, hfuel, hfuel' => by
    refine .bind hx.right (fun b => ?_) hd (hx.goesOn m hd hs) fun ms b u hr hdu hsu => ?_
    · cases b
      · exact .pure ()
      · exact hx.right.rounds fuel'
    · have hlt := hstep hd hr
      cases b
      · exact (pure ()).goesOn u hdu hsu
      · exact rounds hx hstep fuel fuel' u hdu hsu (by omega) (by omega)

theorem loop (h : n ≤ n') {x y : Traced Bool} (hx : Outlasts n d x y) :
    Outlasts n d (Traced.loop n x) (Traced.loop n' y) where
  left := hx.left.loop
  right := hx.right.loop
  goesOn m hd hs := by
    have hstep {m ms b u} (hd : m.depth = d)
        (hr : (do step (RaiseScript.tick n); x : Traced Bool) m = (ms, .ok b u)) : m.steps < u.steps := by
      have hlt := hx.left.steps_lt_of_tick n hd
      rwa [hr] at hlt
    exact .append (List.forall_mem_singleton.2 hs)
      (rounds ((tick h).bind fun _ => hx) hstep _ _ m hd hs (by omega) (by omega))

theorem deeper (this : Value) (hx : Outlasts n (d + 1) x y) :
    Outlasts n d (Traced.deeper this x) (Traced.deeper this y) where
  left := hx.left.deeper this
  right := hx.right.deeper this
  goesOn m hd hs := by
    rw [Traced.deeper_apply, Traced.deeper_apply]
    rcases hx.goesOn (m.into this) (congrArg (· + 1) hd) hs with
      ⟨hsame, hwithin, hended⟩ | ⟨before, c, after, stop, hr, hbefore, hover, hstill, hprinted⟩
    · rw [hsame]
      refine Or.inl ⟨rfl, ?_, hended.back m.this⟩
      have hback := (hended.back m.this).steps
      rw [Result.final_onFinal] at hback
      simp only [List.cons_append, List.forall_mem_cons, List.forall_mem_append]
      exact ⟨hs, hs, hwithin, hback, hback, nofun⟩
    · rw [hr]
      refine Or.inr ⟨m :: m.into this :: before, c, after ++ [stop.back m.this, stop.back m.this],
        stop.back m.this, by simp [Result.onFinal, Result.final], ?_, hover, ?_, ?_⟩
      · exact List.forall_mem_cons.2 ⟨hs, List.forall_mem_cons.2 ⟨hs, hbefore⟩⟩
      · obtain ⟨hstop, hafter⟩ := List.forall_mem_cons.1 hstill
        have hback := hstop.back m.this
        simp only [List.forall_mem_cons, List.forall_mem_append]
        exact ⟨hback, hafter, hback, hback, nofun⟩
      · rwa [Result.final_onFinal]

end Outlasts

/-- The evaluator outlasts itself under a lower limit. -/
theorem parallel_outlasts {room : Nat} (h : n ≤ n') : Parallel (fun d {_} => Outlasts n d) n n' room where
  atDepth hx hy h := by
    refine ⟨fun m hd => ?_, fun m hd => ?_, fun m hd hs => ?_⟩
    · exact hx m hd ▸ h.left m hd
    · exact hy m hd ▸ h.right m hd
    · rw [hx m hd, hy m hd]
      exact h.goesOn m hd hs
  pure := .pure
  bind := .bind
  primitive := fun x _ => .primitive x
  tick := .tick h
  loop := .loop h
  outcome := .outcome
  deeper this _ _ _ := .deeper this

/-- The run was stopped at its limit of steps. -/
def Result.Stopped (r : Result α) : Prop :=
  ∃ limit m, r = .error (.failed (.stepLimit limit)) m

/-- A run that is not stopped does not depend on the limit. -/
theorem Outlasts.same (h : Outlasts n d x y) (hd : m.depth = d) (hs : m.steps ≤ n) :
    Result.Stopped (x.run m) ∨ y.run m = x.run m := by
  rcases h.goesOn m hd hs with hagrees | ⟨before, c, after, stop, hcut, -⟩
  · exact .inr (congrArg Prod.snd hagrees.same)
  · exact .inl ⟨n, stop, congrArg Prod.snd hcut⟩

end RaiseScript
