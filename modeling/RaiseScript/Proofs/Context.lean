import RaiseScript.Proofs.Ending

/-!
# The context that a run restores

While a function runs, the machine has the receiver of the call and counts one more call in
progress. Whatever comes of the call, a value, a thrown value or a failure that ends the whole run,
both are put back on the way out. So code leaves the context as it found it (`Restores`), takes back
neither output nor steps, and never has more calls in progress than there is room for
(`Traced.Shallow`). The latter is a relation that goes through the evaluator (`parallel_shallow`),
in which a call is made only if there is room for one more.

As a machine goes on with the next program where it ended the last one, every program of a session
starts outside of all calls and without a receiver (`context_restored`).
-/

namespace RaiseScript

variable {α β : Type} {room d : Nat}
variable {x : Traced α} {m : Machine} {limits : Limits}

open Traced (step)

/-! ## Room for calls -/

/-- From a machine with `d` calls in progress the code goes forward, and where there is room for
these it has no more calls in progress than there is room for. -/
structure Traced.Shallow (room d : Nat) (x : Traced α) : Prop where
  forward : x.Forward d
  bounded : d ≤ room → ∀ m : Machine, m.depth = d → ∀ u ∈ (x m).1, u.depth ≤ room

namespace Traced.Shallow

theorem pure (a : α) : (Pure.pure a : Traced α).Shallow room d where
  forward := .pure a
  bounded _ _ _ _ hu := nomatch hu

/-- One step, which ends with as many calls in progress. -/
theorem ofStep {x : Run α} (hx : (step x).Forward d) : (step x).Shallow room d where
  forward := hx
  bounded hroom m hm u hu := by
    obtain rfl : u = Result.final (x m) := List.mem_singleton.1 hu
    exact Nat.le_trans (Nat.le_of_eq ((hx m hm).depth.trans hm)) hroom

theorem bind {f : α → Traced β} (hx : x.Shallow room d) (hf : ∀ a, (f a).Shallow room d) :
    (x >>= f).Shallow room d where
  forward := hx.forward.bind fun a => (hf a).forward
  bounded hroom m hm u hu := by
    have hdepth := (hx.forward m hm).depth.trans hm
    have hbefore := hx.bounded hroom m hm u
    rcases hr : x m with ⟨ms, ⟨a, v⟩ | ⟨e, v⟩⟩
    · rw [hr] at hdepth hbefore
      rw [bind_ok hr] at hu
      rcases List.mem_append.1 hu with hu | hu
      · exact hbefore hu
      · exact (hf a).bounded hroom v hdepth u hu
    · rw [hr] at hbefore
      rw [bind_error hr] at hu
      exact hbefore hu

theorem outcome (hx : x.Shallow room d) : (Traced.outcome x).Shallow room d where
  forward := hx.forward.outcome
  bounded hroom m hm u hu := by
    refine hx.bounded hroom m hm u ?_
    rcases hr : x m with ⟨ms, ⟨a, v⟩ | ⟨e, v⟩⟩
    · rwa [outcome_ok hr] at hu
    · rwa [outcome_error hr] at hu

theorem rounds {x : Traced Bool} (hx : x.Shallow room d) (fuel : Nat) :
    (Traced.rounds x fuel).Shallow room d := by
  induction fuel with
  | zero => exact ofStep (.failed _)
  | succ fuel ih =>
    refine bind hx fun b => ?_
    cases b
    · exact pure _
    · exact ih

/-- A call that there is room for. The machines inside are bounded as those of the body, and the
ones on the way out have one call less. -/
theorem deeper (this : Value) (hroom : d < room) (hx : x.Shallow room (d + 1)) :
    (Traced.deeper this x).Shallow room d where
  forward := hx.forward.deeper this
  bounded _ m hm u hu := by
    have hinto : (m.into this).depth = d + 1 := congrArg (· + 1) hm
    have hback := (hx.forward (m.into this) hinto).depth
    have hinside := hx.bounded hroom (m.into this) hinto u
    simp only [Traced.deeper_apply, List.cons_append, List.mem_cons, List.mem_append,
      List.not_mem_nil, or_false, or_self] at hu
    rcases hu with rfl | rfl | hu | rfl
    · omega
    · omega
    · exact hinside hu
    · simp only [Machine.back, hback, hinto]
      omega

end Traced.Shallow

/-- No code of the evaluator has more calls in progress than there is room for. -/
theorem parallel_shallow (n n' : Nat) : Parallel (fun d {_} x _ => x.Shallow room d) n n' room where
  atDepth hx _ h := by
    refine ⟨fun m hd => hx m hd ▸ h.forward m hd, fun hroom m hd u hu => ?_⟩
    exact h.bounded hroom m hd u (hx m hd ▸ hu)
  pure := .pure
  bind := .bind
  primitive x _ := .ofStep (.primitive x)
  tick := .ofStep (.tick n)
  loop hx := .bind (.ofStep (.primitive get)) fun _ =>
    ((Traced.Shallow.ofStep (.tick n)).bind fun _ => hx).rounds _
  outcome hx hfail _ hf := by
    refine .bind hx.outcome fun o => ?_
    obtain ho | ⟨e, rfl⟩ := unfailed_or_failed o
    · exact hf o ho
    · rw [hfail]
      exact .ofStep (.failed e)
  deeper this _ _ hroom := .deeper this hroom

/-! ## The context -/

/-- The run of `x` from the machine `m`, traced by `t`, leaves the context as it was and takes
nothing back, and on its way there are no more calls in progress than there is room for. The count
of steps is not taken back as long as it fits into 64 bits. It does if the machine has not exceeded
its limit, and the limit is not the largest number of 64 bits. -/
structure Restores (limits : Limits) (x : Run α) (t : Traced α) (m : Machine) : Prop where
  traced : (t m).2 = x m
  depth : (Result.final (x m)).depth = m.depth
  this : (Result.final (x m)).this = m.this
  output : m.output.toList <+: (Result.final (x m)).output.toList
  steps : (∀ u ∈ (t m).1, u.steps ≤ maxCount) → m.steps ≤ (Result.final (x m)).steps
  counted : m.steps ≤ limits.maxSteps → limits.maxSteps < maxCount → ∀ u ∈ (t m).1, u.steps ≤ maxCount
  bounded : ∀ u ∈ (t m).1, u.depth ≤ limits.maxDepth

theorem Traced.Shallow.restores {x : Run α} {t : Traced α} (h : t.Shallow limits.maxDepth m.depth)
    (hlasts : Outlasts limits.maxSteps m.depth t t) (hrun : t.run = x) (hroom : m.depth ≤ limits.maxDepth) :
    Restores limits x t m := by
  have hprolongs : m.Prolongs (Result.final (x m)) := hrun ▸ h.forward m rfl
  refine ⟨congrFun hrun m, hprolongs.depth, hprolongs.this, hprolongs.output,
    fun _ => hprolongs.steps, fun hm hlimit u hu => ?_, h.bounded hroom m rfl⟩
  exact Nat.le_trans ((hlasts.goesOn m rfl hm).steps_le u hu) hlimit

theorem restores_program (limits : Limits) (p : Program) (h : m.depth ≤ limits.maxDepth) :
    Restores limits (Machine.body limits false m.depth p) (traceProgram limits m.depth p) m :=
  ((parallel_shallow _ _).program rfl m.depth p).restores (outlasts_program p)
    (run_traceProgram limits m.depth p) h

/-- The machine after a session that runs the programs in turn, however each of them ends. -/
def Machine.afterAll (limits : Limits) (m : Machine) (ps : List Program) : Machine :=
  ps.foldl (fun m p => (m.run limits false p).2) m

/-- A session restores the context of the machine it starts with. -/
theorem Machine.context_afterAll (limits : Limits) (ps : List Program) (h : m.depth ≤ limits.maxDepth) :
    (m.afterAll limits ps).depth = m.depth ∧ (m.afterAll limits ps).this = m.this := by
  induction ps generalizing m with
  | nil => exact ⟨rfl, rfl⟩
  | cons p ps ih =>
    have hrun := restores_program limits p h
    have hnext : m.afterAll limits (p :: ps) =
        (Result.final (Machine.body limits false m.depth p m)).afterAll limits ps :=
      congrArg (Machine.afterAll limits · ps) (Machine.run_snd limits false p m)
    obtain ⟨hdepth, hthis⟩ := ih (hrun.depth ▸ h)
    rw [hnext]
    exact ⟨hdepth.trans hrun.depth, hthis.trans hrun.this⟩

/-- A machine in the only call that there is room for. -/
def fullMachine : Machine :=
  { Machine.start with this := .string "receiver", depth := 1, output := #["before"] }

end RaiseScript
