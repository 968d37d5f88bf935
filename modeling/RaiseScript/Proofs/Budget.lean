import RaiseScript.Proofs.Faithful

/-!
# What the limit on steps does to a run

A limit on steps cuts a run short and changes nothing else. The run of a program under the lower of
two limits is the run under the higher one, or it is stopped on the way and nothing runs any more
(`step_limit_only_cuts_short`).
-/

namespace RaiseScript

variable {α β : Type} {n n' d : Nat}
variable {e : Exit}

/-- The largest count of steps that fits into 64 bits. -/
def maxCount : Nat := UInt64.size - 1

/-! ## Programs -/

theorem goesOn_traceProgram (p : Program) (depth : Nat) (h : n ≤ n') :
    GoesOn n 0 (traceProgram ⟨n, depth⟩ 0 p Machine.start) (traceProgram ⟨n', depth⟩ 0 p Machine.start) := by
  have hparallel : Parallel (fun d {_} => Outlasts n d) (Limits.mk n depth).maxSteps
      (Limits.mk n' depth).maxSteps depth := parallel_outlasts h
  exact (hparallel.program rfl 0 p).goesOn Machine.start rfl (Nat.zero_le n)

theorem body_eq_traceProgram (limits : Limits) (p : Program) :
    Machine.body limits false 0 p Machine.start = (traceProgram limits 0 p Machine.start).2 :=
  (congrFun (run_traceProgram limits 0 p) Machine.start).symm

/-- A program that fails has failed, or ended in a way that is not supported, or with an uncaught
value that contains itself. -/
theorem Machine.ending_eq_failed {h : Heap} {f : Failure} (he : Machine.ending h e = .failed f) :
    e = .failed f ∨ f.Arises h := by
  cases e with
  | failed g =>
    cases he
    exact Or.inl rfl
  | thrown v =>
    simp only [Machine.ending] at he
    split at he
    · cases he
    · rename_i hnone
      cases he
      obtain ⟨w, -, hw⟩ := Heap.knotted_of_text? hnone
      exact Or.inr ⟨w, hw⟩
  | returned v =>
    cases he
    exact Or.inr trivial
  | broke =>
    cases he
    exact Or.inr trivial
  | continued =>
    cases he
    exact Or.inr trivial

/-- A run to its own end is not stopped. -/
theorem not_isStop_of_within {limits : Limits} {p : Program}
    (h : (traceProgram limits 0 p Machine.start).2.Within n d) :
    ¬ RunError.IsStop (Machine.start.run limits false p).1 := by
  rintro ⟨limit, hlimit⟩
  have hbody := body_eq_traceProgram limits p
  cases hr : Machine.body limits false 0 p Machine.start with
  | ok a m =>
    rw [Machine.run_of_ok hr] at hlimit
    cases hlimit
  | error e m =>
    rw [Machine.run_of_error hr] at hlimit
    rcases Machine.ending_eq_failed (Except.error.inj hlimit) with rfl | harises
    · exact h.arises _ m (hbody.symm.trans hr)
    · exact harises

/-- A lower limit on steps only cuts a run short. If the run is not stopped, a higher limit changes
neither its result nor what it prints. If it is, it has printed the first of the lines that are
printed with a higher limit. It is stopped just when it exceeds the limit, and from then on nothing
happens on the machine but that calls are left : no statement runs and no scope is opened, not even
that of a catch or a finally block. -/
theorem step_limit_only_cuts_short (p : Program) (depth : Nat) (h : n ≤ n') :
    let short := Machine.start.run ⟨n, depth⟩ false p
    let long := Machine.start.run ⟨n', depth⟩ false p
    (¬ RunError.IsStop short.1 → long.1 = short.1 ∧ long.2.output = short.2.output) ∧
    (RunError.IsStop short.1 → short.2.output.toList <+: long.2.output.toList) ∧
    (RunError.IsStop short.1 ↔ ∃ m ∈ Machine.trace ⟨n, depth⟩ p, n < m.steps) ∧
    (Machine.trace ⟨n, depth⟩ p).Pairwise fun a b => n < a.steps → a.SameButCall b := by
  intro short long
  have hshort := body_eq_traceProgram ⟨n, depth⟩ p
  have hlong := body_eq_traceProgram ⟨n', depth⟩ p
  rcases goesOn_traceProgram p depth h with
    ⟨hsame, hwithin, hended⟩ | ⟨before, m, after, stop, hr, hbefore, hover, hstill, hprinted⟩
  · have hrun : long = short := by
      have hbody : Machine.body ⟨n', depth⟩ false Machine.start.depth p Machine.start =
          Machine.body ⟨n, depth⟩ false Machine.start.depth p Machine.start :=
        hlong.trans ((congrArg Prod.snd hsame).trans hshort.symm)
      unfold long short Machine.run
      rw [hbody]
    have hnot : ¬ RunError.IsStop short.1 := not_isStop_of_within hended
    have htrace : ∀ u ∈ Machine.trace ⟨n, depth⟩ p, u.steps ≤ n :=
      List.forall_mem_cons.2 ⟨Nat.zero_le n, hwithin⟩
    refine ⟨fun _ => by rw [hrun]; exact ⟨rfl, rfl⟩, fun hstop => absurd hstop hnot, ?_, ?_⟩
    · exact iff_of_false hnot fun ⟨u, hu, hlt⟩ => absurd (htrace u hu) (Nat.not_le.2 hlt)
    · exact List.pairwise_of_forall_mem_list fun a ha _ _ hlt => absurd (htrace a ha) (Nat.not_le.2 hlt)
  · rw [hr] at hshort
    have hrun : short = (.error (.failed (.stepLimit n)), stop) := Machine.run_of_error hshort
    have hstop : RunError.IsStop short.1 := ⟨n, congrArg Prod.fst hrun⟩
    have hfinal : long.2 = Result.final (traceProgram ⟨n', depth⟩ 0 p Machine.start).2 := by
      rw [← hlong]
      exact Machine.run_snd _ _ _ _
    obtain ⟨hstill, hafter⟩ := List.forall_mem_cons.1 hstill
    have htrace : Machine.trace ⟨n, depth⟩ p = (Machine.start :: before) ++ m :: after := by
      rw [Machine.trace, hr, List.cons_append]
    have hfirst : ∀ u ∈ Machine.start :: before, u.steps ≤ n :=
      List.forall_mem_cons.2 ⟨Nat.zero_le n, hbefore⟩
    refine ⟨fun hnot => absurd hstop hnot, fun _ => ?_, ?_, ?_⟩
    · rwa [hfinal, hrun, hstill.output]
    · exact iff_of_true hstop ⟨m, by simp [htrace], by omega⟩
    · rw [htrace, List.pairwise_append]
      refine ⟨?_, List.pairwise_cons.2 ⟨fun u hu _ => hafter u hu, ?_⟩, ?_⟩
      · exact List.pairwise_of_forall_mem_list fun a ha _ _ hlt => absurd (hfirst a ha) (Nat.not_le.2 hlt)
      · exact List.pairwise_of_forall_mem_list fun a ha b hb _ => (hafter a ha).symm_trans (hafter b hb)
      · exact fun a ha b _ hlt => absurd (hfirst a ha) (Nat.not_le.2 hlt)

/-- A loop that does not end, with something to do after it. -/
def runaway : String :=
  "try \x7b while (true) \x7b console.log('on'); \x7d \x7d finally \x7b console.log('over'); \x7d"

/-- Stopped after 8 steps, the loop has printed two of the three lines that 12 steps give. -/
theorem step_limit_only_cuts_short_of_runaway :
    ∃ p, analyze runaway "main.js" ⟨"__", 10⟩ = .ok (p, []) ∧
      (Machine.start.run ⟨8, 10⟩ false p).1 = .error (.failed (.stepLimit 8)) ∧
      (Machine.start.run ⟨8, 10⟩ false p).2.output = #["on", "on"] ∧
      (Machine.start.run ⟨12, 10⟩ false p).2.output = #["on", "on", "on"] ∧
      ["on", "on"] <+: ["on", "on", "on"] ∧
      (Machine.trace ⟨8, 10⟩ p).Pairwise fun a b => 8 < a.steps → a.SameButCall b := by
  have hlook : ((analyze runaway "main.js" ⟨"__", 10⟩).toOption.any fun r => r.2.isEmpty &&
      decide ((Machine.start.run ⟨8, 10⟩ false r.1).1 = .error (.failed (.stepLimit 8)) ∧
        (Machine.start.run ⟨8, 10⟩ false r.1).2.output = #["on", "on"] ∧
        (Machine.start.run ⟨12, 10⟩ false r.1).2.output = #["on", "on", "on"])) = true := by decide +kernel
  obtain ⟨⟨p, ds⟩, ha, h⟩ := Except.exists_of_any hlook
  obtain ⟨hds, h⟩ := Bool.and_eq_true_iff.1 h
  obtain rfl := List.isEmpty_iff.1 hds
  obtain ⟨hstop, hshort, hlong⟩ := of_decide_eq_true h
  have hlimit : 8 ≤ 12 := by decide
  obtain ⟨-, hprefix, -, hstill⟩ := step_limit_only_cuts_short p 10 hlimit
  have hprefix := hprefix ⟨8, hstop⟩
  rw [hshort, hlong] at hprefix
  exact ⟨p, ha, hstop, hshort, hlong, hprefix, hstill⟩

end RaiseScript
