import RaiseScript.Proofs.MatchedMachines

/-!
# Runs that meet

`Meets` compares the end of a run on the left with code that is still to be run on the right. The
right machine is given as many steps as it needs (`Ends`). Runs on the left that are out of account
are met by anything : those that are stopped because they take too long, and, where the setting asks
for it, those in which the program makes a mistake on the way (`Excused`).

The rules of this module follow the way code is put together (`Meets.bind` and its companions).
-/

namespace RaiseScript

variable {α β γ δ : Type} (S : Setting)
variable {e e' : Exit} {r : Result α} {R' : Twin S → γ → δ → Prop} {f : α → Run γ}

/-- The run from `m` is out of account. -/
def Excused (m : Machine) (r : Result α) : Prop :=
  (∃ f n, r = .error (.failed f) n ∧ f.IsLimit) ∨
    (S.faultless = true ∧ m.faults < (Result.final r).faults)

/-- The same way to end, up to the numbers in values. -/
inductive ExitAlike (w : World) : Exit → Exit → Prop
  | thrown {v v' : Value} (h : Alike S w v v') : ExitAlike w (.thrown v) (.thrown v')
  | returned {v v' : Value} (h : Alike S w v v') : ExitAlike w (.returned v) (.returned v')
  | broke : ExitAlike w .broke .broke
  | continued : ExitAlike w .continued .continued
  | failed (f : Failure) : ExitAlike w (.failed f) (.failed f)

variable {S}

theorem ExitAlike.mono {v w : World} (h : v ≤ w) (he : ExitAlike S v e e') : ExitAlike S w e e' := by
  cases he with
  | thrown hv => exact .thrown (hv.mono h)
  | returned hv => exact .returned (hv.mono h)
  | _ => constructor

theorem Excused.earlier {m n : Machine} (h : Excused S n r) (hm : m.faults ≤ n.faults) : Excused S m r :=
  h.imp_right fun hs => ⟨hs.1, Nat.lt_of_le_of_lt hm hs.2⟩

theorem Excused.andThen {m : Machine} (h : Excused S m r) (f : α → Run β) [hf : ∀ a, Rising (f a)] :
    Excused S m (Result.andThen r f) := by
  rcases h with ⟨e, n, rfl, he⟩ | ⟨hs, hc⟩
  · exact Or.inl ⟨e, n, rfl, he⟩
  · cases r with
    | error e n => exact Or.inr ⟨hs, hc⟩
    | ok a n =>
      have hr := (hf a).rises n
      exact Or.inr ⟨hs, Nat.lt_of_lt_of_le hc (Nat.add_le_add hr.mistakes hr.misses)⟩

/-! ## Enough steps -/

/-- With enough steps the code comes to this end. -/
def Ends (y : Nat → Run α) (m : Machine) (r : Result α) : Prop :=
  ∃ N, ∀ n, N ≤ n → y n m = r

namespace Ends

variable {m n : Machine} {y : Nat → Run α} {g : Nat → α → Run β}

theorem of_eq (h : ∀ k, y k m = r) : Ends y m r :=
  ⟨0, fun k _ => h k⟩

theorem bind {a : α} {r : Result β} (hy : Ends y m (.ok a n)) (hg : Ends (g · a) n r) :
    Ends (fun k => y k >>= g k) m r := by
  obtain ⟨N, hN⟩ := hy
  obtain ⟨M, hM⟩ := hg
  refine ⟨max N M, fun k hk => ?_⟩
  show (y k >>= g k) m = r
  rw [Run.bind_apply, hN k (Nat.le_trans (Nat.le_max_left N M) hk)]
  exact hM k (Nat.le_trans (Nat.le_max_right N M) hk)

theorem bind_error (hy : Ends y m (.error e n)) : Ends (fun k => y k >>= g k) m (.error e n) := by
  obtain ⟨N, hN⟩ := hy
  refine ⟨N, fun k hk => ?_⟩
  show (y k >>= g k) m = _
  rw [Run.bind_apply, hN k hk]
  rfl

theorem tick {r : Result β} {z : Nat → Run β} (h : Ends z { m with steps := m.steps + 1 } r) :
    Ends (fun k => RaiseScript.tick k >>= fun _ => z k) m r := by
  obtain ⟨N, hN⟩ := h
  refine ⟨max N (m.steps + 1), fun k hk => ?_⟩
  have hlt : ¬ k < m.steps + 1 := Nat.not_lt.2 (Nat.le_trans (Nat.le_max_right _ _) hk)
  have htick : RaiseScript.tick k m = .ok () { m with steps := m.steps + 1 } := by
    rw [tick_apply, if_neg hlt]
    rfl
  show (RaiseScript.tick k >>= fun _ => z k) m = r
  rw [Run.bind_apply, htick]
  exact hN k (Nat.le_trans (Nat.le_max_left _ _) hk)

end Ends

/-! ## Meeting -/

/-- The end `r` of a run on the left is met by the code `y` on the right, started in `c` ; values
are related by `R`. -/
inductive Meets (n : Nat) (t : Touch) (c : Twin S) (r : Result α) (y : Nat → Run β)
    (R : Twin S → α → β → Prop) : Prop
  | excused (h : Excused S c.left r)
  | gives (b : Twin S) (v : α) (v' : β) (later : Later n t c b) (left : r = .ok v b.left)
    (right : Ends y c.right (.ok v' b.right)) (rel : R b v v')
  | exits (b : Twin S) (e e' : Exit) (later : Later n t c b) (left : r = .error e b.left)
    (right : Ends y c.right (.error e' b.right)) (rel : ExitAlike S b.world e e')

namespace Meets

variable {n k : Nat} {t u : Touch} {c d : Twin S} {y z : Nat → Run β} {R : Twin S → α → β → Prop}

theorem imp {R' : Twin S → α → β → Prop} (h : Meets n t c r y R)
    (hR : ∀ b v v', Later n t c b → r = .ok v b.left → R b v v' → R' b v v') : Meets n t c r y R' := by
  cases h with
  | excused h => exact .excused h
  | gives b v v' hl hv hy hr => exact .gives b v v' hl hv hy (hR b v v' hl hv hr)
  | exits b e e' hl he hy hr => exact .exits b e e' hl he hy hr

/-- Only what the code does from here on with many steps counts. -/
theorem congr_from (N : Nat) (h : Meets n t c r y R) (hz : ∀ k, N ≤ k → z k c.right = y k c.right) :
    Meets n t c r z R := by
  have hends {r' : Result β} (hy : Ends y c.right r') : Ends z c.right r' := by
    obtain ⟨M, hM⟩ := hy
    refine ⟨max N M, fun k hk => ?_⟩
    exact (hz k (Nat.le_trans (Nat.le_max_left _ _) hk)).trans (hM k (Nat.le_trans (Nat.le_max_right _ _) hk))
  cases h with
  | excused h => exact .excused h
  | gives b v v' hl hv hy hr => exact .gives b v v' hl hv (hends hy) hr
  | exits b e e' hl he hy hr => exact .exits b e e' hl he (hends hy) hr

theorem congr (h : Meets n t c r y R) (hz : ∀ k, z k c.right = y k c.right) : Meets n t c r z R :=
  h.congr_from 0 fun k _ => hz k

/-- Goes on from an earlier pair of machines. -/
theorem after (h : Meets n u d r y R) (hl : Later n t c d) (hw : u.Within c t)
    {x : Nat → Run γ} {a : γ} (hx : Ends x c.right (.ok a d.right)) {g : Nat → γ → Run β}
    (hg : ∀ k, g k a = y k) : Meets n t c r (fun k => x k >>= g k) R := by
  have hy {r' : Result β} (hr : Ends y d.right r') : Ends (fun k => x k >>= g k) c.right r' :=
    hx.bind (by simpa only [hg] using hr)
  cases h with
  | excused h => exact .excused (h.earlier hl.left.faults)
  | gives b v v' hb hv hr hrel => exact .gives b v v' (hl.trans hb hw) hv (hy hr) hrel
  | exits b e e' hb he hr hrel => exact .exits b e e' (hl.trans hb hw) he (hy hr) hrel

theorem within (h : Meets n u c r y R) (hw : u.Within c t) : Meets n t c r y R := by
  cases h with
  | excused h => exact .excused h
  | gives b v v' hl hv hy hr => exact .gives b v v' (hl.within hw) hv hy hr
  | exits b e e' hl he hy hr => exact .exits b e e' (hl.within hw) he hy hr

theorem le (hk : k ≤ n) (h : Meets n t c r y R) : Meets k t c r y R := by
  cases h with
  | excused h => exact .excused h
  | gives b v v' hl hv hy hr => exact .gives b v v' (hl.le hk) hv hy hr
  | exits b e e' hl he hy hr => exact .exits b e e' (hl.le hk) he hy hr

theorem bind {g : Nat → β → Run δ} [∀ a, Rising (f a)] (h : Meets n t c r y R) (hw : u.Within c t)
    (hf : ∀ b v v', Later n t c b → r = .ok v b.left → R b v v' → Meets n u b (f v b.left) (g · v') R') :
    Meets n t c (Result.andThen r f) (fun k => y k >>= g k) R' := by
  cases h with
  | excused h => exact .excused (h.andThen f)
  | exits b e e' hl he hy hr =>
    subst he
    exact .exits b e e' hl rfl hy.bind_error hr
  | gives b v v' hl hv hy hr =>
    have hb := hf b v v' hl hv hr
    subst hv
    exact hb.after hl hw hy fun _ => rfl

/-- A step on both sides and what comes after it. -/
theorem seq {m : Machine} {x : Run α} {g : Nat → β → Run δ} [∀ a, Rising (f a)] (h : Meets n t c (x m) y R)
    (hf : ∀ b v v', Later n t c b → R b v v' → Meets n t b (f v b.left) (g · v') R') :
    Meets n t c ((x >>= f) m) (fun k => y k >>= g k) R' := by
  rw [Run.bind_apply]
  exact h.bind .refl fun b v v' hl _ hr => hf b v v' hl hr

/-- Goes on from an earlier pair of which the right machine is the same. -/
theorem earlier (h : Meets n u d r y R) (hl : Later n t c d) (hw : u.Within c t)
    (hr : d.right = c.right) : Meets n t c r y R := by
  cases h with
  | excused h => exact .excused (h.earlier hl.left.faults)
  | gives b v v' hb hv hy hrel => exact .gives b v v' (hl.trans hb hw) hv (hr ▸ hy) hrel
  | exits b e e' hb he hy hrel => exact .exits b e e' (hl.trans hb hw) he (hr ▸ hy) hrel

theorem pure {v : α} {v' : β} (h : R c v v') : Meets n t c (.ok v c.left) (fun _ => pure v') R :=
  .gives c v v' (.refl n t c) rfl (.of_eq fun _ => rfl) h

theorem throw (h : ExitAlike S c.world e e') : Meets n t c (.error e c.left) (fun _ => throw e') R :=
  .exits c e e' (.refl n t c) rfl (.of_eq fun _ => rfl) h

theorem fail (f : Failure) : Meets n t c (.error (.failed f) c.left) (fun _ => fail f) R :=
  .throw (.failed f)

end Meets

end RaiseScript
