import RaiseScript.Proofs.Stages

/-!
# Where statements stand

A clause of a try expression raises into a slot on the left and into a temporary on the right. Code
that runs inside it, in scopes of its own, sees both (`Stands`), whatever it declares on the way :
the temporaries it gets have other names.

`Touch.stmt` is what a statement may change of what was there before it.
-/

namespace RaiseScript

variable {S : Setting} {n : Nat} {a b c : Twin S} {env env' : Env} {t u : Touch} {p q : Names}
  {aim : Option Aim} {m : Aim}

/-- Statements declare names in the innermost scope, bind temporaries there and raise. -/
def Touch.stmt (env env' : Env) (p q : Names) (aim : Option Aim) : Touch where
  scope i := i = env.here
  cell i x := (i = env'.here ∧ p.Between q x) ∨ ∃ m ∈ aim, i = m.scope ∧ x = m.name
  slot i := ∃ m ∈ aim, i = m.slot
  aim := aim

/-- The names from `p` to `q` are not the one that is aimed at. -/
def AimClear (aim : Option Aim) (q : Names) : Prop :=
  ∀ m ∈ aim, m.name ∉ q.issued

theorem AimClear.mono (h : AimClear aim q) (hp : p.issued ⊆ q.issued) : AimClear aim p :=
  fun m hm hi => h m hm (hp hi)

theorem aimClear_none : AimClear none q :=
  fun _ hm => by cases hm

/-! ## Touching less -/

namespace Touch

variable {p₁ q₁ : Names}

theorem temps_within_stmt (a : Twin S) (env : Env) (h : AimClear aim q) (hp : p.issued ⊆ p₁.issued)
    (hq : q₁.issued ⊆ q.issued) : (Touch.temps env' p₁ q₁).Within a (.stmt env env' p q aim) where
  scope _ hi := hi.elim
  cell _ hi := Or.inl ⟨hi.1, hq hi.2.1, fun hm => hi.2.2 (hp hm)⟩
  slot _ hi := hi.elim
  aim m hm := Or.inr ⟨id, fun hi => h m hm (hq hi.2.1)⟩

theorem stmt_within_stmt (a : Twin S) (env env' : Env) (aim : Option Aim)
    (hp : p.issued ⊆ p₁.issued) (hq : q₁.issued ⊆ q.issued) :
    (Touch.stmt env env' p₁ q₁ aim).Within a (.stmt env env' p q aim) where
  scope _ hi := hi
  cell _ hi := hi.imp_left fun hi => ⟨hi.1, hq hi.2.1, fun hm => hi.2.2 (hp hm)⟩
  slot _ hi := hi
  aim _ hm := Or.inl hm

/-- What is declared in new scopes leaves the old ones alone. -/
theorem inside_within_stmt (a : Twin S) (env env' : Env) (isBody : Bool) (p₁ q₁ : Names)
    (aim : Option Aim) :
    (Touch.stmt (env.inside a.left isBody) (env'.inside a.right isBody) p₁ q₁ aim).Within a
      (.stmt env env' p q aim) where
  scope hi he := absurd hi (he ▸ Nat.lt_irrefl _)
  cell hi he := he.elim (fun he => absurd hi (he.1 ▸ Nat.lt_irrefl _)) Or.inr
  slot _ hi := hi
  aim _ hm := Or.inl hm

/-- What is declared in an extra scope leaves the old ones alone. -/
theorem extra_within_stmt (a : Twin S) (env env' : Env) (p₁ q₁ : Names) (aim : Option Aim) :
    (Touch.stmt env (env'.inside a.right false) p₁ q₁ aim).Within a (.stmt env env' p q aim) where
  scope _ hi := hi
  cell hi he := he.elim (fun he => absurd hi (he.1 ▸ Nat.lt_irrefl _)) Or.inr
  slot _ hi := hi
  aim _ hm := Or.inl hm

/-- The temporary that is aimed at is written by raises only, or not at all. -/
def Respects (t : Touch) (m : Aim) : Prop :=
  (t.aim = some m ∧ ∀ i, t.cell i m.name → i = m.scope) ∨ (¬ t.slot m.slot ∧ ∀ i, ¬ t.cell i m.name)

theorem respects_none (m : Aim) : Touch.none.Respects m :=
  Or.inr ⟨id, fun _ => id⟩

theorem respects_stmt (env env' : Env) (hm : m ∈ aim) (h : AimClear aim q) :
    (Touch.stmt env env' p q aim).Respects m := by
  refine Or.inl ⟨hm, fun i hi => ?_⟩
  rcases hi with hi | ⟨m', hm', hi, -⟩
  · exact absurd hi.2.1 (h m hm)
  · cases hm
    cases hm'
    exact hi

end Touch

/-! ## Standing somewhere -/

/-- The name that is aimed at is found in its scope. -/
def Sees (machine : Machine) (env' : Env) (m : Aim) : Prop :=
  ∃ inner outer isBody, env'.chain = inner ++ ⟨m.scope, isBody⟩ :: outer ∧
    ∀ l ∈ inner, lookupIn machine.scopes l.scope m.name = none

/-- Code stands in scopes that belong together, and it sees what it raises into. -/
structure Stands (a : Twin S) (env env' : Env) (aim : Option Aim) : Prop where
  placed : Placed a.world env env'
  slot : ∀ m ∈ aim, env.slot = some m.slot
  aimed : ∀ m ∈ aim, Aimed a m
  sees : ∀ m ∈ aim, Sees a.right env' m

theorem Placed.stands (h : Placed a.world env env') : Stands a env env' none where
  placed := h
  slot _ hm := by cases hm
  aimed _ hm := by cases hm
  sees _ hm := by cases hm

theorem Machine.find?_append (m : Machine) (x : String) (outer : List Link) : ∀ inner : List Link,
    (∀ l ∈ inner, lookupIn m.scopes l.scope x = none) → m.find? x (inner ++ outer) = m.find? x outer
  | [], _ => rfl
  | l :: inner, h => by
    rw [List.cons_append, find?_cons, h l List.mem_cons_self]
    exact find?_append m x outer inner fun l' hl' => h l' (List.mem_cons_of_mem _ hl')

namespace Stands

/-- What is aimed at can be read and assigned to. -/
theorem find? (h : Stands a env env' aim) (hm : m ∈ aim) :
    ∃ v, a.right.find? m.name env'.chain = some (m.scope, ⟨v, true⟩) ∧
      Alike S a.world (a.left.slots.getD m.slot .undefined) v := by
  obtain ⟨v, hv, ha⟩ := (h.aimed m hm).stored
  obtain ⟨inner, outer, isBody, hchain, hinner⟩ := h.sees m hm
  refine ⟨v, ?_, ha⟩
  rw [hchain, Machine.find?_append _ _ _ inner hinner, Machine.find?_cons, hv]
  rfl

theorem aimed_later (hl : Later n t a b) (ht : t.Respects m) (ha : Aimed a m) : Aimed b m := by
  rcases ht with ⟨haim, -⟩ | ⟨hslot, hcell⟩
  · exact hl.aim m haim ha
  · exact hl.aimed hslot (hcell _) ha

theorem later (h : Stands a env env' aim) (hl : Later n t a b) (ht : ∀ m ∈ aim, t.Respects m) :
    Stands b env env' aim where
  placed := h.placed.mono hl.world
  slot := h.slot
  aimed m hm := aimed_later hl (ht m hm) (h.aimed m hm)
  sees m hm := by
    obtain ⟨inner, outer, isBody, hchain, hinner⟩ := h.sees m hm
    refine ⟨inner, outer, isBody, hchain, fun l hlm => ?_⟩
    have hlt : l.scope < a.right.scopes.size :=
      h.placed.chains.lt_right l (hchain ▸ List.mem_append_left _ hlm)
    rw [hl.right.cell hlt (h.aimed m hm).temp ?_]
    · exact hinner l hlm
    · intro hcell
      rcases ht m hm with ⟨-, hscope⟩ | ⟨-, hnot⟩
      · obtain ⟨v, hv, -⟩ := (h.aimed m hm).stored
        rw [← hscope _ hcell, hinner l hlm] at hv
        cases hv
      · exact hnot _ hcell

/-- What is seen outside of a scope is seen in a new one. -/
theorem sees_inside (h : Sees a.right env' m) (isBody : Bool) (hs : b.right.scopes = a.right.scopes.push []) :
    Sees b.right (env'.inside a.right isBody) m := by
  obtain ⟨inner, outer, isBody', hchain, hinner⟩ := h
  refine ⟨⟨a.right.scopes.size, isBody⟩ :: inner, outer, isBody', ?_, ?_⟩
  · rw [Env.inside, hchain]
    rfl
  · rw [hs]
    refine List.forall_mem_cons.2 ⟨?_, fun l hl => ?_⟩
    · rw [lookupIn_push]
      exact lookupIn_of_size_le (Nat.le_refl _) _
    · rw [lookupIn_push]
      exact hinner l hl

theorem inside (h : Stands a env env' aim) (isBody : Bool) :
    Stands a.pushBoth (env.inside a.left isBody) (env'.inside a.right isBody) aim where
  placed := ⟨h.placed.chains.inside isBody, List.cons_ne_nil _ _⟩
  slot := h.slot
  aimed m hm := aimed_later (a.later_pushBoth 0) (Touch.respects_none m) (h.aimed m hm)
  sees m hm := sees_inside (h.sees m hm) isBody rfl

theorem insideExtra (h : Stands a env env' aim) :
    Stands a.pushExtra env (env'.inside a.right false) aim where
  placed := ⟨.extra (Or.inr rfl) rfl (h.placed.chains.mono (a.world.le_withExtra _)), List.cons_ne_nil _ _⟩
  slot := h.slot
  aimed m hm := aimed_later (a.later_pushExtra 0) (Touch.respects_none m) (h.aimed m hm)
  sees m hm := sees_inside (h.sees m hm) false rfl

end Stands

end RaiseScript
