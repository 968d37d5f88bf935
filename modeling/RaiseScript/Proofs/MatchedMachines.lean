import RaiseScript.Proofs.Alike

/-!
# Two machines in step

A `Twin` is a pair of machines that match. Code runs on both, and `Later` says what may have become
of the pair : what belonged together still does, and beyond a given `Touch` certain things are as
they were. These are the bindings that a program never changes, the properties it never writes, the
slots of try expressions, and the temporaries of the right machine.
-/

namespace RaiseScript

variable {α β γ δ : Type}

/-- Two machines that match. -/
structure Twin (S : Setting) where
  world : World
  left : Machine
  right : Machine
  agree : Matches S world left right

/-- Where the try expression around some code keeps what is raised : in a slot on the left, in a
temporary of some scope on the right. -/
structure Aim where
  slot : Nat
  scope : Nat
  name : String

/-- What code may change of what is there already. -/
structure Touch where
  /-- Scopes on the left in which names may be declared. -/
  scope : Nat → Prop
  /-- Temporaries on the right. -/
  cell : Nat → String → Prop
  /-- Slots on the left. -/
  slot : Nat → Prop
  /-- A slot and a temporary that stay the same as each other. -/
  aim : Option Aim

/-- Nothing may change. -/
def Touch.none : Touch :=
  ⟨fun _ => False, fun _ _ => False, fun _ => False, .none⟩

namespace Setting

variable (S : Setting)

/-- A name that keeps the value it is declared with. -/
def Steady (x : String) : Prop :=
  S.surroundings.isOpen = false ∧ x ∉ S.surroundings.rebindable

/-- A property that objects keep as they are made with. -/
def Stable (q : String) : Prop :=
  S.surroundings.isStable q = true

end Setting

variable {S : Setting}

/-- What the program did wrong so far, as far as the machine counts it. -/
def Machine.faults (m : Machine) : Nat :=
  m.mistakes + m.misses

/-- What stays as it was on the left. -/
structure LeftKeeps (S : Setting) (t : Touch) (m n : Machine) : Prop where
  scopes : m.scopes.size ≤ n.scopes.size
  nextId : m.nextId ≤ n.nextId
  slots : m.slots.size ≤ n.slots.size
  objects : m.heap.objects.size ≤ n.heap.objects.size
  steady : ∀ {i x}, i < m.scopes.size → ¬ t.scope i → S.Steady x → lookupIn n.scopes i x = lookupIn m.scopes i x
  slot : ∀ {i}, i < m.slots.size → ¬ t.slot i →
    n.slots.getD i .undefined = m.slots.getD i .undefined
  field : ∀ {a q}, a < m.heap.objects.size → S.Stable q →
    (n.heap.fields a).lookup q = (m.heap.fields a).lookup q
  faults : m.faults ≤ n.faults

/-- What stays as it was on the right. -/
structure RightKeeps (S : Setting) (t : Touch) (m n : Machine) : Prop where
  scopes : m.scopes.size ≤ n.scopes.size
  cell : ∀ {i x}, i < m.scopes.size → S.temp x → ¬ t.cell i x → lookupIn n.scopes i x = lookupIn m.scopes i x

/-- The slot and the temporary hold the same value, and the temporary can be assigned to. -/
structure Aimed (c : Twin S) (m : Aim) : Prop where
  temp : S.temp m.name
  lt : m.slot < c.left.slots.size
  free : ∀ j, ¬ c.world.slots m.slot j
  stored : ∃ v, lookupIn c.right.scopes m.scope m.name = some ⟨v, true⟩ ∧
    Alike S c.world (c.left.slots.getD m.slot .undefined) v

/-- What may have become of two machines. Functions that belong together since then have numbers
from `n` on. -/
structure Later (n : Nat) (t : Touch) (a b : Twin S) : Prop where
  world : a.world ≤ b.world
  ids : ∀ {i j}, b.world.ids i j → a.world.ids i j ∨ n ≤ i
  slots : ∀ {i j}, b.world.slots i j → a.world.slots i j ∨ a.left.slots.size ≤ i
  left : LeftKeeps S t a.left b.left
  right : RightKeeps S t a.right b.right
  this_left : b.left.this = a.left.this
  this_right : b.right.this = a.right.this
  depth : b.left.depth = a.left.depth
  aim : ∀ m ∈ t.aim, Aimed a m → Aimed b m

/-- Whatever `u` allows to change of what `a` has, `t` allows as well. -/
structure Touch.Within (u : Touch) (a : Twin S) (t : Touch) : Prop where
  scope : ∀ {i}, i < a.left.scopes.size → u.scope i → t.scope i
  cell : ∀ {i x}, i < a.right.scopes.size → u.cell i x → t.cell i x
  slot : ∀ {i}, i < a.left.slots.size → u.slot i → t.slot i
  aim : ∀ m ∈ t.aim, m ∈ u.aim ∨ (¬ u.slot m.slot ∧ ¬ u.cell m.scope m.name)

theorem Touch.Within.refl {a : Twin S} {t : Touch} : t.Within a t :=
  ⟨fun _ h => h, fun _ h => h, fun _ h => h, fun _ h => Or.inl h⟩

theorem Touch.Within.none {a : Twin S} {t : Touch} : Touch.none.Within a t :=
  ⟨fun _ h => h.elim, fun _ h => h.elim, fun _ h => h.elim, fun _ _ => Or.inr ⟨id, id⟩⟩

theorem LeftKeeps.refl (t : Touch) (m : Machine) : LeftKeeps S t m m :=
  ⟨Nat.le_refl _, Nat.le_refl _, Nat.le_refl _, Nat.le_refl _, fun _ _ _ => rfl, fun _ _ => rfl,
    fun _ _ => rfl, Nat.le_refl _⟩

theorem RightKeeps.refl (t : Touch) (m : Machine) : RightKeeps S t m m :=
  ⟨Nat.le_refl _, fun _ _ _ => rfl⟩

theorem LeftKeeps.trans {t u : Touch} {a : Twin S} {m n : Machine} (h : LeftKeeps S t a.left m)
    (h' : LeftKeeps S u m n) (hw : u.Within a t) : LeftKeeps S t a.left n where
  scopes := Nat.le_trans h.scopes h'.scopes
  nextId := Nat.le_trans h.nextId h'.nextId
  slots := Nat.le_trans h.slots h'.slots
  objects := Nat.le_trans h.objects h'.objects
  steady hi ht hx :=
    (h'.steady (Nat.lt_of_lt_of_le hi h.scopes) (fun hu => ht (hw.scope hi hu)) hx).trans (h.steady hi ht hx)
  slot hi ht :=
    (h'.slot (Nat.lt_of_lt_of_le hi h.slots) fun hu => ht (hw.slot hi hu)).trans (h.slot hi ht)
  field ha hq := (h'.field (Nat.lt_of_lt_of_le ha h.objects) hq).trans (h.field ha hq)
  faults := Nat.le_trans h.faults h'.faults

theorem RightKeeps.trans {t u : Touch} {a : Twin S} {m n : Machine} (h : RightKeeps S t a.right m)
    (h' : RightKeeps S u m n) (hw : u.Within a t) : RightKeeps S t a.right n where
  scopes := Nat.le_trans h.scopes h'.scopes
  cell hi hx ht :=
    (h'.cell (Nat.lt_of_lt_of_le hi h.scopes) hx fun hu => ht (hw.cell hi hu)).trans (h.cell hi hx ht)

namespace Later

variable {n : Nat} {t u : Touch} {a b c : Twin S}

theorem refl (n : Nat) (t : Touch) (a : Twin S) : Later n t a a :=
  ⟨World.le_refl _, Or.inl, Or.inl, .refl t _, .refl t _, rfl, rfl, rfl, fun _ _ h => h⟩

/-- What is out of reach stays aimed at. -/
theorem aimed (h : Later n t a b) {m : Aim} (hs : ¬ t.slot m.slot) (hc : ¬ t.cell m.scope m.name)
    (ha : Aimed a m) : Aimed b m where
  temp := ha.temp
  lt := Nat.lt_of_lt_of_le ha.lt h.left.slots
  free j hj := by
    rcases h.slots hj with hj | hj
    · exact ha.free j hj
    · exact absurd ha.lt (Nat.not_lt.2 hj)
  stored := by
    obtain ⟨v, hv, hav⟩ := ha.stored
    refine ⟨v, ?_, ?_⟩
    · rw [h.right.cell (lt_of_lookupIn hv) ha.temp hc, hv]
    · rw [h.left.slot ha.lt hs]
      exact hav.mono h.world

theorem trans (h : Later n t a b) (h' : Later n u b c) (hw : u.Within a t) : Later n t a c where
  world := World.le_trans h.world h'.world
  ids hc := (h'.ids hc).elim h.ids Or.inr
  slots hc := (h'.slots hc).elim h.slots fun hl => Or.inr (Nat.le_trans h.left.slots hl)
  left := h.left.trans h'.left hw
  right := h.right.trans h'.right hw
  this_left := h'.this_left.trans h.this_left
  this_right := h'.this_right.trans h.this_right
  depth := h'.depth.trans h.depth
  aim m hm ha := by
    have hb := h.aim m hm ha
    rcases hw.aim m hm with hu | ⟨hs, hc⟩
    · exact h'.aim m hu hb
    · exact h'.aimed hs hc hb

theorem le {k : Nat} (hk : k ≤ n) (h : Later n t a b) : Later k t a b :=
  { h with ids := fun hb => (h.ids hb).imp_right (Nat.le_trans hk) }

theorem within (h : Later n u a b) (hw : u.Within a t) : Later n t a b :=
  (refl n t a).trans h hw

end Later

end RaiseScript
