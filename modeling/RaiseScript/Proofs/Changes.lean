import RaiseScript.Proofs.Meets

/-!
# Changes of matching machines

Matching machines match after both were changed in the same way, or after a change that only shows
in temporaries, in numbers or in counts. Each change comes as a `Twin` and a lemma that says how it
is later than the pair it was made of.
-/

namespace RaiseScript

variable {S : Setting} {w : World}
variable {α : Type} {fs fs' : Fields Value} {v : World} {v' : Value} {sc sc' : Array Scope}
  {n n' i j : Nat} {t : Touch} {x : String}

/-! ## Arrays -/

theorem getD_push (xs : Array α) (x d : α) (i : Nat) :
    (xs.push x).getD i d = if i = xs.size then x else xs.getD i d := by
  rcases Nat.lt_trichotomy i xs.size with h | rfl | h
  · simp [Array.getD, h, Nat.lt_succ_of_lt h, Nat.ne_of_lt h, Array.getElem_push]
  · simp [Array.getD]
  · simp [Array.getD, Nat.not_lt.2 (Nat.le_of_lt h), Nat.not_lt.2 (Nat.succ_le_of_lt h),
      Nat.ne_of_gt h]

theorem getD_modify (xs : Array α) (f : α → α) (d : α) (i j : Nat) :
    (xs.modify i f).getD j d = if j = i ∧ i < xs.size then f (xs.getD j d) else xs.getD j d := by
  by_cases hj : j < xs.size
  · by_cases hi : j = i
    · subst hi
      simp [Array.getD, hj, Array.getElem_modify]
    · simp [Array.getD, hj, hi, Array.getElem_modify, Ne.symm hi]
  · by_cases hi : j = i
    · subst hi
      simp [Array.getD, hj]
    · simp [Array.getD, hj, hi]

theorem getD_setIfInBounds (xs : Array α) (x d : α) (i j : Nat) :
    (xs.setIfInBounds i x).getD j d = if j = i ∧ i < xs.size then x else xs.getD j d := by
  by_cases hj : j < xs.size
  · by_cases hi : j = i
    · subst hi
      simp [Array.getD, hj]
    · simp [Array.getD, hj, hi, Ne.symm hi]
  · by_cases hi : j = i
    · subst hi
      simp [Array.getD, hj]
    · simp [Array.getD, hj, hi]

/-! ## The heap -/

namespace HeapMatch

variable {h h' : Heap}

theorem pushArray (hm : HeapMatch S w h h') {vs vs' : Array Value}
    (hv : List.Forall₂ (Alike S w) vs.toList vs'.toList) :
    HeapMatch S w { h with arrays := h.arrays.push vs } { h' with arrays := h'.arrays.push vs' } where
  arrays := by simp [hm.arrays]
  objects := hm.objects
  items a := by
    simp only [Heap.items, getD_push, hm.arrays]
    split
    · exact hv
    · exact hm.items a
  fields := hm.fields

theorem pushObject (hm : HeapMatch S w h h') (hf : List.Forall₂ (FieldAlike S w) fs fs') :
    HeapMatch S w { h with objects := h.objects.push fs } { h' with objects := h'.objects.push fs' } where
  arrays := hm.arrays
  objects := by simp [hm.objects]
  items := hm.items
  fields a := by
    simp only [Heap.fields, getD_push, hm.objects]
    split
    · exact hf
    · exact hm.fields a

theorem modifyArray (hm : HeapMatch S w h h') (a : Nat) {f f' : Array Value → Array Value}
    (hf : ∀ us us', List.Forall₂ (Alike S w) us.toList us'.toList →
      List.Forall₂ (Alike S w) (f us).toList (f' us').toList) :
    HeapMatch S w { h with arrays := h.arrays.modify a f }
      { h' with arrays := h'.arrays.modify a f' } where
  arrays := by simp [hm.arrays]
  objects := hm.objects
  items i := by
    simp only [Heap.items, getD_modify, hm.arrays]
    split
    · exact hf _ _ (hm.items i)
    · exact hm.items i
  fields := hm.fields

theorem modifyObject (hm : HeapMatch S w h h') (a : Nat) {f f' : Fields Value → Fields Value}
    (hf : ∀ us us', List.Forall₂ (FieldAlike S w) us us' →
      List.Forall₂ (FieldAlike S w) (f us) (f' us')) :
    HeapMatch S w { h with objects := h.objects.modify a f }
      { h' with objects := h'.objects.modify a f' } where
  arrays := hm.arrays
  objects := by simp [hm.objects]
  items := hm.items
  fields i := by
    simp only [Heap.fields, getD_modify, hm.objects]
    split
    · exact hf _ _ (hm.fields i)
    · exact hm.fields i

end HeapMatch

theorem Fields.lookup_insert (x y : String) (v : α) : ∀ fs : Fields α,
    (Fields.insert x v fs).lookup y = if y = x then some v else fs.lookup y
  | [] => by rw [Fields.insert, lookup_cons_ite]
  | (k, u) :: fs => by
    rw [Fields.insert]
    split
    · rw [lookup_cons_ite]
    · split
      · rename_i h
        subst h
        rw [lookup_cons_ite, lookup_cons_ite]
        by_cases hy : y = x <;> simp [hy]
      · rename_i h
        rw [lookup_cons_ite, lookup_cons_ite, Fields.lookup_insert x y v fs]
        by_cases hy : y = k
        · subst hy
          simp [Ne.symm h]
        · simp [hy]

theorem Fields.insert_alike (x : String) {v : Value} (hv : Alike S w v v')
    (hf : List.Forall₂ (FieldAlike S w) fs fs') :
    List.Forall₂ (FieldAlike S w) (Fields.insert x v fs) (Fields.insert x v' fs') := by
  induction hf with
  | nil => exact .cons ⟨rfl, hv⟩ .nil
  | @cons f f' fs fs' hff hfs ih =>
    obtain ⟨k, u⟩ := f
    obtain ⟨k', u'⟩ := f'
    obtain ⟨rfl, hu⟩ : k = k' ∧ Alike S w u u' := hff
    simp only [Fields.insert]
    split
    · exact .cons ⟨rfl, hv⟩ (.cons ⟨rfl, hu⟩ hfs)
    · split
      · exact .cons ⟨rfl, hv⟩ hfs
      · exact .cons ⟨rfl, hu⟩ ih

/-! ## Worlds -/

namespace World

/-- Two more scopes belong together. -/
def withScopes (w : World) (i j : Nat) : World :=
  { w with scopes := fun i' j' => w.scopes i' j' ∨ (i' = i ∧ j' = j) }

/-- One more scope on the right is extra. -/
def withExtra (w : World) (j : Nat) : World :=
  { w with extra := fun j' => w.extra j' ∨ j' = j }

/-- Two more functions belong together. -/
def withIds (w : World) (i j : Nat) : World :=
  { w with ids := fun i' j' => w.ids i' j' ∨ (i' = i ∧ j' = j) }

/-- Two more slots belong together. -/
def withSlots (w : World) (i j : Nat) : World :=
  { w with slots := fun i' j' => w.slots i' j' ∨ (i' = i ∧ j' = j) }

theorem le_withScopes (w : World) (i j : Nat) : w ≤ w.withScopes i j := ⟨Or.inl, id, id, id⟩

theorem le_withExtra (w : World) (j : Nat) : w ≤ w.withExtra j := ⟨id, Or.inl, id, id⟩

theorem le_withIds (w : World) (i j : Nat) : w ≤ w.withIds i j := ⟨id, id, Or.inl, id⟩

theorem le_withSlots (w : World) (i j : Nat) : w ≤ w.withSlots i j := ⟨id, id, id, Or.inl⟩

end World

/-! ## Scopes -/

theorem relBound_mono {w : World} (h : v ≤ w) {b b' : Option Binding}
    (hb : Option.Rel (BoundAlike S v) b b') : Option.Rel (BoundAlike S w) b b' := by
  cases hb with
  | none => exact .none
  | some hb => exact .some (hb.mono h)

namespace ScopesMatch

/-- More may be known that has nothing to do with scopes. -/
theorem mono {w : World} (h : v ≤ w) (hs : w.scopes = v.scopes) (he : w.extra = v.extra)
    (hm : ScopesMatch S v sc sc') : ScopesMatch S w sc sc' where
  lt_left hi := hm.lt_left (hs ▸ hi)
  lt_right hi := hm.lt_right (hs ▸ hi)
  right_unique hi hj := hm.right_unique (hs ▸ hi) (hs ▸ hj)
  left_unique hi hj := hm.left_unique (hs ▸ hi) (hs ▸ hj)
  bindings hi hx := relBound_mono h (hm.bindings (hs ▸ hi) hx)
  extra_lt hj := hm.extra_lt (he ▸ hj)
  extra_apart hj hi := hm.extra_apart (he ▸ hj) (hs ▸ hi)
  extra_bindings hj hx := hm.extra_bindings (he ▸ hj) hx

variable {m m' : Machine} {b b' : Binding}

/-- The same name is bound in scopes that belong together. -/
theorem declare (h : ScopesMatch S w m.scopes m'.scopes) (hij : w.scopes i j)
    (hb : BoundAlike S w b b') :
    ScopesMatch S w (m.declare i x b).scopes (m'.declare j x b').scopes where
  lt_left hs := by simpa using h.lt_left hs
  lt_right hs := by simpa using h.lt_right hs
  right_unique := h.right_unique
  left_unique := h.left_unique
  bindings {i' j' y} hs hy := by
    rw [Machine.lookupIn_declare, Machine.lookupIn_declare]
    have hij' : i' = i ↔ j' = j := by
      constructor
      · rintro rfl
        exact h.right_unique hs hij
      · rintro rfl
        exact h.left_unique hs hij
    simp only [hij', h.lt_left hij, h.lt_right hij, and_true]
    split
    · exact .some hb
    · exact h.bindings hs hy
  extra_lt he := by simpa using h.extra_lt he
  extra_apart := h.extra_apart
  extra_bindings {j' y} he hy := by
    have hne : j' ≠ j := by
      rintro rfl
      exact h.extra_apart he hij
    rw [Machine.lookupIn_declare, if_neg (fun hc => hne hc.1)]
    exact h.extra_bindings he hy

/-- A temporary is bound on the right. -/
theorem declareTemp (h : ScopesMatch S w m.scopes m'.scopes) (hx : S.temp x) (j : Nat) :
    ScopesMatch S w m.scopes (m'.declare j x b').scopes where
  lt_left := h.lt_left
  lt_right hs := by simpa using h.lt_right hs
  right_unique := h.right_unique
  left_unique := h.left_unique
  bindings {i' j' y} hs hy := by
    have hne : y ≠ x := fun he => hy (he ▸ hx)
    rw [Machine.lookupIn_declare, if_neg (by simp [hne])]
    exact h.bindings hs hy
  extra_lt he := by simpa using h.extra_lt he
  extra_apart := h.extra_apart
  extra_bindings {j' y} he hy := by
    have hne : y ≠ x := fun he => hy (he ▸ hx)
    rw [Machine.lookupIn_declare, if_neg (by simp [hne])]
    exact h.extra_bindings he hy

/-- A new scope on both sides. -/
theorem pushBoth (h : ScopesMatch S w sc sc') :
    ScopesMatch S (w.withScopes sc.size sc'.size) (sc.push []) (sc'.push []) where
  lt_left hs := by
    rw [Array.size_push]
    rcases hs with hs | ⟨rfl, -⟩
    · exact Nat.lt_succ_of_lt (h.lt_left hs)
    · exact Nat.lt_succ_self _
  lt_right hs := by
    rw [Array.size_push]
    rcases hs with hs | ⟨-, rfl⟩
    · exact Nat.lt_succ_of_lt (h.lt_right hs)
    · exact Nat.lt_succ_self _
  right_unique {i j j'} hs hs' := by
    rcases hs with hs | ⟨rfl, rfl⟩ <;> rcases hs' with hs' | ⟨he, he'⟩
    · exact h.right_unique hs hs'
    · exact absurd (h.lt_left hs) (by rw [he]; exact Nat.lt_irrefl _)
    · exact absurd (h.lt_left hs') (Nat.lt_irrefl _)
    · exact he'.symm
  left_unique {i i' j} hs hs' := by
    rcases hs with hs | ⟨rfl, rfl⟩ <;> rcases hs' with hs' | ⟨he, he'⟩
    · exact h.left_unique hs hs'
    · exact absurd (h.lt_right hs) (by rw [he']; exact Nat.lt_irrefl _)
    · exact absurd (h.lt_right hs') (Nat.lt_irrefl _)
    · exact he.symm
  bindings {i j x} hs hx := by
    rw [lookupIn_push, lookupIn_push]
    rcases hs with hs | ⟨rfl, rfl⟩
    · exact relBound_mono (w.le_withScopes _ _) (h.bindings hs hx)
    · rw [lookupIn_of_size_le (Nat.le_refl _), lookupIn_of_size_le (Nat.le_refl _)]
      exact .none
  extra_lt he := by
    rw [Array.size_push]
    exact Nat.lt_succ_of_lt (h.extra_lt he)
  extra_apart he hs := by
    rcases hs with hs | ⟨-, rfl⟩
    · exact h.extra_apart he hs
    · exact Nat.lt_irrefl _ (h.extra_lt he)
  extra_bindings he hx := by
    rw [lookupIn_push]
    exact h.extra_bindings he hx

/-- An extra scope on the right. -/
theorem pushExtra (h : ScopesMatch S w sc sc') : ScopesMatch S (w.withExtra sc'.size) sc (sc'.push []) where
  lt_left := h.lt_left
  lt_right hs := by
    rw [Array.size_push]
    exact Nat.lt_succ_of_lt (h.lt_right hs)
  right_unique := h.right_unique
  left_unique := h.left_unique
  bindings {i j x} hs hx := by
    rw [lookupIn_push]
    exact relBound_mono (w.le_withExtra _) (h.bindings hs hx)
  extra_lt he := by
    rw [Array.size_push]
    rcases he with he | rfl
    · exact Nat.lt_succ_of_lt (h.extra_lt he)
    · exact Nat.lt_succ_self _
  extra_apart he hs := by
    rcases he with he | rfl
    · exact h.extra_apart he hs
    · exact Nat.lt_irrefl _ (h.lt_right hs)
  extra_bindings he hx := by
    rw [lookupIn_push]
    rcases he with he | rfl
    · exact h.extra_bindings he hx
    · exact lookupIn_of_size_le (Nat.le_refl _) _

end ScopesMatch

/-! ## Functions and slots -/

theorem IdsMatch.grow {k k' : Nat} (h : IdsMatch w.ids n n') (hk : n ≤ k) (hk' : n' ≤ k') :
    IdsMatch w.ids k k' :=
  ⟨fun hi => Nat.lt_of_lt_of_le (h.lt_left hi) hk, fun hi => Nat.lt_of_lt_of_le (h.lt_right hi) hk',
    h.right_unique, h.left_unique⟩

/-- Two functions that have no counterpart yet are put together. -/
theorem IdsMatch.withIds (h : IdsMatch w.ids n n') (hi : i < n) (hj : j < n')
    (hl : ∀ j', ¬ w.ids i j') (hr : ∀ i', ¬ w.ids i' j) : IdsMatch (w.withIds i j).ids n n' where
  lt_left hs := hs.elim h.lt_left fun he => he.1 ▸ hi
  lt_right hs := hs.elim h.lt_right fun he => he.2 ▸ hj
  right_unique {i₁ j₁ j₂} hs hs' := by
    rcases hs with hs | ⟨rfl, rfl⟩ <;> rcases hs' with hs' | ⟨he, rfl⟩
    · exact h.right_unique hs hs'
    · exact absurd (he ▸ hs) (hl _)
    · exact absurd hs' (hl _)
    · rfl
  left_unique {i₁ i₂ j₁} hs hs' := by
    rcases hs with hs | ⟨rfl, rfl⟩ <;> rcases hs' with hs' | ⟨rfl, he⟩
    · exact h.left_unique hs hs'
    · exact absurd (he ▸ hs) (hr _)
    · exact absurd hs' (hr _)
    · rfl

theorem SlotsMatch.mono (h : v ≤ w) (hs : w.slots = v.slots) {sl sl' : Array Value}
    (hm : SlotsMatch S v sl sl') : SlotsMatch S w sl sl' where
  lt_left hi := hm.lt_left (hs ▸ hi)
  lt_right hi := hm.lt_right (hs ▸ hi)
  right_unique hi hj := hm.right_unique (hs ▸ hi) (hs ▸ hj)
  left_unique hi hj := hm.left_unique (hs ▸ hi) (hs ▸ hj)
  values hi := (hm.values (hs ▸ hi)).mono h

/-! ## Pairs of machines -/

namespace Twin

variable (c : Twin S) (n : Nat)

/-- The pair with other counts on the left. -/
def countLeft (steps mistakes misses : Nat) : Twin S where
  world := c.world
  left := { c.left with steps, mistakes, misses }
  right := c.right
  agree := ⟨c.agree.scopes, c.agree.ids, c.agree.slots, c.agree.heap, c.agree.this, c.agree.depth,
    c.agree.output⟩

variable {c n} in
theorem later_countLeft {s k i : Nat} (h : c.left.faults ≤ k + i) : Later n .none c (c.countLeft s k i) :=
  ⟨World.le_refl _, Or.inl, Or.inl, ⟨Nat.le_refl _, Nat.le_refl _, Nat.le_refl _, Nat.le_refl _,
    fun _ _ _ => rfl, fun _ _ => rfl, fun _ _ => rfl, h⟩, .refl _ _, rfl, rfl, rfl, by simp [Touch.none]⟩

/-- The pair with other counts on the right. -/
def countRight (steps mistakes misses : Nat) : Twin S where
  world := c.world
  left := c.left
  right := { c.right with steps, mistakes, misses }
  agree := ⟨c.agree.scopes, c.agree.ids, c.agree.slots, c.agree.heap, c.agree.this, c.agree.depth,
    c.agree.output⟩

theorem later_countRight (s k i : Nat) : Later n .none c (c.countRight s k i) :=
  ⟨World.le_refl _, Or.inl, Or.inl, .refl _ _, ⟨Nat.le_refl _, fun _ _ _ => rfl⟩, rfl, rfl, rfl,
    by simp [Touch.none]⟩

/-- The pair with a new scope on both sides. -/
def pushBoth : Twin S where
  world := c.world.withScopes c.left.scopes.size c.right.scopes.size
  left := { c.left with scopes := c.left.scopes.push [] }
  right := { c.right with scopes := c.right.scopes.push [] }
  agree := by
    have hle := c.world.le_withScopes c.left.scopes.size c.right.scopes.size
    exact ⟨c.agree.scopes.pushBoth, c.agree.ids, c.agree.slots.mono hle rfl, c.agree.heap.mono hle,
      c.agree.this.mono hle, c.agree.depth, c.agree.output⟩

theorem later_pushBoth : Later n .none c c.pushBoth :=
  ⟨c.world.le_withScopes _ _, Or.inl, Or.inl,
    ⟨by simp [pushBoth], Nat.le_refl _, Nat.le_refl _, Nat.le_refl _,
      fun _ _ _ => lookupIn_push _ _ _, fun _ _ => rfl, fun _ _ => rfl, Nat.le_refl _⟩,
    ⟨by simp [pushBoth], fun _ _ _ => lookupIn_push _ _ _⟩, rfl, rfl, rfl, by simp [Touch.none]⟩

/-- The pair with an extra scope on the right. -/
def pushExtra : Twin S where
  world := c.world.withExtra c.right.scopes.size
  left := c.left
  right := { c.right with scopes := c.right.scopes.push [] }
  agree := by
    have hle := c.world.le_withExtra c.right.scopes.size
    exact ⟨c.agree.scopes.pushExtra, c.agree.ids, c.agree.slots.mono hle rfl, c.agree.heap.mono hle,
      c.agree.this.mono hle, c.agree.depth, c.agree.output⟩

theorem later_pushExtra : Later n .none c c.pushExtra :=
  ⟨c.world.le_withExtra _, Or.inl, Or.inl, .refl _ _,
    ⟨by simp [pushExtra], fun _ _ _ => lookupIn_push _ _ _⟩, rfl, rfl, rfl, by simp [Touch.none]⟩

/-- The pair with the same name bound on both sides. -/
def declareBoth (i j : Nat) (x : String) (b b' : Binding) (hij : c.world.scopes i j)
    (hb : BoundAlike S c.world b b') : Twin S where
  world := c.world
  left := c.left.declare i x b
  right := c.right.declare j x b'
  agree := ⟨c.agree.scopes.declare hij hb, c.agree.ids, c.agree.slots, c.agree.heap, c.agree.this,
    c.agree.depth, c.agree.output⟩

variable {c} in
theorem later_declareBoth {b b' : Binding} (hij : c.world.scopes i j) (hb : BoundAlike S c.world b b')
    (hx : ¬ S.temp x) (ht : S.Steady x → t.scope i) : Later n t c (c.declareBoth i j x b b' hij hb) where
  world := World.le_refl _
  ids := Or.inl
  slots := Or.inl
  left := by
    refine ⟨by simp [declareBoth], Nat.le_refl _, Nat.le_refl _, Nat.le_refl _, ?_, fun _ _ => rfl,
      fun _ _ => rfl, Nat.le_refl _⟩
    intro i' y _ hi' hy
    have hne : ¬ (i' = i ∧ y = x ∧ i < c.left.scopes.size) := by
      rintro ⟨rfl, rfl, -⟩
      exact hi' (ht hy)
    exact (Machine.lookupIn_declare _ _ _ _ _ _).trans (if_neg hne)
  right := by
    refine ⟨by simp [declareBoth], fun {i' y} _ hy _ => ?_⟩
    have hne : ¬ (i' = j ∧ y = x ∧ j < c.right.scopes.size) := by
      rintro ⟨-, rfl, -⟩
      exact hx hy
    exact (Machine.lookupIn_declare _ _ _ _ _ _).trans (if_neg hne)
  this_left := rfl
  this_right := rfl
  depth := rfl
  aim m _ ha := by
    refine ⟨ha.temp, ha.lt, ha.free, ?_⟩
    obtain ⟨v, hv, hav⟩ := ha.stored
    refine ⟨v, ?_, hav⟩
    have hne : ¬ (m.scope = j ∧ m.name = x ∧ j < c.right.scopes.size) := by
      rintro ⟨-, he, -⟩
      exact hx (he ▸ ha.temp)
    exact ((Machine.lookupIn_declare _ _ _ _ _ _).trans (if_neg hne)).trans hv

/-- The pair with a temporary bound on the right. -/
def declareTemp (j : Nat) (x : String) (b : Binding) (hx : S.temp x) : Twin S where
  world := c.world
  left := c.left
  right := c.right.declare j x b
  agree := ⟨c.agree.scopes.declareTemp hx j, c.agree.ids, c.agree.slots, c.agree.heap, c.agree.this,
    c.agree.depth, c.agree.output⟩

variable {c} in
theorem later_declareTemp (b : Binding) (hx : S.temp x) (ht : t.cell j x) (ha : t.aim = none) :
    Later n t c (c.declareTemp j x b hx) where
  world := World.le_refl _
  ids := Or.inl
  slots := Or.inl
  left := .refl _ _
  right := by
    refine ⟨by simp [declareTemp], fun {i' y} _ _ hc => ?_⟩
    have hne : ¬ (i' = j ∧ y = x ∧ j < c.right.scopes.size) := by
      rintro ⟨rfl, rfl, -⟩
      exact hc ht
    exact (Machine.lookupIn_declare _ _ _ _ _ _).trans (if_neg hne)
  this_left := rfl
  this_right := rfl
  depth := rfl
  aim := by simp [ha]

/-- The pair with a new function on both sides. -/
def nameBoth : Twin S where
  world := c.world.withIds c.left.nextId c.right.nextId
  left := { c.left with nextId := c.left.nextId + 1 }
  right := { c.right with nextId := c.right.nextId + 1 }
  agree := by
    have hle := c.world.le_withIds c.left.nextId c.right.nextId
    have hids := c.agree.ids
    refine ⟨c.agree.scopes.mono hle rfl rfl, ?_, c.agree.slots.mono hle rfl, c.agree.heap.mono hle,
      c.agree.this.mono hle, c.agree.depth, c.agree.output⟩
    exact (hids.grow (Nat.le_succ _) (Nat.le_succ _)).withIds (Nat.lt_succ_self _) (Nat.lt_succ_self
      _) (fun _ h => Nat.lt_irrefl _ (hids.lt_left h)) fun _ h => Nat.lt_irrefl _ (hids.lt_right h)

variable {c n} in
theorem later_nameBoth (hn : n ≤ c.left.nextId) : Later n .none c c.nameBoth :=
  ⟨c.world.le_withIds _ _, Or.imp_right fun he => he.1 ▸ hn, Or.inl,
    ⟨Nat.le_refl _, Nat.le_succ _, Nat.le_refl _, Nat.le_refl _, fun _ _ _ => rfl, fun _ _ => rfl,
      fun _ _ => rfl, Nat.le_refl _⟩,
    ⟨Nat.le_refl _, fun _ _ _ => rfl⟩, rfl, rfl, rfl, by simp [Touch.none]⟩

/-- The pair with a new function on the left. -/
def nameLeft : Twin S where
  world := c.world
  left := { c.left with nextId := c.left.nextId + 1 }
  right := c.right
  agree := ⟨c.agree.scopes, c.agree.ids.grow (Nat.le_succ _) (Nat.le_refl _), c.agree.slots,
    c.agree.heap, c.agree.this, c.agree.depth, c.agree.output⟩

theorem later_nameLeft : Later n .none c c.nameLeft :=
  ⟨World.le_refl _, Or.inl, Or.inl,
    ⟨Nat.le_refl _, Nat.le_succ _, Nat.le_refl _, Nat.le_refl _, fun _ _ _ => rfl, fun _ _ => rfl,
      fun _ _ => rfl, Nat.le_refl _⟩,
    .refl _ _, rfl, rfl, rfl, by simp [Touch.none]⟩

/-- The pair with a new function on the right. -/
def nameRight : Twin S where
  world := c.world
  left := c.left
  right := { c.right with nextId := c.right.nextId + 1 }
  agree := ⟨c.agree.scopes, c.agree.ids.grow (Nat.le_refl _) (Nat.le_succ _), c.agree.slots,
    c.agree.heap, c.agree.this, c.agree.depth, c.agree.output⟩

theorem later_nameRight : Later n .none c c.nameRight :=
  ⟨World.le_refl _, Or.inl, Or.inl, .refl _ _, ⟨Nat.le_refl _, fun _ _ _ => rfl⟩, rfl, rfl, rfl,
    by simp [Touch.none]⟩

/-- The pair with a new function on the right for one that the left has had for a while. -/
def nameHeld (i : Nat) (hi : i < c.left.nextId) (hfree : ∀ j, ¬ c.world.ids i j) : Twin S where
  world := c.world.withIds i c.right.nextId
  left := c.left
  right := { c.right with nextId := c.right.nextId + 1 }
  agree := by
    have hle := c.world.le_withIds i c.right.nextId
    have hids := c.agree.ids
    refine ⟨c.agree.scopes.mono hle rfl rfl, ?_, c.agree.slots.mono hle rfl, c.agree.heap.mono hle,
      c.agree.this.mono hle, c.agree.depth, c.agree.output⟩
    exact (hids.grow (Nat.le_refl _) (Nat.le_succ _)).withIds hi (Nat.lt_succ_self _) hfree
      fun _ h => Nat.lt_irrefl _ (hids.lt_right h)

variable {c n} in
theorem later_nameHeld (hi : i < c.left.nextId) (hfree : ∀ j, ¬ c.world.ids i j) (hn : n ≤ i) :
    Later n .none c (c.nameHeld i hi hfree) :=
  ⟨c.world.le_withIds _ _, Or.imp_right fun he => he.1 ▸ hn, Or.inl, .refl _ _,
    ⟨Nat.le_refl _, fun _ _ _ => rfl⟩, rfl, rfl, rfl, by simp [Touch.none]⟩

/-- The pair with other heaps. -/
def withHeaps (h h' : Heap) (hm : HeapMatch S c.world h h') : Twin S where
  world := c.world
  left := { c.left with heap := h }
  right := { c.right with heap := h' }
  agree := ⟨c.agree.scopes, c.agree.ids, c.agree.slots, hm, c.agree.this, c.agree.depth, c.agree.output⟩

variable {c} in
theorem later_withHeaps {h h' : Heap} (hm : HeapMatch S c.world h h')
    (ho : c.left.heap.objects.size ≤ h.objects.size)
    (hf : ∀ {a q}, a < c.left.heap.objects.size → S.Stable q →
      (h.fields a).lookup q = (c.left.heap.fields a).lookup q) :
    Later n .none c (c.withHeaps h h' hm) :=
  ⟨World.le_refl _, Or.inl, Or.inl,
    ⟨Nat.le_refl _, Nat.le_refl _, Nat.le_refl _, ho, fun _ _ _ => rfl, fun _ _ => rfl, hf,
      Nat.le_refl _⟩,
    ⟨Nat.le_refl _, fun _ _ _ => rfl⟩, rfl, rfl, rfl, by simp [Touch.none]⟩

/-- The pair after a line was printed. -/
def print (line : String) : Twin S where
  world := c.world
  left := { c.left with output := c.left.output.push line }
  right := { c.right with output := c.right.output.push line }
  agree := ⟨c.agree.scopes, c.agree.ids, c.agree.slots, c.agree.heap, c.agree.this, c.agree.depth,
    by simp only [c.agree.output]⟩

theorem later_print (line : String) : Later n .none c (c.print line) :=
  ⟨World.le_refl _, Or.inl, Or.inl,
    ⟨Nat.le_refl _, Nat.le_refl _, Nat.le_refl _, Nat.le_refl _, fun _ _ _ => rfl, fun _ _ => rfl,
      fun _ _ => rfl, Nat.le_refl _⟩,
    ⟨Nat.le_refl _, fun _ _ _ => rfl⟩, rfl, rfl, rfl, by simp [Touch.none]⟩

/-- The pair with a new slot on the left. -/
def slotLeft : Twin S where
  world := c.world
  left := { c.left with slots := c.left.slots.push .undefined }
  right := c.right
  agree := by
    have hs := c.agree.slots
    refine ⟨c.agree.scopes, c.agree.ids, ⟨fun h => ?_, hs.lt_right, hs.right_unique, hs.left_unique,
      fun {i j} h => ?_⟩, c.agree.heap, c.agree.this, c.agree.depth, c.agree.output⟩
    · rw [Array.size_push]
      exact Nat.lt_succ_of_lt (hs.lt_left h)
    · rw [getD_push, if_neg (Nat.ne_of_lt (hs.lt_left h))]
      exact hs.values h

theorem later_slotLeft : Later n .none c c.slotLeft :=
  ⟨World.le_refl _, Or.inl, Or.inl,
    ⟨Nat.le_refl _, Nat.le_refl _, by simp [slotLeft], Nat.le_refl _, fun _ _ _ => rfl,
      fun h _ => (getD_push _ _ _ _).trans (if_neg (Nat.ne_of_lt h)), fun _ _ => rfl, Nat.le_refl _⟩,
    .refl _ _, rfl, rfl, rfl, by simp [Touch.none]⟩

/-- The pair after a value was raised : it went into the slot on the left and into the temporary on
the right. -/
def storeAimed (m : Aim) (v v' : Value) (hm : Aimed c m) : Twin S where
  world := c.world
  left := { c.left with slots := c.left.slots.setIfInBounds m.slot v }
  right := c.right.declare m.scope m.name ⟨v', true⟩
  agree := by
    have hs := c.agree.slots
    refine ⟨c.agree.scopes.declareTemp hm.temp _, c.agree.ids, ⟨fun h => ?_, hs.lt_right, hs.right_unique,
      hs.left_unique, fun {i j} h => ?_⟩, c.agree.heap, c.agree.this, c.agree.depth, c.agree.output⟩
    · rw [Array.size_setIfInBounds]
      exact hs.lt_left h
    · have hne : i ≠ m.slot := fun he => hm.free j (he ▸ h)
      rw [getD_setIfInBounds, if_neg fun hc => hne hc.1]
      exact hs.values h

variable {c} in
theorem later_storeAimed {m : Aim} {v : Value} (hm : Aimed c m) (hv : Alike S c.world v v') (hs : t.slot m.slot)
    (hc : t.cell m.scope m.name) (ha : t.aim = some m) : Later n t c (c.storeAimed m v v' hm) where
  world := World.le_refl _
  ids := Or.inl
  slots := Or.inl
  left := by
    refine ⟨Nat.le_refl _, Nat.le_refl _, by simp [storeAimed], Nat.le_refl _, fun _ _ _ => rfl,
      fun {i} _ hi => ?_, fun _ _ => rfl, Nat.le_refl _⟩
    have hne : i ≠ m.slot := fun he => hi (he ▸ hs)
    exact (getD_setIfInBounds _ _ _ _ _).trans (if_neg fun h => hne h.1)
  right := by
    refine ⟨by simp [storeAimed], fun {i y} _ _ hi => ?_⟩
    have hne : ¬ (i = m.scope ∧ y = m.name ∧ m.scope < c.right.scopes.size) := by
      rintro ⟨rfl, rfl, -⟩
      exact hi hc
    exact (Machine.lookupIn_declare _ _ _ _ _ _).trans (if_neg hne)
  this_left := rfl
  this_right := rfl
  depth := rfl
  aim m' hm' _ := by
    obtain rfl : m = m' := by simpa [ha] using hm'
    obtain ⟨u, hu, -⟩ := hm.stored
    refine ⟨hm.temp, by simpa [storeAimed] using hm.lt, hm.free, v', ?_, ?_⟩
    · exact (Machine.lookupIn_declare _ _ _ _ _ _).trans (if_pos ⟨rfl, rfl, lt_of_lookupIn hu⟩)
    · have : (c.storeAimed m v v' hm).left.slots.getD m.slot .undefined = v :=
        (getD_setIfInBounds _ _ _ _ _).trans (if_pos ⟨rfl, hm.lt⟩)
      rw [this]
      exact hv

end Twin

end RaiseScript
