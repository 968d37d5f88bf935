import RaiseScript.Proofs.Rising
import RaiseScript.Lowering.Hoist
import Mathlib.Data.List.Forall2

/-!
# Machines that are alike

Two machines run two forms of one program : the left one runs try expressions in place, the right
one runs what became of them. Their scopes and their functions are numbered differently, and the
right machine has temporaries that the left one knows nothing of. A `World` says which numbers
belong together, and `Matches` says that the machines are the same up to these numbers and to the
temporaries of the right one.

What can be seen of values is the same on both sides : their kind, their truth, their text and which
of them are equal.
-/

namespace RaiseScript

variable {c c' : List Link} {a a' : Value}

/-- What is fixed when two runs are compared. -/
structure Setting where
  /-- What lowering took for granted about the code. -/
  surroundings : Surroundings
  /-- The names of temporaries. -/
  temp : String → Prop
  /-- Which functions on the right belong to which on the left. -/
  code : Func → Func → Prop
  /-- They differ in their bodies only. -/
  same_head : ∀ {f f'}, code f f' → f'.name = f.name ∧ f'.params = f.params ∧ f'.form = f.form
  /-- Parameters are no temporaries. -/
  params_apart : ∀ {f f'}, code f f' → ∀ x ∈ f.params, ¬ temp x
  /-- Whether runs in which the program makes a mistake are left out of account. -/
  faultless : Bool
  /-- If all code is known, they are. -/
  closed_faultless : surroundings.isOpen = false → faultless = true

/-- Which scopes, functions and slots of two machines belong together. Some scopes of the right
machine are extra. -/
structure World where
  scopes : Nat → Nat → Prop
  extra : Nat → Prop
  ids : Nat → Nat → Prop
  slots : Nat → Nat → Prop

/-- A world that knows at least as much. -/
structure World.Le (v w : World) : Prop where
  scopes : ∀ {i j}, v.scopes i j → w.scopes i j
  extra : ∀ {j}, v.extra j → w.extra j
  ids : ∀ {i j}, v.ids i j → w.ids i j
  slots : ∀ {i j}, v.slots i j → w.slots i j

instance : LE World := ⟨World.Le⟩

theorem World.le_refl (w : World) : w ≤ w :=
  ⟨id, id, id, id⟩

theorem World.le_trans {u v w : World} (h : u ≤ v) (h' : v ≤ w) : u ≤ w :=
  ⟨fun x => h'.scopes (h.scopes x), fun x => h'.extra (h.extra x), fun x => h'.ids (h.ids x),
    fun x => h'.slots (h.slots x)⟩

/-- The same scopes in the same order, but for extra ones on the right. -/
inductive Chains (w : World) : List Link → List Link → Prop
  | nil : Chains w [] []
  | link {l l' : Link} {c c' : List Link} (h : w.scopes l.scope l'.scope)
    (hb : l'.isBody = l.isBody) (hc : Chains w c c') : Chains w (l :: c) (l' :: c')
  | extra {l' : Link} {c c' : List Link} (h : w.extra l'.scope) (hb : l'.isBody = false)
    (hc : Chains w c c') : Chains w c (l' :: c')

variable (S : Setting)

/-- The same value, up to numbers and to the code of functions. -/
inductive Alike (w : World) : Value → Value → Prop
  | undefined : Alike w .undefined .undefined
  | null : Alike w .null .null
  | bool (b : Bool) : Alike w (.bool b) (.bool b)
  | number (x : Float) : Alike w (.number x) (.number x)
  | string (s : String) : Alike w (.string s) (.string s)
  | array (a : Nat) : Alike w (.array a) (.array a)
  | object (a : Nat) : Alike w (.object a) (.object a)
  | closure {i j : Nat} {f f' : Func} {env env' : Env} {this this' : Value} (hid : w.ids i j)
    (hf : S.code f f') (hc : Chains w env.chain env'.chain) (ht : Alike w this this') :
    Alike w (.closure i f env this) (.closure j f' env' this')
  | native {i j : Nat} (kind : Native) (hid : w.ids i j) : Alike w (.native i kind) (.native j kind)

variable {S} {v w : World}

theorem Chains.mono (h : v ≤ w) (hc : Chains v c c') : Chains w c c' := by
  induction hc with
  | nil => exact .nil
  | link hs hb _ ih => exact .link (h.scopes hs) hb ih
  | extra hs hb _ ih => exact .extra (h.extra hs) hb ih

theorem Alike.mono (h : v ≤ w) (ha : Alike S v a a') : Alike S w a a' := by
  induction ha with
  | closure hid hf hc _ ih => exact .closure (h.ids hid) hf (hc.mono h) ih
  | native kind hid => exact .native kind (h.ids hid)
  | _ => constructor

/-! ## Machines -/

variable (S)

/-- The same binding, up to the numbers in its value. -/
structure BoundAlike (w : World) (b b' : Binding) : Prop where
  value : Alike S w b.value b'.value
  isMutable : b'.isMutable = b.isMutable

/-- Scopes that belong together bind the same names to the same values. Names of temporaries do not
count, and extra scopes bind nothing else. -/
structure ScopesMatch (w : World) (scopes scopes' : Array Scope) : Prop where
  lt_left : ∀ {i j}, w.scopes i j → i < scopes.size
  lt_right : ∀ {i j}, w.scopes i j → j < scopes'.size
  right_unique : ∀ {i j j'}, w.scopes i j → w.scopes i j' → j = j'
  left_unique : ∀ {i i' j}, w.scopes i j → w.scopes i' j → i = i'
  bindings : ∀ {i j x}, w.scopes i j → ¬ S.temp x →
    Option.Rel (BoundAlike S w) (lookupIn scopes i x) (lookupIn scopes' j x)
  extra_lt : ∀ {j}, w.extra j → j < scopes'.size
  extra_apart : ∀ {i j}, w.extra j → ¬ w.scopes i j
  extra_bindings : ∀ {j x}, w.extra j → ¬ S.temp x → lookupIn scopes' j x = none

/-- The numbers of functions belong together one by one. -/
structure IdsMatch (ids : Nat → Nat → Prop) (n n' : Nat) : Prop where
  lt_left : ∀ {i j}, ids i j → i < n
  lt_right : ∀ {i j}, ids i j → j < n'
  right_unique : ∀ {i j j'}, ids i j → ids i j' → j = j'
  left_unique : ∀ {i i' j}, ids i j → ids i' j → i = i'

/-- Slots that belong together hold the same value. -/
structure SlotsMatch (w : World) (slots slots' : Array Value) : Prop where
  lt_left : ∀ {i j}, w.slots i j → i < slots.size
  lt_right : ∀ {i j}, w.slots i j → j < slots'.size
  right_unique : ∀ {i j j'}, w.slots i j → w.slots i j' → j = j'
  left_unique : ∀ {i i' j}, w.slots i j → w.slots i' j → i = i'
  values : ∀ {i j}, w.slots i j →
    Alike S w (slots.getD i .undefined) (slots'.getD j .undefined)

/-- The same field, up to the numbers in its value. -/
def FieldAlike (w : World) (f f' : String × Value) : Prop :=
  f.1 = f'.1 ∧ Alike S w f.2 f'.2

/-- The same arrays and objects at the same addresses. -/
structure HeapMatch (w : World) (h h' : Heap) : Prop where
  arrays : h'.arrays.size = h.arrays.size
  objects : h'.objects.size = h.objects.size
  items : ∀ a, List.Forall₂ (Alike S w) (h.items a).toList (h'.items a).toList
  fields : ∀ a, List.Forall₂ (FieldAlike S w) (h.fields a) (h'.fields a)

/-- The machines are the same, up to the numbers that belong together and to temporaries. -/
structure Matches (w : World) (m m' : Machine) : Prop where
  scopes : ScopesMatch S w m.scopes m'.scopes
  ids : IdsMatch w.ids m.nextId m'.nextId
  slots : SlotsMatch S w m.slots m'.slots
  heap : HeapMatch S w m.heap m'.heap
  this : Alike S w m.this m'.this
  depth : m'.depth = m.depth
  output : m'.output = m.output

variable {S}

theorem BoundAlike.mono (h : v ≤ w) {b b' : Binding} (hb : BoundAlike S v b b') : BoundAlike S w b b' :=
  ⟨hb.value.mono h, hb.isMutable⟩

theorem FieldAlike.mono (h : v ≤ w) {f f' : String × Value} (hf : FieldAlike S v f f') :
    FieldAlike S w f f' :=
  ⟨hf.1, hf.2.mono h⟩

theorem HeapMatch.mono (h : v ≤ w) {a a' : Heap} (hm : HeapMatch S v a a') : HeapMatch S w a a' :=
  ⟨hm.arrays, hm.objects, fun i => (hm.items i).imp fun _ _ => Alike.mono h,
    fun i => (hm.fields i).imp fun _ _ => FieldAlike.mono h⟩

/-- A name that is no temporary is found in the same place. -/
theorem ScopesMatch.find? {m m' : Machine} (h : ScopesMatch S w m.scopes m'.scopes) {x : String}
    (hx : ¬ S.temp x) (hc : Chains w c c') :
    Option.Rel (fun p p' => w.scopes p.1 p'.1 ∧ BoundAlike S w p.2 p'.2) (m.find? x c) (m'.find? x c') := by
  induction hc with
  | nil => exact .none
  | @link l l' c c' hs hb _ ih =>
    have hbind := h.bindings hs hx
    rw [Machine.find?_cons, Machine.find?_cons]
    cases hl : lookupIn m.scopes l.scope x <;> cases hl' : lookupIn m'.scopes l'.scope x <;>
      rw [hl, hl'] at hbind <;>
      cases hbind
    · simpa using ih
    · exact .some ⟨hs, by assumption⟩
  | extra hs hb _ ih =>
    rw [Machine.find?_cons, h.extra_bindings hs hx]
    simpa using ih

/-! ## What can be seen of values -/

namespace Alike

variable {b b' : Value}

section

variable (h : Alike S w a a')

include h

theorem typeName : a'.typeName = a.typeName := by
  cases h <;> rfl

theorem truthy : a'.truthy = a.truthy := by
  cases h <;> rfl

theorem isNullish : a'.isNullish = a.isNullish := by
  cases h <;> rfl

theorem isPlain : a'.isPlain = a.isPlain := by
  cases h <;> rfl

theorem joins : a'.joins = a.joins := by
  cases h <;> rfl

theorem ownNumber : a'.ownNumber = a.ownNumber := by
  cases h <;> rfl

theorem ownText : a'.ownText = a.ownText := by
  cases h with
  | closure _ hf _ _ => simp only [Value.ownText, (S.same_head hf).1]
  | _ => rfl

end

theorem decides (op : LogicalOp) (h : Alike S w a a') : op.decides a' = op.decides a := by
  cases op <;> simp only [LogicalOp.decides, h.truthy, h.isNullish]

end Alike

theorem IdsMatch.beq {n n' i i' j j' : Nat} (h : IdsMatch w.ids n n') (hi : w.ids i j)
    (hi' : w.ids i' j') : (j == j') = (i == i') := by
  rw [Bool.eq_iff_iff, beq_iff_eq, beq_iff_eq]
  constructor
  · rintro rfl
    exact h.left_unique hi hi'
  · rintro rfl
    exact h.right_unique hi hi'

namespace IdsMatch

variable {n n' : Nat} {b b' : Value}

/-- Functions are equal on the right just when they are on the left. -/
theorem strictlyEquals (h : IdsMatch w.ids n n') (ha : Alike S w a a') (hb : Alike S w b b') :
    a'.strictlyEquals b' = a.strictlyEquals b := by
  cases ha <;> cases hb <;> first
    | rfl
    | (simp only [Value.strictlyEquals]; apply h.beq <;> assumption)

theorem looselyEquals (h : IdsMatch w.ids n n') (ha : Alike S w a a') (hb : Alike S w b b') :
    a'.looselyEquals b' = a.looselyEquals b := by
  simp only [Value.looselyEquals, ha.isNullish, hb.isNullish, ha.isPlain, hb.isPlain, ha.typeName,
    hb.typeName, ha.ownNumber, hb.ownNumber, h.strictlyEquals ha hb]

end IdsMatch

/-- The same computation for each of two lists of which the items belong together. -/
theorem mapM_congr_rel {α β γ : Type} {R : α → β → Prop} {f : α → Option γ} {g : β → Option γ}
    (hfg : ∀ a b, R a b → g b = f a) {as : List α} {bs : List β} (h : List.Forall₂ R as bs) :
    bs.mapM g = as.mapM f := by
  induction h with
  | nil => rfl
  | cons hab _ ih => rw [List.mapM_cons, List.mapM_cons, hfg _ _ hab, ih]

namespace HeapMatch

variable {h h' : Heap}

section

variable (hm : HeapMatch S w h h')

include hm

theorem depthBound : h'.depthBound = h.depthBound := by
  simp only [Heap.depthBound, Heap.size, hm.arrays, hm.objects]

theorem itemsSize (a : Nat) : (h'.items a).size = (h.items a).size := by
  simpa using (hm.items a).length_eq.symm

theorem lookup (a : Nat) (x : String) :
    Option.Rel (Alike S w) ((h.fields a).lookup x) ((h'.fields a).lookup x) := by
  have hf := hm.fields a
  generalize h.fields a = fs, h'.fields a = fs' at hf
  induction hf with
  | nil => exact .none
  | @cons f f' fs fs' hff _ ih =>
    obtain ⟨k, u⟩ := f
    obtain ⟨k', u'⟩ := f'
    obtain ⟨rfl, hu⟩ : k = k' ∧ Alike S w u u' := hff
    rw [lookup_cons_ite, lookup_cons_ite]
    split
    · exact .some hu
    · exact ih

theorem number? (ha : Alike S w a a') : ∀ depth, h'.number? depth a' = h.number? depth a := by
  intro depth
  induction depth generalizing a a' with
  | zero => simp only [Heap.number?]
  | succ depth ih =>
    cases ha with
    | array i =>
      have hi := hm.items i
      simp only [Heap.number?]
      generalize (h.items i).toList = us, (h'.items i).toList = us' at hi
      cases hi with
      | nil => rfl
      | cons hu hus =>
        cases hus with
        | nil => exact ih hu
        | cons => rfl
    | _ => rfl

theorem text? (ha : Alike S w a a') : ∀ depth, h'.text? depth a' = h.text? depth a := by
  intro depth
  induction depth generalizing a a' with
  | zero => simp only [Heap.text?]
  | succ depth ih =>
    cases ha with
    | array i =>
      simp only [Heap.text?]
      rw [mapM_congr_rel (f := fun v => if v.isNullish then some "" else h.text? depth v) _ (hm.items i)]
      intro u u' hu
      rw [hu.isNullish, ih hu]
    | object i =>
      have hn := hm.lookup i "name"
      have hs := hm.lookup i "message"
      simp only [Heap.text?]
      generalize (h.fields i).lookup "name" = n, (h'.fields i).lookup "name" = n' at hn
      generalize (h.fields i).lookup "message" = s, (h'.fields i).lookup "message" = s' at hs
      cases hn with
      | none => rfl
      | some hn =>
        cases hs with
        | none => rfl
        | some hs => simp only [ih hn, ih hs]
    | closure hid hf hc ht => simp only [Heap.text?, (Alike.closure hid hf hc ht).ownText]
    | _ => rfl

theorem nested? (ha : Alike S w a a') : ∀ depth, h'.nested? depth a' = h.nested? depth a := by
  intro depth
  induction depth generalizing a a' with
  | zero => simp only [Heap.nested?]
  | succ depth ih =>
    cases ha with
    | array i =>
      simp only [Heap.nested?]
      rw [mapM_congr_rel (f := h.nested? depth) (fun _ _ hu => ih hu) (hm.items i)]
    | object i =>
      simp only [Heap.nested?]
      rw [mapM_congr_rel (f := fun x => do return x.1 ++ ": " ++ (← h.nested? depth x.2)) _ (hm.fields i)]
      intro u u' hu
      rw [hu.1, ih hu.2]
    | closure hid hf hc ht => simp only [Heap.nested?, (Alike.closure hid hf hc ht).ownText]
    | _ => rfl

theorem shown? (ha : Alike S w a a') (depth : Nat) : h'.shown? depth a' = h.shown? depth a := by
  cases ha with
  | string s => rfl
  | _ => exact hm.nested? (by constructor <;> assumption) depth

end

end HeapMatch

end RaiseScript
