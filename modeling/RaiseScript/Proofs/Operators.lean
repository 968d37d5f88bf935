import RaiseScript.Proofs.Primitives

/-!
# Properties and operators on both sides

Reading and writing properties and applying operators do the same on both sides of a pair of
machines. A property that is stable is written by neither.
-/

namespace RaiseScript

variable {S : Setting} {α : Type} {n : Nat} {t : Touch} {c : Twin S}
variable {o o' i i' v v' a a' b b' : Value} {w : World} {us us' : List Value}

/-! ## Properties -/

theorem meets_getProperty (hn : n ≤ c.left.nextId) (h : Alike S c.world o o') (q : String) :
    Meets n t c (getProperty o q c.left) (fun _ => getProperty o' q) AlikeIn := by
  cases h with
  | undefined => exact meets_mistake _
  | null => exact meets_mistake _
  | bool b => exact .pure .undefined
  | number x => exact .pure .undefined
  | string s =>
    unfold getProperty
    dsimp only
    split
    · exact .pure (.number _)
    · exact .pure .undefined
  | object a =>
    have h := c.agree.heap.lookup a q
    refine .gives c (((c.left.heap.fields a).lookup q).getD .undefined)
      (((c.right.heap.fields a).lookup q).getD .undefined) (.refl n t c) rfl (.of_eq fun _ => rfl) ?_
    generalize (c.left.heap.fields a).lookup q = v, (c.right.heap.fields a).lookup q = v' at h
    cases h with
    | none => exact .undefined
    | some h => exact h
  | array a =>
    unfold getProperty
    dsimp only
    split
    · refine .gives c (countValue (c.left.heap.items a).size)
        (countValue (c.right.heap.items a).size) (.refl n t c) rfl (.of_eq fun _ => rfl) ?_
      rw [c.agree.heap.itemsSize]
      exact .number _
    · split
      · exact meets_newNative .push hn
      · exact .pure .undefined
  | closure | native =>
    unfold getProperty
    dsimp only
    split
    · exact meets_newNative .call hn
    · exact .pure .undefined

/-- Keys that do not select an item are names. -/
theorem meets_getNamed (hn : n ≤ c.left.nextId) (ho : Alike S c.world o o') (hi : Alike S c.world i i') :
    Meets n t c ((toText i >>= getProperty o) c.left) (fun _ => toText i' >>= getProperty o') AlikeIn := by
  refine (meets_toText hi).seq fun b q q' hl hq => ?_
  subst hq
  exact meets_getProperty (Nat.le_trans hn hl.left.nextId) (ho.mono hl.world) q'

theorem getD_getElem?_alike (h : List.Forall₂ (Alike S w) us us') (i : Nat) :
    Alike S w ((us[i]?).getD .undefined) ((us'[i]?).getD .undefined) := by
  induction h generalizing i with
  | nil => exact .undefined
  | cons hu _ ih =>
    cases i with
    | zero => exact hu
    | succ i => simpa using ih i

theorem meets_getIndex (hn : n ≤ c.left.nextId) (ho : Alike S c.world o o') (hi : Alike S c.world i i') :
    Meets n t c (getIndex o i c.left) (fun _ => getIndex o' i') AlikeIn := by
  have hnamed := meets_getNamed (t := t) hn ho hi
  cases ho with
  | array a =>
    cases hi with
    | number x =>
      refine .gives c _ _ (.refl n t c) rfl (.of_eq fun _ => rfl) ?_
      show Alike S c.world (((position? x (c.left.heap.items a).size).bind ((c.left.heap.items a)[·]?)).getD _)
        (((position? x (c.right.heap.items a).size).bind ((c.right.heap.items a)[·]?)).getD _)
      rw [c.agree.heap.itemsSize]
      cases position? x (c.left.heap.items a).size with
      | none => exact .undefined
      | some k => simpa using getD_getElem?_alike (c.agree.heap.items a) k
    | _ => exact hnamed
  | string s =>
    cases hi with
    | number x =>
      refine .gives c _ _ (.refl n t c) rfl (.of_eq fun _ => rfl) ?_
      cases (position? x positionBound).bind (s.toList[·]?) with
      | none => exact .undefined
      | some c => exact .string _
    | _ => exact hnamed
  | _ => exact hnamed

theorem set_alike (hu : List.Forall₂ (Alike S w) us us') (i : Nat) (hv : Alike S w v v') :
    List.Forall₂ (Alike S w) (us.set i v) (us'.set i v') := by
  induction hu generalizing i with
  | nil => exact .nil
  | cons hx hxs ih =>
    cases i with
    | zero => exact .cons hv hxs
    | succ i => exact .cons hx (ih i)

theorem replicate_alike (w : World) (k : Nat) : List.Forall₂ (Alike S w)
    (List.replicate k .undefined) (List.replicate k .undefined) := by
  induction k with
  | zero => exact .nil
  | succ k ih => exact .cons .undefined ih

theorem setItem_alike {us us' : Array Value} (i : Nat) (hu : List.Forall₂ (Alike S w) us.toList us'.toList)
    (hv : Alike S w v v') : List.Forall₂ (Alike S w) (setItem us i v).toList (setItem us' i v').toList := by
  have hsize : us'.size = us.size := by simpa using hu.length_eq.symm
  unfold setItem
  rw [hsize]
  split
  · simpa only [Array.toList_setIfInBounds] using set_alike hu i hv
  · simp only [Array.toList_push, Array.toList_append, Array.toList_replicate]
    exact List.rel_append (List.rel_append hu (replicate_alike w _)) (.cons hv .nil)

/-- Key and property are such that a write does not change a stable property. -/
def WritesFreely (S : Setting) (key : Value) : Prop :=
  (∃ q, key = .string q ∧ ¬ S.Stable q) ∨ ∀ q, ¬ S.Stable q

theorem meets_toText_key (hi : Alike S c.world i i') (hw : WritesFreely S i) :
    Meets n t c (toText i c.left) (fun _ => toText i') (fun _ q q' => q' = q ∧ ¬ S.Stable q) := by
  rcases hw with ⟨q, rfl, hq⟩ | hw
  · cases hi
    exact .gives c q q (.refl n t c) rfl (.of_eq fun _ => rfl) ⟨rfl, hq⟩
  · exact (meets_toText hi).imp fun _ q _ _ _ h => ⟨h, hw q⟩

theorem meets_setIndex (ho : Alike S c.world o o') (hi : Alike S c.world i i') (hv : Alike S c.world v v')
    (hw : WritesFreely S i) : Meets n t c (setIndex o i v c.left) (fun _ => setIndex o' i' v') Anything := by
  have hnothing : Meets n t c (.ok () c.left : Result Unit) (fun _ => (pure () : Run Unit)) Anything :=
    .pure trivial
  have hmistake (text : String) : Meets n t c
      (misuseOf (.writeToNothing text <$> toText i) c.left : Result Unit)
      (fun _ => (misuseOf (.writeToNothing text <$> toText i') : Run Unit)) Anything := by
    refine meets_misuseOf ?_
    simp only [map_eq_pure_bind]
    refine (meets_toText hi).seq fun b q q' _ hq => ?_
    subst hq
    exact .pure rfl
  cases ho with
  | undefined => exact hmistake _
  | null => exact hmistake _
  | object a =>
    have (name : String) : Rising (modify fun m : Machine => { m with heap :=
        { m.heap with objects := m.heap.objects.modify a (Fields.insert name v) } } : Run PUnit) :=
      rising_modify fun _ => {}
    refine Meets.seq (meets_toText_key hi hw) fun b q q' hl hq => ?_
    obtain ⟨rfl, hq⟩ := hq
    have hm := b.agree.heap.modifyObject a fun _ _ => Fields.insert_alike q' (hv.mono hl.world)
    refine .gives (b.withHeaps _ _ hm) _ _
      ((Twin.later_withHeaps n hm (by simp) fun {k p} _ hp => ?_).within .none) rfl
      (.of_eq fun _ => rfl) trivial
    simp only [Heap.fields, getD_modify]
    split
    · have hne : p ≠ q' := fun h => hq (h ▸ hp)
      rw [Fields.lookup_insert, if_neg hne]
    · rfl
  | array a =>
    cases hi with
    | number x =>
      unfold setIndex
      dsimp only
      cases position? x positionBound with
      | none => exact hnothing
      | some k =>
        have hm := c.agree.heap.modifyArray a fun _ _ hu => setItem_alike k hu hv
        exact .gives (c.withHeaps _ _ hm) _ _
          ((Twin.later_withHeaps n hm (Nat.le_refl _) fun _ _ => rfl).within .none) rfl
          (.of_eq fun _ => rfl) trivial
    | _ => exact hnothing
  | _ => exact hnothing

/-! ## Operators -/

theorem meets_applyUnary (op : UnaryOp) (h : Alike S c.world a a') :
    Meets n t c (applyUnary op a c.left) (fun _ => applyUnary op a') AlikeIn := by
  cases op with
  | not =>
    unfold applyUnary
    rw [h.truthy]
    exact .pure (.bool _)
  | typeName =>
    unfold applyUnary
    rw [h.typeName]
    exact .pure (.string _)
  | negate =>
    refine (meets_toNumber h).seq fun b x x' _ hx => ?_
    subst hx
    exact .pure (.number _)

theorem meets_onNumbers (f : Float → Float → α) (ha : Alike S c.world a a') (hb : Alike S c.world b b') :
    Meets n t c (onNumbers f a b c.left) (fun _ => onNumbers f a' b') (fun _ x x' => x' = x) := by
  refine (meets_toNumber ha).seq fun d x x' hl hx => ?_
  refine (meets_toNumber (hb.mono hl.world)).seq fun e y y' _ hy => ?_
  subst hx hy
  exact .pure rfl

theorem meets_arithmetic (f : Float → Float → Float) (ha : Alike S c.world a a') (hb : Alike S c.world b b') :
    Meets n t c ((Value.number <$> onNumbers f a b : Run Value) c.left)
      (fun _ => Value.number <$> onNumbers f a' b') AlikeIn := by
  simp only [map_eq_pure_bind]
  refine (meets_onNumbers f ha hb).seq fun d x x' _ hx => ?_
  subst hx
  exact .pure (.number _)

theorem meets_compareWith (f : String → String → Bool) (g : Float → Float → Bool)
    (ha : Alike S c.world a a') (hb : Alike S c.world b b') :
    Meets n t c (compareWith f g a b c.left) (fun _ => compareWith f g a' b') AlikeIn := by
  have hnumbers : Meets n t c ((onNumbers g a b >>= fun x => pure (.bool x) : Run Value) c.left)
      (fun _ => onNumbers g a' b' >>= fun x => pure (.bool x)) AlikeIn := by
    refine (meets_onNumbers g ha hb).seq fun d x x' _ hx => ?_
    subst hx
    exact .pure (.bool _)
  cases ha with
  | string s =>
    cases hb with
    | string s' => exact .pure (.bool _)
    | _ => exact hnumbers
  | _ => exact hnumbers

theorem meets_applyBinary (op : BinaryOp) (ha : Alike S c.world a a') (hb : Alike S c.world b b') :
    Meets n t c (applyBinary op a b c.left) (fun _ => applyBinary op a' b') AlikeIn := by
  cases op with
  | add =>
    unfold applyBinary
    dsimp only
    rw [ha.joins, hb.joins]
    split
    · refine (meets_toText ha).seq fun d x x' hl hx => ?_
      refine (meets_toText (hb.mono hl.world)).seq fun e y y' _ hy => ?_
      subst hx hy
      exact .pure (.string _)
    · exact meets_arithmetic _ ha hb
  | subtract | multiply | divide | remainder => exact meets_arithmetic _ ha hb
  | equal | notEqual =>
    unfold applyBinary
    dsimp only
    rw [c.agree.ids.looselyEquals ha hb]
    exact .pure (.bool _)
  | strictEqual | strictNotEqual =>
    unfold applyBinary
    dsimp only
    rw [c.agree.ids.strictlyEquals ha hb]
    exact .pure (.bool _)
  | less | lessEqual | greater | greaterEqual => exact meets_compareWith _ _ ha hb

end RaiseScript
