import RaiseScript.Proofs.Rounded
import RaiseScript.Json.Basic

/-!
# Equality of data

`Json.same` compares objects one way only : they have as many fields, and each field of the first
one has an equal one of the same name in the second. On values whose objects have each name once and
whose numbers are finite (`Json.Proper`) this is an equivalence all the same, since there are no
other names in the second object. It does not depend on the order of fields or on the spelling of
numbers (`Json.Respelled`).
-/

namespace RaiseScript.Json

variable {x : Float} {a b : Json} {as bs : List (String × Json)}

/-- Numbers are finite, and each name of an object occurs once. -/
inductive Proper : Json → Prop
  | null : Proper .null
  | bool (b : Bool) : Proper (.bool b)
  | whole (n : Int) : Proper (.whole n)
  | real (x : Float) (hx : x.isFinite = true) : Proper (.real x)
  | string (s : String) : Proper (.string s)
  | array (items : List Json) (h : ∀ a ∈ items, Proper a) : Proper (.array items)
  | object (fields : List (String × Json)) (names : (fields.map Prod.fst).Nodup)
    (h : ∀ f ∈ fields, Proper f.2) : Proper (.object fields)

/-- The second value is the first one with other spellings of its numbers and with the fields of
objects in another order. -/
inductive Respelled : Json → Json → Prop
  | refl (a : Json) : Respelled a a
  | number {a b : Json} {x y : Float} (ha : a.number? = some x) (hb : b.number? = some y)
    (h : (x == y) = true) : Respelled a b
  | array {as bs : List Json} (hl : as.length = bs.length)
    (h : ∀ i (ha : i < as.length) (hb : i < bs.length), Respelled as[i] bs[i]) : Respelled (.array as) (.array bs)
  | object {as bs cs : List (String × Json)} (hl : as.map Prod.fst = bs.map Prod.fst)
    (h : ∀ i (ha : i < as.length) (hb : i < bs.length), Respelled as[i].2 bs[i].2) (hp : bs.Perm cs) :
    Respelled (.object as) (.object cs)

/-! ## Numbers -/

theorem ne_nan_of_isFinite (h : x.isFinite = true) : x ≠ Float.nan := by
  rintro rfl
  revert h
  decide

theorem ofWhole_ne_nan (n : Int) : ofWhole n ≠ Float.nan := by
  intro h
  have hle := nearestBits_le n.natAbs 1
  unfold ofWhole floatOfBits at h
  have hbits := congrArg Float.toBits h
  rw [toBits_ofBits (by split <;> simp [infinityBits] at hle ⊢ <;> omega), ← UInt64.toNat_inj] at hbits
  have hnan : Float.nan.toBits.toNat = 9221120237041090560 := by decide
  rw [hnan] at hbits
  split at hbits <;> simp [infinityBits] at hle hbits <;> omega

theorem Proper.number_self (h : a.Proper) (hx : a.number? = some x) : (x == x) = true := by
  rw [Float.beq_self_iff]
  cases h with
  | whole n => exact Option.some.inj hx ▸ ofWhole_ne_nan n
  | real y hy => exact Option.some.inj hx ▸ ne_nan_of_isFinite hy
  | _ => cases hx

/-- Numbers are the same if their values are. -/
theorem same_of_number (ha : a.number? = some x) :
    a.same b = true ↔ ∃ y, b.number? = some y ∧ (x == y) = true := by
  cases a <;> cases ha <;> cases b <;> simp [same, number?]

/-! ## Arrays and objects -/

theorem sameItems_iff {as bs : List Json} : sameItems as bs = true ↔ as.length = bs.length ∧
    ∀ i (ha : i < as.length) (hb : i < bs.length), same as[i] bs[i] = true := by
  induction as generalizing bs with
  | nil => cases bs <;> simp [sameItems]
  | cons a as ih =>
    cases bs with
    | nil => simp [sameItems]
    | cons b bs =>
      simp only [sameItems, Bool.and_eq_true, ih, List.length_cons, Nat.add_right_cancel_iff]
      constructor
      · rintro ⟨h, hl, hs⟩
        refine ⟨hl, fun i ha hb => ?_⟩
        cases i with
        | zero => exact h
        | succ i => exact hs i (by simpa using ha) (by simpa using hb)
      · rintro ⟨hl, hs⟩
        exact ⟨hs 0 (by simp) (by simp), hl, fun i ha hb => hs (i + 1) (by simpa using ha) (by simpa using hb)⟩

theorem sameFields_iff :
    sameFields as bs = true ↔ ∀ f ∈ as, ∃ b, bs.lookup f.1 = some b ∧ f.2.same b = true := by
  induction as with
  | nil => simp [sameFields]
  | cons f as ih =>
    obtain ⟨k, a⟩ := f
    cases h : bs.lookup k <;> simp [sameFields, ih, h]

theorem lookup_eq_some_iff {fields : List (String × Json)} (h : (fields.map Prod.fst).Nodup)
    {k : String} : fields.lookup k = some a ↔ (k, a) ∈ fields := by
  induction fields with
  | nil => simp
  | cons f fields ih =>
    obtain ⟨k', a'⟩ := f
    rw [List.map_cons, List.nodup_cons] at h
    rw [List.lookup_cons]
    by_cases hk : k = k'
    · subst hk
      have hnone : (k, a) ∉ fields := fun hm => h.1 (List.mem_map.2 ⟨_, hm, rfl⟩)
      simp [hnone, eq_comm]
    · simp [beq_false_of_ne hk, hk, ih h.2]

theorem same_object_iff (hb : (bs.map Prod.fst).Nodup) :
    (object as).same (object bs) = true ↔ as.length = bs.length ∧
      ∀ f ∈ as, ∃ b, (f.1, b) ∈ bs ∧ f.2.same b = true := by
  simp only [same, Bool.and_eq_true, beq_iff_eq, sameFields_iff, lookup_eq_some_iff hb]

/-- If there are as many names on both sides, then all names of the second object are names of the
first one. -/
theorem mem_names (ha : (as.map Prod.fst).Nodup) (hl : as.length = bs.length)
    (h : ∀ f ∈ as, ∃ b, (f.1, b) ∈ bs) {g : String × Json} (hg : g ∈ bs) : ∃ a, (g.1, a) ∈ as := by
  have hsub : as.map Prod.fst ⊆ bs.map Prod.fst := by
    intro k hk
    obtain ⟨f, hf, rfl⟩ := List.mem_map.1 hk
    obtain ⟨b, hb⟩ := h f hf
    exact List.mem_map.2 ⟨_, hb, rfl⟩
  have hperm := (ha.subperm hsub).perm_of_length_le (by simp [hl])
  obtain ⟨f, hf, hk⟩ := List.mem_map.1 (hperm.mem_iff.2 (List.mem_map_of_mem hg))
  exact ⟨f.2, hk ▸ hf⟩

/-! ## The equivalence -/

theorem Proper.same_self (h : a.Proper) : a.same a = true := by
  induction h with
  | null | bool | string => simp [same]
  | whole n => exact (same_of_number rfl).2 ⟨_, rfl, (Proper.whole n).number_self rfl⟩
  | real x hx => exact (same_of_number rfl).2 ⟨_, rfl, (Proper.real x hx).number_self rfl⟩
  | array items _ ih => exact sameItems_iff.2 ⟨rfl, fun i hi _ => ih _ (List.getElem_mem hi)⟩
  | object fields names _ ih => exact (same_object_iff names).2 ⟨rfl, fun f hf => ⟨f.2, hf, ih f hf⟩⟩

/-- Numbers are the same the other way round. -/
theorem same_symm_of_number (ha : a.number? = some x) (h : a.same b = true) : b.same a = true := by
  obtain ⟨y, hb, hxy⟩ := (same_of_number ha).1 h
  exact (same_of_number hb).2 ⟨x, ha, BEq.symm hxy⟩

theorem Proper.same_symm (ha : a.Proper) (hb : b.Proper) (h : a.same b = true) : b.same a = true := by
  induction ha generalizing b with
  | whole | real => exact same_symm_of_number rfl h
  | null | bool | string => cases hb <;> simp_all [same]
  | array as _ ih =>
    cases hb with
    | array bs hbs =>
      obtain ⟨hl, hs⟩ := sameItems_iff.1 h
      exact sameItems_iff.2 ⟨hl.symm, fun i hi hi' =>
        ih _ (List.getElem_mem hi') (hbs _ (List.getElem_mem hi)) (hs i hi' hi)⟩
    | _ => simp [same] at h
  | object as names _ ih =>
    cases hb with
    | object bs names' hbs =>
      obtain ⟨hl, hs⟩ := (same_object_iff names').1 h
      refine (same_object_iff names).2 ⟨hl.symm, fun g hg => ?_⟩
      obtain ⟨a, ha⟩ := mem_names names hl (fun f hf => (hs f hf).imp fun _ => And.left) hg
      obtain ⟨b, hb, hab⟩ := hs _ ha
      obtain rfl : b = g.2 :=
        Option.some.inj (((lookup_eq_some_iff names').2 hb).symm.trans ((lookup_eq_some_iff names').2 hg))
      exact ⟨a, ha, ih _ ha (hbs g hg) hab⟩
    | _ => simp [same] at h

theorem Proper.same_trans {c : Json} (ha : a.Proper) (hb : b.Proper) (hc : c.Proper)
    (hab : a.same b = true) (hbc : b.same c = true) : a.same c = true := by
  induction ha generalizing b c with
  | whole | real =>
    obtain ⟨y, hy, hxy⟩ := (same_of_number rfl).1 hab
    obtain ⟨z, hz, hyz⟩ := (same_of_number hy).1 hbc
    exact (same_of_number rfl).2 ⟨z, hz, BEq.trans hxy hyz⟩
  | null => cases b <;> simp [same] at hab; exact hbc
  | bool | string => cases b <;> simp [same] at hab; exact hab ▸ hbc
  | array as _ ih =>
    cases hb with
    | array bs hbs =>
      cases hc with
      | array cs hcs =>
        obtain ⟨hl, hs⟩ := sameItems_iff.1 hab
        obtain ⟨hl', hs'⟩ := sameItems_iff.1 hbc
        exact sameItems_iff.2 ⟨hl.trans hl', fun i hi hi' => ih _ (List.getElem_mem hi)
          (hbs _ (List.getElem_mem (hl ▸ hi))) (hcs _ (List.getElem_mem hi')) (hs i hi _) (hs' i _ hi')⟩
      | _ => simp [same] at hbc
    | _ => simp [same] at hab
  | object as names _ ih =>
    cases hb with
    | object bs names' hbs =>
      cases hc with
      | object cs names'' hcs =>
        obtain ⟨hl, hs⟩ := (same_object_iff names').1 hab
        obtain ⟨hl', hs'⟩ := (same_object_iff names'').1 hbc
        refine (same_object_iff names'').2 ⟨hl.trans hl', fun f hf => ?_⟩
        obtain ⟨b, hb, hab⟩ := hs f hf
        obtain ⟨c, hc, hbc⟩ := hs' _ hb
        exact ⟨c, hc, ih f hf (hbs _ hb) (hcs _ hc) hab hbc⟩
      | _ => simp [same] at hbc
    | _ => simp [same] at hab

theorem Proper.same_respelled (ha : a.Proper) (h : a.Respelled b) : a.same b = true := by
  induction h with
  | refl => exact ha.same_self
  | number hx hy h => exact (same_of_number hx).2 ⟨_, hy, h⟩
  | array hl _ ih =>
    cases ha with
    | array _ has => exact sameItems_iff.2 ⟨hl, fun i hi hi' => ih i hi hi' (has _ (List.getElem_mem hi))⟩
  | @object as bs cs hl _ hp ih =>
    cases ha with
    | object _ names has =>
      have hlength : as.length = bs.length := by simpa using congrArg List.length hl
      have names' : (cs.map Prod.fst).Nodup := (hp.map Prod.fst).nodup_iff.1 (hl ▸ names)
      refine (same_object_iff names').2 ⟨hlength.trans hp.length_eq, fun f hf => ?_⟩
      obtain ⟨i, hi, rfl⟩ := List.mem_iff_getElem.1 hf
      have hname : as[i].1 = bs[i].1 := by simpa [hi, hlength ▸ hi] using congrArg (·[i]?) hl
      refine ⟨bs[i].2, hp.mem_iff.1 ?_, ih i hi (hlength ▸ hi) (has _ hf)⟩
      rw [hname]
      exact List.getElem_mem _

/-- Equality of data is an equivalence on values with finite numbers whose objects have each name
once, and a value is equal to what other spellings of its numbers and other orders of its fields
make of it. -/
theorem same_equivalence :
    Equivalence (fun a b : { a : Json // a.Proper } => a.1.same b.1 = true) ∧
    ∀ a b : Json, a.Proper → a.Respelled b → a.same b = true :=
  ⟨⟨fun a => a.2.same_self, fun {a b} => a.2.same_symm b.2, fun {a b c} => a.2.same_trans b.2 c.2⟩,
    fun _ _ => Proper.same_respelled⟩

/-- A number in another spelling, in an object with its fields in another order. -/
theorem same_equivalence_of_respelledObject :
    (object [("n", whole 1), ("s", array [string "x"])]).same
      (object [("s", array [string "x"]), ("n", real 1)]) = true := by
  refine same_equivalence.2 _ _ (.object _ (by decide) ?_) ?_
  · exact List.forall_mem_cons.2
      ⟨.whole 1, List.forall_mem_singleton.2 (.array _ (List.forall_mem_singleton.2 (.string "x")))⟩
  · refine @Respelled.object _ [("n", real 1), ("s", array [string "x"])] _ rfl (fun i hi _ => ?_) (.swap _ _ _)
    obtain _ | _ | i := i
    · exact .number rfl rfl (by decide +kernel)
    · exact .refl _
    · simp at hi

end RaiseScript.Json
