import RaiseScript.Machine.State
import Mathlib.Data.List.Nodup
import Mathlib.Data.List.Perm.Subperm
import Mathlib.Logic.Relation

/-!
# Values that contain themselves

An array or an object `Holds` its items and the values of its fields, and it contains itself if it
is held by something it holds, directly or further down. The conversions to numbers and texts go
down in this way. With a depth of one more than there are arrays and objects they give up only at a
value that leads to one which contains itself (`knotted_of_number?`, `knotted_of_text?`,
`knotted_of_shown?`), because on a way down that is longer than that some array or object comes
twice (`knotted_of_descends`).
-/

namespace RaiseScript

variable {v : Value} {α β : Type} {f : α → Option β}

namespace Heap

variable {h : Heap}

/-- The values that an array or an object holds. -/
def parts (h : Heap) : Value → List Value
  | .array address => (h.items address).toList
  | .object address => (h.fields address).map (·.2)
  | _ => []

/-- The value `v` holds the value `w`. -/
def Holds (h : Heap) (v w : Value) : Prop :=
  w ∈ h.parts v

/-- The value is held by something that it holds. -/
def ContainsItself (h : Heap) (v : Value) : Prop :=
  Relation.TransGen h.Holds v v

/-- The value leads to one that contains itself. -/
def Knotted (h : Heap) (v : Value) : Prop :=
  ∃ w, Relation.ReflTransGen h.Holds v w ∧ h.ContainsItself w

/-! ## Ways down -/

/-- There is a way down from the value with `n` levels. -/
def Descends (h : Heap) : Nat → Value → Prop
  | 0, _ => True
  | n + 1, v => ∃ w, h.Holds v w ∧ h.Descends n w

/-- All arrays and objects. -/
def containers (h : Heap) : List Value :=
  (List.range h.arrays.size).map .array ++ (List.range h.objects.size).map .object

theorem length_containers (h : Heap) : h.containers.length = h.size := by
  simp [containers, size]

theorem mem_containers_of_holds {w : Value} (hw : h.Holds v w) : v ∈ h.containers := by
  unfold Holds parts at hw
  split at hw
  · rename_i address
    have : address < h.arrays.size := by
      by_contra hlt
      simp [items, Array.getD_eq_getD_getElem?, Array.getElem?_eq_none (Nat.le_of_not_lt hlt)] at hw
    simp [containers, this]
  · rename_i address
    have : address < h.objects.size := by
      by_contra hlt
      simp [fields, Array.getD_eq_getD_getElem?, Array.getElem?_eq_none (Nat.le_of_not_lt hlt)] at hw
    simp [containers, this]
  · cases hw

/-- The arrays and objects on a way down, each above those after it. -/
theorem exists_way_of_descends : ∀ {n : Nat} {v : Value}, h.Descends n v →
    ∃ vs : List Value, vs.length = n ∧ vs ⊆ h.containers ∧ vs.Pairwise (Relation.TransGen h.Holds) ∧
      ∀ u ∈ vs, Relation.ReflTransGen h.Holds v u
  | 0, _, _ => ⟨[], rfl, by simp, .nil, by simp⟩
  | n + 1, v, ⟨w, hvw, hw⟩ => by
    obtain ⟨vs, hlength, hsub, hpair, hreach⟩ := exists_way_of_descends hw
    have hbelow : ∀ u ∈ vs, Relation.TransGen h.Holds v u := fun u hu => .head' hvw (hreach u hu)
    refine ⟨v :: vs, by simp [hlength], ?_, List.pairwise_cons.2 ⟨hbelow, hpair⟩, ?_⟩
    · exact List.cons_subset.2 ⟨mem_containers_of_holds hvw, hsub⟩
    · intro u hu
      rcases List.mem_cons.1 hu with rfl | hu
      · exact .refl
      · exact (hbelow u hu).to_reflTransGen

/-- On a way down with more levels than there are arrays and objects, one of them comes twice. -/
theorem knotted_of_descends (hv : h.Descends h.depthBound v) : h.Knotted v := by
  obtain ⟨vs, hlength, hsub, hpair, hreach⟩ := exists_way_of_descends hv
  by_contra hnone
  have hnodup : vs.Nodup := by
    refine hpair.imp_of_mem fun {a b} ha _ hab heq => hnone ⟨a, hreach a ha, ?_⟩
    rwa [← heq] at hab
  have hle := (List.subperm_of_subset hnodup hsub).length_le
  rw [hlength, length_containers, depthBound] at hle
  omega

/-! ## Conversions -/

theorem exists_none_of_mapM : ∀ {l : List α}, l.mapM f = none → ∃ a ∈ l, f a = none
  | [], hl => by simp at hl
  | a :: l, hl => by
    cases ha : f a with
    | none => exact ⟨a, List.mem_cons_self, ha⟩
    | some b =>
      cases hrest : l.mapM f with
      | some bs => simp [List.mapM_cons, ha, hrest] at hl
      | none =>
        obtain ⟨c, hc, hfc⟩ := exists_none_of_mapM hrest
        exact ⟨c, List.mem_cons_of_mem a hc, hfc⟩

theorem mapM_eq_none_of_bind {γ : Type} {g : List β → γ} {l : List α}
    (hl : (l.mapM f >>= fun bs => some (g bs)) = none) : l.mapM f = none := by
  cases hm : l.mapM f with
  | none => rfl
  | some bs => simp [hm] at hl

theorem descends_of_number? : ∀ {n : Nat} {v : Value}, h.number? n v = none → h.Descends n v
  | 0, _, _ => trivial
  | n + 1, .array address, hv => by
    rw [number?] at hv
    split at hv
    · cases hv
    · rename_i only hitems
      exact ⟨only, by simp [Holds, parts, hitems], descends_of_number? hv⟩
    · cases hv
  | _ + 1, .undefined, hv | _ + 1, .null, hv | _ + 1, .bool _, hv | _ + 1, .number _, hv
  | _ + 1, .string _, hv | _ + 1, .object _, hv | _ + 1, .closure _ _ _ _, hv
  | _ + 1, .native _ _, hv => by cases hv

theorem holds_of_lookup {address : Nat} {name : String}
    (hv : (h.fields address).lookup name = some v) : h.Holds (.object address) v := by
  obtain ⟨before, after, hfields, -⟩ := List.lookup_eq_some_iff.1 hv
  simp [Holds, parts, hfields]

theorem descends_of_text? : ∀ {n : Nat} {v : Value}, h.text? n v = none → h.Descends n v
  | 0, _, _ => trivial
  | n + 1, .array address, hv => by
    obtain ⟨w, hw, hnone⟩ := exists_none_of_mapM (mapM_eq_none_of_bind hv)
    refine ⟨w, hw, ?_⟩
    split at hnone
    · cases hnone
    · exact descends_of_text? hnone
  | n + 1, .object address, hv => by
    rw [text?] at hv
    split at hv
    · rename_i name message hname hmessage
      cases hn : h.text? n name with
      | none => exact ⟨name, holds_of_lookup hname, descends_of_text? hn⟩
      | some text =>
        refine ⟨message, holds_of_lookup hmessage, descends_of_text? ?_⟩
        cases hm : h.text? n message with
        | none => rfl
        | some text' => simp [hn, hm] at hv
    · cases hv
  | _ + 1, .undefined, hv | _ + 1, .null, hv | _ + 1, .bool _, hv | _ + 1, .number _, hv
  | _ + 1, .string _, hv | _ + 1, .closure _ _ _ _, hv | _ + 1, .native _ _, hv => by cases hv

theorem descends_of_nested? : ∀ {n : Nat} {v : Value}, h.nested? n v = none → h.Descends n v
  | 0, _, _ => trivial
  | n + 1, .array address, hv => by
    obtain ⟨w, hw, hnone⟩ := exists_none_of_mapM (mapM_eq_none_of_bind hv)
    exact ⟨w, hw, descends_of_nested? hnone⟩
  | n + 1, .object address, hv => by
    obtain ⟨⟨name, w⟩, hw, hnone⟩ := exists_none_of_mapM (mapM_eq_none_of_bind hv)
    refine ⟨w, List.mem_map.2 ⟨(name, w), hw, rfl⟩, descends_of_nested? ?_⟩
    cases hn : h.nested? n w with
    | none => rfl
    | some text => simp [hn] at hnone
  | _ + 1, .undefined, hv | _ + 1, .null, hv | _ + 1, .bool _, hv | _ + 1, .number _, hv
  | _ + 1, .string _, hv | _ + 1, .closure _ _ _ _, hv | _ + 1, .native _ _, hv => by cases hv

theorem knotted_of_number? (hv : h.number? h.depthBound v = none) : h.Knotted v :=
  knotted_of_descends (descends_of_number? hv)

theorem knotted_of_text? (hv : h.text? h.depthBound v = none) : h.Knotted v :=
  knotted_of_descends (descends_of_text? hv)

theorem knotted_of_shown? (hv : h.shown? h.depthBound v = none) : h.Knotted v := by
  unfold shown? at hv
  split at hv
  · cases hv
  · exact knotted_of_descends (descends_of_nested? hv)

end Heap

end RaiseScript
