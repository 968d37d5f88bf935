import RaiseScript.Names
import Mathlib.Data.List.Dedup
import Mathlib.Data.List.Perm.Subperm

/-!
# The supply of names never repeats itself

A candidate that `Names.firstFree` stops at is free (`candidate_firstFree`) : candidates with
different numbers differ, so as many candidates as there are taken names, and one more, cannot all
be taken. Hence `Names.fresh` gives a name that was not taken (`fresh_notMem`).

`Names.Draws` says that a supply is what some calls of `fresh` make of another, and `Names.Grows` is
what that does to a supply : names stay taken and stay issued, and what was issued since then was
free before. `Names.InStep` says that two supplies are asked for the same names, one after the
other.
-/

namespace RaiseScript.Names

variable {m n : Nat} {a b : Names}

/-! ## Candidates -/

theorem toString_nat_injective (h : toString m = toString n) : m = n := by
  have hd : Nat.toDigits 10 m = Nat.toDigits 10 n := by
    simpa only [Nat.toString_eq_repr, Nat.toList_repr] using congrArg String.toList h
  have hv := congrArg (Nat.ofDigitChars 10 · 0) hd
  simpa using hv

theorem isDigit_of_mem_toString {c : Char} (h : c ∈ (toString n).toList) : c.isDigit = true := by
  rw [Nat.toString_eq_repr, Nat.toList_repr] at h
  exact Nat.isDigit_of_mem_toDigits (by decide) (by decide) h

theorem candidate_injective (ns : Names) (role : String)
    (h : ns.candidate role m = ns.candidate role n) : m = n := by
  unfold candidate at h
  have hl := congrArg String.toList h
  simp only [String.toList_append, List.append_cancel_left_eq] at hl
  exact toString_nat_injective (String.toList_inj.1 hl)

/-- Every candidate that the search passed over is taken. -/
theorem taken_of_lt_firstFree (ns : Names) (role : String) :
    ∀ (fuel n k : Nat), n ≤ k → k < ns.firstFree role fuel n → ns.candidate role k ∈ ns.taken
  | 0, n, k, hle, hlt => by
    simp only [firstFree] at hlt
    omega
  | fuel + 1, n, k, hle, hlt => by
    rw [firstFree] at hlt
    split at hlt
    · rename_i ht
      rcases Nat.eq_or_lt_of_le hle with rfl | hk
      · simpa using ht
      · exact taken_of_lt_firstFree ns role fuel (n + 1) k hk hlt
    · omega

/-- The search stops at a free candidate, or it has passed over `fuel` of them. -/
theorem firstFree_free_or (ns : Names) (role : String) :
    ∀ fuel n : Nat, ns.candidate role (ns.firstFree role fuel n) ∉ ns.taken ∨
      ns.firstFree role fuel n = n + fuel
  | 0, n => Or.inr rfl
  | fuel + 1, n => by
    rw [firstFree]
    split
    · rcases firstFree_free_or ns role fuel (n + 1) with h | h
      · exact Or.inl h
      · exact Or.inr (by omega)
    · rename_i ht
      exact Or.inl (by simpa using ht)

theorem le_firstFree (ns : Names) (role : String) (fuel n : Nat) : n ≤ ns.firstFree role fuel n := by
  induction fuel generalizing n with
  | zero => exact Nat.le_refl _
  | succ fuel ih =>
    rw [firstFree]
    split
    · exact Nat.le_of_succ_le (ih _)
    · exact Nat.le_refl _

/-- Candidates in a row that are all taken are no more than the taken names. -/
theorem length_le_of_taken (ns : Names) {role : String} {k : Nat}
    (h : ∀ i < k, ns.candidate role (n + i) ∈ ns.taken) : k ≤ ns.taken.dedup.length := by
  have hnodup : ((List.range k).map fun i => ns.candidate role (n + i)).Nodup :=
    List.nodup_range.map fun _ _ hab => Nat.add_left_cancel (ns.candidate_injective role hab)
  have hsub : ((List.range k).map fun i => ns.candidate role (n + i)) ⊆ ns.taken.dedup := by
    simpa [List.subset_def] using h
  have hlen := (hnodup.subperm hsub).length_le
  rwa [List.length_map, List.length_range] at hlen

/-- With as much fuel as there are taken names the search ends at a free candidate. -/
theorem candidate_firstFree (ns : Names) (role : String) (n : Nat) :
    ns.candidate role (ns.firstFree role ns.taken.length n) ∉ ns.taken := by
  rcases firstFree_free_or ns role ns.taken.length n with h | h
  · exact h
  -- Otherwise the candidates from `n` to `n + length` are more than the taken names.
  intro hmem
  have htaken (i : Nat) (hi : i < ns.taken.length + 1) : ns.candidate role (n + i) ∈ ns.taken := by
    rcases Nat.lt_succ_iff_lt_or_eq.1 hi with hlt | rfl
    · exact ns.taken_of_lt_firstFree role ns.taken.length n _ (Nat.le_add_right _ _) (by omega)
    · exact h ▸ hmem
  have hle := Nat.le_trans (ns.length_le_of_taken htaken) ns.taken.dedup_sublist.length_le
  omega

/-! ## Fresh names -/

theorem fresh_notMem (ns : Names) (role : String) : (ns.fresh role).1 ∉ ns.taken :=
  ns.candidate_firstFree role ns.next

@[simp] theorem fresh_taken (ns : Names) (role : String) :
    (ns.fresh role).2.taken = (ns.fresh role).1 :: ns.taken := rfl

@[simp] theorem fresh_issued (ns : Names) (role : String) :
    (ns.fresh role).2.issued = (ns.fresh role).1 :: ns.issued := rfl

/-- `b` is what some calls of `fresh` make of `a`. -/
structure Grows (a b : Names) : Prop where
  beginning : b.beginning = a.beginning
  taken : a.taken ⊆ b.taken
  issued : a.issued ⊆ b.issued
  free : ∀ x ∈ b.issued, x ∉ a.issued → x ∉ a.taken
  shape : ∀ x ∈ b.issued, x ∉ a.issued → ∃ role n, x = a.candidate role n
  kept : a.issued ⊆ a.taken → b.issued ⊆ b.taken

namespace Grows

theorem refl (a : Names) : a.Grows a :=
  ⟨rfl, List.Subset.refl _, List.Subset.refl _, fun _ h h' => absurd h h',
    fun _ h h' => absurd h h', id⟩

theorem candidate (h : a.Grows b) (role : String) (n : Nat) : b.candidate role n = a.candidate role n := by
  simp only [Names.candidate, h.beginning]

theorem trans {c : Names} (hab : a.Grows b) (hbc : b.Grows c) : a.Grows c where
  beginning := hbc.beginning.trans hab.beginning
  taken := List.Subset.trans hab.taken hbc.taken
  issued := List.Subset.trans hab.issued hbc.issued
  free x hx hna := by
    by_cases hb : x ∈ b.issued
    · exact hab.free x hb hna
    · exact fun hta => hbc.free x hx hb (hab.taken hta)
  shape x hx hna := by
    by_cases hb : x ∈ b.issued
    · exact hab.shape x hb hna
    · obtain ⟨role, n, rfl⟩ := hbc.shape x hx hb
      exact ⟨role, n, hab.candidate role n⟩
  kept h := hbc.kept (hab.kept h)

theorem fresh (a : Names) (role : String) : a.Grows (a.fresh role).2 where
  beginning := rfl
  taken := by simp
  issued := by simp
  free x hx hna := by
    rcases List.mem_cons.1 hx with rfl | h
    · exact a.fresh_notMem role
    · exact absurd h hna
  shape x hx hna := by
    rcases List.mem_cons.1 hx with rfl | h
    · exact ⟨role, _, rfl⟩
    · exact absurd h hna
  kept h := by
    rw [fresh_issued, fresh_taken]
    exact List.cons_subset_cons _ h

end Grows

/-- `b` is `a` after some calls of `fresh`. -/
inductive Draws (a : Names) : Names → Prop
  | refl : Draws a a
  | fresh {b : Names} (h : Draws a b) (role : String) : Draws a (b.fresh role).2

namespace Draws

variable {c : Names}

theorem grows (h : a.Draws b) : a.Grows b := by
  induction h with
  | refl => exact .refl a
  | fresh _ role ih => exact ih.trans (.fresh _ role)

/-- No name is issued twice. -/
theorem nodup (h : a.Draws b) (ht : a.issued ⊆ a.taken) (hn : a.issued.Nodup) : b.issued.Nodup := by
  induction h with
  | refl => exact hn
  | @fresh b hb role ih =>
    rw [fresh_issued, List.nodup_cons]
    exact ⟨fun hm => b.fresh_notMem role (hb.grows.kept ht hm), ih⟩

end Draws

/-- `b` and `b'` are `a` and `a'` after the same calls of `fresh`. -/
inductive InStep (a a' : Names) : Names → Names → Prop
  | refl : InStep a a' a a'
  | fresh {b b' : Names} (h : InStep a a' b b') (role : String) : InStep a a' (b.fresh role).2 (b'.fresh role).2

namespace InStep

variable {a' b' c c' : Names}

theorem trans (hab : a.InStep a' b b') (hbc : b.InStep b' c c') : a.InStep a' c c' := by
  induction hbc with
  | refl => exact hab
  | fresh _ role ih => exact .fresh ih role

theorem left (h : a.InStep a' b b') : a.Draws b := by
  induction h with
  | refl => exact .refl
  | fresh _ role ih => exact .fresh ih role

theorem right (h : a.InStep a' b b') : a'.Draws b' := by
  induction h with
  | refl => exact .refl
  | fresh _ role ih => exact .fresh ih role

theorem eq (h : a.InStep a b b') : b' = b := by
  induction h with
  | refl => rfl
  | fresh _ role ih => rw [ih]

/-- What renames the names issued so far renames those issued earlier. -/
theorem map_issued {r : String → String} (h : a.InStep a' b b') (hr : b.issued.map r = b'.issued) :
    a.issued.map r = a'.issued := by
  induction h with
  | refl => exact hr
  | fresh _ role ih => exact ih (List.cons.inj hr).2

/-- The names that were issued can be renamed one by one, and names that were taken before stay. -/
theorem exists_renaming (h : a.InStep a' b b') (ha : a.issued = []) (ha' : a'.issued = []) :
    ∃ r : String → String, (∀ x ∈ a.taken, r x = x) ∧ b.issued.map r = b'.issued := by
  induction h with
  | refl => exact ⟨id, fun _ _ => rfl, by rw [ha, ha']; rfl⟩
  | @fresh b b' h role ih =>
    obtain ⟨r, htaken, hissued⟩ := ih
    have hgrows := h.left.grows
    have hfresh := b.fresh_notMem role
    have hne {x : String} (hx : x ∈ b.taken) : x ≠ (b.fresh role).1 := fun h => hfresh (h ▸ hx)
    refine ⟨fun x => if x = (b.fresh role).1 then (b'.fresh role).1 else r x, fun x hx => ?_, ?_⟩
    · exact (if_neg (hne (hgrows.taken hx))).trans (htaken x hx)
    · rw [fresh_issued, fresh_issued, List.map_cons, if_pos rfl, ← hissued]
      refine congrArg _ (List.map_congr_left fun x hx => ?_)
      exact if_neg (hne (hgrows.kept (by simp [ha]) hx))

end InStep

/-- The names issued between two moments of a supply. -/
def Between (a b : Names) (x : String) : Prop :=
  x ∈ b.issued ∧ x ∉ a.issued

end RaiseScript.Names
