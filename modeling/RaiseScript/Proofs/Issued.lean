import RaiseScript.Proofs.Spaced
import RaiseScript.Proofs.Tagged

/-!
# What a supply of names gives out

`Names.draw` asks a supply for one name after the other. Each call ends at the first free candidate
and passes over no more candidates than there are taken names (`Names.fresh_eq`). The names of all
calls differ from each other and from the names to avoid, and the supply remembers just these. If
the beginning of the names is one that the options allow, and a role is made of letters, then the
name is a word that is not reserved (`issued_names`).
-/

namespace RaiseScript

namespace Names

/-- One name for each role, and the supply after that. -/
def draw (ns : Names) : List String → List String × Names
  | [] => ([], ns)
  | role :: roles =>
    let rest := (ns.fresh role).2.draw roles
    ((ns.fresh role).1 :: rest.1, rest.2)

/-- A call passes over taken candidates, no more of them than there are taken names, and takes the
next one. -/
theorem fresh_eq (ns : Names) (role : String) : ∃ passed ≤ ns.taken.dedup.length,
    (∀ i < passed, ns.candidate role (ns.next + i) ∈ ns.taken) ∧
    let name := ns.candidate role (ns.next + passed)
    name ∉ ns.taken ∧ ns.fresh role =
      (name, ⟨ns.beginning, ns.next + passed + 1, name :: ns.taken, name :: ns.issued⟩) := by
  obtain ⟨passed, hn⟩ := Nat.exists_eq_add_of_le (ns.le_firstFree role ns.taken.length ns.next)
  have htaken (i : Nat) (hi : i < passed) : ns.candidate role (ns.next + i) ∈ ns.taken :=
    ns.taken_of_lt_firstFree role ns.taken.length ns.next _ (Nat.le_add_right _ _) (by omega)
  refine ⟨passed, ns.length_le_of_taken htaken, htaken, ?_, ?_⟩
  · exact hn ▸ ns.candidate_firstFree role ns.next
  · rw [fresh, hn]

variable {ns : Names}

theorem draw_issued (ns : Names) (roles : List String) :
    (ns.draw roles).2.issued = (ns.draw roles).1.reverse ++ ns.issued := by
  induction roles generalizing ns with
  | nil => rfl
  | cons role roles ih => simp [draw, ih]

theorem draws_draw {a : Names} (h : a.Draws ns) (roles : List String) : a.Draws (ns.draw roles).2 := by
  induction roles generalizing ns with
  | nil => exact h
  | cons role roles ih => exact ih (h.fresh role)

/-- Every name is a candidate for its role. -/
theorem candidate_of_draw {p : String × String} {roles : List String}
    (h : p ∈ roles.zip (ns.draw roles).1) : ∃ n, p.2 = ns.candidate p.1 n := by
  induction roles generalizing ns with
  | nil => cases h
  | cons role roles ih =>
    rcases List.mem_cons.1 h with rfl | h
    · exact ⟨_, rfl⟩
    · exact @ih (ns.fresh role).2 h

end Names

/-! ## Names are words -/

/-- A word alone is read as one token. -/
theorem lex_word {w : String} (h : IsWord w) (file : String) : lex w file =
    .ok [⟨.word w, ⟨0, w.toList.length, 1⟩⟩, ⟨.finish, ⟨w.toList.length, w.toList.length, 1⟩⟩] := by
  have hnext : Token.next ⟨w.toList ++ [], 0, 1⟩ = .read (.word w) ⟨[], 0 + w.toList.length, 1⟩ :=
    next_of_word h trivial
  rw [List.append_nil, Nat.zero_add] at hnext
  exact lex_eq_ok.2 (lexFrom_read hnext (lexFrom_nil ..))

/-- A supply asked for names of any roles. Each call ends behind at most as many candidates as there
are taken names at that moment, and one more. No name is given out twice, none is one of those to
avoid, and the supply tells the names it gave out from all others. With a beginning that the options
allow and a role of letters, the name is read as one word, and the word is not reserved. -/
theorem issued_names (o : Options) (taken roles : List String) :
    let start := Names.avoiding o.tempPrefix taken
    let names := (start.draw roles).1
    (∀ earlier role, let ns := (start.draw earlier).2
      ∃ passed ≤ ns.taken.dedup.length, (∀ i < passed, ns.candidate role (ns.next + i) ∈ ns.taken) ∧
        let name := ns.candidate role (ns.next + passed)
        name ∉ ns.taken ∧ ns.fresh role =
          (name, ⟨ns.beginning, ns.next + passed + 1, name :: ns.taken, name :: ns.issued⟩)) ∧
    names.Nodup ∧ (∀ x ∈ names, x ∉ taken) ∧
    (∀ x, (start.draw roles).2.isIssued x = true ↔ x ∈ names) ∧
    (o.check = .ok () → ∀ p ∈ roles.zip names, p.1.toList.all Char.isAlpha = true →
      isReserved p.2 = false ∧ ∀ file, lex p.2 file = .ok [⟨.word p.2, ⟨0, p.2.toList.length, 1⟩⟩,
        ⟨.finish, ⟨p.2.toList.length, p.2.toList.length, 1⟩⟩]) := by
  intro start names
  have hissued : (start.draw roles).2.issued = names.reverse := by
    rw [Names.draw_issued]
    exact List.append_nil _
  have hdraws := Names.draws_draw (.refl (a := start)) roles
  refine ⟨fun earlier role => Names.fresh_eq _ role, ?_, fun x hx => ?_, fun x => ?_, fun ho p hp hrole => ?_⟩
  · have hnodup := hdraws.nodup (List.nil_subset _) .nil
    rwa [hissued, List.nodup_reverse] at hnodup
  · exact hdraws.grows.free x (by rwa [hissued, List.mem_reverse]) List.not_mem_nil
  · rw [Names.isIssued, hissued, List.contains_iff_mem, List.mem_reverse]
  · have hb : isNameStart o.tempPrefix = true := by
      by_contra hb
      rw [Bool.not_eq_true] at hb
      simp [Options.check, hb] at ho
    have hpart : ∀ c ∈ p.1.toList, isWordPart c = true := fun c hc => by
      simp [isWordPart, isLetter, List.all_eq_true.1 hrole c hc]
    obtain ⟨n, hn⟩ := Names.candidate_of_draw hp
    have hword := start.isWord_candidate (isWord_iff.2 hb) hpart n
    exact ⟨hn ▸ start.isReserved_candidate p.1 n, lex_word (hn ▸ hword)⟩

/-- The second call passes over a name that is taken, and the third name could be one for the role
of the others. -/
theorem issued_names_of_clashingRoles :
    ((Names.avoiding "__" ["__raise1"]).draw ["raise", "raise", "raise1"]).1 =
      ["__raise0", "__raise2", "__raise13"] ∧
    lex "__raise2" "main.js" = .ok [⟨.word "__raise2", ⟨0, 8, 1⟩⟩, ⟨.finish, ⟨8, 8, 1⟩⟩] := by
  have hdraw : ((Names.avoiding "__" ["__raise1"]).draw ["raise", "raise", "raise1"]).1 =
      ["__raise0", "__raise2", "__raise13"] := by
    decide +kernel
  have h := (issued_names {} ["__raise1"] ["raise", "raise", "raise1"]).2.2.2.2 (by rfl)
    ("raise", "__raise2") (by rw [hdraw]; decide) (by decide)
  exact ⟨hdraw, h.2 "main.js"⟩

end RaiseScript
