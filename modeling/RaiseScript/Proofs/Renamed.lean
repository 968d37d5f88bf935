import RaiseScript.Proofs.Attributed

/-!
# Reading renamed tokens

Renaming the words of a list of lexemes and then reading it gives the renamed tree, as long as no
word is turned into a keyword or back (`Renaming`). To rename is to recast with other names
(`Recast.names`), so this is what `parseLexemes_recast` says for trees without raises and try
expressions. A program without try expressions has no raises either (`tags_eq_nil`), so in such a
program `raise` is a name like any other (`raise_is_contextual`).
-/

namespace RaiseScript

/-! ## Other names -/

/-- Other names at the same places. -/
abbrev Recast.names (r : String → String) : Recast :=
  ⟨r, r, id, fun _ => true⟩

/-- Words that are read as their other names are. -/
def Reading.renaming {r : String → String} (hr : Renaming r) : Reading where
  spelling := .any
  recast := .names r
  strict := false
  keywords := hr
  property := rfl
  upTo _ _ := rfl
  exact h := by cases h

/-! ## Whole programs -/

/-- Without try expressions there are no raises either. -/
theorem tags_eq_nil {p : Program} (hparsed : Parsed .any (walkStmts .all p))
    (hsites : ∀ c, sitesIn c p = []) (hp : attempts p = []) : tags (walkStmts .all p) = [] := by
  have hnone {ss : List Stmt} (hss : ∀ c, sitesIn c ss = []) (r : OwnedRaise) :
      ¬r.StandsIn (walkStmts .surface ss) := by
    intro hr
    have hmem : r.site .body ∈ sitesIn .body ss := site_mem_raiseSites.2 hr
    rw [hss] at hmem
    cases hmem
  have hattempt (t : TryExpr) : .attempt t ∉ walkStmts .all p := by
    rw [← mem_attempts, hp]
    exact List.not_mem_nil
  have howned : ownedInStmts none p = [] := by
    refine List.eq_nil_iff_forall_not_mem.2 fun r hr => ?_
    rcases (mem_owned none (.stmts p)).1 hr with ⟨-, hr⟩ | ⟨t, ht, -⟩ | ⟨g, hg, -, hr⟩
    · exact hnone hsites r hr
    · exact hattempt t ht
    · obtain ⟨_, _, body | value, _, _, _⟩ := g
      · exact hnone (hparsed _ hg).2 r hr
      · exact hnone (fun _ => rfl) r hr
  have hraises : raiseSites .body (walkStmts .all p) = [] := by
    rw [← map_owned_stmts .body none p, howned, List.map_nil]
  refine List.filterMap_eq_nil_iff.2 fun v hv => ?_
  cases v with
  | attempt t => exact (hattempt t hv).elim
  | stmt st =>
    cases st with
    | raise id e span => cases List.filterMap_eq_nil_iff.1 hraises _ hv
    | _ => rfl
  | _ => rfl

/-- Another word in the place of one. -/
def swap (x y : String) (w : String) : String :=
  if w = x then y else w

/-- Only `raise` may be swapped, and not for a keyword. -/
theorem renaming_swap {w : String} (hw : isReserved w = false) (hasync : w ≠ "async") :
    Renaming (swap "raise" w) := by
  have hkeep {k : String} (hk : k ≠ "raise") (hkw : k ≠ w) (x : String) : swap "raise" w x = k ↔ x = k := by
    unfold swap
    split
    · rename_i hx
      exact ⟨fun h => (hkw h.symm).elim, fun h => (hk (h.symm.trans hx)).elim⟩
    · exact Iff.rfl
  refine ⟨fun k hk => hkeep ?_ ?_, hkeep (by decide) (Ne.symm hasync), fun x hx => ?_⟩
  · rintro rfl
    exact absurd hk (by decide)
  · rintro rfl
    rw [hk] at hw
    cases hw
  · unfold swap at hx
    split at hx
    · assumption
    · exact hx

/-- In a program without try expressions `raise` is a name like any other : with another name in its
place the program is read as before, with the other name in all places where `raise` was. -/
theorem raise_is_contextual {ls : List Lexeme} {p : Program} {w : String}
    (h : parseLexemes ls = .ok p) (hp : attempts p = []) (hw : isReserved w = false)
    (hasync : w ≠ "async") : parseLexemes (ls.map (·.recast (.names (swap "raise" w)))) =
      .ok (recastStmts (.names (swap "raise" w)) p) := by
  obtain ⟨hparsed, hsites⟩ := parsed_of_parseLexemes .any (fun l _ => l.token.fits_any) h
  have hsees : (Reading.renaming (renaming_swap hw hasync)).Sees (.start ls) :=
    ⟨fun l _ => l.token.fits_any, (List.pairwise_of_forall fun _ _ => Iff.rfl).isChain⟩
  exact (parseLexemes_recast _ (.inr rfl) hsees).1 p h (.inr (tags_eq_nil hparsed hsites hp))

/-- `raise` is the name of a function, of parameters, of a property and of what is caught. -/
def raiseAsName : String :=
  "function raise(x) \x7b return x.raise; \x7d
  try \x7b raise(raise => \x7b raise = 1 \x7d); \x7d catch (raise) \x7b raise \x7d"

/-- The program is read in the same way with `lift` in place of `raise`. -/
theorem raise_is_contextual_of_raiseAsName :
    ∃ ls p, lex raiseAsName "main.js" = .ok ls ∧ parseLexemes ls = .ok p ∧ attempts p = [] ∧
      parseLexemes (ls.map (·.recast (.names (swap "raise" "lift")))) =
        .ok (recastStmts (.names (swap "raise" "lift")) p) := by
  have hlook : ((lex raiseAsName "main.js").toOption.any fun ls =>
      (parseLexemes ls).toOption.any fun p => (attempts p).isEmpty) = true := by decide +kernel
  obtain ⟨ls, hls, hlook⟩ := Except.exists_of_any hlook
  obtain ⟨p, hp, hattempts⟩ := Except.exists_of_any hlook
  have hnone : attempts p = [] := List.isEmpty_iff.1 hattempts
  exact ⟨ls, p, hls, hp, hnone, raise_is_contextual hp hnone (by decide) (by decide)⟩

end RaiseScript
