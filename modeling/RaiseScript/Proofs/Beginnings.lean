import RaiseScript.Proofs.Faithful
import RaiseScript.Proofs.Lockstep

/-!
# The beginning of a temporary's name

Lowering with another beginning gives the same program, with the temporaries renamed one by one in
the order in which they were issued (`beginning_only_renames`). Nothing else of the program depends
on it: which temporaries there are is decided by the tree, and the names in the tree are avoided by
both supplies.
-/

namespace RaiseScript

/-- Other names for variables. Properties keep their names. -/
abbrev Recast.variables (r : String → String) : Recast :=
  ⟨r, id, id, fun _ => true⟩

/-- What stands in the second list at the place that a name has in the first one. -/
def exchange (xs ys : List String) (x : String) : String :=
  ((xs.zip ys).lookup x).getD x

theorem exchange_of_not_mem {xs : List String} (ys : List String) {x : String} (hx : x ∉ xs) :
    exchange xs ys x = x := by
  have hnone : (xs.zip ys).lookup x = none := by
    refine List.lookup_eq_none_iff.2 fun y hy => bne_iff_ne.2 ?_
    rintro rfl
    exact hx (List.of_mem_zip hy).1
  rw [exchange, hnone]
  rfl

/-- Looking up the keys of a table one by one gives its entries. -/
theorem map_lookup_zip {α β : Type} [BEq α] [LawfulBEq α] {xs : List α} {ys : List β}
    (found : α → Option β → β) (hfound : ∀ x y, found x (some y) = y) (hn : xs.Nodup)
    (hl : ys.length = xs.length) : (xs.map fun x => found x ((xs.zip ys).lookup x)) = ys := by
  induction xs generalizing ys with
  | nil => exact (List.length_eq_zero_iff.1 hl).symm
  | cons x xs ih =>
    obtain _ | ⟨y, ys⟩ := ys
    · cases hl
    · have hrest : (xs.map fun z => found z (((x :: xs).zip (y :: ys)).lookup z)) =
          xs.map fun z => found z ((xs.zip ys).lookup z) := by
        refine List.map_congr_left fun z hz => ?_
        have hne : (z == x) = false := beq_false_of_ne fun h => (List.nodup_cons.1 hn).1 (h ▸ hz)
        simp [List.lookup_cons, hne]
      rw [List.map_cons, hrest, ih (List.nodup_cons.1 hn).2 (Nat.succ.inj hl)]
      simp [hfound]

theorem map_exchange {xs ys : List String} (hn : xs.Nodup) (hl : ys.length = xs.length) :
    xs.map (exchange xs ys) = ys :=
  map_lookup_zip (fun x o => o.getD x) (fun _ _ => rfl) hn hl

/-- As many names were issued on both sides. -/
theorem Names.InStep.length_issued {a a' b b' : Names} (h : a.InStep a' b b')
    (ha : a'.issued.length = a.issued.length) : b'.issued.length = b.issued.length := by
  induction h with
  | refl => exact ha
  | fresh _ role ih => simp [ih]

/-- Where lowering succeeds, it succeeds with every beginning, and only the temporaries have other
names. -/
theorem lowerProgram_exchange {beginning : String} {p q : Program} {progress : Progress}
    (h : lowerProgram beginning p = .ok (q, progress)) (beginning' : String) :
    ∃ progress', progress'.lowered = progress.lowered ∧
      progress'.names.issued.length = progress.names.issued.length ∧ lowerProgram beginning' p =
        .ok (recastStmts (.variables (exchange progress.names.issued progress'.names.issued)) q, progress') := by
  obtain ⟨progress', hlowered, hstep, hrest⟩ :=
    Lockstep.lowerProgram_recast id rfl beginning' (fun _ => true) h
  have hlength : progress'.names.issued.length = progress.names.issued.length := hstep.length_issued rfl
  have hnodup : progress.names.issued.Nodup := hstep.left.nodup (List.nil_subset _) List.nodup_nil
  refine ⟨progress', hlowered, hlength, ?_⟩
  have hknown : ∀ x ∈ identifiers p, exchange progress.names.issued progress'.names.issued x = x := by
    intro x hx
    exact exchange_of_not_mem _ fun hissued => hstep.left.grows.free x hissued List.not_mem_nil hx
  rw [← hrest _ hknown (map_exchange hnodup hlength), recast_notes_stmts p (.of_forall (fun _ => .inl rfl) _)]

/-- The beginning only renames : with any two of them a program without complaints is lowered, as
many temporaries are issued, and putting those of the second lowered program in the place of those
of the first, in the order in which they were issued, turns the first one into the second. -/
theorem beginning_only_renames {source file : String} {o : Options} {p : Program} (ho : 1 ≤ o.maxErrors)
    (h : analyze source file o = .ok (p, [])) (beginning beginning' : String) :
    ∃ q q' progress progress', lowerProgram beginning p = .ok (q, progress) ∧
      lowerProgram beginning' p = .ok (q', progress') ∧
      progress'.names.issued.length = progress.names.issued.length ∧
      recastStmts (.variables (exchange progress.names.issued progress'.names.issued)) q = q' := by
  obtain ⟨hl, hsites, -⟩ := lowerable_of_analyze ho h
  obtain ⟨q, progress, hq, -⟩ := lowerProgram_ok beginning hl (hsites .body) (Spelling.any_fits _)
  obtain ⟨progress', -, hlength, hq'⟩ := lowerProgram_exchange hq beginning'
  exact ⟨q, _, progress, progress', hq, hq', hlength, rfl⟩

/-- Temporaries of three kinds. The name that one of them could have is in use, and another one is
also a property. -/
def threeKinds : String :=
  "let t_raise2 = f(g.t_raise3, x, a && try { raise try { raise b; } catch (e) { raise c; }; }
    catch (e) { raise d; });"

/-- The numbers differ too, since only the first supply has to pass over a name. -/
theorem beginning_only_renames_of_threeKinds : ∃ p q q' progress progress',
    analyze threeKinds "main.js" ⟨"t_", 1⟩ = .ok (p, []) ∧ lowerProgram "t_" p = .ok (q, progress) ∧
      lowerProgram "u_" p = .ok (q', progress') ∧
      progress.names.issued = ["t_raise4", "t_raise3", "t_cond1", "t_spill0"] ∧
      progress'.names.issued = ["u_raise3", "u_raise2", "u_cond1", "u_spill0"] ∧
      recastStmts (.variables (exchange progress.names.issued progress'.names.issued)) q = q' := by
  have hlook : ((analyze threeKinds "main.js" ⟨"t_", 1⟩).toOption.any fun r => r.2.isEmpty &&
      ((lowerProgram "t_" r.1).toOption.any fun s =>
        decide (s.2.names.issued = ["t_raise4", "t_raise3", "t_cond1", "t_spill0"])) &&
      ((lowerProgram "u_" r.1).toOption.any fun s =>
        decide (s.2.names.issued = ["u_raise3", "u_raise2", "u_cond1", "u_spill0"]))) = true := by decide +kernel
  obtain ⟨⟨p, complaints⟩, hp, hlook⟩ := Except.exists_of_any hlook
  simp only [Bool.and_eq_true] at hlook
  obtain ⟨⟨hnone, hleft⟩, hright⟩ := hlook
  obtain rfl := List.isEmpty_iff.1 hnone
  obtain ⟨s, hs, hissued⟩ := Except.exists_of_any hleft
  obtain ⟨s', hs', hissued'⟩ := Except.exists_of_any hright
  obtain ⟨q, q', progress, progress', hq, hq', -, hsame⟩ :=
    beginning_only_renames (o := ⟨"t_", 1⟩) (Nat.le_refl 1) hp "t_" "u_"
  obtain rfl := Except.ok.inj (hs.symm.trans hq)
  obtain rfl := Except.ok.inj (hs'.symm.trans hq')
  exact ⟨p, q, q', progress, progress', hp, hq, hq', of_decide_eq_true hissued, of_decide_eq_true hissued', hsame⟩

end RaiseScript
