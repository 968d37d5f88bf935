import RaiseScript.Proofs.Faithful
import RaiseScript.Proofs.Nesting

/-!
# Whose raise it is

The owner of a raise is the innermost try expression around it, unless a function stands in between.
`Stmt.owned` and its companions go down a tree and remember the owner, together with the clause they
are in. The notes that `annotate` leaves are made the other way round : each try expression looks
for the raises in its clauses and stops at functions and at other try expressions. Both find the
same (`mem_owned`), and in a tree that was read no raise is left without an owner
(`raises_attributed`).
-/

namespace RaiseScript

/-! ## Changing the notes -/

section

variable {σ : Type} {f : TryExpr → StateM σ TryExpr} {v v' : Visit} {vs vs' : List Visit}

theorem Renoted.tag? (hf : NotesOnly f) (h : Renoted f v v') : v'.tag? = v.tag? := by
  cases h with
  | stmt st s =>
    cases st with
    | branch test yes no span => cases no <;> rfl
    | ret e span => cases e <;> rfl
    | _ => rfl
  | attempt t s =>
    obtain ⟨s', s'', raises, verdict, hout⟩ := replaceAttempt_eq hf t s
    rw [hout]
    rfl
  | _ => rfl

theorem Renoted.span? (hf : NotesOnly f) (h : Renoted f v v') : v'.span? = v.span? := by
  have hfunc (g : Func) (s : σ) : (replaceFunc f g s).1.span = g.span := by
    obtain ⟨_, _, _ | _, _, _, _⟩ := g <;> rfl
  cases h with
  | stmt st s =>
    cases st with
    | branch test yes no span => cases no <;> rfl
    | ret e span => cases e <;> rfl
    | func g => exact congrArg some (hfunc g s)
    | _ => rfl
  | func g s => exact congrArg some (hfunc g s)
  | attempt t s =>
    obtain ⟨s', s'', raises, verdict, hout⟩ := replaceAttempt_eq hf t s
    rw [hout]
    rfl
  | _ => rfl

end

/-! ## Owners -/

/-- A try expression and one of its clauses. -/
abbrev Owner := NodeId × Clause

/-- A raise with its owner. -/
structure OwnedRaise where
  owner : Option Owner
  id : NodeId
  span : Span

mutual

/-- The raises in an expression, under an owner. -/
def Expr.owned (o : Option Owner) : Expr → List OwnedRaise
  | .array items => ownedInExprs o items
  | .unary _ a => a.owned o
  | .binary _ a b => a.owned o ++ b.owned o
  | .logical _ a b => a.owned o ++ b.owned o
  | .assign target value => target.owned o ++ value.owned o
  | .member object _ => object.owned o
  | .index object key => object.owned o ++ key.owned o
  | .call callee args => callee.owned o ++ ownedInExprs o args
  | .await a => a.owned o
  | .yield (some a) _ => a.owned o
  | .func f => f.owned
  | .attempt t => t.owned
  | _ => []

/-- The raises in a list of expressions. -/
def ownedInExprs (o : Option Owner) : List Expr → List OwnedRaise
  | [] => []
  | e :: es => e.owned o ++ ownedInExprs o es

/-- The raises in a function, which have no owner around it. -/
def Func.owned : Func → List OwnedRaise
  | ⟨_, _, .block body, _, _, _⟩ => ownedInStmts none body
  | ⟨_, _, .expr value, _, _, _⟩ => value.owned none

/-- The raises in a try expression, which is their owner. -/
def TryExpr.owned : TryExpr → List OwnedRaise
  | ⟨id, body, _, catchBody, _, finallyBody, _, _, _⟩ =>
    ownedInStmts (some (id, .body)) body ++ ownedInStmts (some (id, .handler)) catchBody ++
      ownedInBlock (some (id, .finalizer)) finallyBody

/-- The raises in a statement. -/
def Stmt.owned (o : Option Owner) : Stmt → List OwnedRaise
  | .declare _ decls _ => ownedInDecls o decls
  | .expr value _ => value.owned o
  | .block body _ => ownedInStmts o body
  | .branch test yes none _ => test.owned o ++ yes.owned o
  | .branch test yes (some no) _ => test.owned o ++ yes.owned o ++ no.owned o
  | .loop test body _ => test.owned o ++ body.owned o
  | .switch subject cases _ => subject.owned o ++ ownedInCases o cases
  | .jump _ _ => []
  | .ret none _ => []
  | .ret (some arg) _ => arg.owned o
  | .throw arg _ => arg.owned o
  | .guarded body handler finalizer _ =>
    ownedInStmts o body ++ ownedInHandler o handler ++ ownedInBlock o finalizer
  | .func f => f.owned
  | .raise id value span => ⟨o, id, span⟩ :: value.owned o

/-- The raises in the initial values of a declaration. -/
def ownedInDecls (o : Option Owner) : List Declarator → List OwnedRaise
  | [] => []
  | ⟨_, none⟩ :: ds => ownedInDecls o ds
  | ⟨_, some init⟩ :: ds => init.owned o ++ ownedInDecls o ds

/-- The raises in the cases of a switch. -/
def ownedInCases (o : Option Owner) : List Case → List OwnedRaise
  | [] => []
  | ⟨none, body⟩ :: cs => ownedInStmts o body ++ ownedInCases o cs
  | ⟨some test, body⟩ :: cs => test.owned o ++ ownedInStmts o body ++ ownedInCases o cs

/-- The raises in a catch clause. -/
def ownedInHandler (o : Option Owner) : Option Handler → List OwnedRaise
  | none => []
  | some ⟨_, body⟩ => ownedInStmts o body

/-- The raises in a finally block. -/
def ownedInBlock (o : Option Owner) : Option (List Stmt) → List OwnedRaise
  | none => []
  | some body => ownedInStmts o body

/-- The raises in a list of statements. -/
def ownedInStmts (o : Option Owner) : List Stmt → List OwnedRaise
  | [] => []
  | s :: ss => s.owned o ++ ownedInStmts o ss

end

/-- The raises in a phrase. -/
@[simp] def Phrase.owned (o : Option Owner) : Phrase → List OwnedRaise
  | .expr e => e.owned o
  | .exprs es => ownedInExprs o es
  | .func f => f.owned
  | .attempt t => t.owned
  | .stmt s => s.owned o
  | .decls ds => ownedInDecls o ds
  | .cases cs => ownedInCases o cs
  | .handler h => ownedInHandler o h
  | .block b => ownedInBlock o b
  | .stmts ss => ownedInStmts o ss

/-! ### All raises -/

/-- The raise as a site of a clause. -/
def OwnedRaise.site (c : Clause) (r : OwnedRaise) : RaiseSite :=
  ⟨c, r.id, r.span⟩

section

attribute [local simp] Expr.walk walkExprs Func.walk Stmt.walk walkDecls walkCases
  walkHandler walkBlock walkStmts TryExpr.walk_all Expr.owned ownedInExprs Func.owned
  TryExpr.owned Stmt.owned ownedInDecls ownedInCases ownedInHandler ownedInBlock ownedInStmts

/-- The raises of a phrase are met one by one. -/
theorem map_owned (c : Clause) (o : Option Owner) (p : Phrase) :
    (p.owned o).map (·.site c) = raiseSites c (p.walk .all) := by
  induction p generalizing o with
  | _ => simp_all [OwnedRaise.site]

theorem map_owned_stmts (c : Clause) (o : Option Owner) (ss : List Stmt) :
    (ownedInStmts o ss).map (·.site c) = raiseSites c (walkStmts .all ss) :=
  map_owned c o (.stmts ss)

end

/-! ### Raises and their owners -/

/-- The raise is met in a walk. -/
def OwnedRaise.StandsIn (r : OwnedRaise) (vs : List Visit) : Prop :=
  ∃ value, .stmt (.raise r.id value r.span) ∈ vs

/-- The statements of a clause. -/
def TryExpr.clause (t : TryExpr) : Clause → List Stmt
  | .body => t.body
  | .handler => t.catchBody
  | .finalizer => t.finallyBody.getD []

theorem walkStmts_getD (reach : Reach) (b : Option (List Stmt)) :
    walkStmts reach (b.getD []) = walkBlock reach b := by
  cases b <;> rfl

/-- The statements of a function. -/
def Func.stmts : Func → List Stmt
  | ⟨_, _, .block body, _, _, _⟩ => body
  | ⟨_, _, .expr _, _, _, _⟩ => []

/-- The raise stands directly in a clause of a try expression that is met, and this owns it, or it
stands directly in a function that is met, and nothing owns it. -/
def OwnedRaise.Inside (r : OwnedRaise) (vs : List Visit) : Prop :=
  (∃ t, .attempt t ∈ vs ∧ ∃ c, r.owner = some (t.id, c) ∧ r.StandsIn (walkStmts .surface (t.clause c))) ∨
  ∃ g, .func g ∈ vs ∧ r.owner = none ∧ r.StandsIn (walkStmts .surface g.stmts)

section

variable {r : OwnedRaise}

theorem site_mem_raiseSites {c : Clause} {vs : List Visit} :
    r.site c ∈ raiseSites c vs ↔ r.StandsIn vs := by
  simp only [raiseSites, List.mem_filterMap, OwnedRaise.StandsIn]
  constructor
  · rintro ⟨v, hv, hr⟩
    unfold Visit.raiseSite? at hr
    split at hr
    · cases hr
      exact ⟨_, hv⟩
    · cases hr
  · rintro ⟨value, hv⟩
    exact ⟨_, hv, rfl⟩

namespace OwnedRaise

@[simp] theorem standsIn_nil : r.StandsIn [] ↔ False := by
  simp [StandsIn]

@[simp] theorem standsIn_append (us vs : List Visit) :
    r.StandsIn (us ++ vs) ↔ r.StandsIn us ∨ r.StandsIn vs := by
  simp [StandsIn, exists_or]

@[simp] theorem standsIn_expr (e : Expr) : r.StandsIn (e.walk .surface) ↔ False := by
  rw [← site_mem_raiseSites (c := .body), raiseSites_expr]
  simp

@[simp] theorem standsIn_func (g : Func) : r.StandsIn (g.walk .surface) ↔ False := by
  rw [← site_mem_raiseSites (c := .body), raiseSites_func]
  simp

@[simp] theorem standsIn_exprs (es : List Expr) : r.StandsIn (walkExprs .surface es) ↔ False := by
  rw [← site_mem_raiseSites (c := .body), raiseSites_exprs]
  simp

@[simp] theorem standsIn_decls (ds : List Declarator) : r.StandsIn (walkDecls .surface ds) ↔ False := by
  rw [← site_mem_raiseSites (c := .body), raiseSites_decls]
  simp

@[simp] theorem standsIn_cons (v : Visit) (vs : List Visit) :
    r.StandsIn (v :: vs) ↔ (∃ value, .stmt (.raise r.id value r.span) = v) ∨ r.StandsIn vs := by
  simp [StandsIn, exists_or]

@[simp] theorem standsIn_attempt (t : TryExpr) : r.StandsIn (t.walk .surface) ↔ False := by
  simpa [Expr.walk] using standsIn_expr (r := r) (.attempt t)

@[simp] theorem inside_nil : r.Inside [] ↔ False := by
  simp [Inside]

@[simp] theorem inside_append (us vs : List Visit) : r.Inside (us ++ vs) ↔ r.Inside us ∨ r.Inside vs := by
  simp only [Inside, List.mem_append, or_and_right, exists_or]
  exact or_or_or_comm

@[simp] theorem inside_stmt (s : Stmt) (vs : List Visit) : r.Inside (.stmt s :: vs) ↔ r.Inside vs := by
  simp [Inside]

@[simp] theorem inside_expr (e : Expr) (vs : List Visit) : r.Inside (.expr e :: vs) ↔ r.Inside vs := by
  simp [Inside]

theorem inside_attempt (t : TryExpr) (vs : List Visit) : r.Inside (.attempt t :: vs) ↔
    (∃ c, r.owner = some (t.id, c) ∧ r.StandsIn (walkStmts .surface (t.clause c))) ∨ r.Inside vs := by
  simp [Inside, or_and_right, exists_or, or_assoc]

theorem inside_func (g : Func) (vs : List Visit) : r.Inside (.func g :: vs) ↔
    (r.owner = none ∧ r.StandsIn (walkStmts .surface g.stmts)) ∨ r.Inside vs := by
  simp only [Inside, List.mem_cons, reduceCtorEq, false_or, Visit.func.injEq,
    or_and_right, exists_or, exists_eq_left]
  exact or_left_comm

end OwnedRaise

end

section

variable {r : OwnedRaise}

attribute [local simp] Expr.walk walkExprs Stmt.walk walkDecls walkCases walkHandler
  walkBlock walkStmts Expr.owned ownedInExprs Stmt.owned ownedInDecls ownedInCases ownedInHandler
  ownedInBlock ownedInStmts

/-- The raises with their owners are those that stand directly in the phrase and those that stand
directly in something inside. -/
theorem mem_owned (o : Option Owner) (p : Phrase) : r ∈ p.owned o ↔
    r.owner = o ∧ r.StandsIn (p.walk .surface) ∨ r.Inside (p.walk .all) := by
  induction p generalizing o with
  | funcBlock | funcExpr => simp_all [Func.owned, Func.walk, OwnedRaise.inside_func, Func.stmts]
  | clauses _ _ _ _ _ _ _ _ _ ha hb hc =>
    have hclauses {P : Clause → Prop} : (∃ c, P c) ↔ P .body ∨ P .handler ∨ P .finalizer :=
      ⟨fun ⟨c, h⟩ => by cases c <;> simp [h], by rintro (h | h | h) <;> exact ⟨_, h⟩⟩
    simp only [Phrase.owned, Phrase.walk] at ha hb hc ⊢
    rw [TryExpr.walk_all, OwnedRaise.inside_attempt, hclauses]
    simp only [TryExpr.owned, TryExpr.clause, walkStmts_getD, List.mem_append,
      OwnedRaise.inside_append, OwnedRaise.standsIn_attempt, ha, hb, hc]
    tauto
  | raise id _ span =>
    have hr : r = ⟨o, id, span⟩ ↔ r.owner = o ∧ r.id = id ∧ r.span = span := by
      cases r
      simp
    simp_all
  | _ => simp_all [and_or_left, or_assoc, or_left_comm, or_comm]

end

/-! ### Sites in order -/

/-- The sites of a clause come in the order of all raises of a program around it. -/
theorem sitesIn_sublist {q : Program} {t : TryExpr} (ht : .attempt t ∈ walkStmts .all q)
    (c : Clause) : (sitesIn c (t.clause c)).Sublist (raiseSites c (walkStmts .all q)) := by
  have hclause : (walkStmts .all (t.clause c)).Sublist (t.walk .all) := by
    rw [TryExpr.walk_all]
    cases c with
    | body => exact ((List.sublist_append_left _ _).trans (List.sublist_append_left _ _)).cons _
    | handler => exact ((List.sublist_append_right _ _).trans (List.sublist_append_left _ _)).cons _
    | finalizer =>
      rw [TryExpr.clause, walkStmts_getD]
      exact (List.sublist_append_right _ _).cons _
  have hbelow : (t.walk .all).Sublist (walkStmts .all q) :=
    (deep (.stmts q) _ ht).sublist
  exact (((surface_sublist (.stmts (t.clause c))).trans hclause).trans hbelow).filterMap _

/-! ## Programs -/

/-- The sites of a clause. -/
def RaiseSites.of (s : RaiseSites) : Clause → List RaiseSite
  | .body => s.body
  | .handler => s.handler
  | .finalizer => s.finalizer

theorem RaiseSites.mem_all {s : RaiseSites} {site : RaiseSite} : site ∈ s.all ↔ ∃ c, site ∈ s.of c := by
  constructor
  · intro h
    rcases List.mem_append.1 h with h | h
    · rcases List.mem_append.1 h with h | h
      · exact ⟨.body, h⟩
      · exact ⟨.handler, h⟩
    · exact ⟨.finalizer, h⟩
  · rintro ⟨c, h⟩
    cases c <;> simp only [RaiseSites.of] at h <;> simp [RaiseSites.all, h]

theorem TryExpr.sites_of (t : TryExpr) (c : Clause) : t.sites.of c = sitesIn c (t.clause c) := by
  cases c <;> rfl

/-- All identities in a program. -/
def nodeIds (p : Program) : List NodeId :=
  (tags (walkStmts .all p)).map (·.id)

/-- What parsing and annotating give. -/
structure Annotated (q : Program) : Prop where
  ids : (nodeIds q).Nodup
  starts : ((tags (walkStmts .all q)).filterMap (·.start?)).Pairwise (· < ·)
  placed : ∀ g, .func g ∈ walkStmts .all q → ∀ c, sitesIn c g.stmts = []
  outside : ∀ c, sitesIn c q = []
  noted : ∀ t, .attempt t ∈ walkStmts .all q → t.raises = some t.sites

theorem annotated_of_parse {source file : String} {p : Program} (h : parse source file = .ok p) :
    Annotated (annotate p).1 := by
  obtain ⟨hids, hstarts⟩ := tagged_of_parse h
  obtain ⟨ls, -, hls⟩ := parse_eq_ok h
  obtain ⟨hparsed, hsites⟩ := parsed_of_parseLexemes .any (fun l _ => l.token.fits_any) hls
  have htags : tags (walkStmts .all (annotate p).1) = tags (walkStmts .all p) :=
    filterMap_renoted (fun _ _ hv => hv.tag? notes_annotate.only) (renoted_stmts notes_annotate.only _ p 0)
  refine ⟨?_, ?_, fun g hg c => ?_,
    fun c => (sitesIn_replaceStmts notes_annotate.only c p 0).trans (hsites c), ?_⟩
  · rwa [nodeIds, htags]
  · rwa [htags]
  · obtain ⟨_, _, _ | _, _, _, _⟩ := g
    · exact (parsed_renoted notes_annotate.only (renoted_stmts notes_annotate.only _ p 0) hparsed _ hg).2 c
    · rfl
  · exact (noted_replaceStmts notes_annotate p (fun _ _ => trivial) trivial).2

/-! ### Identities -/

theorem map_raiseSites_sublist (c : Clause) (vs : List Visit) :
    ((raiseSites c vs).map (·.id)).Sublist ((tags vs).map (·.id)) := by
  induction vs with
  | nil => simp
  | cons v vs ih =>
    cases v with
    | stmt st => cases st <;> simpa using ih
    | expr e => simpa using ih
    | func g => simpa using ih
    | attempt t => simpa using ih.cons t.id

theorem map_start_raiseSites (c : Clause) (vs : List Visit) :
    (raiseSites c vs).map (·.span.start) = (tags vs).filterMap (·.start?) := by
  induction vs with
  | nil => rfl
  | cons v vs ih =>
    cases v with
    | stmt st => cases st <;> simpa using ih
    | expr e => simpa using ih
    | func g => simpa using ih
    | attempt t => simpa using ih

theorem map_attempts_sublist (vs : List Visit) :
    ((vs.filterMap Visit.attempt?).map (·.id)).Sublist ((tags vs).map (·.id)) := by
  induction vs with
  | nil => simp
  | cons v vs ih =>
    cases v with
    | stmt st =>
      cases st with
      | raise id _ _ => exact ih.cons id
      | _ => exact ih
    | expr e => exact ih
    | func g => exact ih
    | attempt t => exact ih.cons_cons t.id

namespace Annotated

variable {q : Program}

/-- Every raise has an owner, which notes it. -/
theorem exists_owner (h : Annotated q) {r : OwnedRaise} (hr : r ∈ ownedInStmts none q) :
    ∃ t ∈ attempts q, ∃ c, r.owner = some (t.id, c) ∧ r.site c ∈ t.sites.of c := by
  have hnone {ss : List Stmt} (hss : ∀ c, sitesIn c ss = [])
      (hr : r.StandsIn (walkStmts .surface ss)) : False := by
    have hmem : r.site .body ∈ sitesIn .body ss := site_mem_raiseSites.2 hr
    rw [hss] at hmem
    cases hmem
  rcases (mem_owned none (.stmts q)).1 hr with ⟨-, hr⟩ | ⟨t, ht, c, howner, hr⟩ | ⟨g, hg, -, hr⟩
  · exact (hnone h.outside hr).elim
  · exact ⟨t, mem_attempts.2 ht, c, howner, t.sites_of c ▸ site_mem_raiseSites.2 hr⟩
  · exact (hnone (h.placed g hg) hr).elim

/-- Raises are told apart by their identities. -/
theorem eq_of_id (h : Annotated q) {r r' : OwnedRaise} (hr : r ∈ ownedInStmts none q)
    (hr' : r' ∈ ownedInStmts none q) (hid : r.id = r'.id) : r = r' := by
  have hmap : (ownedInStmts none q).map (·.id) = (raiseSites .body (walkStmts .all q)).map (·.id) := by
    rw [← map_owned_stmts .body none q, List.map_map]
    rfl
  have hnodup : ((ownedInStmts none q).map (·.id)).Nodup := by
    rw [hmap]
    exact h.ids.sublist (map_raiseSites_sublist .body _)
  exact List.inj_on_of_nodup_map hnodup hr hr' hid

/-- The sites of a clause start one after the other. -/
theorem sorted (h : Annotated q) {t : TryExpr} (ht : t ∈ attempts q) (c : Clause) :
    (t.sites.of c).Pairwise (·.span.start < ·.span.start) := by
  have hstarts := h.starts
  rw [← map_start_raiseSites c, List.pairwise_map] at hstarts
  rw [t.sites_of c]
  exact hstarts.sublist (sitesIn_sublist (mem_attempts.1 ht) c)

end Annotated

/-- Every site is a raise that the try expression owns. -/
theorem owned_of_mem_sites {q : Program} {t : TryExpr} (ht : t ∈ attempts q) {c : Clause}
    {site : RaiseSite} (hsite : site ∈ t.sites.of c) :
    site.clause = c ∧ ⟨some (t.id, c), site.id, site.span⟩ ∈ ownedInStmts none q := by
  rw [t.sites_of c] at hsite
  have hclause : site.clause = c := by
    obtain ⟨v, -, hv⟩ := List.mem_filterMap.1 hsite
    unfold Visit.raiseSite? at hv
    split at hv <;> cases hv
    rfl
  refine ⟨hclause, (mem_owned none (.stmts q)).2 (Or.inr (Or.inl ⟨t, mem_attempts.1 ht, c, rfl, ?_⟩))⟩
  subst hclause
  exact site_mem_raiseSites.1 hsite

/-- Annotating leaves identities and places as they were read. -/
theorem spanFits_annotate {source file : String} {p : Program} (h : parse source file = .ok p)
    (hlength : source.toList.length + 1 < Span.bound) :
    (∀ id ∈ nodeIds (annotate p).1, id < Span.bound) ∧
    ∀ v ∈ walkStmts .all (annotate p).1, ∀ s, v.span? = some s → s.Fits := by
  have hrenoted := renoted_stmts notes_annotate.only .all p 0
  constructor
  · intro id hid
    obtain ⟨t, ht, rfl⟩ := List.mem_map.1 hid
    have htags : tags (walkStmts .all (annotate p).1) = tags (walkStmts .all p) :=
      filterMap_renoted (fun _ _ hv => hv.tag? notes_annotate.only) hrenoted
    exact Nat.lt_trans (ids_lt_of_parse h t (htags ▸ ht)) (by omega)
  · intro v hv s hs
    have hspans : (walkStmts .all (annotate p).1).filterMap Visit.span? =
        (walkStmts .all p).filterMap Visit.span? :=
      filterMap_renoted (fun _ _ hv => hv.span? notes_annotate.only) hrenoted
    have hmem := List.mem_filterMap.2 ⟨v, hv, hs⟩
    rw [hspans] at hmem
    obtain ⟨w, hw, hws⟩ := List.mem_filterMap.1 hmem
    exact spanFits_of_parse h hlength w hw s hws

/-- A try expression is raised from another one. In the function and in the finally block, which has
no binding, `raise` is the name of a function. -/
def nestedRaises : String :=
  "let x = try \x7b raise try \x7b raise 1 \x7d catch \x7b raise 2 \x7d; if (x) raise 3; \x7d
  catch (e) \x7b f(() => \x7b raise(e); \x7d); raise 4 \x7d finally \x7b raise(5); \x7d;"

end RaiseScript
