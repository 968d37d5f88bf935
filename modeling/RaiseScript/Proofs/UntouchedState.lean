import RaiseScript.Proofs.Calls

/-!
# What a run leaves alone

A run of a program changes a scope that is already there in three ways only : it declares names in
the scope it is in, it assigns to names, and it declares names for a whole function. The last two
are listed by `reassigned`. Likewise it changes a field of an object only where it writes one, and
`assignedProperties` lists those.

What is not listed is kept (`Machine.Keeps`). This holds because only functions of the program are
ever called, so it is shown along with the fact that a machine holds no others (`Machine.Within`).
-/

namespace RaiseScript

variable {α β : Type} {p : Program}
variable {v : Value} {vs ws : List Visit} {x q : String} {n' i : Nat} {env : Env} {e : Exit}
  {R : Machine → α → Prop}

/-! ## Code and values of a program -/

/-- The nodes are nodes of the program. -/
def PartOf (p : Program) (vs : List Visit) : Prop :=
  vs ⊆ walkStmts .all p

theorem PartOf.cons {v : Visit} (h : PartOf p (v :: vs)) : PartOf p vs :=
  fun _ hv => h (List.mem_cons_of_mem _ hv)

theorem PartOf.left (h : PartOf p (vs ++ ws)) : PartOf p vs :=
  fun _ hv => h (List.mem_append_left _ hv)

theorem PartOf.right (h : PartOf p (vs ++ ws)) : PartOf p ws :=
  fun _ hv => h (List.mem_append_right _ hv)

theorem PartOf.rebinds {v : Visit} (h : PartOf p (v :: vs)) (hx : x ∈ v.rebinds) : x ∈ reassigned p :=
  List.mem_flatMap.2 ⟨v, h List.mem_cons_self, hx⟩

/-- The program may write the property. -/
def Writable (p : Program) (q : String) : Prop :=
  ∀ names, assignedProperties p = some names → q ∈ names

theorem PartOf.writes {v : Visit} (h : PartOf p (v :: vs)) (hq : q ∈ v.writes) : Writable p q := by
  intro names hn
  simp only [assignedProperties] at hn
  split at hn
  · cases hn
  · cases hn
    exact List.mem_flatMap.2 ⟨v, h List.mem_cons_self, hq⟩

theorem PartOf.writesComputed {v : Visit} (h : PartOf p (v :: vs)) (hv : v.writesComputed = true)
    (q : String) : Writable p q := by
  intro names hn
  unfold assignedProperties at hn
  rw [if_pos (List.any_eq_true.2 ⟨v, h List.mem_cons_self, hv⟩)] at hn
  cases hn

/-- The scopes are among the first `n`. -/
def Env.Within (n : Nat) (env : Env) : Prop :=
  ∀ l ∈ env.chain, l.scope < n

theorem Machine.within_globals : Machine.globals.Within Machine.start.scopes.size := by
  intro l hl
  obtain rfl := List.mem_singleton.1 hl
  exact Nat.zero_lt_one

theorem Env.Within.mono {n : Nat} (hn : n ≤ n') (h : env.Within n) : env.Within n' :=
  fun l hl => Nat.lt_of_lt_of_le (h l hl) hn

/-- A function in the value is one of the program and sees scopes among the first `n`. -/
def Value.Within (p : Program) (n : Nat) : Value → Prop
  | .closure _ f env this => PartOf p (f.walk .all) ∧ env.Within n ∧ this.Within p n
  | _ => True

theorem Value.Within.mono {n : Nat} (hn : n ≤ n') : ∀ {v : Value}, v.Within p n → v.Within p n'
  | .closure _ _ _ _, h => ⟨h.1, h.2.1.mono hn, h.2.2.mono hn⟩
  | .undefined, _ | .null, _ | .bool _, _ | .number _, _ | .string _, _ | .array _, _
  | .object _, _ | .native _ _, _ => trivial

/-- The same for the value that code ends with. -/
def Exit.Within (p : Program) (n : Nat) : Exit → Prop
  | .thrown v | .returned v => v.Within p n
  | .broke | .continued | .failed _ => True

theorem Exit.Within.mono {n : Nat} (hn : n ≤ n') (h : e.Within p n) : e.Within p n' := by
  cases e with
  | thrown v => exact Value.Within.mono hn h
  | returned v => exact Value.Within.mono hn h
  | _ => trivial

/-- Every function that the machine holds is one of the program and sees scopes that are there. -/
structure Machine.Within (p : Program) (m : Machine) : Prop where
  bound : ∀ {i x b}, lookupIn m.scopes i x = some b → b.value.Within p m.scopes.size
  items : ∀ a, ∀ v ∈ (m.heap.items a).toList, v.Within p m.scopes.size
  fields : ∀ {a q v}, (m.heap.fields a).lookup q = some v → v.Within p m.scopes.size
  this : m.this.Within p m.scopes.size

/-! ## Keeping -/

/-- From `m` to `n` the bindings of names that the program does not reassign and the fields that it
does not write are kept ; the scopes `t` are open for declarations. -/
structure Machine.Keeps (p : Program) (t : Nat → Prop) (m n : Machine) : Prop where
  within : n.Within p
  scopes : m.scopes.size ≤ n.scopes.size
  objects : m.heap.objects.size ≤ n.heap.objects.size
  bound : ∀ {i x}, i < m.scopes.size → ¬ t i → x ∉ reassigned p →
    lookupIn n.scopes i x = lookupIn m.scopes i x
  fields : ∀ {a q}, a < m.heap.objects.size → ¬ Writable p q →
    (n.heap.fields a).lookup q = (m.heap.fields a).lookup q

/-- No scope is open for declarations. -/
def Sealed (_ : Nat) : Prop :=
  False

/-- Only the innermost scope is open for declarations. -/
def Env.Open (env : Env) (i : Nat) : Prop :=
  i = env.here

theorem Env.open_here (env : Env) : env.Open env.here :=
  rfl

namespace Machine.Keeps

variable {t u : Nat → Prop} {m n o : Machine}

theorem refl (h : m.Within p) : m.Keeps p t m :=
  ⟨h, Nat.le_refl _, Nat.le_refl _, fun _ _ _ => rfl, fun _ _ => rfl⟩

/-- Scopes that are made on the way may be open for declarations later on. -/
theorem trans (h : m.Keeps p t n) (h' : n.Keeps p u o) (hu : ∀ i < m.scopes.size, u i → t i) :
    m.Keeps p t o where
  within := h'.within
  scopes := Nat.le_trans h.scopes h'.scopes
  objects := Nat.le_trans h.objects h'.objects
  bound hi ht hx := (h'.bound (Nat.lt_of_lt_of_le hi h.scopes)
    (fun hu' => ht (hu _ hi hu')) hx).trans (h.bound hi ht hx)
  fields ha hq := (h'.fields (Nat.lt_of_lt_of_le ha h.objects) hq).trans (h.fields ha hq)

theorem ofSealed (h : m.Keeps p Sealed n) : m.Keeps p t n where
  within := h.within
  scopes := h.scopes
  objects := h.objects
  bound hi _ hx := h.bound hi (fun hs => hs) hx
  fields := h.fields

/-- Nothing but counts, printed lines and the like was changed. -/
theorem of_eq (h : m.Within p) (hs : n.scopes = m.scopes) (hh : n.heap = m.heap)
    (ht : n.this = m.this) : m.Keeps p t n where
  within := ⟨by rw [hs]; exact h.bound, by rw [hs, hh]; exact h.items, by rw [hs, hh]; exact h.fields,
    by rw [hs, ht]; exact h.this⟩
  scopes := Nat.le_of_eq (by rw [hs])
  objects := Nat.le_of_eq (by rw [hh])
  bound _ _ _ := by rw [hs]
  fields _ _ := by rw [hh]

/-- What a name that is not reassigned stands for is kept where no scope is open. -/
theorem lookup? (h : m.Keeps p Sealed n) (he : env.Within m.scopes.size) (hx : x ∉ reassigned p) :
    n.lookup? x env.chain = m.lookup? x env.chain := by
  unfold Machine.lookup?
  rw [Machine.find?_congr fun l hl => h.bound (he l hl) (fun hs => hs) hx]

/-- A binding is made in an open scope or for a name that is reassigned. -/
theorem declare (h : m.Within p) {b : Binding} (ht : t i ∨ x ∈ reassigned p)
    (hb : b.value.Within p m.scopes.size) : m.Keeps p t (m.declare i x b) where
  within := by
    refine ⟨fun {j y c} hc => ?_, ?_, ?_, ?_⟩ <;> rw [size_declare]
    · rw [lookupIn_declare] at hc
      split at hc
      · cases hc
        exact hb
      · exact h.bound hc
    · exact h.items
    · exact h.fields
    · exact h.this
  scopes := Nat.le_of_eq (size_declare ..).symm
  objects := Nat.le_refl _
  bound {j y} _ hj hy := by
    rw [lookupIn_declare, if_neg]
    rintro ⟨rfl, rfl, -⟩
    exact ht.elim hj hy
  fields _ _ := rfl

theorem pushScope (h : m.Within p) : m.Keeps p t { m with scopes := m.scopes.push [] } where
  within := by
    have hn : m.scopes.size ≤ (m.scopes.push []).size := by simp
    refine ⟨fun {i x b} hb => ?_, fun a v hv => (h.items a v hv).mono hn, fun hv =>
      (h.fields hv).mono hn, h.this.mono hn⟩
    rw [show lookupIn (m.scopes.push []) i x = _ from lookupIn_push m.scopes i x] at hb
    exact (h.bound hb).mono hn
  scopes := by simp
  objects := Nat.le_refl _
  bound _ _ _ := lookupIn_push _ _ _
  fields _ _ := rfl

theorem setThis (h : m.Within p) (hv : v.Within p m.scopes.size) (depth : Nat) :
    m.Keeps p t { m with this := v, depth } where
  within := ⟨h.bound, h.items, h.fields, hv⟩
  scopes := Nat.le_refl _
  objects := Nat.le_refl _
  bound _ _ _ := rfl
  fields _ _ := rfl

/-- The arrays may be changed in any way. -/
theorem setArrays (h : m.Within p) {arrays : Array (Array Value)}
    (ha : ∀ a, ∀ v ∈ (arrays.getD a #[]).toList, v.Within p m.scopes.size) :
    m.Keeps p t { m with heap := { m.heap with arrays } } where
  within := ⟨h.bound, ha, h.fields, h.this⟩
  scopes := Nat.le_refl _
  objects := Nat.le_refl _
  bound _ _ _ := rfl
  fields _ _ := rfl

theorem pushObject (h : m.Within p) {fields : Fields Value}
    (hf : ∀ {q v}, fields.lookup q = some v → v.Within p m.scopes.size) :
    m.Keeps p t { m with heap := { m.heap with objects := m.heap.objects.push fields } } where
  within := by
    refine ⟨h.bound, h.items, fun {a q v} hv => ?_, h.this⟩
    simp only [Heap.fields, getD_push] at hv
    split at hv
    · exact hf hv
    · exact h.fields hv
  scopes := Nat.le_refl _
  objects := by simp
  bound _ _ _ := rfl
  fields {a q} ha _ := by
    simp only [Heap.fields, getD_push]
    rw [if_neg (Nat.ne_of_lt ha)]

theorem writeField (h : m.Within p) (a : Nat) (hq : Writable p q) (hv : v.Within p m.scopes.size) : m.Keeps p t
      { m with heap := { m.heap with objects := m.heap.objects.modify a (Fields.insert q v) } } where
  within := by
    refine ⟨h.bound, h.items, fun {b r u} hu => ?_, h.this⟩
    simp only [Heap.fields, getD_modify] at hu
    split at hu
    · rw [Fields.lookup_insert] at hu
      split at hu
      · cases hu
        exact hv
      · exact h.fields hu
    · exact h.fields hu
  scopes := Nat.le_refl _
  objects := by simp
  bound _ _ _ := rfl
  fields {b r} _ hr := by
    simp only [Heap.fields, getD_modify]
    split
    · rw [Fields.lookup_insert, if_neg]
      rintro rfl
      exact hr hq
    · rfl

end Machine.Keeps

/-! ## Code that keeps -/

/-- The end of a run that started on `m` : what is to be kept was kept, and what came out is as `R`
says. -/
def Keeping (p : Program) (t : Nat → Prop) (m : Machine) (R : Machine → α → Prop) : Result α → Prop
  | .ok a n => m.Keeps p t n ∧ R n a
  | .error e n => m.Keeps p t n ∧ e.Within p n.scopes.size

/-- The value holds no other functions than those of the program. -/
def Value.Fits (p : Program) (m : Machine) (v : Value) : Prop :=
  v.Within p m.scopes.size

/-- Nothing is asked of what comes out. -/
def Whatever (_ : Machine) (_ : α) : Prop :=
  True

namespace Keeping

variable {t u : Nat → Prop} {m n : Machine} {R' : Machine → β → Prop}

theorem keeps : ∀ {r : Result α}, Keeping p t m R r → m.Keeps p t (Result.final r)
  | .ok _ _, h => h.1
  | .error _ _, h => h.1

theorem pure {a : α} (h : m.Within p) (ha : R m a) : Keeping p t m R ((Pure.pure a : Run α) m) :=
  ⟨.refl h, ha⟩

theorem throw (h : m.Within p) (he : e.Within p m.scopes.size) :
    Keeping p t m R ((MonadExcept.throw e : Run α) m) :=
  ⟨.refl h, he⟩

theorem fail (h : m.Within p) (f : Failure) : Keeping p t m R ((RaiseScript.fail f : Run α) m) :=
  ⟨.refl h, trivial⟩

theorem ofSealed : ∀ {r : Result α}, Keeping p Sealed m R r → Keeping p t m R r
  | .ok _ _, h => ⟨h.1.ofSealed, h.2⟩
  | .error _ _, h => ⟨h.1.ofSealed, h.2⟩

/-- Goes on from an earlier machine. -/
theorem after (h : m.Keeps p t n) (hu : ∀ i < m.scopes.size, u i → t i) :
    ∀ {r : Result α}, Keeping p u n R r → Keeping p t m R r
  | .ok _ _, hr => ⟨h.trans hr.1 hu, hr.2⟩
  | .error _ _, hr => ⟨h.trans hr.1 hu, hr.2⟩

theorem bind {x : Run α} {f : α → Run β} (hx : Keeping p t m R (x m))
    (hf : ∀ n a, m.Keeps p t n → R n a → Keeping p t n R' (f a n)) :
    Keeping p t m R' ((x >>= f) m) := by
  rw [Run.bind_apply]
  cases hr : x m with
  | error e n => rw [hr] at hx; exact hx
  | ok a n =>
    rw [hr] at hx
    exact (hf n a hx.1 hx.2).after hx.1 fun _ _ h => h

/-- How code ended, as a value. -/
def Ended (p : Program) (R : Machine → α → Prop) (m : Machine) : Except Exit α → Prop
  | .ok a => R m a
  | .error e => e.Within p m.scopes.size

theorem conclude {o : Except Exit α} (h : m.Within p) (ho : Ended p R m o) :
    Keeping p t m R (RaiseScript.conclude o m) := by
  cases o with
  | ok a => exact .pure h ho
  | error e => exact .throw h ho

end Keeping

/-! ## Making things, mistakes and conversions -/

theorem Machine.Within.find? {m : Machine} (h : m.Within p) :
    ∀ {ls : List Link} {s : Nat × Binding}, m.find? x ls = some s → s.2.value.Within p m.scopes.size
  | [], _, hs => by cases hs
  | l :: ls, s, hs => by
    rw [Machine.find?_cons] at hs
    cases hl : lookupIn m.scopes l.scope x with
    | none =>
      rw [hl] at hs
      exact Machine.Within.find? h hs
    | some b =>
      rw [hl] at hs
      cases hs
      exact h.bound hl

theorem mem_setItem {items : Array Value} {u : Value} (h : u ∈ (setItem items i v).toList) :
    u ∈ items.toList ∨ u = v ∨ u = .undefined := by
  unfold setItem at h
  split at h
  · rw [Array.toList_setIfInBounds] at h
    exact (List.mem_or_eq_of_mem_set h).imp_right Or.inl
  · simp only [Array.toList_push, Array.toList_append, Array.toList_replicate, List.mem_append,
      List.mem_replicate, List.mem_singleton] at h
    rcases h with (h | h) | h
    · exact Or.inl h
    · exact Or.inr (Or.inr h.2)
    · exact Or.inr (Or.inl h)

/-- The program may write what the key names. -/
def WritesOnly (p : Program) (key : Value) : Prop :=
  ∀ h n q, Heap.text? h n key = some q → Writable p q

theorem writesOnly_string (h : Writable p q) : WritesOnly p (.string q) := by
  intro heap depth r hr
  cases depth with
  | zero => simp [Heap.text?] at hr
  | succ depth =>
    obtain rfl : q = r := by simpa [Heap.text?, Value.ownText] using hr
    exact h

section

variable {t : Nat → Prop} {m : Machine} (h : m.Within p)

include h

theorem keeping_tick (limit : Nat) : Keeping p t m Whatever (tick limit m) := by
  have hm : m.Keeps p t { m with steps := m.steps + 1 } := .of_eq h rfl rfl rfl
  rw [tick_apply]
  split
  · exact ⟨hm, trivial⟩
  · exact ⟨hm, trivial⟩

theorem keeping_newArray {vs : List Value} (hv : ∀ v ∈ vs, v.Fits p m) :
    Keeping p t m (Value.Fits p) (newArray vs.toArray m) := by
  refine ⟨.setArrays h fun a v hva => ?_, trivial⟩
  rw [getD_push] at hva
  split at hva
  · exact hv v (by simpa using hva)
  · exact h.items a v hva

theorem keeping_newError (name message : String) :
    Keeping p t m (Value.Fits p) (newError name message m) := by
  refine ⟨.pushObject h fun {q v} hv => ?_, trivial⟩
  simp only [lookup_cons_ite, List.lookup_nil] at hv
  split at hv
  · cases hv
    trivial
  · split at hv
    · cases hv
      trivial
    · cases hv

theorem keeping_newClosure {f : Func} (hf : PartOf p (f.walk .all))
    (he : env.Within m.scopes.size) : Keeping p t m (Value.Fits p) (newClosure f env m) :=
  ⟨.of_eq h rfl rfl rfl, hf, he, h.this⟩

theorem keeping_newNative (kind : Native) : Keeping p t m (Value.Fits p) (newNative kind m) :=
  ⟨.of_eq h rfl rfl rfl, trivial⟩

theorem keeping_misuseOf {x : Run Misuse}
    (hx : ∀ {n : Machine}, n.Within p → Keeping p t n Whatever (x n)) :
    Keeping p t m R ((misuseOf x : Run α) m) := by
  refine (hx h).bind fun n e hn _ => (keeping_newError hn.within _ _).bind fun o v ho hv => ?_
  exact .throw ho.within hv

theorem keeping_mistakeOf {x : Run Misuse}
    (hx : ∀ {n : Machine}, n.Within p → Keeping p t n Whatever (x n)) :
    Keeping p t m R ((mistakeOf x : Run α) m) := by
  have hm : m.Keeps p t { m with mistakes := m.mistakes + 1 } := .of_eq h rfl rfl rfl
  exact .after hm (fun _ _ h => h) (keeping_misuseOf hm.within hx)

theorem keeping_misuse (e : Misuse) : Keeping p t m R ((misuse e : Run α) m) :=
  keeping_misuseOf h fun hn => .pure hn trivial

theorem keeping_mistake (e : Misuse) : Keeping p t m R ((mistake e : Run α) m) :=
  keeping_mistakeOf h fun hn => .pure hn trivial

theorem keeping_noteMethod (waits : Bool) (f : Value) :
    Keeping p t m Whatever (noteMethod waits f m) := by
  unfold noteMethod
  split
  · exact ⟨.of_eq h rfl rfl rfl, trivial⟩
  · exact .pure h trivial

theorem keeping_convert (f : Heap → Nat → Value → Option α) (v : Value) :
    Keeping p t m Whatever (convert f v m) := by
  rw [convert_apply]
  cases f m.heap m.heap.depthBound v with
  | none => exact .fail h _
  | some a => exact .pure h trivial

/-! ## Names -/

theorem keeping_declareHere (isMutable : Bool) (ht : t env.here ∨ x ∈ reassigned p)
    (hv : v.Fits p m) : Keeping p t m Whatever (declareHere env x v isMutable m) := by
  by_cases hc : env.chain = []
  · unfold declareHere
    rw [hc]
    exact .pure h trivial
  · rw [declareHere_apply hc]
    exact ⟨.declare h ht hv, trivial⟩

theorem keeping_declareInBody {v : Option Value} (hx : x ∈ reassigned p)
    (hv : (v.getD .undefined).Fits p m) : Keeping p t m Whatever (declareInBody env x v m) := by
  show Keeping p t m Whatever ((if v.isSome || (m.lookup? x (bodyChain env.chain)).isNone then
    declareHere ⟨bodyChain env.chain, none⟩ x (v.getD .undefined) true else pure () : Run Unit) m)
  split
  · exact keeping_declareHere h true (Or.inr hx) hv
  · exact .pure h trivial

theorem keeping_readName (env : Env) (x : String) :
    Keeping p t m (Value.Fits p) (readName env x m) := by
  rw [readName_apply]
  cases hl : m.lookup? x env.chain with
  | none => exact keeping_mistake h _
  | some v =>
    refine .pure h ?_
    obtain ⟨s, hs, rfl⟩ := Option.map_eq_some_iff.1 hl
    exact h.find? hs

theorem keeping_assignName (hx : x ∈ reassigned p) (hv : v.Fits p m) :
    Keeping p t m Whatever (assignName env x v m) := by
  rw [assignName_apply]
  cases m.find? x env.chain with
  | none => exact keeping_misuse h _
  | some s =>
    show Keeping p t m Whatever ((if s.2.isMutable then modify fun m => m.declare s.1 x ⟨v, true⟩
      else misuse .constantAssigned : Run Unit) m)
    split
    · exact ⟨.declare h (Or.inr hx) hv, trivial⟩
    · exact keeping_misuse h _

/-! ## Properties and operators -/

theorem keeping_getProperty (object : Value) (name : String) :
    Keeping p t m (Value.Fits p) (getProperty object name m) := by
  cases object with
  | undefined => exact keeping_mistake h _
  | null => exact keeping_mistake h _
  | object a =>
    refine .pure h ?_
    cases hv : (m.heap.fields a).lookup name with
    | none => trivial
    | some v => exact h.fields hv
  | array a =>
    show Keeping p t m _ ((if name == "length" then get >>= fun m => pure (countValue (m.heap.items a).size)
      else if name == "push" then newNative .push else pure .undefined : Run Value) m)
    split
    · exact .pure h trivial
    · split
      · exact keeping_newNative h _
      · exact .pure h trivial
  | string s =>
    show Keeping p t m _ ((if name == "length" then pure (countValue s.length)
      else pure .undefined : Run Value) m)
    split <;> exact .pure h trivial
  | closure _ _ _ _ | native _ _ =>
    show Keeping p t m _ ((if name == "call" then newNative .call else pure .undefined : Run Value) m)
    split
    · exact keeping_newNative h _
    · exact .pure h trivial
  | bool _ | number _ => exact .pure h trivial

theorem keeping_getNamed (object key : Value) :
    Keeping p t m (Value.Fits p) ((toText key >>= fun name => getProperty object name) m) :=
  (keeping_convert h _ _).bind fun _ _ hn _ => keeping_getProperty hn.within _ _

theorem keeping_getIndex (object key : Value) :
    Keeping p t m (Value.Fits p) (getIndex object key m) := by
  cases object with
  | array a =>
    cases key with
    | number x =>
      refine .pure h ?_
      cases hv : (position? x (m.heap.items a).size).bind ((m.heap.items a)[·]?) with
      | none => trivial
      | some v =>
        obtain ⟨i, -, hi⟩ := Option.bind_eq_some_iff.1 hv
        exact h.items a v (Array.mem_toList_iff.2 (Array.mem_of_getElem? hi))
    | _ => exact keeping_getNamed h _ _
  | string s =>
    cases key with
    | number x =>
      refine .pure h ?_
      cases (position? x positionBound).bind (s.toList[·]?) <;> trivial
    | _ => exact keeping_getNamed h _ _
  | _ => exact keeping_getNamed h _ _

theorem keeping_setIndex {object key : Value} (hk : WritesOnly p key) (hv : v.Fits p m) :
    Keeping p t m Whatever (setIndex object key v m) := by
  have hmiss (o : String) : Keeping p t m Whatever
      ((misuseOf (.writeToNothing o <$> toText key) : Run Unit) m) := by
    refine keeping_misuseOf h fun {n} hn => ?_
    rw [map_eq_pure_bind]
    exact (keeping_convert hn _ _).bind fun _ _ ho _ => .pure ho.within trivial
  cases object with
  | object a =>
    show Keeping p t m Whatever ((toText key >>= fun name => modify fun m => { m with heap := { m.heap with
      objects := m.heap.objects.modify a (Fields.insert name v) } }) m)
    rw [Run.bind_apply, toText, convert_apply]
    cases hq : Heap.text? m.heap m.heap.depthBound key with
    | none => exact .fail h _
    | some q => exact ⟨.writeField h a (hk _ _ q hq) hv, trivial⟩
  | array a =>
    cases key with
    | number x =>
      simp only [setIndex]
      cases position? x positionBound with
      | none => exact .pure h trivial
      | some i =>
        refine ⟨.setArrays h fun b u hu => ?_, trivial⟩
        rw [getD_modify] at hu
        split at hu
        · rcases mem_setItem hu with hu | rfl | rfl
          · exact h.items b u hu
          · exact hv
          · trivial
        · exact h.items b u hu
    | _ => exact .pure h trivial
  | undefined => exact hmiss _
  | null => exact hmiss _
  | _ => exact .pure h trivial

theorem keeping_applyUnary (op : UnaryOp) (v : Value) :
    Keeping p t m (Value.Fits p) (applyUnary op v m) := by
  cases op with
  | not => exact .pure h trivial
  | negate => exact (keeping_convert h _ _).bind fun _ _ hn _ => .pure hn.within trivial
  | typeName => exact .pure h trivial

theorem keeping_onNumbers (f : Float → Float → α) (a b : Value) :
    Keeping p t m Whatever (onNumbers f a b m) :=
  (keeping_convert h _ _).bind fun _ _ hn _ =>
    (keeping_convert hn.within _ _).bind fun _ _ ho _ => .pure ho.within trivial

theorem keeping_arithmetic (f : Float → Float → Float) (a b : Value) :
    Keeping p t m (Value.Fits p) ((Value.number <$> onNumbers f a b) m) := by
  exact (keeping_onNumbers h _ _ _).bind fun _ _ hn _ => .pure hn.within trivial

theorem keeping_compareWith (f : String → String → Bool) (g : Float → Float → Bool)
    (a b : Value) : Keeping p t m (Value.Fits p) (compareWith f g a b m) := by
  have hnum : Keeping p t m (Value.Fits p) ((onNumbers g a b >>= fun r => pure (Value.bool r)) m) :=
    (keeping_onNumbers h _ _ _).bind fun _ _ hn _ => .pure hn.within trivial
  cases a with
  | string s =>
    cases b with
    | string t => exact .pure h trivial
    | _ => exact hnum
  | _ => exact hnum

theorem keeping_applyBinary (op : BinaryOp) (a b : Value) :
    Keeping p t m (Value.Fits p) (applyBinary op a b m) := by
  cases op with
  | add =>
    show Keeping p t m _ ((if a.joins || b.joins then _ else _ : Run Value) m)
    split
    · exact (keeping_convert h _ _).bind fun _ _ hn _ =>
        (keeping_convert hn.within _ _).bind fun _ _ ho _ => .pure ho.within trivial
    · exact keeping_arithmetic h _ _ _
  | subtract | multiply | divide | remainder => exact keeping_arithmetic h _ _ _
  | equal | notEqual | strictEqual | strictNotEqual => exact .pure h trivial
  | less | lessEqual | greater | greaterEqual => exact keeping_compareWith h _ _ _ _

end

end RaiseScript
