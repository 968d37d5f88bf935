import RaiseScript.Proofs.Calls
import RaiseScript.Proofs.Supply

/-!
# Operands that wait

Lowering takes an expression apart : some statements run first, and what is left of the expression
is evaluated later, after the statements of other operands. On the left the expression is evaluated
in one go. `Stage` relates the two : it runs the statements on the right, and what is left is
`Ripe`. Either the left is done with the expression and its value is `Held` by what is left,
whatever runs in between, or what is left still has to run on both sides.

A function that is held is made on the right only when it is its turn. Its number then belongs to a
number that the left gave out a while ago. `Near` pairs of machines differ by such numbers.
-/

namespace RaiseScript

variable {S : Setting} {α β γ : Type}
variable {env env' : Env} {c : Twin S} {ls ls' : List Link} {p q : Names} {f : α → Run β}

/-- What runs calls on both sides. -/
structure Engines (S : Setting) where
  left : Engine
  right : Nat → Engine
  direct : left.direct = true
  rising : left.Rising
  maxSteps : ∀ i, (right i).maxSteps = i
  /-- Calls of values that belong together meet. -/
  call : ∀ {n : Nat} {c : Twin S} {f f' this this' : Value} {args args' : List Value},
    n ≤ c.left.nextId → Alike S c.world f f' → Alike S c.world this this' →
    List.Forall₂ (Alike S c.world) args args' →
    Meets n .none c (left.call f this args c.left) (fun i => (right i).call f' this' args') AlikeIn
  /-- The built-in `call` passes on what it gets. -/
  pass : ∀ i j f this args, (right i).call (.native j .call) f (this :: args) = (right i).call f this args
  /-- Only functions can be called. -/
  refuse : ∀ {f : Value}, f.typeName ≠ "function" → S.faultless = true →
    ∀ this args m, Excused S m (left.call f this args m)

/-! ## Machines that are near -/

/-- The pair `d` is the pair `c`, except for counts and that some functions were made on the right
for functions that the left made before its number `n`. -/
structure Near (n : Nat) (c d : Twin S) : Prop where
  left : d.left = c.left
  right : d.right = { c.right with
    nextId := d.right.nextId, steps := d.right.steps, misses := d.right.misses }
  scopes : d.world.scopes = c.world.scopes
  extra : d.world.extra = c.world.extra
  slots : d.world.slots = c.world.slots
  ids_of : ∀ {i j}, c.world.ids i j → d.world.ids i j
  ids : ∀ {i j}, d.world.ids i j → c.world.ids i j ∨ i < n

namespace Near

variable {m n : Nat} {b d : Twin S}

theorem refl (n : Nat) (c : Twin S) : Near n c c :=
  ⟨rfl, rfl, rfl, rfl, rfl, id, Or.inl⟩

theorem world (h : Near n c d) : c.world ≤ d.world :=
  ⟨fun hi => h.scopes ▸ hi, fun hi => h.extra ▸ hi, h.ids_of, fun hi => h.slots ▸ hi⟩

theorem scopes_right (h : Near n c d) : d.right.scopes = c.right.scopes := by
  rw [h.right]

theorem trans (h : Near m b c) (h' : Near n c d) (hm : m ≤ n) : Near n b d where
  left := h'.left.trans h.left
  right := by rw [h'.right, h.right]
  scopes := h'.scopes.trans h.scopes
  extra := h'.extra.trans h.extra
  slots := h'.slots.trans h.slots
  ids_of hi := h'.ids_of (h.ids_of hi)
  ids hi := by
    rcases h'.ids hi with hi | hi
    · exact (h.ids hi).imp_right fun hi => Nat.lt_of_lt_of_le hi hm
    · exact Or.inr hi

theorem le (h : Near m c d) (hm : m ≤ n) : Near n c d :=
  h.trans (refl n d) hm

theorem tick (n : Nat) (c : Twin S) :
    Near n c (c.countRight (c.right.steps + 1) c.right.mistakes c.right.misses) :=
  ⟨rfl, rfl, rfl, rfl, rfl, id, Or.inl⟩

theorem noted (n misses : Nat) (c : Twin S) :
    Near n c (c.countRight c.right.steps c.right.mistakes misses) :=
  ⟨rfl, rfl, rfl, rfl, rfl, id, Or.inl⟩

theorem nameRight (n : Nat) (c : Twin S) : Near n c c.nameRight :=
  ⟨rfl, rfl, rfl, rfl, rfl, id, Or.inl⟩

theorem nameHeld {i : Nat} (hi : i < c.left.nextId) (hfree : ∀ j, ¬ c.world.ids i j) (hn : i < n) :
    Near n c (c.nameHeld i hi hfree) :=
  ⟨rfl, rfl, rfl, rfl, rfl, Or.inl, Or.imp_right fun h => h.1 ▸ hn⟩

end Near

/-! ## Where expressions stand -/

/-- The scopes on both sides belong together, and there is a scope for temporaries. -/
structure Placed (w : World) (env env' : Env) : Prop where
  chains : Chains w env.chain env'.chain
  nonempty : env'.chain ≠ []

theorem Placed.mono {v w : World} (h : v ≤ w) (hp : Placed v env env') : Placed w env env' :=
  ⟨hp.chains.mono h, hp.nonempty⟩

theorem Chains.lt_left (h : Chains c.world ls ls') : ∀ l ∈ ls, l.scope < c.left.scopes.size := by
  induction h with
  | nil => exact fun _ hl => by cases hl
  | link hs _ _ ih => exact List.forall_mem_cons.2 ⟨c.agree.scopes.lt_left hs, ih⟩
  | extra _ _ _ ih => exact ih

theorem Chains.lt_right (h : Chains c.world ls ls') : ∀ l ∈ ls', l.scope < c.right.scopes.size := by
  induction h with
  | nil => exact fun _ hl => by cases hl
  | link hs _ _ ih => exact List.forall_mem_cons.2 ⟨c.agree.scopes.lt_right hs, ih⟩
  | extra hs _ _ ih => exact List.forall_mem_cons.2 ⟨c.agree.scopes.extra_lt hs, ih⟩

/-- A name bound in the innermost scope is found there. -/
theorem Machine.find?_here {m : Machine} (h : env.chain ≠ []) {x : String} {b : Binding}
    (hb : lookupIn m.scopes env.here x = some b) : m.find? x env.chain = some (env.here, b) := by
  obtain ⟨_ | ⟨l, ls⟩, slot⟩ := env
  · exact absurd rfl h
  · rw [Machine.find?_cons]
    change lookupIn m.scopes l.scope x = some b at hb
    rw [hb]
    rfl

/-- The temporaries that lowering named on the way from `p` to `q`, in the innermost scope. -/
def Touch.temps (env' : Env) (p q : Names) : Touch where
  scope _ := False
  cell i x := i = env'.here ∧ p.Between q x
  slot _ := False
  aim := .none

theorem Touch.temps_within {a : Twin S} {p₀ q₀ : Names} (hp : p₀.issued ⊆ p.issued)
    (hq : q.issued ⊆ q₀.issued) : (Touch.temps env' p q).Within a (.temps env' p₀ q₀) where
  scope _ h := h.elim
  cell _ h := ⟨h.1, hq h.2.1, fun h₀ => h.2.2 (hp h₀)⟩
  slot _ h := h.elim
  aim _ h := by cases h

/-! ## Values that are held -/

/-- The value is held by what is left of its expression, and nothing that runs later takes it away.
The names in `names` are those of temporaries, and a function was made as one of the numbers from
`lo` to `hi`. -/
inductive Held (lo hi : Nat) (names : Names) (c : Twin S) (env env' : Env) : Value → Expr → Prop
  | number (x : Float) : Held lo hi names c env env' (.number x) (.number x)
  | string (s : String) : Held lo hi names c env env' (.string s) (.string s)
  | bool (b : Bool) : Held lo hi names c env env' (.bool b) (.bool b)
  | null : Held lo hi names c env env' .null .null
  | undefined : Held lo hi names c env env' .undefined .undefined
  | this : Held lo hi names c env env' c.left.this .this
  | steady {x : String} {v : Value} (hs : S.Steady x) (hx : ¬ S.temp x)
    (h : c.left.lookup? x env.chain = some v) : Held lo hi names c env env' v (.ident x)
  | temp {x : String} {v : Value} {b : Binding} (hx : x ∈ names.issued)
    (h : lookupIn c.right.scopes env'.here x = some b) (hv : Alike S c.world v b.value) :
    Held lo hi names c env env' v (.ident x)
  | func {i : Nat} {f f' : Func} (hlo : lo ≤ i) (hhi : i < hi) (hfree : ∀ j, ¬ c.world.ids i j)
    (hf : S.code f f') : Held lo hi names c env env' (.closure i f env c.left.this) (.func f')

namespace Held

variable {lo hi n : Nat} {names : Names} {d : Twin S} {v : Value} {e : Expr}

section

variable (h : Held lo hi names c env env' v e)

include h

theorem weaken {lo' hi' : Nat} {names' : Names} (hlo : lo' ≤ lo)
    (hhi : hi ≤ hi') (hn : names.issued ⊆ names'.issued) : Held lo' hi' names' c env env' v e := by
  cases h with
  | steady hs hx h => exact .steady hs hx h
  | temp hx h hv => exact .temp (hn hx) h hv
  | func hl hh hfree hf => exact .func (Nat.le_trans hlo hl) (Nat.lt_of_lt_of_le hh hhi) hfree hf
  | _ => constructor

/-- What runs later on both sides does not take the value away. -/
theorem later {t : Touch} (hl : Later n t c d) (hn : hi ≤ n)
    (hc : Chains c.world env.chain env'.chain) (hs : ∀ i, ¬ t.scope i)
    (ht : ∀ x ∈ names.issued, S.temp x ∧ ¬ t.cell env'.here x) :
    Held lo hi names d env env' v e := by
  cases h with
  | this =>
    rw [← hl.this_left]
    exact .this
  | steady hst hx hv =>
    refine .steady hst hx ?_
    rw [← hv]
    unfold Machine.lookup?
    rw [Machine.find?_congr fun l hlc => hl.left.steady (hc.lt_left l hlc) (hs _) hst]
  | temp hx hb hv =>
    refine .temp hx ?_ (hv.mono hl.world)
    rw [hl.right.cell (lt_of_lookupIn hb) (ht _ hx).1 (ht _ hx).2]
    exact hb
  | func hlo hhi hfree hf =>
    rw [← hl.this_left]
    refine .func hlo hhi (fun j hj => ?_) hf
    rcases hl.ids hj with hj | hj
    · exact hfree j hj
    · exact absurd hhi (Nat.not_lt.2 (Nat.le_trans hn hj))
  | _ => constructor

theorem near (hn : Near lo c d) : Held lo hi names d env env' v e := by
  cases h with
  | this =>
    rw [← hn.left]
    exact .this
  | steady hst hx hv => exact .steady hst hx (hn.left ▸ hv)
  | temp hx hb hv => exact .temp hx (hn.scopes_right ▸ hb) (hv.mono hn.world)
  | func hlo hhi hfree hf =>
    rw [← hn.left]
    refine .func hlo hhi (fun j hj => ?_) hf
    rcases hn.ids hj with hj | hj
    · exact hfree j hj
    · exact absurd hlo (Nat.not_le.2 hj)
  | _ => constructor

/-- What holds the value can be read as it is, or it is a function that is still to be made. -/
theorem read (hp : Placed c.world env env') :
    (∃ v', (∀ k : Engine, evalExpr k env' e c.right = .ok v' c.right) ∧ Alike S c.world v v') ∨
      ∃ i f f', v = .closure i f env c.left.this ∧ e = .func f' ∧ lo ≤ i ∧ i < hi ∧
        (∀ j, ¬ c.world.ids i j) ∧ S.code f f' := by
  cases h with
  | this => exact Or.inl ⟨_, fun _ => rfl, c.agree.this⟩
  | @steady x _ _ hx hv =>
    have hlook := c.lookup? hx hp.chains
    rw [hv] at hlook
    obtain ⟨v', hv', ha⟩ : ∃ v', c.right.lookup? x env'.chain = some v' ∧ Alike S c.world v v' := by
      generalize c.right.lookup? x env'.chain = b at hlook
      cases hlook
      exact ⟨_, rfl, by assumption⟩
    have heval : readName env' x c.right = .ok v' c.right := by
      rw [readName_apply, hv']
      rfl
    exact Or.inl ⟨v', fun _ => heval, ha⟩
  | @temp x _ b _ hb hv =>
    have heval : readName env' x c.right = .ok b.value c.right := by
      rw [readName_apply, Machine.lookup?, Machine.find?_here hp.nonempty hb]
      rfl
    exact Or.inl ⟨_, fun _ => heval, hv⟩
  | func hlo hhi hfree hf => exact Or.inr ⟨_, _, _, rfl, rfl, hlo, hhi, hfree, hf⟩
  | number x => exact Or.inl ⟨_, fun _ => rfl, .number x⟩
  | string s => exact Or.inl ⟨_, fun _ => rfl, .string s⟩
  | bool b => exact Or.inl ⟨_, fun _ => rfl, .bool b⟩
  | null => exact Or.inl ⟨_, fun _ => rfl, .null⟩
  | undefined => exact Or.inl ⟨_, fun _ => rfl, .undefined⟩

/-- When its turn comes, the value is there on the right as well. -/
theorem eval (hp : Placed c.world env env')
    (hhi : hi ≤ c.left.nextId) :
    ∃ d v', Near hi c d ∧ Later lo .none c d ∧
      (∀ k : Engine, evalExpr k env' e c.right = .ok v' d.right) ∧ Alike S d.world v v' := by
  rcases h.read hp with ⟨v', heval, hv⟩ | ⟨i, f, f', rfl, rfl, hlo, hh, hfree, hf⟩
  · exact ⟨c, v', .refl hi c, .refl lo .none c, heval, hv⟩
  · have hi := Nat.lt_of_lt_of_le hh hhi
    have hle := c.world.le_withIds i c.right.nextId
    exact ⟨c.nameHeld i hi hfree, _, .nameHeld hi hfree hh, Twin.later_nameHeld hi hfree hlo,
      fun _ => rfl, .closure (Or.inr ⟨rfl, rfl⟩) hf (hp.chains.mono hle) (c.agree.this.mono hle)⟩

end

end Held

/-! ## What is left of an expression -/

section

variable (k : Engines S) (n : Nat) (names : Names) (c : Twin S) (env env' : Env) (r : Result Value)
  (e : Expr)

/-- The left is done with the expression, and its value is held. -/
def Done : Prop :=
  ∃ v, r = .ok v c.left ∧ Held n c.left.nextId names c env env' v e

/-- What is left of the expression has to run on both sides. -/
def Active : Prop :=
  ∀ d, Near n c d → Meets n .none d r (fun i => evalExpr (k.right i) env' e) AlikeIn

/-- What is left of the expression can run on both sides as things are. -/
def Due : Prop :=
  ∀ d, Near 0 c d → Meets n .none d r (fun i => evalExpr (k.right i) env' e) AlikeIn

/-- What is left of the expression holds its value or has to run. -/
def Ripe : Prop :=
  Done n names c env env' r e ∨ (S.surroundings.isInert names e = false ∧ Active k n c env' r e)

end

variable {k : Engines S} {m n : Nat} {names : Names} {a b d : Twin S} {r : Result Value} {e : Expr}
  {t u : Touch}

theorem Done.active (h : Done n names c env env' r e) (hp : Placed c.world env env')
    (k : Engines S) : Active k n c env' r e := by
  intro d hd
  obtain ⟨v, rfl, hv⟩ := h
  have hnext : c.left.nextId = d.left.nextId := by rw [hd.left]
  obtain ⟨b, v', hnear, hl, heval, ha⟩ := (hv.near hd).eval (hp.mono hd.world) (Nat.le_of_eq hnext)
  rw [← hd.left, ← hnear.left]
  exact .gives b v v' hl rfl (.of_eq fun i => heval (k.right i)) ha

theorem Active.due (h : Active k n c env' r e) : Due k n c env' r e :=
  fun d hd => h d (hd.le (Nat.zero_le n))

theorem Ripe.active (h : Ripe k n names c env env' r e) (hp : Placed c.world env env') :
    Active k n c env' r e := by
  rcases h with h | ⟨-, h⟩
  · exact h.active hp k
  · exact h

/-- Inert expressions hold their value. -/
theorem Ripe.done (h : Ripe k n names c env env' r e) (hi : S.surroundings.isInert names e = true) :
    Done n names c env env' r e := by
  rcases h with h | ⟨hf, -⟩
  · exact h
  · rw [hi] at hf
    cases hf

/-- The statements in front of an expression run on the right. Then `K` holds, unless the left ended
meanwhile. -/
inductive Stage (n : Nat) (t : Touch) (a : Twin S) (r : Result α) (y : Nat → Run Unit)
    (K : Twin S → Prop) : Prop
  | excused (h : Excused S a.left r)
  | exits (b : Twin S) (e e' : Exit) (later : Later n t a b) (left : r = .error e b.left)
    (right : Ends y a.right (.error e' b.right)) (rel : ExitAlike S b.world e e')
  | stops (c : Twin S) (later : Later n t a c) (right : Ends y a.right (.ok () c.right)) (ripe : K c)

namespace Stage

variable {r : Result α} {y z : Nat → Run Unit} {K K' : Twin S → Prop}

theorem nothing (h : K a) : Stage n t a r (fun _ => pure ()) K :=
  .stops a (.refl n t a) (.of_eq fun _ => rfl) h

/-- Seen from another pair, with other code on the right that ends in the same way. -/
theorem carry (h : Stage n u c r z K) (hl : ∀ b, Later n u c b → Later m t a b)
    (hz : ∀ o, Ends z c.right o → Ends y a.right o) (hK : ∀ b, Later n u c b → K b → K' b) :
    Stage m t a r y K' := by
  cases h with
  | excused h => exact .excused (h.earlier (hl c (.refl n u c)).left.faults)
  | exits b e e' hb he hr hrel => exact .exits b e e' (hl b hb) he (hz _ hr) hrel
  | stops b hb hr hk => exact .stops b (hl b hb) (hz _ hr) (hK b hb hk)

theorem imp (h : Stage n t a r y K) (hK : ∀ c, Later n t a c → K c → K' c) : Stage n t a r y K' :=
  h.carry (fun _ => id) (fun _ => id) hK

theorem le (hm : m ≤ n) (h : Stage n t a r y K) : Stage m t a r y K :=
  h.carry (fun _ hl => hl.le hm) (fun _ => id) fun _ _ => id

theorem within (h : Stage n u a r y K) (hw : u.Within a t) : Stage n t a r y K :=
  h.carry (fun _ hl => hl.within hw) (fun _ => id) fun _ _ => id

/-- The left goes on. -/
theorem map (h : Stage n t a r y K) (f : α → Run β) [∀ v, Rising (f v)]
    (hK : ∀ c, Later n t a c → K c → K' c) : Stage n t a (Result.andThen r f) y K' := by
  cases h with
  | excused h => exact .excused (h.andThen f)
  | exits b e e' hl he hy hr =>
    subst he
    exact .exits b e e' hl rfl hy hr
  | stops c hl hy hc => exact .stops c hl hy (hK c hl hc)

/-- Starts from an earlier pair. -/
theorem after (h : Stage n u c r z K) (hl : Later n t a c) (hw : u.Within a t)
    (hy : Ends y a.right (.ok () c.right)) :
    Stage n t a r (fun i => y i >>= fun _ => z i) K :=
  h.carry (fun _ hb => hl.trans hb hw) (fun _ hz => hy.bind hz) fun _ _ => id

/-- Starts from an earlier pair of which the right machine is the same. -/
theorem earlier (h : Stage n u c r y K) (hl : Later n t a c) (hw : u.Within a t)
    (hr : c.right = a.right) : Stage n t a r y K :=
  h.carry (fun _ hb => hl.trans hb hw) (fun _ hy => hr ▸ hy) fun _ _ => id

/-- The left goes on, and more statements run on the right. -/
theorem bind [∀ v, Rising (f v)] (h : Stage n t a r y K) (hw : u.Within a t)
    (hf : ∀ c, Later n t a c → K c → Stage n u c (Result.andThen r f) z K') :
    Stage n t a (Result.andThen r f) (fun i => y i >>= fun _ => z i) K' := by
  cases h with
  | excused h => exact .excused (h.andThen f)
  | exits b e e' hl he hy hr =>
    subst he
    exact .exits b e e' hl rfl hy.bind_error hr
  | stops c hl hy hc => exact (hf c hl hc).after hl hw hy

/-- The left goes on, and so does the right after the statements. -/
theorem meets [∀ v, Rising (f v)] {g : Nat → Run γ} {R : Twin S → β → γ → Prop} (h : Stage n t a r y K)
    (hw : u.Within a t) (hf : ∀ c, Later n t a c → K c → Meets n u c (Result.andThen r f) g R) :
    Meets n t a (Result.andThen r f) (fun i => y i >>= fun _ => g i) R := by
  cases h with
  | excused h => exact .excused (h.andThen f)
  | exits b e e' hl he hy hr =>
    subst he
    exact .exits b e e' hl rfl hy.bind_error hr
  | stops c hl hy hc => exact (hf c hl hc).after hl hw hy fun _ => rfl

/-- Where no statements have to run, the right stays as it is. -/
theorem flat {g : Nat → Run β} {R : Twin S → α → β → Prop}
    (h : Stage n (.temps env' p q) a r (fun _ => pure ()) K)
    (hf : ∀ c, Later n .none a c → K c → Meets n .none c r g R) : Meets n .none a r g R := by
  have hnone {c : Twin S} (hl : Later n (.temps env' p q) a c) (hr : c.right = a.right) :
      Later n .none a c :=
    { hl with
      left := ⟨hl.left.scopes, hl.left.nextId, hl.left.slots, hl.left.objects, hl.left.steady,
        hl.left.slot, hl.left.field, hl.left.faults⟩
      right := hr ▸ .refl _ _
      aim := by simp [Touch.none] }
  cases h with
  | excused h => exact .excused h
  | exits b e e' _ _ hy _ =>
    obtain ⟨N, hN⟩ := hy
    cases hN N (Nat.le_refl N)
  | stops c hl hy hc =>
    obtain ⟨N, hN⟩ := hy
    have hr : c.right = a.right := by
      injection hN N (Nat.le_refl N) with _ h
      exact h.symm
    exact (hf c (hnone hl hr) hc).earlier (hnone hl hr) .refl hr

end Stage

theorem execAll_append (k : Engine) (env : Env) : ∀ ss ts : List Stmt,
    execAll k env (ss ++ ts) = execAll k env ss >>= fun _ => execAll k env ts
  | [], _ => by rw [List.nil_append, execAll, pure_bind]
  | s :: ss, ts => by
    rw [List.cons_append, execAll, execAll, execAll_append k env ss ts, bind_assoc]

theorem execAll_single (k : Engine) (env : Env) (s : Stmt) : execAll k env [s] = execStmt k env s := by
  exact bind_pure_unit

end RaiseScript
