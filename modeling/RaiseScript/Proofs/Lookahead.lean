import RaiseScript.Proofs.CursorReads

/-!
# No arrow ahead

An arrow function is told from an expression in parentheses by the mark after the parentheses. In
written pieces parentheses come in pairs (`Passes`), so a look behind the closing one finds what was
written there.
-/

namespace RaiseScript

variable {c : Cursor} {b : Bool} {ps : List Piece} {ts us : List Token} {t : Token}

open Piece

/-- The tokens of pieces. -/
def tokensOf : List Piece → List Token
  | [] => []
  | .token t :: ps => t :: tokensOf ps
  | .gap _ :: ps => tokensOf ps

@[simp] theorem tokensOf_nil : tokensOf [] = [] := rfl

@[simp] theorem tokensOf_token (t : Token) (ps : List Piece) :
    tokensOf (.token t :: ps) = t :: tokensOf ps := rfl

@[simp] theorem tokensOf_gap (cs : List Char) (ps : List Piece) : tokensOf (.gap cs :: ps) = tokensOf ps :=
  rfl

@[simp] theorem tokensOf_append (ps qs : List Piece) : tokensOf (ps ++ qs) = tokensOf ps ++ tokensOf qs := by
  induction ps with
  | nil => rfl
  | cons p ps ih => cases p <;> simp [ih]

theorem map_snd_sight (line : Nat) (ls : List Lexeme) : (sight line ls).map (·.2) = ls.map (·.token) := by
  induction ls generalizing line with
  | nil => rfl
  | cons l ls ih => simp [sight, ih]

theorem map_snd_signs (b : Bool) (ps : List Piece) : (signs b ps).map (·.2) = tokensOf ps := by
  induction ps generalizing b with
  | nil => rfl
  | cons p ps ih => cases p <;> simp [signs, ih]

theorem Cursor.Reads.tokens (h : c.Reads b ps) : c.ahead.map (·.token) = tokensOf ps ++ [.finish] := by
  rw [← map_snd_sight c.before.line, h, map_snd_signs, tokensOf_append]
  rfl

/-! ## Behind the parentheses -/

/-- Whether the parenthesis that closes the one opened `depth` levels up is followed by an arrow. -/
def arrowBehind (depth : Nat) : List Token → Bool
  | [] => false
  | .finish :: _ => false
  | .mark .leftParen :: ts => arrowBehind (depth + 1) ts
  | .mark .rightParen :: ts =>
    if depth = 1 then (ts.head?.map (·.isMark .arrow)).getD false else arrowBehind (depth - 1) ts
  | _ :: ts => arrowBehind depth ts

theorem arrowAfterParens_eq (depth : Nat) (ls : List Lexeme) :
    arrowAfterParens depth ls = arrowBehind depth (ls.map (·.token)) := by
  induction ls generalizing depth with
  | nil => rfl
  | cons l ls ih =>
    obtain ⟨t, sp⟩ := l
    rw [arrowAfterParens, List.map_cons]
    cases t with
    | mark m =>
      cases m <;> simp [arrowBehind, ih]
      rfl
    | _ => simp [arrowBehind, ih]

/-- Inside parentheses a look at what comes behind them passes over the tokens. -/
def Passes (ts : List Token) : Prop :=
  ∀ depth us, 1 ≤ depth → arrowBehind depth (ts ++ us) = arrowBehind depth us

namespace Passes

@[simp] theorem nil : Passes [] := fun _ _ _ => rfl

@[simp] theorem append_iff {ts us : List Token} (ht : Passes ts) : Passes (ts ++ us) ↔ Passes us := by
  refine forall₃_congr fun depth vs hd => ?_
  rw [List.append_assoc, ht depth _ hd]

@[simp] theorem cons_iff {t : Token} {ts : List Token} (h : t ≠ .finish) (hl : t ≠ .mark .leftParen)
    (hr : t ≠ .mark .rightParen) : Passes (t :: ts) ↔ Passes ts := by
  refine @append_iff [t] ts fun depth us _ => ?_
  cases t with
  | finish => exact absurd rfl h
  | mark m =>
    cases m with
    | leftParen => exact absurd rfl hl
    | rightParen => exact absurd rfl hr
    | _ => rfl
  | _ => rfl

@[simp] theorem parens_iff {ts us : List Token} (h : Passes ts) :
    Passes (.mark .leftParen :: (ts ++ .mark .rightParen :: us)) ↔ Passes us := by
  refine forall₃_congr fun depth vs hd => ?_
  rw [List.cons_append, List.append_assoc, arrowBehind, h (depth + 1) _ (by omega),
    List.cons_append, arrowBehind, if_neg (by omega), Nat.add_sub_cancel]

end Passes

theorem passes_commas {pss : List (List Piece)} (h : ∀ ps ∈ pss, Passes (tokensOf ps)) :
    Passes (tokensOf (commas pss)) := by
  induction pss with
  | nil => exact .nil
  | cons ps pss ih =>
    have hps := h ps List.mem_cons_self
    cases pss with
    | nil => exact hps
    | cons qs pss =>
      rw [commas, tokensOf_append]
      simpa [hps] using ih fun qs hqs => h qs (List.mem_cons_of_mem ps hqs)

/-- A look behind the first parentheses finds the token there. -/
theorem arrowBehind_parens (h : Passes ts) :
    arrowBehind 0 (.mark .leftParen :: (ts ++ .mark .rightParen :: us)) =
      (us.head?.map (·.isMark .arrow)).getD false := by
  rw [arrowBehind, h 1 _ (Nat.le_refl 1), arrowBehind, if_pos rfl]

/-! ## Where no arrow function starts -/

/-- The parameters of an arrow function that start the tokens. -/
def paramsAhead (ts : List Token) : Option ArrowParams :=
  if (ts.headD .finish).isName && (ts.tail.headD .finish).isMark .arrow then some .single
  else if (ts.headD .finish).isMark .leftParen && arrowBehind 0 ts then some .list
  else none

theorem Cursor.Reads.peekAt (h : c.Reads b ps) (i : Nat) :
    c.peekAt i = ((tokensOf ps).drop i).headD .finish := by
  have htokens := h.tokens
  have hlast : (c.ahead.getLast?).map (·.token) = some .finish := by
    rw [← List.getLast?_map, htokens, List.getLast?_concat]
  have hhead : ((c.ahead.drop i).head?).map (·.token) =
      ((tokensOf ps ++ [Token.finish]).drop i).head? := by
    rw [← htokens, List.head?_drop, List.head?_drop, List.getElem?_map]
  have hdrop : ((tokensOf ps ++ [Token.finish]).drop i).head?.getD .finish =
      ((tokensOf ps).drop i).headD .finish := by
    rw [List.headD_eq_head?_getD, List.head?_drop, List.head?_drop]
    rcases Nat.lt_or_ge i (tokensOf ps).length with hlt | hge
    · rw [List.getElem?_append_left hlt]
    · rw [List.getElem?_eq_none hge, List.getElem?_append_right hge]
      rcases Nat.eq_zero_or_pos (i - (tokensOf ps).length) with h0 | h0
      · simp [h0]
      · rw [List.getElem?_eq_none (by simpa using Nat.succ_le_of_lt h0)]
  rw [← hdrop, ← hhead]
  unfold Cursor.peekAt
  cases hd : (c.ahead.drop i).head? with
  | some l => rfl
  | none =>
    cases hl : c.ahead.getLast? with
    | none => rfl
    | some l =>
      rw [hl] at hlast
      exact Option.some.inj hlast

theorem arrowBehind_concat_finish (depth : Nat) (ts : List Token) :
    arrowBehind depth (ts ++ [.finish]) = arrowBehind depth ts := by
  induction ts generalizing depth with
  | nil => rfl
  | cons t ts ih =>
    rw [List.cons_append]
    cases t with
    | finish => rfl
    | mark m =>
      cases m with
      | rightParen =>
        rw [arrowBehind, arrowBehind, ih]
        cases ts <;> rfl
      | _ => exact ih _
    | _ => exact ih _

theorem Cursor.Reads.arrowParamsAt (h : c.Reads b ps) {i : Nat} (hi : i ≤ (tokensOf ps).length) :
    c.arrowParamsAt i = paramsAhead ((tokensOf ps).drop i) := by
  have hbehind : arrowAfterParens 0 (c.ahead.drop i) = arrowBehind 0 ((tokensOf ps).drop i) := by
    rw [arrowAfterParens_eq, List.map_drop, h.tokens, List.drop_append_of_le_length hi,
      arrowBehind_concat_finish]
  rw [Cursor.arrowParamsAt, h.peekAt, h.peekAt, hbehind, paramsAhead, List.tail_drop]

/-- No arrow function starts the tokens. -/
def NoArrow (ts : List Token) : Prop :=
  paramsAhead ts = none ∧ ((ts.headD .finish).isWord "async" = true → paramsAhead ts.tail = none)

/-- A token that is neither a name nor an opening parenthesis starts no arrow function. -/
theorem noArrow_cons (ts : List Token) (hn : t.isName = false) (hl : t.isMark .leftParen = false)
    (ha : t.isWord "async" = false) : NoArrow (t :: ts) := by
  refine ⟨by simp [paramsAhead, hn, hl], fun hw => ?_⟩
  rw [List.headD_cons, ha] at hw
  cases hw

theorem Cursor.Reads.arrowAhead (h : c.Reads b ps) (hne : tokensOf ps ≠ [])
    (hno : NoArrow (tokensOf ps)) : c.arrowAhead = none := by
  have hlen := List.length_pos_iff.2 hne
  have hcurrent : c.current.token = (tokensOf ps).headD .finish := by
    have htokens := h.tokens
    cases ha : c.ahead with
    | nil => exact absurd ha h.ahead_ne_nil
    | cons l ls =>
      rw [ha, List.map_cons] at htokens
      rw [Cursor.current, ha]
      cases ht : tokensOf ps with
      | nil => exact absurd ht hne
      | cons t ts =>
        rw [ht] at htokens
        exact (List.cons.inj htokens).1
  rw [Cursor.arrowAhead, h.arrowParamsAt hlen, h.arrowParamsAt (Nat.zero_le _), hcurrent,
    List.drop_zero, List.drop_one, hno.1]
  cases hasync : ((tokensOf ps).headD .finish).isWord "async" with
  | false => rfl
  | true => rw [hno.2 hasync]; rfl

/-- What follows an operand: a mark that is no arrow. If it opens parentheses, no arrow stands
behind them. -/
def Still (ts : List Token) : Prop :=
  ∃ m us, ts = .mark m :: us ∧ m ≠ .arrow ∧ (m = .leftParen → arrowBehind 0 ts = false)

theorem quiet_mark {m : Mark} (us : List Token) (ha : m ≠ .arrow) (hl : m ≠ .leftParen) :
    Still (.mark m :: us) :=
  ⟨m, us, rfl, ha, fun h => absurd h hl⟩

theorem Still.behind (h : Still us) : (us.head?.map (·.isMark .arrow)).getD false = false := by
  obtain ⟨m, us, rfl, hm, -⟩ := h
  simpa [Token.isMark] using hm

theorem quiet_parens (ht : Passes ts) (hu : Still us) :
    Still (.mark .leftParen :: (ts ++ .mark .rightParen :: us)) :=
  ⟨_, _, rfl, nofun, fun _ => (arrowBehind_parens ht).trans hu.behind⟩

theorem Still.paramsAhead (h : Still us) : paramsAhead us = none := by
  obtain ⟨m, us, rfl, -, hm⟩ := h
  rw [RaiseScript.paramsAhead]
  by_cases hl : m = .leftParen
  · subst hl
    simp [hm rfl, Token.isName]
  · simp [Token.isName, Token.isMark, hl]

/-- The tokens of an operand, which neither an arrow function nor a `yield` starts. -/
structure Calm (ts : List Token) : Prop where
  ne_nil : ts ≠ []
  noYield : (ts.headD .finish).isWord "yield" = false
  noArrow {us : List Token} : Still us → NoArrow (ts ++ us)

namespace Calm

theorem leaf (ht : t.isMark .leftParen = false) (hy : t.isWord "yield" = false) : Calm [t] := by
  refine ⟨by simp, hy, fun {us} hu => ⟨?_, fun _ => hu.paramsAhead⟩⟩
  obtain ⟨m, us, rfl, hm, -⟩ := hu
  have harrow : (Token.mark m).isMark .arrow = false := by simpa [Token.isMark] using hm
  simp [RaiseScript.paramsAhead, ht, harrow]

theorem append {rs : List Token} (ht : Calm ts) (hr : ∀ us, Still us → Still (rs ++ us)) : Calm (ts ++ rs) := by
  refine ⟨by simp [ht.ne_nil], ?_, fun {us} hu => ?_⟩
  · cases ts with
    | nil => exact absurd rfl ht.ne_nil
    | cons t ts => exact ht.noYield
  · rw [List.append_assoc]
    exact ht.noArrow (hr us hu)

theorem parens (h : Passes ts) : Calm (.mark .leftParen :: (ts ++ [.mark .rightParen])) := by
  refine ⟨by simp, rfl, fun {us} hu => ⟨?_, fun hw => by simp [Token.isWord] at hw⟩⟩
  rw [List.cons_append, List.append_assoc, List.singleton_append, RaiseScript.paramsAhead,
    arrowBehind_parens h, hu.behind]
  simp [Token.isName]

theorem cons (ts : List Token) (hn : t.isName = false) (hl : t.isMark .leftParen = false)
    (ha : t.isWord "async" = false) (hy : t.isWord "yield" = false) : Calm (t :: ts) :=
  ⟨by simp, hy, fun {us} _ => noArrow_cons (ts ++ us) hn hl ha⟩

/-- An asynchronous function that is no arrow function. -/
theorem async (ts : List Token) : Calm (.word "async" :: .word "function" :: ts) := by
  refine ⟨by simp, by simp [Token.isWord], fun {us} _ => ⟨?_, fun _ => ?_⟩⟩
  · simp [RaiseScript.paramsAhead, Token.isMark]
  · have hreserved : isReserved "function" = true := by decide
    simp [RaiseScript.paramsAhead, Token.isMark, Token.isName, hreserved]

end Calm

end RaiseScript
