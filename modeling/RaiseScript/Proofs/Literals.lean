import RaiseScript.Proofs.Tiling

/-!
# Literals are read back

A string literal is read as the string it was written for, whatever stands before and behind it
(`stringLiteral_survives`). The text of a finite number is read as that number, unless the number is
a whole one from `2 ^ 63` on and below `10 ^ 21`. Such numbers all have the text of the largest
integer that fits in 64 bits, and are read as `2 ^ 63` (`numberText_survives`).
-/

namespace RaiseScript

/-- A token that stands at a place of the text is the one that is read there. -/
theorem Lexeme.ReadIn.eq_of_next {l : Lexeme} {cs before ahead rest : List Char} {t : Token} {length : Nat}
    (h : l.ReadIn cs) (hcs : cs = before ++ ahead) (hstart : l.span.start = before.length)
    (hnext : ∀ pos line, Token.next ⟨ahead, pos, line⟩ = .read t ⟨rest, pos + length, line⟩) :
    l.token = t ∧ l.span.stop = before.length + length := by
  obtain ⟨behind, text, q, r, hq, hreads, hspan⟩ := h
  obtain ⟨qahead, qposition, qline⟩ := q
  rw [hspan] at hstart
  obtain rfl : qposition = before.length := hstart
  have hahead := hq.drop_position
  rw [hcs, List.drop_left] at hahead
  obtain rfl : ahead = qahead := hahead
  have hstep := hreads.step
  rw [hnext] at hstep
  cases hstep
  rw [hspan]
  exact ⟨rfl, rfl⟩

/-- A string literal is read back. It is the token at every place of a text where a token starts
with it, it is one token with the whole text as its place, and it is followed by what follows it in
the text. If the text is short enough, then the places can be noted in 32 bits. -/
theorem stringLiteral_survives (s : String) :
    (∀ before after file ls, lex (before ++ stringLiteral s ++ after) file = .ok ls →
      ((before ++ stringLiteral s ++ after).toList.length + 1 < Span.bound → ∀ l ∈ ls, l.span.Fits) ∧
      ∀ l ∈ ls, l.span.start = before.toList.length →
        l.token = .string s ∧ l.span.stop = before.toList.length + (stringLiteral s).toList.length) ∧
    let n := (stringLiteral s).toList.length
    (∀ file, lex (stringLiteral s) file = .ok [⟨.string s, ⟨0, n, 1⟩⟩, ⟨.finish, ⟨n, n, 1⟩⟩]) ∧
    ∀ after pos line, lexFrom ⟨(stringLiteral s).toList ++ after, pos, line⟩ =
      (lexFrom ⟨after, pos + n, line⟩).map (⟨.string s, ⟨pos, pos + n, line⟩⟩ :: ·) := by
  have hplace (after : List Char) (pos line : Nat) : lexFrom ⟨(stringLiteral s).toList ++ after, pos, line⟩ =
      (lexFrom ⟨after, pos + (stringLiteral s).toList.length, line⟩).map
        (⟨.string s, ⟨pos, pos + (stringLiteral s).toList.length, line⟩⟩ :: ·) :=
    lexFrom_eq_map (next_of_string s)
  refine ⟨fun before after file ls h => ⟨spanFits_of_lex h, fun l hl hstart => ?_⟩, fun file => ?_, hplace⟩
  · have hcs : (before ++ stringLiteral s ++ after).toList = before.toList ++
      ((stringLiteral s).toList ++ after.toList) := by
      simp
    obtain ⟨ts, line, rfl, hts⟩ := (tiled_of_lexFrom (lex_eq_ok.1 h)).tokens (.refl _)
    obtain hl | hl := List.mem_append.1 hl
    · exact (hts l hl).eq_of_next hcs hstart fun pos line => next_of_string s
    · -- the end of the text is behind the literal
      obtain rfl := List.mem_singleton.1 hl
      have hpos : 0 < (stringLiteral s).toList.length := by simp [stringLiteral]
      simp only [hcs, List.length_append] at hstart
      omega
  · have halone := hplace [] 0 1
    rw [List.append_nil, lexFrom_nil, Nat.zero_add] at halone
    exact lex_eq_ok.2 halone

/-- A string with every character that is escaped, and one that is not though it has an escape. -/
def escapedString : String :=
  "\"\\\n\r\t\x00'"

theorem stringLiteral_survives_of_escapedString :
    ∃ ls, lex ("f(" ++ stringLiteral escapedString ++ ");") "main.js" = .ok ls ∧
      ∃ l ∈ ls, l.span = ⟨2, 16, 1⟩ ∧ l.token = .string escapedString ∧
        l.span.stop = 2 + (stringLiteral escapedString).toList.length := by
  have hlook : ((lex ("f(" ++ stringLiteral escapedString ++ ");") "main.js").toOption.any fun ls =>
      ls.any fun l => l.span == ⟨2, 16, 1⟩) = true := by decide +kernel
  obtain ⟨ls, hls, hlook⟩ := Except.exists_of_any hlook
  obtain ⟨l, hl, hspan⟩ := List.any_eq_true.1 hlook
  have hspan := eq_of_beq hspan
  exact ⟨ls, hls, l, hl, hspan,
    ((stringLiteral_survives escapedString).1 "f(" ");" "main.js" ls hls).2 l hl (by rw [hspan]; rfl)⟩

/-! ## Numbers -/

/-- Whether the number is a whole one that is written as the largest integer of 64 bits. -/
def Dyadic.isClamped (x : Dyadic) : Bool :=
  x.isWhole && x.whole < 10 ^ 21 && 2 ^ 63 ≤ x.whole

theorem reread_number {n : ℕ} (h : n < infinityBits) :
    (Token.number (floatOfBits false n)).reread =
      .number (if (Dyadic.ofFloat (floatOfBits false n)).isClamped then floatOfBits false clampBits
        else floatOfBits false n) := by
  rw [Token.reread, magnitudeBits_floatOfBits h.le, if_neg h.ne, rereadBits,
    Dyadic.ofFloat_floatOfBits h.le, Dyadic.isClamped]
  split <;> rfl

theorem lex_numberText {x : Float} (h : IsLiteral x) (file : String) :
    lex (numberText x) file = .ok [⟨(Token.number x).reread, ⟨0, (numberText x).toList.length, 1⟩⟩,
      ⟨.finish, ⟨(numberText x).toList.length, (numberText x).toList.length, 1⟩⟩] := by
  have hnext : Token.next ⟨(numberText x).toList ++ [], 0, 1⟩ =
      .read (Token.number x).reread ⟨[], 0 + (numberText x).toList.length, 1⟩ := next_of_number h trivial
  rw [List.append_nil, Nat.zero_add] at hnext
  exact lex_eq_ok.2 (lexFrom_read hnext (lexFrom_nil ..))

/-- The text of a finite number that is not negative is read as that number if it is not clamped,
and as `2 ^ 63` if it is. -/
theorem numberText_survives {n : ℕ} (h : n < infinityBits) (file : String) :
    let x := floatOfBits false n
    let length := (numberText x).toList.length
    lex (numberText x) file =
      .ok [⟨.number (if (Dyadic.ofFloat x).isClamped then floatOfBits false clampBits else x),
        ⟨0, length, 1⟩⟩, ⟨.finish, ⟨length, length, 1⟩⟩] := by
  intro x length
  rw [lex_numberText ⟨n, h.le, rfl⟩, reread_number h]

/-- One tenth is read back. -/
theorem numberText_survives_of_tenth :
    let x := floatOfBits false 0x3FB999999999999A
    0x3FB999999999999A < infinityBits ∧ numberText x = "0.1" ∧
      lex (numberText x) "main.js" = .ok [⟨.number x, ⟨0, 3, 1⟩⟩, ⟨.finish, ⟨3, 3, 1⟩⟩] := by
  have htext : numberText (floatOfBits false 0x3FB999999999999A) = "0.1" := by decide +kernel
  have hclamped : (Dyadic.ofFloat (floatOfBits false 0x3FB999999999999A)).isClamped = false := by decide +kernel
  have hbits : 0x3FB999999999999A < infinityBits := by decide
  refine ⟨hbits, htext, (numberText_survives hbits "main.js").trans ?_⟩
  rw [hclamped, htext]
  rfl

/-- The text of `10 ^ 20` is not read as that number. -/
theorem numberText_misses_clamped :
    let x := floatOfBits false 0x4415AF1D78B58C40
    (Dyadic.ofFloat x).whole = 10 ^ 20 ∧ numberText x = "9223372036854775807" ∧
      ∀ span ls, lex (numberText x) "main.js" ≠ .ok (⟨.number x, span⟩ :: ls) := by
  have hbits : 0x4415AF1D78B58C40 < infinityBits := by decide
  have hclamped : (Dyadic.ofFloat (floatOfBits false 0x4415AF1D78B58C40)).isClamped = true := by decide +kernel
  refine ⟨by decide +kernel, by decide +kernel, fun span ls h => ?_⟩
  rw [lex_numberText ⟨_, hbits.le, rfl⟩, reread_number hbits, hclamped, if_pos rfl] at h
  obtain ⟨hnumber, -⟩ := Lexeme.mk.inj (List.cons.inj (Except.ok.inj h)).1
  have hsame := congrArg magnitudeBits (Token.number.inj hnumber)
  rw [magnitudeBits_floatOfBits (by decide), magnitudeBits_floatOfBits hbits.le] at hsame
  revert hsame
  decide

end RaiseScript
