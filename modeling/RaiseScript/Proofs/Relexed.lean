import RaiseScript.Proofs.CursorReads
import RaiseScript.Proofs.Rounded
import RaiseScript.Proofs.Supply

/-!
# Pieces are told apart

The characters of pieces are taken apart into the same tokens again, if no token runs into what
follows it (`Legible`). A word and a number end where no part of a word comes next, a mark where
nothing comes next that would make it longer or start a comment, and a string ends by itself.

A token is read as it was written, but for a number that was clamped, and for the infinite number,
which is written as a word (`Token.reread`).
-/

namespace RaiseScript

variable {code : Nat} {c : Char} {rest whole fraction ds : List Char} {m : Mark} {P : Float → Prop}
  {t : Token} {p r : Place} {ps : List Piece}

open Piece

/-! ## Characters -/

theorem le_of_memFrom {n : Nat} {ns : Stretches}
    (h : Stretches.memFrom false code (n :: ns) = true) : n ≤ code := by
  rw [Stretches.memFrom] at h
  split at h
  · cases h
  · omega

theorem toNat_of_isWordStart (h : isWordStart c = true) :
    c.toNat = 36 ∨ c.toNat = 95 ∨ 65 ≤ c.toNat ∧ c.toNat ≤ 90 ∨ 97 ≤ c.toNat ∧ c.toNat ≤ 122 ∨
      170 ≤ c.toNat ∧ wideLetters.memFrom false c.toNat = true := by
  simp only [isWordStart, isLetter, Bool.or_eq_true, beq_iff_eq] at h
  rcases h with ((h | h) | rfl) | rfl
  · simp only [Char.isAlpha, Char.isUpper, Char.isLower, Bool.or_eq_true, Bool.and_eq_true,
      decide_eq_true_eq, ge_iff_le, UInt32.le_iff_toNat_le] at h
    rcases h with h | h
    · exact Or.inr (Or.inr (Or.inl h))
    · exact Or.inr (Or.inr (Or.inr (Or.inl h)))
  · exact Or.inr (Or.inr (Or.inr (Or.inr ⟨le_of_memFrom h, h⟩)))
  · exact Or.inr (Or.inl rfl)
  · exact Or.inl rfl

/-- Letters are not written with characters that have another meaning. -/
theorem isWordStart_plain (h : isWordStart c = true) :
    c.isDigit = false ∧ c ∉ ['"', '\'', '/', '=', '>', '*'] := by
  have hcode := toNat_of_isWordStart h
  constructor
  · rw [Bool.eq_false_iff]
    intro hdigit
    simp only [Char.isDigit, Bool.and_eq_true, decide_eq_true_eq, ge_iff_le, UInt32.le_iff_toNat_le] at hdigit
    change 48 ≤ c.toNat ∧ c.toNat ≤ 57 at hdigit
    omega
  · intro hmem
    simp only [List.mem_cons, List.not_mem_nil, or_false] at hmem
    rcases hmem with rfl | rfl | rfl | rfl | rfl | rfl <;> simp at hcode

/-- The codes of the wide blanks. -/
def blankCodes : List Nat :=
  [0x85, 0xa0, 0x1680, 0x2000, 0x2001, 0x2002, 0x2003, 0x2004, 0x2005, 0x2006, 0x2007,
    0x2008, 0x2009, 0x200a, 0x2028, 0x2029, 0x202f, 0x205f, 0x3000]

theorem mem_blankCodes (h : wideBlanks.memFrom false code = true) : code ∈ blankCodes := by
  simp [wideBlanks, Stretches.memFrom] at h
  simp only [blankCodes, List.mem_cons, List.not_mem_nil, or_false]
  omega

theorem isBlank_of_isWordStart (h : isWordStart c = true) : isBlank c = false := by
  have hcode := toNat_of_isWordStart h
  have hapart : ∀ code ∈ blankCodes, wideLetters.memFrom false code = false ∧ 122 < code := by decide +kernel
  rw [Bool.eq_false_iff]
  intro hblank
  simp only [isBlank, Bool.or_eq_true, beq_iff_eq, Bool.and_eq_true, decide_eq_true_eq] at hblank
  rcases hblank with (rfl | hblank) | hblank
  · simp at hcode
  · have hle : c.toNat ≤ 13 := hblank.2
    omega
  · obtain ⟨hletter, hlarge⟩ := hapart _ (mem_blankCodes hblank)
    rcases hcode with hcode | hcode | hcode | hcode | ⟨-, hcode⟩
    · omega
    · omega
    · omega
    · omega
    · rw [hletter] at hcode
      cases hcode

/-! ## Where tokens end -/

/-- The text is a word. -/
def IsWord (w : String) : Prop :=
  ∃ c cs, w.toList = c :: cs ∧ isWordStart c = true ∧ ∀ d ∈ cs, isWordPart d = true

namespace Names

theorem isWord_candidate (ns : Names) (h : IsWord ns.beginning) {role : String}
    (hr : ∀ c ∈ role.toList, isWordPart c = true) (n : Nat) : IsWord (ns.candidate role n) := by
  obtain ⟨c, cs, hw, hc, hcs⟩ := h
  refine ⟨c, cs ++ (role.toList ++ (toString n).toList), by simp [candidate, hw], hc, ?_⟩
  rw [List.forall_mem_append, List.forall_mem_append]
  exact ⟨hcs, hr, fun d hd => by simp [isWordPart, isNumeral, isDigit_of_mem_toString hd]⟩

/-- A reserved word has no digits. -/
theorem isReserved_candidate (ns : Names) (role : String) (n : Nat) :
    isReserved (ns.candidate role n) = false := by
  rw [← Bool.not_eq_true]
  intro h
  have hplain : reservedWords.all (fun w => w.toList.all (!·.isDigit)) = true := by decide
  have hmem := List.all_eq_true.1 (List.all_eq_true.1 hplain _ (List.contains_iff_mem.1 h))
  obtain ⟨d, hd⟩ := List.exists_mem_of_ne_nil (toString n).toList (by simp [Nat.toString_eq_repr])
  have hdigit := hmem d (by simp only [candidate, String.toList_append, List.mem_append, hd, or_true])
  simp [isDigit_of_mem_toString hd] at hdigit

end Names

/-- No word and no number goes on. -/
def Unworded : List Char → Prop
  | [] => True
  | c :: cs => isWordPart c = false ∧ (c = '.' → ∀ d ∈ cs.head?, d.isDigit = false)

/-- No mark goes on, and no comment starts. -/
def Mild : List Char → Prop
  | [] => True
  | c :: _ => c ∉ ['=', '>', '/', '*']

/-- The number is one that a text can be read as. -/
def IsLiteral (x : Float) : Prop :=
  ∃ n ≤ infinityBits, x = floatOfBits false n

/-- The token does not run into the characters behind it. -/
def Token.EndsAt (P : Float → Prop) : Token → List Char → Prop
  | .word w, cs => IsWord w ∧ Unworded cs
  | .string _, _ => True
  | .number x, cs => (IsLiteral x ∧ P x) ∧ Unworded cs
  | .mark _, cs => Mild cs
  | .finish, _ => False

/-- No token runs into what follows it, there are only blanks in the gaps, and all numbers have the
property. -/
def Legible (P : Float → Prop) : List Piece → List Char → Prop
  | [], _ => True
  | .token t :: ps, cs => t.EndsAt P (render ps ++ cs) ∧ Legible P ps cs
  | .gap g :: ps, cs => (∀ c ∈ g, c = ' ' ∨ c = '\n') ∧ Legible P ps cs

/-- What a token is read as. -/
def Token.reread : Token → Token
  | .number x =>
    if magnitudeBits x = infinityBits then .word "Infinity"
    else .number (floatOfBits false (rereadBits (magnitudeBits x)))
  | t => t

/-- What a piece is read as. -/
def Piece.reread : Piece → Piece
  | .token t => .token t.reread
  | .gap cs => .gap cs

/-! ## One token -/

variable {cs : List Char} {pos line : Nat}

/-! One step at a character that starts no comment, by what the character starts. -/

theorem isDigit_plain (h : c.isDigit = true) : isBlank c = false ∧ ¬(c = '"' ∨ c = '\'') := by
  simp only [Char.isDigit, Bool.and_eq_true, decide_eq_true_eq, ge_iff_le, UInt32.le_iff_toNat_le] at h
  change 48 ≤ c.toNat ∧ c.toNat ≤ 57 at h
  constructor
  · rw [Bool.eq_false_iff]
    intro hblank
    simp only [isBlank, Bool.or_eq_true, beq_iff_eq, Bool.and_eq_true, decide_eq_true_eq] at hblank
    rcases hblank with (rfl | hblank) | hblank
    · simp at h
    · have hle : c.toNat ≤ 13 := hblank.2
      omega
    · have hle := le_of_memFrom hblank
      omega
  · rintro (rfl | rfl) <;> simp at h

theorem next_quote {s : List Char} {passed : Nat} (hc : c = '"' ∨ c = '\'')
    (h : Token.readString c cs 1 = .ok (s, rest, passed)) :
    Token.next ⟨c :: cs, pos, line⟩ = .read (.string (String.ofList s)) ⟨rest, pos + passed, line⟩ := by
  have hblank : isBlank c = false := by
    rcases hc with rfl | rfl <;> decide
  unfold Token.next
  split
  · rename_i heq
    cases heq
  · rename_i heq
    obtain ⟨rfl, rfl⟩ := List.cons.inj heq
    simp at hc
  · rename_i heq
    obtain ⟨rfl, rfl⟩ := List.cons.inj heq
    simp at hc
  · rename_i heq
    obtain ⟨rfl, rfl⟩ := List.cons.inj heq
    simp only [hblank, Bool.false_eq_true, if_false]
    rw [if_pos hc, h]

theorem next_digit (hc : c.isDigit = true) (h : Token.readNumber (c :: cs) = (whole, fraction, rest)) :
    Token.next ⟨c :: cs, pos, line⟩ = .read (.number ((Decimal.ofDigits whole fraction).toFloat false))
      ⟨rest, pos + (whole.length + if fraction.isEmpty then 0 else fraction.length + 1), line⟩ := by
  unfold Token.next
  split
  · rename_i heq
    cases heq
  · rename_i heq
    obtain ⟨rfl, rfl⟩ := List.cons.inj heq
    cases hc
  · rename_i heq
    obtain ⟨rfl, rfl⟩ := List.cons.inj heq
    cases hc
  · rename_i heq
    obtain ⟨rfl, rfl⟩ := List.cons.inj heq
    obtain ⟨hblank, hquote⟩ := isDigit_plain hc
    simp only [h]
    rw [if_neg (by simp [hblank]), if_neg hquote, if_pos hc]

theorem next_wordStart (hc : isWordStart c = true) :
    Token.next ⟨c :: cs, pos, line⟩ = .read (.word (String.ofList ((c :: cs).takeWhile isWordPart)))
      ⟨(c :: cs).dropWhile isWordPart, pos + ((c :: cs).takeWhile isWordPart).length, line⟩ := by
  unfold Token.next
  split
  · rename_i heq
    cases heq
  · rename_i heq
    obtain ⟨rfl, rfl⟩ := List.cons.inj heq
    exact absurd hc (by decide)
  · rename_i heq
    obtain ⟨rfl, rfl⟩ := List.cons.inj heq
    exact absurd hc (by decide)
  · rename_i heq
    obtain ⟨rfl, rfl⟩ := List.cons.inj heq
    obtain ⟨hdigit, hplain⟩ := isWordStart_plain hc
    simp only [List.mem_cons, List.not_mem_nil, or_false, not_or] at hplain
    simp [isBlank_of_isWordStart hc, hplain.1, hplain.2.1, hdigit, hc]

theorem next_markStart (hblank : isBlank c = false) (hquote : ¬(c = '"' ∨ c = '\''))
    (hdigit : c.isDigit = false) (hword : isWordStart c = false) (hslash : c = '/' → Mild cs)
    (h : Token.readMark? (c :: cs) = some (m, rest)) :
    Token.next ⟨c :: cs, pos, line⟩ = .read (.mark m) ⟨rest, pos + m.text.length, line⟩ := by
  unfold Token.next
  split
  · rename_i heq
    cases heq
  · rename_i heq
    obtain ⟨rfl, rfl⟩ := List.cons.inj heq
    exact absurd (hslash rfl) (by simp [Mild])
  · rename_i heq
    obtain ⟨rfl, rfl⟩ := List.cons.inj heq
    exact absurd (hslash rfl) (by simp [Mild])
  · rename_i heq
    obtain ⟨rfl, rfl⟩ := List.cons.inj heq
    simp only [hblank, hdigit, hword, h, Bool.false_eq_true, if_false]
    rw [if_neg hquote]

theorem next_of_word {w : String} (h : IsWord w) (hcs : Unworded cs) :
    Token.next ⟨w.toList ++ cs, pos, line⟩ = .read (.word w) ⟨cs, pos + w.toList.length, line⟩ := by
  obtain ⟨c, ds, hw, hc, hds⟩ := h
  have hall : ∀ d ∈ c :: ds, isWordPart d = true := by
    simpa [isWordPart_of_isWordStart hc] using hds
  have hstop : cs.takeWhile isWordPart = [] ∧ cs.dropWhile isWordPart = cs := by
    cases cs with
    | nil => exact ⟨rfl, rfl⟩
    | cons d cs => simp [hcs.1]
  have htake : (c :: (ds ++ cs)).takeWhile isWordPart = c :: ds := by
    rw [← List.cons_append, List.takeWhile_append_of_pos hall, hstop.1, List.append_nil]
  have hdrop : (c :: (ds ++ cs)).dropWhile isWordPart = cs := by
    rw [← List.cons_append, List.dropWhile_append_of_pos hall, hstop.2]
  rw [hw, List.cons_append, next_wordStart hc, htake, hdrop, ← hw, String.ofList_toList]

theorem readString_escape (e : Char) (n : Nat) :
    Token.readString '"' ('\\' :: e :: cs) n =
      (Token.readString '"' cs (n + 2)).map fun r => (Token.unescape e :: r.1, r.2) := by
  rw [Token.readString.eq_def]
  simp

theorem readString_plain (h : c ∉ ['\n', '"', '\\']) (n : Nat) :
    Token.readString '"' (c :: cs) n = (Token.readString '"' cs (n + 1)).map fun r => (c :: r.1, r.2) := by
  simp only [List.mem_cons, List.not_mem_nil, or_false, not_or] at h
  rw [Token.readString.eq_def]
  simp [h]

/-- A character of a string is read back. -/
theorem readString_literalChar (c : Char) (n : Nat) :
    Token.readString '"' (literalChar c ++ cs) n =
      (Token.readString '"' cs (n + (literalChar c).length)).map fun r => (c :: r.1, r.2) := by
  unfold literalChar
  split
  · exact readString_escape '"' n
  · exact readString_escape '\\' n
  · exact readString_escape 'n' n
  · exact readString_escape 'r' n
  · exact readString_escape 't' n
  · rename_i hquote hslash hline _ _
    refine readString_plain ?_ n
    simp only [List.mem_cons, List.not_mem_nil, or_false, not_or]
    exact ⟨hline, hquote, hslash⟩

theorem readString_literal (s cs : List Char) (n : Nat) :
    Token.readString '"' (s.flatMap literalChar ++ '"' :: cs) n =
      .ok (s, cs, n + (s.flatMap literalChar).length + 1) := by
  induction s generalizing n with
  | nil =>
    rw [List.flatMap_nil, List.nil_append, Token.readString.eq_def]
    simp
  | cons c s ih =>
    rw [List.flatMap_cons, List.append_assoc, readString_literalChar, ih, List.length_append, ← Nat.add_assoc n]
    rfl

theorem next_of_string (s : String) :
    Token.next ⟨(stringLiteral s).toList ++ cs, pos, line⟩ =
      .read (.string s) ⟨cs, pos + (stringLiteral s).toList.length, line⟩ := by
  have hchars : (stringLiteral s).toList = '"' :: (s.toList.flatMap literalChar ++ ['"']) := by
    simp [stringLiteral]
  have hread := readString_literal s.toList cs 1
  rw [hchars, List.cons_append, List.append_assoc, List.singleton_append, next_quote (.inl rfl) hread]
  simp
  omega

theorem Mark.mem_byLength (m : Mark) : m ∈ Mark.byLength := by
  cases m <;> simp [Mark.byLength]

/-- Only `=` and `>` make a mark longer. -/
theorem Mark.eq_of_longer {m' : Mark} {d : Char} (h : m'.text = m.text ++ d :: ds) : d = '=' ∨ d = '>' := by
  have hall : (Mark.byLength.all fun m => Mark.byLength.all fun m' => !m.text.isPrefixOf m'.text ||
      (m'.text.drop m.text.length).head?.all fun d => d == '=' || d == '>') = true := by decide
  have hm := List.all_eq_true.1 (List.all_eq_true.1 hall m m.mem_byLength) m' m'.mem_byLength
  rw [h, List.isPrefixOf_iff_prefix.2 (List.prefix_append _ _), List.drop_left] at hm
  simpa using hm

theorem isPrefixOf_text (m m' : Mark) (hcs : Mild cs) :
    m'.text.isPrefixOf (m.text ++ cs) = m'.text.isPrefixOf m.text := by
  rw [Bool.eq_iff_iff, List.isPrefixOf_iff_prefix, List.isPrefixOf_iff_prefix]
  refine ⟨fun h => ?_, fun h => h.trans (List.prefix_append _ _)⟩
  rcases List.prefix_or_prefix_of_prefix h (List.prefix_append m.text cs) with h' | ⟨zs, hzs⟩
  · exact h'
  · cases zs with
    | nil => exact ⟨[], by rw [← hzs, List.append_nil, List.append_nil]⟩
    | cons d ds =>
      -- the longer mark goes on with the first of the characters behind, which are mild
      rw [← hzs, List.prefix_append_right_inj] at h
      obtain ⟨es, rfl⟩ := h
      simp only [List.cons_append, Mild, List.mem_cons, List.not_mem_nil, or_false, not_or] at hcs
      rcases Mark.eq_of_longer hzs.symm with rfl | rfl
      · exact absurd rfl hcs.1
      · exact absurd rfl hcs.2.1

theorem readMark?_text (m : Mark) (hcs : Mild cs) : Token.readMark? (m.text ++ cs) = some (m, cs) := by
  have hfind : (Mark.byLength.find? fun m' => m'.text.isPrefixOf m.text) = some m := by
    cases m <;> rfl
  simp only [Token.readMark?, isPrefixOf_text m _ hcs, hfind, Option.map_some, List.drop_left]

theorem next_of_mark (m : Mark) (hcs : Mild cs) :
    Token.next ⟨m.text ++ cs, pos, line⟩ = .read (.mark m) ⟨cs, pos + m.text.length, line⟩ := by
  have hmark := readMark?_text m hcs
  have hstart : ∃ c rest, m.text = c :: rest ∧ isBlank c = false ∧ ¬(c = '"' ∨ c = '\'') ∧
      c.isDigit = false ∧ isWordStart c = false ∧ (c = '/' → rest = []) := by
    cases m <;> exact ⟨_, _, rfl, by decide, by decide, by decide, by decide, by decide⟩
  obtain ⟨c, rest, htext, hblank, hquote, hdigit, hword, hslash⟩ := hstart
  rw [htext, List.cons_append] at hmark
  rw [htext, List.cons_append,
    next_markStart hblank hquote hdigit hword (fun h => by simpa [hslash h] using hcs) hmark, htext]

/-! ## Numbers -/

theorem takeWhile_digits (hds : ∀ d ∈ ds, d.isDigit = true) (cs : List Char)
    (hcs : ∀ d ∈ cs.head?, d.isDigit = false) :
    (ds ++ cs).takeWhile Char.isDigit = ds ∧ (ds ++ cs).dropWhile Char.isDigit = cs := by
  rw [List.takeWhile_append_of_pos hds, List.dropWhile_append_of_pos hds]
  cases cs with
  | nil => simp
  | cons c cs => simp [hcs c rfl]

theorem isDigit_of_unworded (h : isWordPart c = false) : c.isDigit = false := by
  simp only [isWordPart, isNumeral, Bool.or_eq_false_iff] at h
  exact h.1.1.2.1

theorem Unworded.head_digit (h : Unworded cs) : ∀ d ∈ cs.head?, d.isDigit = false := by
  cases cs with
  | nil => simp
  | cons c cs => simpa using isDigit_of_unworded h.1

theorem readNumber_of_notated {text : List Char} (h : Notated text whole fraction)
    (hcs : Unworded cs) : Token.readNumber (text ++ cs) = (whole, fraction, cs) := by
  obtain ⟨rfl, -, hdigits⟩ := h
  rw [List.forall_mem_append] at hdigits
  unfold Token.readNumber
  cases fraction with
  | nil =>
    obtain ⟨htake, hdrop⟩ := takeWhile_digits hdigits.1 cs hcs.head_digit
    simp only [List.isEmpty_nil, if_true, List.append_nil, htake, hdrop]
    split
    · rename_i c rest
      rw [if_neg (by simp [hcs.2 rfl c rfl])]
    · rfl
  | cons d ds =>
    obtain ⟨htake, hdrop⟩ := takeWhile_digits hdigits.1 ('.' :: (d :: ds ++ cs)) (by simp)
    obtain ⟨htake', hdrop'⟩ := takeWhile_digits hdigits.2 cs hcs.head_digit
    simp only [List.isEmpty_cons, Bool.false_eq_true, if_false, List.append_assoc, List.cons_append] at *
    simp [htake, hdrop, hdigits.2 d, htake', hdrop']

theorem isWord_infinity : IsWord "Infinity" :=
  ⟨'I', ['n', 'f', 'i', 'n', 'i', 't', 'y'], by decide, by decide, List.all_eq_true.1 (by decide)⟩

theorem numberText_infinity : numberText (floatOfBits false infinityBits) = "Infinity" := by
  rw [numberText, magnitudeBits_floatOfBits le_rfl, signBit_floatOfBits le_rfl]
  simp

theorem next_of_number {x : Float} (h : IsLiteral x) (hcs : Unworded cs) :
    Token.next ⟨(numberText x).toList ++ cs, pos, line⟩ =
      .read (Token.number x).reread ⟨cs, pos + (numberText x).toList.length, line⟩ := by
  obtain ⟨n, hn, rfl⟩ := h
  rw [Token.reread, magnitudeBits_floatOfBits hn]
  rcases hn.eq_or_lt with rfl | hlt
  · rw [if_pos rfl, numberText_infinity]
    exact next_of_word isWord_infinity hcs
  · obtain ⟨whole, fraction, hnotated, hbits⟩ := numberText_reads hlt
    have hread := readNumber_of_notated hnotated hcs
    rw [if_neg hlt.ne]
    generalize (numberText (floatOfBits false n)).toList = text at *
    obtain ⟨hchars, hne, hdigits⟩ := hnotated
    cases whole with
    | nil => exact absurd rfl hne
    | cons c whole =>
      rw [hchars, List.cons_append, List.cons_append] at hread ⊢
      rw [next_digit (hdigits c (by simp)) hread, Decimal.toFloat, hbits]
      cases fraction with
      | nil => simp
      | cons d ds =>
        simp
        omega

theorem next_of_token (h : t.EndsAt P cs) :
    Token.next ⟨t.chars ++ cs, pos, line⟩ = .read t.reread ⟨cs, pos + t.chars.length, line⟩ := by
  cases t with
  | word w => exact next_of_word h.1 h.2
  | string s => exact next_of_string s
  | number x => exact next_of_number h.1.1 h.2
  | mark m => exact next_of_mark m h
  | finish => exact h.elim

/-! ## All tokens -/

theorem lexFrom_nil (pos line : Nat) : lexFrom ⟨[], pos, line⟩ = .ok [⟨.finish, ⟨pos, pos, line⟩⟩] := by
  rw [lexFrom]
  rfl

theorem lexFrom_skipped (h : Token.next p = .skipped r) : lexFrom p = lexFrom r := by
  rw [lexFrom]
  split
  · rename_i h'
    rw [h] at h'
    cases h'
  · rename_i h'
    rw [h] at h'
    cases h'
    rfl
  · rename_i h'
    rw [h] at h'
    cases h'
  · rename_i h'
    rw [h] at h'
    cases h'

theorem lexFrom_eq_map (h : Token.next p = .read t r) :
    lexFrom p = (lexFrom r).map (⟨t, ⟨p.position, r.position, p.line⟩⟩ :: ·) := by
  rw [lexFrom]
  split
  · rename_i h'
    rw [h] at h'
    cases h'
  · rename_i h'
    rw [h] at h'
    cases h'
  · rename_i h'
    rw [h] at h'
    cases h'
    cases lexFrom r <;> rfl
  · rename_i h'
    rw [h] at h'
    cases h'

theorem lexFrom_read {ls : List Lexeme} (h : Token.next p = .read t r) (hr : lexFrom r = .ok ls) :
    lexFrom p = .ok (⟨t, ⟨p.position, r.position, p.line⟩⟩ :: ls) := by
  rw [lexFrom_eq_map h, hr]
  rfl

/-- Blanks are passed over, and line breaks are counted. -/
theorem lexFrom_gap {g : List Char} (hg : ∀ c ∈ g, c = ' ' ∨ c = '\n') (cs : List Char) (pos line : Nat) :
    lexFrom ⟨g ++ cs, pos, line⟩ = lexFrom ⟨cs, pos + g.length, line + g.count '\n'⟩ := by
  induction g generalizing pos line with
  | nil => rfl
  | cons c g ih =>
    rw [List.forall_mem_cons] at hg
    rcases hg.1 with rfl | rfl
    · rw [List.cons_append, lexFrom_skipped (r := ⟨g ++ cs, pos + 1, line⟩) rfl, ih hg.2]
      simp [Nat.add_assoc, Nat.add_comm 1]
    · rw [List.cons_append, lexFrom_skipped (r := ⟨g ++ cs, pos + 1, line + 1⟩) rfl, ih hg.2]
      simp [Nat.add_assoc, Nat.add_comm 1]

/-- The characters of pieces are read as these pieces. -/
theorem sight_lexFrom (h : Legible P ps []) (pos line : Nat) :
    ∃ ls, lexFrom ⟨render ps, pos, line⟩ = .ok ls ∧ ∀ before ≤ line,
      sight before ls = signs (decide (before < line)) (ps.map Piece.reread ++ [.token .finish]) := by
  induction ps generalizing pos line with
  | nil => exact ⟨_, lexFrom_nil pos line, by simp [sight, signs]⟩
  | cons p ps ih =>
    cases p with
    | token t =>
      obtain ⟨ht, hps⟩ := h
      rw [List.append_nil] at ht
      obtain ⟨ls, hls, hsight⟩ := ih hps (pos + t.chars.length) line
      refine ⟨_, lexFrom_read (next_of_token ht) hls, fun before hle => ?_⟩
      rw [sight, hsight line (Nat.le_refl line)]
      simp [signs, Piece.reread]
    | gap g =>
      obtain ⟨hg, hps⟩ := h
      obtain ⟨ls, hls, hsight⟩ := ih hps (pos + g.length) (line + g.count '\n')
      refine ⟨ls, (lexFrom_gap hg _ pos line).trans hls, fun before hle => ?_⟩
      rw [hsight before (Nat.le_trans hle (Nat.le_add_right _ _)), List.map_cons, List.cons_append,
        Piece.reread, signs]
      congr 1
      have hcount : 0 < g.count '\n' ↔ '\n' ∈ g := List.count_pos_iff
      rw [Bool.eq_iff_iff]
      simp only [decide_eq_true_eq, Bool.or_eq_true, List.contains_iff_mem, ← hcount]
      omega

/-- Pieces stay as they are if their numbers do. -/
theorem map_reread_eq_self (hP : ∀ x, P x → (Token.number x).reread = .number x)
    (h : Legible P ps cs) : ps.map Piece.reread = ps := by
  induction ps with
  | nil => rfl
  | cons p ps ih =>
    cases p with
    | token t =>
      have ht : t.reread = t := by
        cases t with
        | number x => exact hP x h.1.1.2
        | _ => rfl
      rw [List.map_cons, ih h.2, Piece.reread, ht]
    | gap g => rw [List.map_cons, ih h.2, Piece.reread]

end RaiseScript
