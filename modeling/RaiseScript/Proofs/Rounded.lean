import RaiseScript.Number.Notation
import Mathlib

/-!
# Numbers are read back from their text

A finite number is a mantissa in units of its last place (`Dyadic.Finite`). The decimals that are
read as the number are those no more than half a unit away, on the lower side a quarter where the
unit below is only half as large ; on the border the even mantissa wins. `Dyadic.Hears` says this
with rationals, where nothing is rounded, and `Decimal.toBits_eq` says that reading agrees.

The text of a number without its fraction is a whole number of at most 64 bits. Only there something
is lost : what does not fit is clamped, and the text is then read as `2 ^ 63` (`numberText_reads`).
-/

namespace RaiseScript

variable {k den num n : ℕ} {x : Dyadic} {d : Decimal}

/-! ## Decimals and rationals -/

/-- The magnitude that a decimal stands for. -/
def Decimal.value (d : Decimal) : ℚ :=
  d.digits * 10 ^ d.exponent

theorem zpow_mul_toNat_neg {b : ℚ} (hb : b ≠ 0) (i : ℤ) : b ^ i * b ^ (-i).toNat = b ^ i.toNat := by
  rw [← zpow_natCast, ← zpow_natCast, ← zpow_add₀ hb]
  congr 1
  omega

/-- Both sides of a comparison on the scale on which they are whole. -/
theorem scaled_left (a : ℕ) (i j : ℤ) :
    (((a * Nat.pow 10 i.toNat) <<< (-j).toNat : ℕ) : ℚ) =
      a * 10 ^ i * (10 ^ (-i).toNat * 2 ^ (-j).toNat) := by
  rw [Nat.shiftLeft_eq, ← mul_assoc, mul_assoc (a : ℚ), zpow_mul_toNat_neg (by norm_num)]
  push_cast [Nat.pow_eq]
  ring

theorem scaled_right (n : ℕ) (i j : ℤ) :
    (((n * Nat.pow 10 (-i).toNat) <<< j.toNat : ℕ) : ℚ) =
      n * 2 ^ j * (10 ^ (-i).toNat * 2 ^ (-j).toNat) := by
  rw [Nat.shiftLeft_eq, mul_comm ((10 : ℚ) ^ _), ← mul_assoc, mul_assoc (n : ℚ),
    zpow_mul_toNat_neg (by norm_num)]
  push_cast [Nat.pow_eq]
  ring

theorem compareScaled_eq (a : ℕ) (i : ℤ) (n : ℕ) (j : ℤ) :
    Decimal.compareScaled a i n j = compare ((a : ℚ) * 10 ^ i) (n * 2 ^ j) := by
  have hpos : (0 : ℚ) < 10 ^ (-i).toNat * 2 ^ (-j).toNat := by positivity
  have hl := scaled_left a i j
  have hr := scaled_right n i j
  unfold Decimal.compareScaled
  generalize (a * Nat.pow 10 i.toNat) <<< (-j).toNat = l at hl
  generalize (n * Nat.pow 10 (-i).toNat) <<< j.toNat = r at hr
  rcases lt_trichotomy ((a : ℚ) * 10 ^ i) (n * 2 ^ j) with h | h | h
  · rw [compare_lt_iff_lt.2 h, compare_lt_iff_lt, ← Nat.cast_lt (α := ℚ), hl, hr]
    exact mul_lt_mul_of_pos_right h hpos
  · rw [compare_eq_iff_eq.2 h, compare_eq_iff_eq, ← Nat.cast_inj (R := ℚ), hl, hr, h]
  · rw [compare_gt_iff_gt.2 h, compare_gt_iff_gt, ← Nat.cast_lt (α := ℚ), hl, hr]
    exact mul_lt_mul_of_pos_right h hpos

/-! ## Rounding -/

theorem roundQuotient_eq {a b : ℕ} (hb : 0 < b) (hlow : 2 * k * b ≤ 2 * a + b) (hhigh : 2 * a ≤ (2 * k + 1) * b)
    (htie : 2 * k * b = 2 * a + b ∨ 2 * a = (2 * k + 1) * b → k % 2 = 0) : roundQuotient a b = k := by
  have hdiv : b * (a / b) + a % b = a := Nat.div_add_mod a b
  have hmod : a % b < b := Nat.mod_lt a hb
  unfold roundQuotient
  generalize a / b = q at *
  generalize a % b = r at *
  have hq : q ≤ k := by
    by_contra hlt
    have : b * (k + 1) ≤ b * q := Nat.mul_le_mul_left b (by omega)
    nlinarith
  have hk : k ≤ q + 1 := by
    by_contra hlt
    have : b * (q + 2) ≤ b * k := Nat.mul_le_mul_left b (by omega)
    nlinarith
  rcases Nat.lt_or_ge q k with hlt | hge
  · obtain rfl : k = q + 1 := by omega
    have hup : b ≤ 2 * r := by nlinarith
    rw [if_neg]
    rintro (h | ⟨h, heven⟩)
    · omega
    · have := htie (Or.inl (by nlinarith))
      omega
  · obtain rfl : k = q := by omega
    have hdown : 2 * r ≤ b := by nlinarith
    rw [if_pos]
    rcases Nat.lt_or_ge (2 * r) b with h | h
    · exact Or.inl h
    · exact Or.inr ⟨by omega, htie (Or.inr (by nlinarith))⟩

/-- The numerator and the denominator of a quotient in units of `2 ^ p`. -/
theorem unit_quotient (num : ℕ) (hd : 0 < den) (p : ℤ) :
    ((num <<< (-p).toNat : ℕ) : ℚ) / ((den <<< p.toNat : ℕ) : ℚ) = num / den / 2 ^ p := by
  have hden : (den : ℚ) ≠ 0 := by exact_mod_cast hd.ne'
  have hsplit := zpow_mul_toNat_neg (b := 2) (by norm_num) p
  have hp : (2 : ℚ) ^ p ≠ 0 := by positivity
  rw [Nat.shiftLeft_eq, Nat.shiftLeft_eq]
  push_cast
  rw [← hsplit]
  field_simp

theorem quotient_lt_zpow_iff (num : ℕ) (hd : 0 < den) (p : ℤ) (k : ℕ) :
    (num <<< (-p).toNat < den <<< (p.toNat + k)) ↔ (num : ℚ) / den < 2 ^ (p + k) := by
  have hden : (0 : ℚ) < (den <<< p.toNat : ℕ) := by
    rw [Nat.shiftLeft_eq]
    positivity
  have hp : (0 : ℚ) < 2 ^ p := by positivity
  have hunit := unit_quotient num hd p
  rw [Nat.shiftLeft_add, Nat.shiftLeft_eq _ k, ← Nat.cast_lt (α := ℚ), Nat.cast_mul, mul_comm,
    ← div_lt_iff₀ hden, hunit, div_lt_iff₀ hp, zpow_add₀ (by norm_num), zpow_natCast, mul_comm]
  norm_cast

/-- A quotient has its leading bit at most 52 places above its last one. -/
theorem lastPlace_spec (hn : num ≠ 0) (hd : den ≠ 0) :
    -1074 ≤ lastPlace num den ∧ (num : ℚ) / den < 2 ^ (lastPlace num den + 53) ∧
      (lastPlace num den = -1074 ∨ (2 : ℚ) ^ (lastPlace num den + 52) ≤ num / den) := by
  have hd' : 0 < den := by omega
  have hden : (0 : ℚ) < den := by exact_mod_cast hd'
  -- the leading bits of both numbers give the leading bit of the quotient up to one place
  have hupper : (num : ℚ) / den < 2 ^ ((num.log2 : ℤ) - den.log2 - 52 + 53) := by
    have h1 : (num : ℚ) < 2 ^ (num.log2 + 1) := by exact_mod_cast Nat.lt_log2_self
    have h2 : (2 : ℚ) ^ den.log2 ≤ den := by exact_mod_cast Nat.log2_self_le hd
    rw [div_lt_iff₀ hden]
    calc (num : ℚ) < 2 ^ (num.log2 + 1) := h1
      _ = 2 ^ ((num.log2 : ℤ) - den.log2 - 52 + 53) * 2 ^ den.log2 := by
        rw [← zpow_natCast, ← zpow_natCast, ← zpow_add₀ (by norm_num)]
        congr 1
        push_cast
        ring
      _ ≤ _ := by gcongr
  have hlower : (2 : ℚ) ^ ((num.log2 : ℤ) - den.log2 - 52 + 51) ≤ num / den := by
    have h1 : (2 : ℚ) ^ num.log2 ≤ num := by exact_mod_cast Nat.log2_self_le hn
    have h2 : (den : ℚ) < 2 ^ (den.log2 + 1) := by exact_mod_cast Nat.lt_log2_self
    rw [le_div_iff₀ hden]
    calc _ ≤ (2 : ℚ) ^ ((num.log2 : ℤ) - den.log2 - 52 + 51) * 2 ^ (den.log2 + 1) := by gcongr
      _ = 2 ^ num.log2 := by
        rw [← zpow_natCast, ← zpow_natCast, ← zpow_add₀ (by norm_num)]
        congr 1
        push_cast
        ring
      _ ≤ _ := h1
  have hiff := quotient_lt_zpow_iff num hd' ((num.log2 : ℤ) - den.log2 - 52) 52
  unfold lastPlace
  generalize (num.log2 : ℤ) - den.log2 - 52 = guess at *
  simp only
  have hmono {a b : ℤ} (h : a ≤ b) : (2 : ℚ) ^ a ≤ 2 ^ b := zpow_le_zpow_right₀ (by norm_num) h
  split
  · rename_i h
    rw [hiff] at h
    refine ⟨le_max_right _ _, lt_of_lt_of_le h (hmono (by push_cast; omega)), ?_⟩
    rcases le_total (guess - 1) (-1074) with hle | hle
    · exact Or.inl (max_eq_right hle)
    · rw [max_eq_left hle]
      exact Or.inr (le_trans (hmono (by omega)) hlower)
  · rename_i h
    rw [hiff, not_lt] at h
    refine ⟨le_max_right _ _, lt_of_lt_of_le hupper (hmono (by omega)), ?_⟩
    rcases le_total guess (-1074) with hle | hle
    · exact Or.inl (max_eq_right hle)
    · rw [max_eq_left hle]
      exact Or.inr (by exact_mod_cast h)

/-- A quotient is rounded to `k` units if it is no more than half a unit away. -/
theorem roundQuotient_unit (hd : 0 < den) (p : ℤ) (hlow : ((k : ℚ) - 1 / 2) * 2 ^ p ≤ num / den)
    (hhigh : (num : ℚ) / den ≤ (k + 1 / 2) * 2 ^ p)
    (htie : ((k : ℚ) - 1 / 2) * 2 ^ p = num / den ∨ (num : ℚ) / den = (k + 1 / 2) * 2 ^ p → k % 2 = 0) :
    roundQuotient (num <<< (-p).toNat) (den <<< p.toNat) = k := by
  have hp : (0 : ℚ) < 2 ^ p := by positivity
  have hunit := unit_quotient num hd p
  have hb : 0 < den <<< p.toNat := by
    rw [Nat.shiftLeft_eq]
    positivity
  have hb' : (0 : ℚ) < (den <<< p.toNat : ℕ) := by exact_mod_cast hb
  generalize num <<< (-p).toNat = a at *
  generalize den <<< p.toNat = b at *
  have hv : (num : ℚ) / den = a / b * 2 ^ p := by
    rw [hunit]
    field_simp
  rw [hv] at hlow hhigh htie
  rw [mul_le_mul_iff_left₀ hp] at hlow hhigh
  rw [mul_left_inj' hp.ne', mul_left_inj' hp.ne'] at htie
  have hlow' := (le_div_iff₀ hb').1 hlow
  have hhigh' := (div_le_iff₀ hb').1 hhigh
  refine roundQuotient_eq hb ?_ ?_ fun h => htie (h.imp ?_ ?_)
  · rw [← Nat.cast_le (α := ℚ)]
    push_cast
    linarith
  · rw [← Nat.cast_le (α := ℚ)]
    push_cast
    linarith
  · intro h
    have h' : ((2 * k * b : ℕ) : ℚ) = ((2 * a + b : ℕ) : ℚ) := congrArg _ h
    push_cast at h'
    rw [eq_div_iff hb'.ne']
    linarith
  · intro h
    have h' : ((2 * a : ℕ) : ℚ) = (((2 * k + 1) * b : ℕ) : ℚ) := congrArg _ h
    push_cast at h'
    rw [div_eq_iff hb'.ne']
    linarith

/-! ## Finite numbers -/

/-- The magnitude of a finite number is a mantissa of 53 bits in units of its last place. -/
structure Dyadic.Finite (x : Dyadic) (n : ℕ) : Prop where
  bits : (x.exponent + 1074).toNat <<< 52 + x.mantissa = n
  least : -1074 ≤ x.exponent
  most : x.exponent ≤ 971
  mantissa : x.mantissa < 2 ^ 53
  leading : x.exponent = -1074 ∨ 2 ^ 52 ≤ x.mantissa
  narrow : x.narrowBelow = true ↔ x.mantissa = 2 ^ 52 ∧ -1074 < x.exponent

theorem Dyadic.finite_ofBits (h : n < infinityBits) : (Dyadic.ofBits (UInt64.ofNat n)).Finite n := by
  have hn : n < 2 ^ 63 := by simp only [infinityBits] at h; omega
  have hb : ((UInt64.ofNat n >>> 52) &&& 0x7FF).toNat = n / 2 ^ 52 := by
    rw [UInt64.toNat_and, UInt64.toNat_shiftRight,
      UInt64.toNat_ofNat_of_lt' (by simpa [UInt64.size] using by omega)]
    change n >>> 52 &&& (2 ^ 11 - 1) = _
    rw [Nat.and_two_pow_sub_one_eq_mod, Nat.shiftRight_eq_div_pow]
    omega
  have hf : (UInt64.ofNat n &&& 0xFFFFFFFFFFFFF).toNat = n % 2 ^ 52 := by
    rw [UInt64.toNat_and, UInt64.toNat_ofNat_of_lt' (by simpa [UInt64.size] using by omega)]
    change n &&& (2 ^ 52 - 1) = _
    rw [Nat.and_two_pow_sub_one_eq_mod]
  simp only [infinityBits] at h
  unfold Dyadic.ofBits
  simp only [hb, hf]
  split
  · constructor <;> simp [Nat.shiftLeft_eq] <;> omega
  · constructor <;> simp [Nat.shiftLeft_eq] <;> omega

/-- The decimals that are read as the number. -/
def Dyadic.Hears (x : Dyadic) (v : ℚ) : Prop :=
  let low : ℚ := (x.mantissa - if x.narrowBelow then 1 / 4 else 1 / 2) * 2 ^ x.exponent
  let high : ℚ := (x.mantissa + 1 / 2) * 2 ^ x.exponent
  (low < v ∨ x.mantissa % 2 = 0 ∧ v = low) ∧ (v < high ∨ x.mantissa % 2 = 0 ∧ v = high)

theorem nearestBits_le (num den : Nat) : nearestBits num den ≤ infinityBits := by
  unfold nearestBits
  split
  · exact Nat.zero_le _
  · exact Nat.min_le_right _ _

theorem nearestBits_eq (hx : x.Finite n) (hinf : n < infinityBits) (hn : num ≠ 0) (hd : den ≠ 0)
    (h : x.Hears (num / den)) : nearestBits num den = n := by
  obtain ⟨hleast, hbelow, habove⟩ := lastPlace_spec hn hd
  obtain ⟨hlow, hhigh⟩ := h
  have hmono {a b : ℤ} : (2 : ℚ) ^ a < 2 ^ b ↔ a < b := zpow_lt_zpow_iff_right₀ (by norm_num)
  have hunit : (0 : ℚ) < 2 ^ x.exponent := by positivity
  have hmantissa : (x.mantissa : ℚ) + 1 ≤ 2 ^ 53 := by exact_mod_cast hx.mantissa
  have hlow' : ((x.mantissa : ℚ) - if x.narrowBelow then 1 / 4 else 1 / 2) * 2 ^ x.exponent ≤ num / den :=
    hlow.elim le_of_lt fun h => h.2.ge
  have hhigh' : (num : ℚ) / den ≤ (x.mantissa + 1 / 2) * 2 ^ x.exponent := hhigh.elim le_of_lt fun h => h.2.le
  rw [nearestBits, if_neg hn]
  generalize lastPlace num den = p at *
  -- the quotient is below the next power of two, so its last place is not above that of `x`
  have hle : p ≤ x.exponent := by
    rcases habove with rfl | habove
    · exact hx.least
    · have hlt : (2 : ℚ) ^ (p + 52) < 2 ^ (x.exponent + 53) := by
        calc (2 : ℚ) ^ (p + 52) ≤ _ := habove
          _ ≤ (x.mantissa + 1 / 2) * 2 ^ x.exponent := hhigh'
          _ < 2 ^ 53 * 2 ^ x.exponent := by gcongr; linarith
          _ = 2 ^ (x.exponent + 53) := by rw [zpow_add₀ (by norm_num), mul_comm]; norm_cast
      have := hmono.1 hlt
      omega
  simp only
  rcases hle.eq_or_lt with rfl | hlt
  · rw [roundQuotient_unit (k := x.mantissa) (by omega) x.exponent]
    · rw [hx.bits]
      exact min_eq_left hinf.le
    · refine le_trans ?_ hlow'
      gcongr
      split <;> norm_num
    · exact hhigh'
    · rintro (htie | htie)
      · rcases hlow with hlow | hlow
        · refine absurd hlow (not_lt.2 (htie ▸ ?_))
          gcongr
          split <;> norm_num
        · exact hlow.1
      · rcases hhigh with hhigh | hhigh
        · exact absurd htie hhigh.ne
        · exact hhigh.1
  · -- only the least mantissa hears something below its own power of two
    have hinside : (num : ℚ) / den < 2 ^ 52 * 2 ^ x.exponent := by
      calc (num : ℚ) / den < 2 ^ (p + 53) := hbelow
        _ ≤ 2 ^ (x.exponent + 52) := zpow_le_zpow_right₀ (by norm_num) (by omega)
        _ = 2 ^ 52 * 2 ^ x.exponent := by rw [zpow_add₀ (by norm_num), mul_comm]; norm_cast
    have hsmall : (x.mantissa : ℚ) < 2 ^ 52 + 1 := by
      have hlt := lt_of_mul_lt_mul_right (lt_of_le_of_lt hlow' hinside) hunit.le
      split at hlt <;> linarith
    have hm : x.mantissa = 2 ^ 52 := by
      have hlt : x.mantissa < 2 ^ 52 + 1 := by exact_mod_cast hsmall
      rcases hx.leading with he | hge <;> omega
    have hnarrow : x.narrowBelow = true := hx.narrow.2 ⟨hm, by omega⟩
    rw [if_pos hnarrow, hm] at hlow'
    have hnext : x.exponent - 1 ≤ p := by
      have hlt : (2 : ℚ) ^ (x.exponent + 51) < 2 ^ (p + 53) := by
        calc (2 : ℚ) ^ (x.exponent + 51) = 2 ^ 51 * 2 ^ x.exponent := by
              rw [zpow_add₀ (by norm_num), mul_comm]; norm_cast
          _ ≤ (((2 ^ 52 : ℕ) : ℚ) - 1 / 4) * 2 ^ x.exponent := by gcongr; norm_num
          _ ≤ _ := hlow'
          _ < _ := hbelow
      have := hmono.1 hlt
      omega
    obtain rfl : p = x.exponent - 1 := by omega
    have hhalf : (2 : ℚ) ^ x.exponent = 2 * 2 ^ (x.exponent - 1) := by
      rw [← zpow_one_add₀ (by norm_num)]
      congr 1
      ring
    have hunit' : (0 : ℚ) < 2 ^ (x.exponent - 1) := by positivity
    rw [roundQuotient_unit (k := 2 ^ 53) (by omega) (x.exponent - 1)]
    · have hbits := hx.bits
      have hstep : (x.exponent + 1074).toNat = (x.exponent - 1 + 1074).toNat + 1 := by omega
      have hcarry : (x.exponent - 1 + 1074).toNat <<< 52 + 2 ^ 53 = n := by
        rw [← hbits, hm, hstep, Nat.shiftLeft_eq, Nat.shiftLeft_eq]
        ring
      rw [hcarry]
      exact min_eq_left hinf.le
    · push_cast at hlow' ⊢
      linarith
    · push_cast
      linarith
    · exact fun _ => by norm_num

namespace Decimal

theorem value_eq_div (d : Decimal) :
    d.value = ((d.digits * Nat.pow 10 d.exponent.toNat : ℕ) : ℚ) / ((Nat.pow 10 (-d.exponent).toNat : ℕ) : ℚ) := by
  rw [value, eq_div_iff (by simp)]
  push_cast [Nat.pow_eq]
  rw [mul_assoc, zpow_mul_toNat_neg (by norm_num)]

/-- A decimal that a number hears is read as that number. -/
theorem toBits_eq (hx : x.Finite n) (hinf : n < infinityBits) (hpos : 0 < x.mantissa)
    (h : x.Hears d.value) : d.toBits = n := by
  have hm : (1 : ℚ) ≤ x.mantissa := by exact_mod_cast hpos
  have hlow : (1 / 2 : ℚ) * 2 ^ x.exponent ≤ d.value := by
    refine le_trans ?_ (h.1.elim le_of_lt fun h => h.2.ge)
    gcongr
    split <;> linarith
  have hhigh : d.value < 2 ^ 53 * 2 ^ x.exponent := by
    have hmantissa : (x.mantissa : ℚ) + 1 ≤ 2 ^ 53 := by exact_mod_cast hx.mantissa
    refine lt_of_le_of_lt (h.2.elim le_of_lt fun h => h.2.le) ?_
    gcongr
    linarith
  have hvalue : 0 < d.value := lt_of_lt_of_le (by positivity) hlow
  have hdigits : d.digits ≠ 0 := by
    rintro h0
    simp [value, h0] at hvalue
  have hone : (1 : ℚ) ≤ d.digits := by exact_mod_cast Nat.pos_of_ne_zero hdigits
  have hsmall : d.exponent < 310 := by
    by_contra hge
    have hlt : (10 : ℚ) ^ (310 : ℤ) < 2 ^ 53 * 2 ^ (971 : ℤ) := by
      calc (10 : ℚ) ^ (310 : ℤ) ≤ 10 ^ d.exponent := zpow_le_zpow_right₀ (by norm_num) (by omega)
        _ ≤ d.value := le_mul_of_one_le_left (by positivity) hone
        _ < _ := hhigh
        _ ≤ _ := by gcongr; norm_num; exact hx.most
    refine absurd hlt (not_lt.2 ?_)
    calc (2 : ℚ) ^ 53 * 2 ^ (971 : ℤ) = 2 ^ (1024 : ℤ) := by
          rw [← zpow_natCast, ← zpow_add₀ (by norm_num)]
          rfl
      _ ≤ 2 ^ (1025 : ℤ) := zpow_le_zpow_right₀ (by norm_num) (by norm_num)
      _ = (2 ^ 205) ^ 5 := (zpow_natCast 2 1025).trans (pow_mul 2 205 5)
      _ ≤ (10 ^ 62) ^ 5 := pow_le_pow_left₀ (by positivity) (by norm_num) 5
      _ = 10 ^ (310 : ℤ) := (pow_mul 10 62 5).symm.trans (zpow_natCast 10 310).symm
  have hlarge : ¬ d.exponent + ((d.digits.log2 : ℤ) + 1) < -1100 := by
    intro hlt
    have hlog : (d.digits : ℚ) < 2 ^ (d.digits.log2 + 1) := by exact_mod_cast Nat.lt_log2_self
    have hten : (10 : ℚ) ^ d.exponent ≤ 2 ^ d.exponent := by
      rw [← inv_le_inv₀ (by positivity) (by positivity), ← zpow_neg, ← zpow_neg]
      exact zpow_le_zpow_left₀ (by omega) (by norm_num) (by norm_num)
    have hless : (2 : ℚ) ^ (-1075 : ℤ) < 2 ^ (-1100 : ℤ) := by
      calc (2 : ℚ) ^ (-1075 : ℤ) = 1 / 2 * 2 ^ (-1074 : ℤ) := by
            rw [one_div, ← zpow_neg_one, ← zpow_add₀ (by norm_num)]
            rfl
        _ ≤ 1 / 2 * 2 ^ x.exponent := by gcongr; norm_num; exact hx.least
        _ ≤ d.value := hlow
        _ < 2 ^ (d.digits.log2 + 1) * 2 ^ d.exponent := by
          exact mul_lt_mul hlog hten (by positivity) (by positivity)
        _ = 2 ^ (d.exponent + ((d.digits.log2 : ℤ) + 1)) := by
          rw [← zpow_natCast, ← zpow_add₀ (by norm_num)]
          congr 1
          push_cast
          ring
        _ < 2 ^ (-1100 : ℤ) := zpow_lt_zpow_right₀ (by norm_num) hlt
    have := (zpow_lt_zpow_iff_right₀ (by norm_num)).1 hless
    omega
  rw [toBits, if_neg hdigits, if_neg (by omega), if_neg hlarge]
  refine nearestBits_eq hx hinf ?_ ?_ ?_
  · simpa using hdigits
  · simp
  · rw [← value_eq_div]
    exact h

theorem readsBack_iff (hpos : 0 < x.mantissa) (d : Decimal) : readsBack x d = true ↔ x.Hears d.value := by
  have hquarter : (2 : ℚ) ^ (x.exponent - 2) = 1 / 4 * 2 ^ x.exponent := by
    rw [zpow_sub₀ (by norm_num)]
    norm_num
    ring
  have hlow : (((if x.narrowBelow then 4 * x.mantissa - 1 else 4 * x.mantissa - 2 : ℕ) : ℚ)) * 2 ^
      (x.exponent - 2) =
      (x.mantissa - if x.narrowBelow then 1 / 4 else 1 / 2) * 2 ^ x.exponent := by
    rw [hquarter]
    split
    · rw [Nat.cast_sub (by omega)]
      push_cast
      ring
    · rw [Nat.cast_sub (by omega)]
      push_cast
      ring
  have hhigh : ((4 * x.mantissa + 2 : ℕ) : ℚ) * 2 ^ (x.exponent - 2) = (x.mantissa + 1 / 2) * 2 ^ x.exponent := by
    rw [hquarter]
    push_cast
    ring
  unfold readsBack Dyadic.Hears
  simp only [compareScaled_eq, hlow, hhigh, value, Bool.and_eq_true, Bool.or_eq_true, beq_iff_eq,
    compare_gt_iff_gt, compare_lt_iff_lt, compare_eq_iff_eq]

theorem value_strip : ∀ (fuel : ℕ) (d : Decimal), (strip fuel d).value = d.value := by
  intro fuel
  induction fuel with
  | zero => exact fun _ => rfl
  | succ fuel ih =>
    intro d
    rw [strip]
    split
    · rename_i h
      rw [ih]
      obtain ⟨k, hk⟩ : 10 ∣ d.digits := Nat.dvd_of_mod_eq_zero h.2
      simp only [value, hk]
      rw [Nat.mul_div_cancel_left _ (by norm_num), zpow_add₀ (by norm_num)]
      push_cast
      ring
    · rfl

theorem value_exact (x : Dyadic) : (exact x).value = x.mantissa * 2 ^ x.exponent := by
  unfold exact
  split
  · rename_i h
    obtain ⟨k, hk⟩ := Int.eq_ofNat_of_zero_le h
    simp [value, hk, Nat.shiftLeft_eq]
  · rename_i h
    have hten : (10 : ℚ) ^ x.exponent = 2 ^ x.exponent * 5 ^ x.exponent := by
      rw [← mul_zpow]
      norm_num
    have hfive := zpow_mul_toNat_neg (b := 5) (by norm_num) x.exponent
    have hnone : x.exponent.toNat = 0 := by omega
    rw [hnone, pow_zero] at hfive
    simp only [value, hten]
    push_cast [Nat.pow_eq]
    calc (x.mantissa : ℚ) * 5 ^ (-x.exponent).toNat * (2 ^ x.exponent * 5 ^ x.exponent)
      _ = x.mantissa * 2 ^ x.exponent * (5 ^ x.exponent * 5 ^ (-x.exponent).toNat) := by ring
      _ = _ := by rw [hfive, mul_one]

theorem readsBack_of_onGrid {tie : Tie} {place : ℤ} (h : onGrid? tie x place = some d) :
    readsBack x d = true := by
  unfold onGrid? at h
  simp only at h
  split at h
  · rename_i hbelow habove
    cases h
    split <;> assumption
  · rename_i hbelow _
    cases h
    exact hbelow
  · rename_i _ habove
    cases h
    exact habove
  · cases h

end Decimal

/-- A number hears itself. -/
theorem Dyadic.hears_self (x : Dyadic) : x.Hears (x.mantissa * 2 ^ x.exponent) := by
  have hunit : (0 : ℚ) < 2 ^ x.exponent := by positivity
  refine ⟨Or.inl ?_, Or.inl ?_⟩
  · refine mul_lt_mul_of_pos_right ?_ hunit
    split <;> linarith
  · exact mul_lt_mul_of_pos_right (by linarith) hunit

/-- The shortest decimal is heard. -/
theorem Decimal.hears_shortest (tie : Tie) (hpos : 0 < x.mantissa) : x.Hears (shortest tie x).value := by
  rw [shortest, if_neg hpos.ne']
  simp only [value_strip]
  cases hfound : (List.range 17).findSome? fun n : ℕ => onGrid? tie x (magnitude x - n - 1) with
  | none =>
    rw [Option.getD_none, value_exact]
    exact x.hears_self
  | some d =>
    obtain ⟨n, -, hn⟩ := List.exists_of_findSome?_eq_some hfound
    exact (readsBack_iff hpos d).1 (readsBack_of_onGrid hn)

/-! ## The text of a number -/

/-- Digits, and a point with more digits behind it unless there are none. -/
structure Notated (cs whole fraction : List Char) : Prop where
  chars : cs = whole ++ if fraction.isEmpty then [] else '.' :: fraction
  nonempty : whole ≠ []
  digits : ∀ c ∈ whole ++ fraction, c.isDigit = true

theorem Decimal.value_ofDigits (whole fraction : List Char) :
    (ofDigits whole fraction).value = Nat.ofDigitChars 10 (whole ++ fraction) 0 / 10 ^ fraction.length := by
  rw [value, ofDigits, zpow_neg, zpow_natCast, div_eq_mul_inv]
  rfl

theorem Decimal.notated_positional (d : Decimal) :
    ∃ whole fraction, Notated d.positional.toList whole fraction ∧ (ofDigits whole fraction).value = d.value := by
  have hdigits : ∀ c ∈ d.digitChars, c.isDigit = true := fun c hc =>
    Nat.isDigit_of_mem_toDigits (by norm_num) (by norm_num) hc
  have hzeros (k : ℕ) : ∀ c ∈ List.replicate k '0', c.isDigit = true := fun c hc => by
    rw [List.eq_of_mem_replicate hc]
    rfl
  have hvalue : Nat.ofDigitChars 10 d.digitChars 0 = d.digits := Nat.ofDigitChars_ten_toDigits
  have hne : d.digitChars ≠ [] := Nat.toDigits_ne_nil
  unfold positional
  simp only
  split
  · rename_i h
    refine ⟨d.digitChars ++ List.replicate d.exponent.toNat '0', [], ⟨by simp, by simp [hne], ?_⟩, ?_⟩
    · intro c hc
      simp only [List.append_nil, List.mem_append] at hc
      exact hc.elim (hdigits c) (hzeros _ c)
    · rw [value_ofDigits, List.append_nil, Nat.ofDigitChars_append, hvalue, Nat.ofDigitChars_replicate_zero]
      have hpow : (10 : ℚ) ^ d.exponent = 10 ^ d.exponent.toNat := by
        rw [← zpow_natCast, Int.toNat_of_nonneg h]
      simp only [value, hpow]
      push_cast
      simp
      ring
  · rename_i h
    have hpow : (10 : ℚ) ^ d.exponent = (10 ^ (-d.exponent).toNat)⁻¹ := by
      rw [← zpow_natCast, ← zpow_neg, Int.toNat_of_nonneg (by omega), neg_neg]
    split
    · rename_i hlt
      have hlen : (d.digitChars.drop (d.digitChars.length - (-d.exponent).toNat)).length =
        (-d.exponent).toNat := by
        rw [List.length_drop]
        omega
      refine ⟨d.digitChars.take (d.digitChars.length - (-d.exponent).toNat),
        d.digitChars.drop (d.digitChars.length - (-d.exponent).toNat), ⟨?_, ?_, ?_⟩, ?_⟩
      · rw [if_neg]
        · simp
        · rw [List.isEmpty_iff_length_eq_zero, hlen]
          omega
      · rw [ne_eq, List.take_eq_nil_iff]
        rintro (h0 | h0)
        · omega
        · exact hne h0
      · rw [List.take_append_drop]
        exact hdigits
      · rw [value_ofDigits, List.take_append_drop, hvalue, hlen, value, hpow, div_eq_mul_inv]
    · rename_i hge
      refine ⟨['0'], List.replicate ((-d.exponent).toNat - d.digitChars.length) '0' ++ d.digitChars,
        ⟨by simp [hne], by simp, ?_⟩, ?_⟩
      · intro c hc
        simp only [List.singleton_append, List.mem_cons, List.mem_append] at hc
        rcases hc with rfl | hc | hc
        · rfl
        · exact hzeros _ c hc
        · exact hdigits c hc
      · have hlen : (List.replicate ((-d.exponent).toNat - d.digitChars.length) '0' ++
            d.digitChars).length = (-d.exponent).toNat := by
          simp only [List.length_append, List.length_replicate]
          omega
        have hlead : Nat.ofDigitChars 10 (['0'] ++
            (List.replicate ((-d.exponent).toNat - d.digitChars.length) '0' ++ d.digitChars)) 0 = d.digits := by
          rw [Nat.ofDigitChars_append, Nat.ofDigitChars_append, Nat.ofDigitChars_replicate_zero]
          exact hvalue
        rw [value_ofDigits, hlead, hlen, value, hpow, div_eq_mul_inv]

/-! ## Bits of numbers -/

section

open Float.Model (Format)
open Float.Model.UnpackedFloat

theorem toNat_unpackExponent (b : BitVec 64) :
    (@unpackExponent Format.binary64 b).toNat = b.toNat / 2 ^ 52 % 2 ^ 11 := by
  simp [unpackExponent, BitVec.extractLsb, Nat.shiftRight_eq_div_pow]

theorem toNat_unpackMantissa (b : BitVec 64) :
    (@unpackMantissa Format.binary64 b).toNat = b.toNat % 2 ^ 52 := by
  simp [unpackMantissa, BitVec.extractLsb]

/-- Bits that are not of a NaN are kept. -/
theorem toBits_ofBits {b : UInt64} (h : b.toNat % 2 ^ 63 ≤ infinityBits) : (Float.ofBits b).toBits = b := by
  have hnan : @isNaNBits Format.binary64 b.toBitVec = false := by
    simp only [isNaNBits, decide_eq_false_iff_not, not_and, not_not]
    intro hones
    apply BitVec.eq_of_toNat_eq
    have hE := toNat_unpackExponent b.toBitVec
    rw [hones] at hE
    rw [toNat_unpackMantissa]
    simp [infinityBits] at h hE ⊢
    omega
  change UInt64.ofBitVec (pack Format.binary64 (unpack Format.binary64 b.toBitVec)) = b
  rw [@pack_unpack Format.binary64 _ (by decide), hnan]
  rfl

theorem toBits_floatOfBits {n : Nat} (h : n ≤ infinityBits) : (floatOfBits false n).toBits = UInt64.ofNat n := by
  refine toBits_ofBits ?_
  simp [infinityBits] at h ⊢
  omega

end

theorem magnitudeBits_floatOfBits (h : n ≤ infinityBits) : magnitudeBits (floatOfBits false n) = n := by
  have hlt : n < 2 ^ 63 := by simp only [infinityBits] at h; omega
  rw [magnitudeBits, toBits_floatOfBits h, UInt64.toNat_ofNat_of_lt' (by simpa [UInt64.size] using by omega)]
  exact Nat.mod_eq_of_lt hlt

theorem signBit_floatOfBits (h : n ≤ infinityBits) : signBit (floatOfBits false n) = false := by
  have hlt : n < 2 ^ 63 := by simp only [infinityBits] at h; omega
  rw [signBit, toBits_floatOfBits h, beq_eq_false_iff_ne, ne_eq, ← UInt64.toNat_inj,
    UInt64.toNat_shiftRight, UInt64.toNat_ofNat_of_lt' (by simpa [UInt64.size] using by omega)]
  change ¬ n >>> 63 = 1
  omega

theorem Dyadic.ofFloat_floatOfBits (h : n ≤ infinityBits) :
    Dyadic.ofFloat (floatOfBits false n) = Dyadic.ofBits (UInt64.ofNat n) := by
  rw [Dyadic.ofFloat, toBits_floatOfBits h]

theorem Dyadic.whole_eq (h : x.isWhole = true) : (x.whole : ℚ) = x.mantissa * 2 ^ x.exponent := by
  have hsplit := zpow_mul_toNat_neg (b := 2) (by norm_num) x.exponent
  simp only [isWhole, Bool.or_eq_true, decide_eq_true_eq] at h
  rw [whole, Nat.shiftLeft_eq, Nat.shiftRight_eq_div_pow]
  rcases Int.le_total 0 x.exponent with he | he
  · have hnone : (-x.exponent).toNat = 0 := by omega
    rw [hnone, pow_zero, mul_one] at hsplit
    rw [hnone, pow_zero, Nat.div_one, hsplit]
    push_cast
    rfl
  · have hnone : x.exponent.toNat = 0 := by omega
    have hdvd : 2 ^ (-x.exponent).toNat ∣ x.mantissa := by
      rcases h with h | h
      · have hzero : (-x.exponent).toNat = 0 := by omega
        simp [hzero]
      · rw [Nat.shiftLeft_eq, one_mul] at h
        exact Nat.dvd_of_mod_eq_zero h
    obtain ⟨k, hk⟩ := hdvd
    rw [hnone, pow_zero] at hsplit
    rw [hnone, pow_zero, mul_one, hk, Nat.mul_div_cancel_left _ (by positivity)]
    push_cast
    rw [mul_comm, ← mul_assoc, hsplit, one_mul]

/-- The bits of `2 ^ 63`, the least whole number that is clamped. -/
def clampBits : ℕ := 0x43E0000000000000

/-- The bits that the text of a number is read as. -/
def rereadBits (n : ℕ) : ℕ :=
  let x := Dyadic.ofBits (UInt64.ofNat n)
  if x.isWhole && x.whole < 10 ^ 21 && 2 ^ 63 ≤ x.whole then clampBits else n

/-- The text of a finite number is read as that number, unless it was clamped. -/
theorem numberText_reads (h : n < infinityBits) :
    ∃ whole fraction, Notated (numberText (floatOfBits false n)).toList whole fraction ∧
      (Decimal.ofDigits whole fraction).toBits = rereadBits n := by
  have hx := Dyadic.finite_ofBits h
  have hself := (Dyadic.ofBits (UInt64.ofNat n)).hears_self
  rw [numberText, magnitudeBits_floatOfBits h.le, if_neg (by omega), if_neg h.ne, plain,
    Dyadic.ofFloat_floatOfBits h.le, signBit_floatOfBits h.le, rereadBits]
  simp only [Bool.false_eq_true, if_false]
  generalize Dyadic.ofBits (UInt64.ofNat n) = x at *
  have hnat (k : ℕ) : ∃ whole fraction, Notated (toString (k : ℤ)).toList whole fraction ∧
      Decimal.ofDigits whole fraction = ⟨k, 0⟩ := by
    refine ⟨Nat.toDigits 10 k, [], ⟨?_, Nat.toDigits_ne_nil, ?_⟩, ?_⟩
    · change (Nat.repr k).toList = _
      simp [Nat.toList_repr]
    · intro c hc
      rw [List.append_nil] at hc
      exact Nat.isDigit_of_mem_toDigits (by norm_num) (by norm_num) hc
    · have hvalue : Decimal.valueOf (Nat.toDigits 10 k) = k := Nat.ofDigitChars_ten_toDigits
      simp [Decimal.ofDigits, hvalue]
  by_cases hwhole : x.isWhole = true ∧ x.whole < 10 ^ 21
  · rw [if_pos (by simpa using hwhole)]
    simp only [hwhole.1, hwhole.2, clamped, Bool.false_eq_true, if_false, decide_true,
      Bool.true_and, Bool.and_self]
    rcases Nat.lt_or_ge x.whole (2 ^ 63) with hlt | hge
    · rw [if_neg (by simpa using hlt)]
      rw [min_eq_left (by omega)]
      obtain ⟨whole, fraction, hnotated, hdigits⟩ := hnat x.whole
      refine ⟨whole, fraction, hnotated, ?_⟩
      rw [hdigits]
      rcases Nat.eq_zero_or_pos x.mantissa with hzero | hpos
      · have hbits := hx.bits
        rcases hx.leading with he | he
        · simp only [hzero, he] at hbits
          simp [Decimal.toBits, Dyadic.whole, hzero, ← hbits]
        · omega
      · refine Decimal.toBits_eq hx h hpos ?_
        rw [Decimal.value, zpow_zero, mul_one, Dyadic.whole_eq hwhole.1]
        exact hself
    · rw [if_pos (by simpa using hge)]
      rw [min_eq_right (by omega)]
      obtain ⟨whole, fraction, hnotated, hdigits⟩ := hnat 0x7FFFFFFFFFFFFFFF
      refine ⟨whole, fraction, hnotated, ?_⟩
      rw [hdigits]
      decide +kernel
  · rw [if_neg (by simpa using hwhole), if_neg (by simp only [Bool.and_eq_true, decide_eq_true_eq]; tauto)]
    have hpos : 0 < x.mantissa := by
      refine Nat.pos_of_ne_zero fun hzero => hwhole ?_
      simp [Dyadic.isWhole, Dyadic.whole, hzero]
    obtain ⟨whole, fraction, hnotated, hvalue⟩ := (Decimal.shortest .up x).notated_positional
    exact ⟨whole, fraction, hnotated, Decimal.toBits_eq hx h hpos (hvalue ▸ Decimal.hears_shortest .up hpos)⟩

/-- What a text is read as has the same text. -/
theorem numberText_rereadBits (n : ℕ) (h : n < infinityBits) :
    numberText (floatOfBits false (rereadBits n)) = numberText (floatOfBits false n) := by
  rw [rereadBits]
  split
  · rename_i hclamped
    simp only [Bool.and_eq_true, decide_eq_true_eq] at hclamped
    obtain ⟨⟨hwhole, hlt⟩, hge⟩ := hclamped
    have hclamp : numberText (floatOfBits false clampBits) = "9223372036854775807" := by decide +kernel
    rw [hclamp, numberText, magnitudeBits_floatOfBits h.le, if_neg (by omega), if_neg h.ne,
      Dyadic.ofFloat_floatOfBits h.le, signBit_floatOfBits h.le, hwhole, if_pos (by simpa using hlt), clamped,
      if_neg (by decide), min_eq_right (by omega)]
    rfl
  · rfl

end RaiseScript
