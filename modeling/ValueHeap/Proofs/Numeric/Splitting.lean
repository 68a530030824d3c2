import Mathlib.Algebra.Order.Field.Power
import Mathlib.Data.Nat.Bitwise
import ValueHeap.Proofs.Numeric.Rounding

/-!
# Floats as a fraction and a power of two

A positive number is in exactly one way the product of a fraction from one half up to one and of a
power of two.  For a float both can be read off the word: the fraction is the float with the same
digits and another exponent field, and the power is what the exponent field says.  Only a float
without a hidden digit has to be brought into the range of the others first, by sixty-four
doublings, which are exact.

## What is here

* `Binary64.IsValue` — the numbers that are the value of a float without a sign, and
  `Binary64.isValue_mul_zpow` — numbers of fifty-three digits are.
* `Binary64.fractionPart` — the float with the digits of another one, between one half and one.
* `Binary64.Split` — how a float is split, as it is read off the word.
* `Binary64.Split.spec`, `Binary64.exists_split` and `split_unique` — the one fraction and the one
  power of two.
-/

set_option autoImplicit false

namespace ValueHeap

/-- A positive number determines its fraction and its power of two. -/
theorem split_unique {f g : ℚ} {d e : Int} (hf : 1 / 2 ≤ f) (hf' : f < 1) (hg : 1 / 2 ≤ g)
    (hg' : g < 1) (heq : f * 2 ^ d = g * 2 ^ e) : f = g ∧ d = e := by
  have hbelow {a b : ℚ} {i j : Int} (ha : a < 1) (hb : 1 / 2 ≤ b) (hij : i < j) :
      a * 2 ^ i < b * 2 ^ j := by
    have hpos : (0 : ℚ) < 2 ^ i := by positivity
    calc a * (2 : ℚ) ^ i < 1 / 2 * 2 ^ (i + 1) := by
          rw [zpow_add_one₀ (by norm_num)]
          linarith [mul_lt_mul_of_pos_right ha hpos]
      _ ≤ 1 / 2 * 2 ^ j := by gcongr <;> [norm_num; omega]
      _ ≤ b * 2 ^ j := by gcongr
  rcases lt_trichotomy d e with hde | rfl | hde
  · exact absurd heq (hbelow hf' hg hde).ne
  · exact ⟨mul_right_cancel₀ (by positivity) heq, rfl⟩
  · exact absurd heq (hbelow hg' hf hde).ne'

namespace Binary64

variable {x y : Binary64} {f : ℚ} {e : Int}

/-! ## Exact values -/

/-- The number is the value of a float without a sign.  So an operation on floats that has it for
its exact result does not round. -/
def IsValue (q : ℚ) : Prop :=
  ∃ y : Binary64, y.isFinite = true ∧ y.isNegative = false ∧ y.toRat = q

/-- A number of fifty-three digits is the value of a float, wherever its point is. -/
theorem isValue_mul_zpow {n : Nat} (hn : n < exactBound) (hlow : -1074 ≤ e) (hhigh : e ≤ 971) :
    IsValue (n * 2 ^ e) := by
  obtain ⟨k, hk⟩ : ∃ k : Nat, (k : Int) = e + 1074 := ⟨(e + 1074).toNat, by omega⟩
  obtain ⟨b, hb, hunits⟩ := exists_magnitudeUnits_eq hn (show k ≤ 2045 by omega)
  let y : Binary64 := ⟨UInt64.ofNat b⟩
  have hbits : y.bits.toNat = b := by rw [UInt64.toNat_ofNat', Nat.mod_eq_of_lt (by omega)]
  have hsign : y.isNegative = false := by
    rw [isNegative, hbits, decide_eq_false_iff_not]
    omega
  refine ⟨y, ?_, hsign, ?_⟩
  · simp only [isFinite, field, hbits, bne_iff_ne]
    omega
  · have hvalue : y.units = (n * 2 ^ k : Nat) := by
      rw [units, significand_mul_pow, hbits, Nat.mod_eq_of_lt (by omega), hunits, signed, hsign,
        if_neg (by decide)]
    have hexponent : e = (k : Int) - (unitBits : Int) := by rw [hk, unitBits]; omega
    rw [toRat_eq, hvalue, hexponent, zpow_sub₀ (by norm_num : (2 : ℚ) ≠ 0), zpow_natCast,
      zpow_natCast, unitsPerOne]
    push_cast
    rw [mul_div_assoc]

/-! ## The fraction -/

/-- The float with the same digits in its significand whose exponent field is that of one half. -/
def fractionPart (x : Binary64) : Binary64 :=
  ⟨x.bits &&& 0x800fffffffffffff ||| 0x3fe0000000000000⟩

/-- The word of a fraction. -/
theorem toNat_bits_fractionPart (hx : x.isNegative = false) :
    x.fractionPart.bits.toNat = 0x3fe0000000000000 + x.fraction := by
  have hlt : x.bits.toNat < 2 ^ 63 := by
    simp only [isNegative, decide_eq_false_iff_not] at hx
    omega
  have hfraction : x.fraction < 2 ^ 52 := Nat.mod_lt _ (by decide)
  have hmask : x.bits.toNat &&& 0x800fffffffffffff = x.fraction := by
    rw [show 0x800fffffffffffff = 2 ^ 63 ||| (2 ^ 52 - 1) by decide, Nat.and_or_distrib_left,
      Nat.and_two_pow, Nat.testBit_lt_two_pow hlt, Nat.and_two_pow_sub_one_eq_mod]
    exact Nat.zero_or _
  rw [fractionPart, UInt64.toNat_or, UInt64.toNat_and]
  refine (congrArg (· ||| _) hmask).trans ?_
  rw [Nat.or_comm]
  exact (Nat.shiftLeft_add_eq_or_of_lt hfraction 0x3fe).symm

theorem toRat_fractionPart (hx : x.isNegative = false) :
    x.fractionPart.toRat = (2 ^ 52 + x.fraction) / 2 ^ 53 := by
  have hbits := toNat_bits_fractionPart hx
  have hfraction : x.fraction < 2 ^ 52 := Nat.mod_lt _ (by decide)
  have hfield : x.fractionPart.field = 1022 := by
    rw [field, hbits]
    omega
  have hsame : x.fractionPart.fraction = x.fraction := by
    rw [fraction, hbits]
    omega
  have hsign : x.fractionPart.isNegative = false := by
    rw [isNegative, hbits, decide_eq_false_iff_not]
    omega
  rw [toRat, signed, hsign, if_neg (by decide), significand, exponent, hfield, if_neg (by decide),
    if_neg (by decide), hsame, div_eq_mul_inv]
  push_cast
  norm_num [zpow_neg]

/-! ## Splitting -/

/-- A float is split into a fraction and the exponent of a power of two, as it is read off its word.
Without a hidden digit it is multiplied by `2 ^ 64` before, to a float that has one. -/
inductive Split : Binary64 → ℚ → Int → Prop
  | hidden {x : Binary64} (hx : x.field ≠ 0) :
      Split x x.fractionPart.toRat ((x.field : Int) - 1022)
  | scaled {x y : Binary64} {f : ℚ} {e : Int} (hx : x.field = 0) (hfinite : y.isFinite = true)
      (hsign : y.isNegative = false) (hy : y.toRat = x.toRat * 2 ^ 64) (hsplit : Split y f e) :
      Split x f (e - 64)

/-- **The fraction is at least one half and below one**, and what is split is put together again. -/
theorem Split.spec (hx : x.isNegative = false) (hsplit : Split x f e) :
    1 / 2 ≤ f ∧ f < 1 ∧ x.toRat = f * 2 ^ e := by
  induction hsplit with
  | @hidden x hfield =>
    have hfraction : (x.fraction : ℚ) < 2 ^ 52 := by
      exact_mod_cast Nat.mod_lt x.bits.toNat (show 0 < 0x10000000000000 by decide)
    have hnonneg : (0 : ℚ) ≤ x.fraction := Nat.cast_nonneg _
    rw [toRat_fractionPart hx]
    refine ⟨by linarith, by linarith, ?_⟩
    rw [toRat, signed, hx, if_neg (by decide), significand, exponent, if_neg hfield, if_neg hfield,
      show (x.field : Int) - 1022 = ((x.field : Int) - 1075) + 53 by ring,
      zpow_add₀ (by norm_num : (2 : ℚ) ≠ 0)]
    push_cast
    norm_num
    ring
  | scaled _ _ hsign hy _ ih =>
    obtain ⟨hlow, hhigh, hvalue⟩ := ih hsign
    refine ⟨hlow, hhigh, ?_⟩
    rw [zpow_sub₀ (by norm_num : (2 : ℚ) ≠ 0), ← mul_div_assoc, ← hvalue, hy]
    exact (mul_div_cancel_right₀ _ (by positivity)).symm

/-- A float without a hidden digit, multiplied by `2 ^ 64`, is a float that has one. -/
theorem exists_scaled (hx : x.field = 0) (hsign : x.isNegative = false) (hne : x.toRat ≠ 0) :
    ∃ y : Binary64, y.isFinite = true ∧ y.isNegative = false ∧ y.toRat = x.toRat * 2 ^ 64 ∧
      y.field ≠ 0 := by
  have hvalue {z : Binary64} (hz : z.field = 0) (hpos : z.isNegative = false) :
      z.toRat = z.fraction * 2 ^ (-1074 : Int) := by
    rw [toRat, signed, hpos, if_neg (by decide), significand, exponent, if_pos hz, if_pos hz,
      Int.cast_natCast]
  have hlt (z : Binary64) : z.fraction < 2 ^ 52 := Nat.mod_lt _ (by decide)
  have hscaled : x.toRat * 2 ^ 64 = x.fraction * 2 ^ (-1010 : Int) := by
    rw [hvalue hx hsign, mul_assoc, ← zpow_natCast, ← zpow_add₀ (by norm_num : (2 : ℚ) ≠ 0)]
    rfl
  obtain ⟨y, hfinite, hpos, hy⟩ := isValue_mul_zpow (e := -1010)
    (show x.fraction < exactBound from (hlt x).trans (by decide)) (by decide) (by decide)
  refine ⟨y, hfinite, hpos, hy.trans hscaled.symm, fun hfield => ?_⟩
  -- without a hidden digit, it would count fewer units than it does
  rw [hvalue hfield hpos, show (-1010 : Int) = -1074 + 64 by rfl,
    zpow_add₀ (by norm_num : (2 : ℚ) ≠ 0), mul_left_comm, mul_comm,
    mul_right_inj' (by positivity)] at hy
  have hunits : y.fraction = x.fraction * 2 ^ 64 := by exact_mod_cast hy
  have hzero : x.fraction = 0 := by
    have := hlt y
    omega
  exact hne (by rw [hvalue hx hsign, hzero, Nat.cast_zero, zero_mul])

/-- Every positive float is split. -/
theorem exists_split (hsign : x.isNegative = false) (hne : x.toRat ≠ 0) : ∃ f e, Split x f e := by
  by_cases hx : x.field = 0
  · obtain ⟨y, hfinite, hpos, hy, hfield⟩ := exists_scaled hx hsign hne
    exact ⟨_, _, .scaled hx hfinite hpos hy (.hidden hfield)⟩
  · exact ⟨_, _, .hidden hx⟩

end Binary64

end ValueHeap
