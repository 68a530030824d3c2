import Mathlib.Analysis.SpecialFunctions.Log.Base
import ValueHeap.Proofs.Literal.Figures

/-!
# Integers with too many digits

An integer is not written if it has more digits than a limit allows.  Counting them takes the text
already, so an estimate is compared with the limit before, and a very long integer is refused by its
length in bits.  This is right as long as the estimate is not above the number of digits.

An integer of `b` bits is at least `2 ^ (b - 1)`, so it has more than `(b - 1) * log₁₀ 2` digits.  A
product of floats is this number but for an error, and an error below one does no harm: the
estimate is a whole number, and it is below the number of digits and one more.

## What is here

* `Decimal.Canonical` — the one way to write an integer, and `Decimal.canonical_text`.
* `Decimal.two_pow_lt_ten_pow` — the bits of an integer against its digits.
* `Decimal.guardedText?_eq` — with an estimate that is not too high the digits decide.
* `Decimal.text?_eq_none_iff` — an integer without a text is one with too many digits.
* `Decimal.digit_limit_exact` — **the same with an estimate from a product of floats**.
-/

set_option autoImplicit false

namespace ValueHeap

/-- A float that is cut down to an integer is not greater than it was. -/
theorem Binary64.floor_le_toRat (x : Binary64) : (x.floor : ℚ) ≤ x.toRat := by
  have hpos : (0 : ℚ) < unitsPerOne := Nat.cast_pos.2 unitsPerOne_pos
  rw [toRat_eq, le_div_iff₀ hpos, ← Int.cast_natCast, ← Int.cast_mul, Int.cast_le]
  cases he : x.exponent with
  | ofNat e => exact (units_of_ofNat he).ge
  | negSucc e =>
    have hk : (0 : Int) < 2 ^ (e + 1) := Int.pow_pos (by decide)
    refine Int.le_of_mul_le_mul_right ?_ hk
    rw [units_mul_of_negSucc he, floor_of_negSucc he, Int.mul_right_comm]
    exact Int.mul_le_mul_of_nonneg_right (Int.ediv_mul_le _ hk.ne') (Int.natCast_nonneg _)

namespace Decimal

/-! ## The text of an integer -/

/-- The one way to write an integer: its digits, with a minus sign if it is negative, and without a
zero in front of other digits. -/
structure Canonical (n : Int) (text : String) (digits : List Char) : Prop where
  toList_eq : text.toList = (if n < 0 then ['-'] else []) ++ digits
  isDigit : ∀ c ∈ digits, c.isDigit = true
  ne_nil : digits ≠ []
  lead : digits.head? = some '0' → digits = ['0']
  whole_eq : whole digits = n.natAbs

variable {n : Int} {text₁ text₂ : String} {ds es : List Char}

theorem Canonical.length_eq (h : Canonical n text₁ ds) : ds.length = Nat.log 10 n.natAbs + 1 := by
  rw [← h.whole_eq]
  by_cases hlead : ds.head? = some '0'
  · rw [h.lead hlead]
    rfl
  · have hds : Significant ds := ⟨h.ne_nil, h.isDigit, hlead⟩
    have hlength : ds.length - 1 + 1 = ds.length :=
      Nat.sub_add_cancel (List.length_pos_iff.2 h.ne_nil)
    rw [Nat.log_eq_of_pow_le_of_lt_pow hds.le_whole (hlength.symm ▸ whole_lt h.isDigit), hlength]

/-- There are no two canonical ways to write an integer. -/
theorem Canonical.unique (h₁ : Canonical n text₁ ds) (h₂ : Canonical n text₂ es) :
    text₁ = text₂ ∧ ds = es := by
  have hdigits : ds = es := eq_of_whole h₁.isDigit h₂.isDigit
    (h₁.length_eq.trans h₂.length_eq.symm) (h₁.whole_eq.trans h₂.whole_eq.symm)
  refine ⟨String.toList_injective ?_, hdigits⟩
  rw [h₁.toList_eq, h₂.toList_eq, hdigits]

theorem canonical_text (n : Int) : Canonical n (text n) (Nat.toDigits 10 n.natAbs) where
  toList_eq := by
    rw [toList_text, Numeral.signChars]
    simp only [decide_eq_true_eq]
  isDigit _ := Nat.isDigit_of_mem_toDigits (by decide) (by decide)
  ne_nil := Nat.toDigits_ne_nil
  lead hlead := by
    rcases Nat.eq_zero_or_pos n.natAbs with hn | hn
    · rw [hn]
      rfl
    · exact absurd hlead (significant_toDigits hn).lead
  whole_eq := whole_toDigits n.natAbs

theorem digitCount_eq (n : Int) : digitCount n = (Nat.toDigits 10 n.natAbs).length := by
  rw [digitCount, Nat.repr_eq_ofList_toDigits, String.length_ofList]

/-! ## Estimates -/

/-- The bits of an integer against its digits. -/
theorem two_pow_lt_ten_pow (n : Int) : 2 ^ (bitLength n.natAbs - 1) < 10 ^ digitCount n := by
  rw [digitCount_eq]
  have hhigh : n.natAbs < 10 ^ (Nat.toDigits 10 n.natAbs).length :=
    (Nat.length_toDigits_le_iff (by decide) Nat.length_toDigits_pos).1 le_rfl
  rw [bitLength]
  split
  · exact Nat.one_lt_pow Nat.length_toDigits_pos.ne' (by decide)
  · next hn => exact (Nat.log2_self_le hn).trans_lt hhigh

/-- The number of digits that is read off the bits is no more than there are. -/
theorem leastDigits_le_digitCount (n : Int) :
    leastDigits (bitLength n.natAbs) ≤ digitCount n := by
  have hlt := two_pow_lt_ten_pow n
  rw [leastDigits]
  generalize bitLength n.natAbs - 1 = bits at hlt
  generalize hdigits : bits * 30102 / 100000 = digits
  have hratio : 196 * digits ≤ 59 * bits := by omega
  -- ten to the power of 59 is below two to the power of 196
  have hpowers : 10 ^ digits ≤ 2 ^ bits := by
    refine (Nat.pow_le_pow_iff_left (by decide : (59 : ℕ) ≠ 0)).1 ?_
    calc (10 ^ digits) ^ 59
      _ = (10 ^ 59) ^ digits := by rw [← pow_mul, ← pow_mul, Nat.mul_comm]
      _ ≤ (2 ^ 196) ^ digits := Nat.pow_le_pow_left (by decide) digits
      _ = 2 ^ (196 * digits) := (pow_mul 2 196 digits).symm
      _ ≤ 2 ^ (59 * bits) := Nat.pow_le_pow_right (by decide) hratio
      _ = (2 ^ bits) ^ 59 := by rw [← pow_mul, Nat.mul_comm]
  exact ((Nat.pow_lt_pow_iff_right (by decide)).1 (hpowers.trans_lt hlt)).le

/-- The number of digits that a float promises: it is cut down to a machine word. -/
def promised (x : Binary64) : Nat := min x.floor.toNat (2 ^ 64 - 1)

/-- A float that is near enough promises no more digits than there are. -/
theorem promised_le_digitCount {x : Binary64}
    (hx : |(x.toRat : ℝ) - (bitLength n.natAbs - 1 : Nat) * Real.logb 10 2| < 1) :
    promised x ≤ digitCount n := by
  have hlog : (bitLength n.natAbs - 1 : Nat) * Real.logb 10 2 < digitCount n := by
    rw [← Real.logb_pow, Real.logb_lt_iff_lt_rpow (by norm_num) (by positivity), Real.rpow_natCast]
    exact_mod_cast two_pow_lt_ten_pow n
  have hfloor : (x.floor : ℝ) ≤ x.toRat := by exact_mod_cast x.floor_le_toRat
  have hlt : (x.floor : ℝ) < digitCount n + 1 := by linarith [(abs_lt.1 hx).2]
  have hle : x.floor < digitCount n + 1 := by exact_mod_cast hlt
  rw [promised]
  omega

/-! ## The limit -/

/-- With an estimate that is not too high the digits decide. -/
theorem guardedText?_eq {least : Nat → Nat} (h : least (bitLength n.natAbs) ≤ digitCount n)
    (limit : Option Nat) :
    guardedText? least limit n =
      if ∃ most, limit = some most ∧ most < digitCount n then none else some (text n) := by
  cases limit with
  | none => simp [guardedText?]
  | some most =>
    simp only [guardedText?, Option.some.injEq, exists_eq_left']
    split
    · next hlt => rw [if_pos (hlt.trans_le h)]
    · rfl

theorem text?_eq (limit : Option Nat) (n : Int) :
    text? limit n =
      if ∃ most, limit = some most ∧ most < digitCount n then none else some (text n) :=
  guardedText?_eq (leastDigits_le_digitCount n) limit

/-- An integer has no text exactly if it has more digits than the limit allows. -/
theorem text?_eq_none_iff {limit : Option Nat} :
    text? limit n = none ↔ ∃ most, limit = some most ∧ most < digitCount n := by
  rw [text?_eq]
  split <;> simp_all

/-- **The limit on the digits is exact.**  Let the digits of an integer be estimated by a float that
is less than one away from the exact product of its bits but one and `log₁₀ 2`.  Then the integer is
refused exactly if its one canonical text has more digits than the limit allows, and otherwise it is
written as that text. -/
theorem digit_limit_exact {product : Nat → Binary64} {n : Int}
    (hproduct : |((product (bitLength n.natAbs)).toRat : ℝ)
      - (bitLength n.natAbs - 1 : Nat) * Real.logb 10 2| < 1) :
    ∃ canonical digits, Canonical n canonical digits ∧
      (∀ other others, Canonical n other others → other = canonical ∧ others = digits) ∧
      promised (product (bitLength n.natAbs)) ≤ digits.length ∧
      guardedText? (fun bits => promised (product bits)) none n = some canonical ∧
      (∀ limit, guardedText? (fun bits => promised (product bits)) (some limit) n =
        if limit < digits.length then none else some canonical) ∧
      ∀ limit, guardedText? (fun bits => promised (product bits)) limit n = text? limit n := by
  have hle := promised_le_digitCount hproduct
  have hguarded (limit : Option Nat) :
      guardedText? (fun bits => promised (product bits)) limit n =
        if ∃ most, limit = some most ∧ most < digitCount n then none else some (text n) :=
    guardedText?_eq hle limit
  refine ⟨text n, _, canonical_text n, fun _ _ h => h.unique (canonical_text n), ?_, rfl, ?_, ?_⟩
  · rwa [← digitCount_eq]
  · intro limit
    rw [hguarded, digitCount_eq]
    simp only [Option.some.injEq, exists_eq_left']
  · intro limit
    rw [hguarded, text?_eq]

/-- An integer whose bits promise 59 digits and that has 60: the float is the product of 196 and the
float next to `log₁₀ 2`. -/
theorem digit_limit_at_a_power :
    bitLength (-2 ^ 196 : Int).natAbs = 197 ∧
      |((Binary64.toRat ⟨0x404d803d937432ce⟩ : ℚ) : ℝ) - (197 - 1 : Nat) * Real.logb 10 2| < 1 ∧
      guardedText? (fun _ => promised ⟨0x404d803d937432ce⟩) (some 59) (-2 ^ 196) = none ∧
      guardedText? (fun _ => promised ⟨0x404d803d937432ce⟩) (some 60) (-2 ^ 196) =
        some "-100433627766186892221372630771322662657637687111424552206336" := by
  have hbits : bitLength (-2 ^ 196 : Int).natAbs = 197 := by decide +kernel
  have hvalue : Binary64.toRat ⟨0x404d803d937432ce⟩ = 0x1d803d937432ce / 2 ^ 47 := by
    rw [Binary64.toRat,
      show Binary64.signed ⟨0x404d803d937432ce⟩ (Binary64.significand ⟨0x404d803d937432ce⟩) =
        0x1d803d937432ce from by decide,
      show Binary64.exponent ⟨0x404d803d937432ce⟩ = -47 from by decide, zpow_neg, ← div_eq_mul_inv]
    norm_num
  have hlog : (59 : ℝ) < 196 * Real.logb 10 2 ∧ 196 * Real.logb 10 2 < 60 := by
    have hpow : 196 * Real.logb 10 2 = Real.logb 10 (2 ^ 196) := by
      rw [Real.logb_pow]
      norm_num
    rw [hpow, Real.lt_logb_iff_rpow_lt (by norm_num) (by norm_num),
      Real.logb_lt_iff_lt_rpow (by norm_num) (by norm_num)]
    norm_num
  have hnear : |((Binary64.toRat ⟨0x404d803d937432ce⟩ : ℚ) : ℝ) - (197 - 1 : Nat) * Real.logb 10 2|
      < 1 := by
    rw [hvalue, abs_lt]
    push_cast
    constructor <;> linarith [hlog.1, hlog.2]
  let product : Nat → Binary64 := fun _ => ⟨0x404d803d937432ce⟩
  have hproduct : |((product (bitLength (-2 ^ 196 : Int).natAbs)).toRat : ℝ) -
      (bitLength (-2 ^ 196 : Int).natAbs - 1 : Nat) * Real.logb 10 2| < 1 := by
    rw [hbits]
    exact hnear
  obtain ⟨canonical, digits, hcanonical, -, -, hunlimited, hlimited, -⟩ :=
    digit_limit_exact hproduct
  have hlength : digits.length = 60 := by
    rw [hcanonical.length_eq, Nat.log_eq_of_pow_le_of_lt_pow (m := 59) (by decide) (by decide)]
  have htext : canonical = "-100433627766186892221372630771322662657637687111424552206336" := by
    rw [← Option.some.inj hunlimited]
    decide +kernel
  refine ⟨hbits, hnear, ?_, ?_⟩
  · rw [hlimited, hlength, if_pos (by decide)]
  · rw [hlimited, hlength, if_neg (by decide), htext]

end Decimal

end ValueHeap
