import ValueHeap.Proofs.Numeric.Rounding

/-!
# Decimals, and the shortest one for a float

A positive decimal is written by its significant digits, of which the first one is not a zero, and
by the power of ten of that first digit, which gives its size.

## What is here

* `Decimal.Significant` and `Decimal.value` — digits, and the number that they stand for.
* `Decimal.Significant.value_bounds` — the power of ten of the first digit is its size.
* `Decimal.Significant.eq_of_value` — as many digits stand for the same number only if they are
  the same.
* `Binary64.Shortest` — the fewest digits that are read as a float and, among as few, the nearest.
-/

set_option autoImplicit false

namespace ValueHeap

namespace Decimal

/-- Digits of which the first one is not a zero. -/
structure Significant (digits : List Char) : Prop where
  ne_nil : digits ≠ []
  isDigit : ∀ c ∈ digits, c.isDigit = true
  lead : digits.head? ≠ some '0'

/-- The whole number that digits stand for. -/
def whole (digits : List Char) : Nat := Nat.ofDigitChars 10 digits 0

/-- The number that digits stand for when the first one has this power of ten. -/
def value (digits : List Char) (exponent : Int) : ℚ :=
  whole digits * (10 : ℚ) ^ (exponent + 1 - digits.length)

variable {digits ds : List Char}

theorem whole_append (ds es : List Char) :
    whole (ds ++ es) = whole ds * 10 ^ es.length + whole es := by
  rw [whole, Nat.ofDigitChars_append, Nat.ofDigitChars_eq_ofDigitChars_zero, mul_comm]
  rfl

theorem whole_zeros (n : Nat) : whole (List.replicate n '0') = 0 := by
  rw [whole, Nat.ofDigitChars_replicate_zero, mul_zero]

theorem whole_singleton (c : Char) : whole [c] = c.toNat - '0'.toNat := by
  rw [whole, Nat.ofDigitChars_cons, Nat.ofDigitChars_nil, mul_zero, zero_add]

theorem whole_toDigits (n : Nat) : whole (Nat.toDigits 10 n) = n := Nat.ofDigitChars_ten_toDigits

theorem isDigit_bounds {c : Char} (hc : c.isDigit = true) : 48 ≤ c.toNat ∧ c.toNat ≤ 57 := by
  rw [Char.isDigit, Bool.and_eq_true, decide_eq_true_eq, decide_eq_true_eq] at hc
  exact hc

theorem whole_lt (hds : ∀ c ∈ ds, c.isDigit = true) : whole ds < 10 ^ ds.length := by
  induction ds using List.reverseRecOn with
  | nil => exact Nat.one_pos
  | append_singleton ds c ih =>
    have hc := isDigit_bounds (hds c (by simp))
    have hzero : '0'.toNat = 48 := rfl
    have := ih fun d hd => hds d (by simp [hd])
    rw [whole_append, whole_singleton, List.length_append, List.length_singleton, pow_succ]
    omega

/-- As many digits as there are, the first one not being a zero. -/
theorem Significant.le_whole (hds : Significant ds) : 10 ^ (ds.length - 1) ≤ whole ds := by
  cases ds with
  | nil => exact absurd rfl hds.ne_nil
  | cons c ds =>
    have hc := isDigit_bounds (hds.isDigit c List.mem_cons_self)
    have hzero : '0'.toNat = 48 := rfl
    have hne : c.toNat ≠ 48 := fun h => hds.lead (congrArg some (Char.toNat_inj.1 h))
    rw [← List.singleton_append, whole_append, whole_singleton, List.length_append,
      List.length_singleton, Nat.add_sub_cancel_left]
    exact Nat.le_add_right_of_le (Nat.le_mul_of_pos_left _ (by omega))

/-- Digits are told by their number and by what they stand for. -/
theorem eq_of_whole {es : List Char} (hds : ∀ c ∈ ds, c.isDigit = true)
    (hes : ∀ c ∈ es, c.isDigit = true) (hlength : ds.length = es.length)
    (hwhole : whole ds = whole es) : ds = es := by
  induction ds using List.reverseRecOn generalizing es with
  | nil => exact (List.length_eq_zero_iff.1 hlength.symm).symm
  | append_singleton ds c ih =>
    cases es using List.reverseRecOn with
    | nil => simp at hlength
    | append_singleton es d =>
      have hc := isDigit_bounds (hds c (by simp))
      have hd := isDigit_bounds (hes d (by simp))
      have hzero : '0'.toNat = 48 := rfl
      rw [whole_append, whole_append, whole_singleton, whole_singleton, List.length_singleton,
        List.length_singleton] at hwhole
      rw [List.length_append, List.length_append] at hlength
      have hlast : c = d := Char.toNat_inj.1 (by omega)
      rw [hlast, ih (fun x hx => hds x (by simp [hx])) (fun x hx => hes x (by simp [hx]))
        (Nat.add_right_cancel hlength) (by omega)]

/-- The digits of a positive number. -/
theorem significant_toDigits {n : Nat} (hn : 0 < n) : Significant (Nat.toDigits 10 n) := by
  refine ⟨Nat.toDigits_ne_nil, fun c => Nat.isDigit_of_mem_toDigits (by decide) (by decide), ?_⟩
  induction n using Nat.strongRecOn with
  | ind n ih =>
    rw [Nat.toDigits_eq_if (by decide)]
    split
    · rw [List.head?_cons, Ne, Option.some_inj, Nat.digitChar_eq_zero]
      exact hn.ne'
    · rw [List.head?_append_of_ne_nil _ Nat.toDigits_ne_nil]
      exact ih (n / 10) (by omega) (by omega)

/-- Digits with a power of ten for the first one stand for a number of that size. -/
theorem Significant.value_bounds (hds : Significant ds) (e : Int) :
    (10 : ℚ) ^ e ≤ value ds e ∧ value ds e < (10 : ℚ) ^ (e + 1) := by
  have hlength : 1 ≤ ds.length := List.length_pos_iff.2 hds.ne_nil
  have hpos : (0 : ℚ) < (10 : ℚ) ^ (e + 1 - ds.length) := zpow_pos (by norm_num) _
  have hlow : ((10 : ℚ) ^ (ds.length - 1)) ≤ whole ds := by exact_mod_cast hds.le_whole
  have hhigh : (whole ds : ℚ) < (10 : ℚ) ^ ds.length := by exact_mod_cast whole_lt hds.isDigit
  rw [value]
  constructor
  · calc (10 : ℚ) ^ e = (10 : ℚ) ^ (ds.length - 1) * (10 : ℚ) ^ (e + 1 - ds.length) := by
          rw [← zpow_natCast, ← zpow_add₀ (by norm_num)]
          congr 1
          omega
      _ ≤ _ := mul_le_mul_of_nonneg_right hlow hpos.le
  · calc _ < (10 : ℚ) ^ ds.length * (10 : ℚ) ^ (e + 1 - ds.length) :=
          mul_lt_mul_of_pos_right hhigh hpos
      _ = (10 : ℚ) ^ (e + 1) := by
          rw [← zpow_natCast, ← zpow_add₀ (by norm_num), add_sub_cancel]

/-- As many digits stand for the same number only if they are the same. -/
theorem Significant.eq_of_value {es : List Char} {e f : Int} (hds : Significant ds)
    (hes : Significant es) (hlength : ds.length = es.length) (hvalue : value ds e = value es f) :
    ds = es ∧ e = f := by
  have hd := hds.value_bounds e
  have he := hes.value_bounds f
  have hlt {a b : Int} (h : (10 : ℚ) ^ a < (10 : ℚ) ^ b) : a < b :=
    (zpow_lt_zpow_iff_right₀ (by norm_num)).1 h
  have hef : e = f := by
    have := hlt (hd.1.trans_lt (hvalue ▸ he.2))
    have := hlt (he.1.trans_lt (hvalue ▸ hd.2))
    omega
  subst hef
  rw [value, value, hlength, mul_eq_mul_right_iff, Nat.cast_inj] at hvalue
  exact ⟨eq_of_whole hds.isDigit hes.isDigit hlength
    (hvalue.resolve_right (zpow_ne_zero _ (by norm_num))), rfl⟩

end Decimal

open Decimal in
/-- The shortest digits for a float, with the power of ten of the first one: no fewer digits are
read as the float, none of as many are nearer to it, and of two that are as near the even ones are
taken. -/
structure Binary64.Shortest (x : Binary64) (digits : List Char) (exponent : Int) : Prop where
  significant : Significant digits
  reads : RoundsTo (value digits exponent) x
  fewest : ∀ ds e, Significant ds → RoundsTo (value ds e) x → digits.length ≤ ds.length
  nearest : ∀ ds e, Significant ds → RoundsTo (value ds e) x → ds.length = digits.length →
    |value digits exponent - x.toRat| ≤ |value ds e - x.toRat|
  even : ∀ ds e, Significant ds → RoundsTo (value ds e) x → ds.length = digits.length →
    |value ds e - x.toRat| = |value digits exponent - x.toRat| →
    (ds = digits ∧ e = exponent) ∨ whole ds % 2 = 1

end ValueHeap
