import Mathlib.Order.Monotone.Basic
import Mathlib.Order.Compare
import Mathlib.Algebra.Order.Ring.Int
import ValueHeap.Numeric.Number

/-!
# The exact number that a float stands for

Every finite float is a whole multiple of `2 ^ -1074`, so the number it stands for is kept as the
integer that counts these units, and an integer `n` is `n * 2 ^ 1074` units.  In units all exact
comparisons are comparisons of integers.

## What is here

* `Binary64.units` — a finite float in units, and `Binary64.units_eq_unitsAt`: the units grow with
  the place of the float among all floats.
* `Binary64.units_ofInt` — the float of a small integer stands for that integer.
* `Number.intOrder?_of_isFinite` — an integer and a finite float compare as their units do, on
  whichever of the two ways they are compared.
* `Binary64.digits` and `Number.digits` — a list of integers for every number, such that numbers
  that are not NaN compare as the lists do (`Number.order?_eq_compare_digits`), and are equal
  exactly when the lists are (`Number.equal_iff_digits`).
-/

set_option autoImplicit false

namespace ValueHeap

/-! ## Order on integers -/

theorem compare_apply {α : Type} [LinearOrder α] {f : Int → α} (hf : ∀ ⦃a b⦄, a < b → f a < f b)
    (a b : Int) : compare (f a) (f b) = compare a b := by
  rcases lt_trichotomy a b with h | h | h
  · rw [compare_lt_iff_lt.2 h, compare_lt_iff_lt.2 (hf h)]
  · rw [h, compare_eq_iff_eq.2 rfl, compare_eq_iff_eq.2 rfl]
  · rw [compare_gt_iff_gt.2 h, compare_gt_iff_gt.2 (hf h)]

/-- An integer beside a quotient that was rounded down, and beside the exact quotient. -/
theorem compare_mul_eq (n q : Int) {k : Int} (hk : 0 < k) :
    compare (n * k) q =
      match compare n (q / k) with
      | .eq => if q % k = 0 then .eq else .lt
      | o => o := by
  have hsplit := Int.mul_ediv_add_emod q k
  have hnonneg := Int.emod_nonneg q (Int.ne_of_gt hk)
  have hlt := Int.emod_lt_of_pos q hk
  rcases lt_trichotomy n (q / k) with h | h | h
  · have : n * k < q / k * k := Int.mul_lt_mul_of_pos_right h hk
    rw [compare_lt_iff_lt.2 h, compare_lt_iff_lt.2 (by rw [Int.mul_comm k] at hsplit; omega)]
  · subst h
    rw [Int.mul_comm] at hsplit
    rw [compare_eq_iff_eq.2 rfl]
    by_cases hz : q % k = 0
    · rw [if_pos hz, compare_eq_iff_eq.2 (by omega)]
    · rw [if_neg hz, compare_lt_iff_lt.2 (by omega)]
  · have : (q / k + 1) * k ≤ n * k := Int.mul_le_mul_of_nonneg_right h (Int.le_of_lt hk)
    rw [Int.add_mul, Int.one_mul] at this
    rw [compare_gt_iff_gt.2 h, compare_gt_iff_gt.2 (by rw [Int.mul_comm k] at hsplit; omega)]

namespace Binary64

/-- The exponent of one in units. -/
def unitBits : Nat := 1074

/-- How many units make one. -/
def unitsPerOne : Nat := 2 ^ unitBits

/-- A finite float in units of `2 ^ -1074`. -/
def units (x : Binary64) : Int :=
  x.signed (x.significand * 2 ^ (x.field - 1))

theorem unitsPerOne_pos : 0 < unitsPerOne := Nat.two_pow_pos _

/-! ## Units grow with the place -/

/-- The units of the float whose word without its sign bit is `b`. -/
def magnitudeUnits (b : Nat) : Nat :=
  if b / 0x10000000000000 = 0 then b
  else (0x10000000000000 + b % 0x10000000000000) * 2 ^ (b / 0x10000000000000 - 1)

/-- From one float to the next the units grow by a power of two. -/
theorem magnitudeUnits_succ (b : Nat) :
    magnitudeUnits (b + 1) = magnitudeUnits b + 2 ^ (b / 0x10000000000000 - 1) := by
  have hsplit := Nat.div_add_mod b 0x10000000000000
  have hmod := Nat.mod_lt b (show 0x10000000000000 > 0 by decide)
  -- within a binade the fraction grows by one; at its end the next binade starts
  rcases Nat.lt_or_ge (b % 0x10000000000000 + 1) 0x10000000000000 with h | h
  · have hdiv : (b + 1) / 0x10000000000000 = b / 0x10000000000000 := by omega
    have hrem : (b + 1) % 0x10000000000000 = b % 0x10000000000000 + 1 := by omega
    rw [magnitudeUnits, magnitudeUnits, hdiv, hrem]
    split
    · next hz => rw [hz, Nat.zero_sub, Nat.pow_zero]
    · rw [← Nat.add_assoc, Nat.succ_mul]
  · have hdiv : (b + 1) / 0x10000000000000 = b / 0x10000000000000 + 1 := by omega
    have hrem : (b + 1) % 0x10000000000000 = 0 := by omega
    rw [magnitudeUnits, magnitudeUnits, hdiv, hrem, if_neg (Nat.succ_ne_zero _), Nat.add_sub_cancel]
    split
    · next hz =>
      rw [hz]
      omega
    · next hz =>
      obtain ⟨e, he⟩ := Nat.exists_eq_succ_of_ne_zero hz
      rw [he, Nat.succ_sub_one, Nat.pow_succ, ← Nat.succ_mul,
        show b % 0x10000000000000 = 0xfffffffffffff by omega]
      omega

theorem magnitudeUnits_lt_succ (b : Nat) : magnitudeUnits b < magnitudeUnits (b + 1) := by
  rw [magnitudeUnits_succ]
  exact Nat.lt_add_of_pos_right (Nat.two_pow_pos _)

theorem magnitudeUnits_strictMono : StrictMono magnitudeUnits :=
  strictMono_nat_of_lt_succ magnitudeUnits_lt_succ

/-- The units of the float at a place. -/
def unitsAt (z : Int) : Int :=
  if z < 0 then -(magnitudeUnits z.natAbs : Int) else magnitudeUnits z.natAbs

theorem unitsAt_lt_unitsAt ⦃a b : Int⦄ (hab : a < b) : unitsAt a < unitsAt b := by
  have hzero : magnitudeUnits 0 = 0 := rfl
  rw [unitsAt, unitsAt]
  split
  · next ha =>
    split
    · have : magnitudeUnits b.natAbs < magnitudeUnits a.natAbs :=
        magnitudeUnits_strictMono (by omega)
      omega
    · have : magnitudeUnits 0 < magnitudeUnits a.natAbs := magnitudeUnits_strictMono (by omega)
      omega
  · next ha =>
    have : magnitudeUnits a.natAbs < magnitudeUnits b.natAbs :=
      magnitudeUnits_strictMono (by omega)
    rw [if_neg (by omega)]
    omega

theorem field_eq (x : Binary64) :
    x.field = x.bits.toNat % 0x8000000000000000 / 0x10000000000000 := by
  rw [field]
  omega

theorem fraction_eq (x : Binary64) :
    x.fraction = x.bits.toNat % 0x8000000000000000 % 0x10000000000000 := by
  rw [fraction]
  omega

theorem field_lt (x : Binary64) : x.field < 0x800 :=
  Nat.mod_lt _ (by decide)

theorem significand_lt (x : Binary64) : x.significand < exactBound := by
  have hfraction : x.fraction < 0x10000000000000 := Nat.mod_lt _ (by decide)
  rw [significand, exactBound]
  split <;> omega

theorem significand_mul_pow (x : Binary64) :
    x.significand * 2 ^ (x.field - 1) = magnitudeUnits (x.bits.toNat % 0x8000000000000000) := by
  have hmod : x.bits.toNat % 0x8000000000000000 % 0x10000000000000 = x.fraction :=
    (fraction_eq x).symm
  rw [magnitudeUnits, significand, ← field_eq, hmod]
  split
  · next h =>
    have := field_eq x
    have := fraction_eq x
    rw [h, Nat.zero_sub, Nat.pow_zero, Nat.mul_one]
    omega
  · rfl

/-- The units of a float are those at its place. -/
theorem units_eq_unitsAt (x : Binary64) : x.units = unitsAt x.place := by
  rw [units, place, significand_mul_pow, unitsAt, signed, signed]
  generalize x.bits.toNat % 0x8000000000000000 = b
  rcases Nat.eq_zero_or_pos b with rfl | hb
  · split <;> rfl
  · split
    · rw [if_pos (by omega), Int.natAbs_neg, Int.natAbs_natCast]
    · rw [if_neg (by omega), Int.natAbs_natCast]

/-! ## Small integers -/

theorem magnitudeUnits_binade {e m : Nat} (hm : m < 0x10000000000000) :
    magnitudeUnits ((e + 1) * 0x10000000000000 + m) = (0x10000000000000 + m) * 2 ^ e := by
  have hdiv : ((e + 1) * 0x10000000000000 + m) / 0x10000000000000 = e + 1 := by omega
  have hrem : ((e + 1) * 0x10000000000000 + m) % 0x10000000000000 = m := by omega
  rw [magnitudeUnits, hdiv, hrem, if_neg (by omega), Nat.add_sub_cancel]

/-- The digits of a small integer, moved up until the leading one is the hidden one. -/
theorem exists_hidden_digit {n : Nat} (hn : n < exactBound) (hz : n ≠ 0) :
    n.log2 ≤ 52 ∧ ∃ m < 0x10000000000000, 0x10000000000000 + m = n * 2 ^ (52 - n.log2) := by
  have hlow := Nat.log2_self_le hz
  have hhigh := Nat.lt_log2_self (n := n)
  generalize n.log2 = d at hlow hhigh
  have hd : d ≤ 52 := by
    by_contra h
    have : 2 ^ 53 ≤ 2 ^ d := Nat.pow_le_pow_right (by decide) (by omega)
    simp only [exactBound] at hn
    omega
  have hshift : 0x10000000000000 = 2 ^ d * 2 ^ (52 - d) := by
    rw [← Nat.pow_add, Nat.add_sub_cancel' hd]
  have hge : 0x10000000000000 ≤ n * 2 ^ (52 - d) := by
    rw [hshift]
    exact Nat.mul_le_mul_right _ hlow
  have hlt : n * 2 ^ (52 - d) < 2 * 0x10000000000000 := by
    rw [hshift, ← Nat.mul_assoc, ← Nat.pow_succ']
    exact Nat.mul_lt_mul_of_pos_right hhigh (Nat.two_pow_pos _)
  exact ⟨hd, n * 2 ^ (52 - d) - 0x10000000000000, by omega, Nat.add_sub_cancel' hge⟩

/-- The word of a small integer: its sign, the place of its leading digit, and the digits below. -/
theorem exists_bits_ofInt {n : Int} (hn : n.natAbs < exactBound) (hz : n ≠ 0) :
    ∃ e m, e < 0x7fe ∧ m < 0x10000000000000 ∧
      (ofInt n).bits.toNat =
        (if n < 0 then 0x8000000000000000 else 0) + ((e + 1) * 0x10000000000000 + m) ∧
      (0x10000000000000 + m) * 2 ^ e = n.natAbs * unitsPerOne := by
  obtain ⟨hd, m, hm, hdigits⟩ := exists_hidden_digit hn (Int.natAbs_ne_zero.2 hz)
  generalize hlog : n.natAbs.log2 = d at hd hdigits
  refine ⟨d + 1022, m, by omega, hm, ?_, ?_⟩
  · rw [ofInt, if_neg hz]
    simp only [hlog, Nat.shiftLeft_eq, ← hdigits, UInt64.toNat_ofNat']
    split <;> omega
  · have hexponent : 52 - d + (d + 1022) = unitBits := by
      rw [← Nat.add_assoc, Nat.sub_add_cancel hd]
      rfl
    rw [hdigits, Nat.mul_assoc, ← Nat.pow_add, hexponent, unitsPerOne]

/-- Integers that are small but for a power of two are counts of units of floats. -/
theorem exists_magnitudeUnits_eq {n k : Nat} (hn : n < exactBound) (hk : k ≤ 2045) :
    ∃ b ≤ 0x7fefffffffffffff, magnitudeUnits b = n * 2 ^ k := by
  rcases Nat.lt_or_ge (n * 2 ^ k) 0x10000000000000 with hlt | hge
  · exact ⟨n * 2 ^ k, by omega, if_pos (Nat.div_eq_of_lt hlt)⟩
  · have hz : n ≠ 0 := by
      rintro rfl
      omega
    obtain ⟨hd, m, hm, hdigits⟩ := exists_hidden_digit hn hz
    have hhigh := Nat.lt_log2_self (n := n)
    generalize n.log2 = d at hd hdigits hhigh
    have hplace : 52 ≤ d + k := by
      by_contra h
      have hpow : 2 ^ (d + 1 + k) ≤ 2 ^ 52 := Nat.pow_le_pow_right (by decide) (by omega)
      rw [Nat.pow_add] at hpow
      have := Nat.mul_lt_mul_of_pos_right hhigh (Nat.two_pow_pos k)
      omega
    refine ⟨(d + k - 52 + 1) * 0x10000000000000 + m, by omega, ?_⟩
    rw [magnitudeUnits_binade hm, hdigits, Nat.mul_assoc, ← Nat.pow_add]
    congr 2
    omega

theorem isFinite_ofInt {n : Int} (hn : n.natAbs < exactBound) : (ofInt n).isFinite = true := by
  by_cases hz : n = 0
  · subst hz
    rfl
  · obtain ⟨e, m, he, hm, hbits, -⟩ := exists_bits_ofInt hn hz
    simp only [isFinite, field, hbits, bne_iff_ne]
    split <;> omega

/-- The float of a small integer stands for that integer. -/
theorem units_ofInt {n : Int} (hn : n.natAbs < exactBound) : (ofInt n).units = n * unitsPerOne := by
  by_cases hz : n = 0
  · subst hz
    rw [Int.zero_mul]
    rfl
  · obtain ⟨e, m, he, hm, hbits, hvalue⟩ := exists_bits_ofInt hn hz
    have hlow : (ofInt n).bits.toNat % 0x8000000000000000 = (e + 1) * 0x10000000000000 + m := by
      rw [hbits]
      split <;> omega
    have hsign : (ofInt n).isNegative = decide (n < 0) := by
      rw [isNegative, hbits, decide_eq_decide]
      split <;> omega
    rw [units, significand_mul_pow, hlow, magnitudeUnits_binade hm, hvalue, signed, hsign]
    rcases lt_or_ge n 0 with h | h
    · rw [if_pos (by simpa using h), Int.natCast_mul, Int.ofNat_natAbs_of_nonpos (by omega),
        Int.neg_mul, Int.neg_neg]
    · rw [if_neg (by simpa using h), Int.natCast_mul, Int.natAbs_of_nonneg h]

/-! ## Kinds of floats -/

theorem isNaN_eq_false_of_isFinite {x : Binary64} (h : x.isFinite = true) : x.isNaN = false := by
  simp only [isFinite, bne_iff_ne] at h
  simp [isNaN, h]

theorem isInfinite_eq_false_of_isFinite {x : Binary64} (h : x.isFinite = true) :
    x.isInfinite = false := by
  simp only [isFinite, bne_iff_ne] at h
  simp [isInfinite, h]

theorem isFinite_of_not {x : Binary64} (hn : x.isNaN = false) (hi : x.isInfinite = false) :
    x.isFinite = true := by
  by_cases hf : x.field = 2047
  · by_cases hz : x.fraction = 0 <;> simp [isNaN, isInfinite, hf, hz] at hn hi
  · simp [isFinite, hf]

theorem place_of_isInfinite {x : Binary64} (h : x.isInfinite = true) :
    x.place = x.signed 0x7ff0000000000000 := by
  simp only [isInfinite, Bool.and_eq_true, beq_iff_eq] at h
  have := field_eq x
  have := fraction_eq x
  rw [place, show x.bits.toNat % 0x8000000000000000 = 0x7ff0000000000000 by omega]

theorem place_bounds_of_isFinite {x : Binary64} (h : x.isFinite = true) :
    -0x7ff0000000000000 < x.place ∧ x.place < 0x7ff0000000000000 := by
  simp only [isFinite, bne_iff_ne] at h
  have := field_eq x
  have := field_lt x
  simp only [place, signed]
  split <;> omega

/-! ## Digits of a float -/

/-- A list of integers for a float.  The lists of floats that are not NaN are ordered as the floats
are; a NaN has its bits. -/
def digits (x : Binary64) : List Int :=
  if x.isNaN then [2, x.bits.toNat]
  else if x.isInfinite then [x.signed 1, 0]
  else [0, x.units]

theorem digits_of_isNaN {x : Binary64} (h : x.isNaN = true) :
    x.digits = [2, (x.bits.toNat : Int)] :=
  if_pos h

theorem digits_of_isInfinite {x : Binary64} (hn : x.isNaN = false) (h : x.isInfinite = true) :
    x.digits = [x.signed 1, 0] := by
  rw [digits, if_neg (by simp [hn]), if_pos h]

theorem digits_of_isFinite {x : Binary64} (h : x.isFinite = true) : x.digits = [0, x.units] := by
  rw [digits, if_neg (by simp [isNaN_eq_false_of_isFinite h]),
    if_neg (by simp [isInfinite_eq_false_of_isFinite h])]

theorem compare_pair (a b c d : Int) :
    compare [a, b] [c, d] = (compare a c).then (compare b d) := by
  rw [List.compare_cons_cons, List.compare_cons_cons, List.compare_nil_nil, Ordering.then_eq]

/-- Digits of floats compare as the places of the floats do. -/
theorem compare_digits {x y : Binary64} (hx : x.isNaN = false) (hy : y.isNaN = false) :
    compare x.digits y.digits = compare x.place y.place := by
  by_cases hxi : x.isInfinite = true <;> by_cases hyi : y.isInfinite = true
  · rw [digits_of_isInfinite hx hxi, digits_of_isInfinite hy hyi, compare_pair,
      place_of_isInfinite hxi, place_of_isInfinite hyi]
    simp only [signed]
    split <;> split <;> rfl
  · have hyf := isFinite_of_not hy (by simpa using hyi)
    have hyp := place_bounds_of_isFinite hyf
    rw [digits_of_isInfinite hx hxi, digits_of_isFinite hyf, compare_pair,
      place_of_isInfinite hxi]
    simp only [signed]
    split
    · exact (compare_lt_iff_lt.2 hyp.1).symm
    · exact (compare_gt_iff_gt.2 hyp.2).symm
  · have hxf := isFinite_of_not hx (by simpa using hxi)
    have hxp := place_bounds_of_isFinite hxf
    rw [digits_of_isFinite hxf, digits_of_isInfinite hy hyi, compare_pair,
      place_of_isInfinite hyi]
    simp only [signed]
    split
    · exact (compare_gt_iff_gt.2 hxp.1).symm
    · exact (compare_lt_iff_lt.2 hxp.2).symm
  · rw [digits_of_isFinite (isFinite_of_not hx (by simpa using hxi)),
      digits_of_isFinite (isFinite_of_not hy (by simpa using hyi)), compare_pair,
      compare_eq_iff_eq.2 rfl, units_eq_unitsAt, units_eq_unitsAt,
      compare_apply unitsAt_lt_unitsAt]
    rfl

theorem order?_eq_compare_digits {x y : Binary64} (hx : x.isNaN = false) (hy : y.isNaN = false) :
    x.order? y = some (compare x.digits y.digits) := by
  rw [compare_digits hx hy, order?, hx, hy]
  rfl

/-- Finite floats compare as their units do. -/
theorem order?_of_isFinite {x y : Binary64} (hx : x.isFinite = true) (hy : y.isFinite = true) :
    x.order? y = some (compare x.units y.units) := by
  rw [order?_eq_compare_digits (isNaN_eq_false_of_isFinite hx) (isNaN_eq_false_of_isFinite hy),
    digits_of_isFinite hx, digits_of_isFinite hy, compare_pair, compare_eq_iff_eq.2 rfl]
  rfl

/-! ## Beside an integer -/

theorem pow_field_pred {x : Binary64} {e : Nat} (he : x.exponent = Int.ofNat e) :
    2 ^ (x.field - 1) = 2 ^ e * unitsPerOne := by
  rw [unitsPerOne, ← Nat.pow_add, unitBits]
  congr 1
  simp only [exponent] at he
  split at he <;> simp only [Int.ofNat_eq_natCast] at he <;> omega

theorem pow_field_pred_mul {x : Binary64} {e : Nat} (he : x.exponent = Int.negSucc e) :
    2 ^ (x.field - 1) * 2 ^ (e + 1) = unitsPerOne := by
  rw [unitsPerOne, ← Nat.pow_add, unitBits]
  congr 1
  simp only [exponent] at he
  split at he <;> simp only [Int.negSucc_eq] at he <;> omega

theorem signed_mul (x : Binary64) (m k : Nat) : x.signed (m * k) = x.signed m * k := by
  simp only [signed]
  split <;> simp

/-- A float without digits below the point counts its floor in units. -/
theorem units_of_ofNat {x : Binary64} {e : Nat} (he : x.exponent = Int.ofNat e) :
    x.units = x.floor * unitsPerOne := by
  rw [units, pow_field_pred he, ← Nat.mul_assoc, signed_mul, floor, he]
  simp only [Nat.shiftLeft_eq]

/-- The units of a float that may have digits below the point. -/
theorem units_mul_of_negSucc {x : Binary64} {e : Nat} (he : x.exponent = Int.negSucc e) :
    x.units * 2 ^ (e + 1) = x.signed x.significand * unitsPerOne := by
  rw [units, signed_mul, Int.mul_assoc, ← pow_field_pred_mul he]
  simp

theorem floor_of_negSucc {x : Binary64} {e : Nat} (he : x.exponent = Int.negSucc e) :
    x.floor = x.signed x.significand / 2 ^ (e + 1) := by
  rw [floor, he]
  simp only [Int.shiftRight_eq_div_pow, Int.natCast_pow, Int.cast_ofNat_Int]

theorem isIntegral_of_negSucc {x : Binary64} {e : Nat} (he : x.exponent = Int.negSucc e) :
    x.isIntegral = decide (x.signed x.significand % 2 ^ (e + 1) = 0) := by
  have hpow : (2 : Int) ^ (e + 1) = ((2 ^ (e + 1) : Nat) : Int) := by simp
  rw [isIntegral, he, Bool.eq_iff_iff, beq_iff_eq, decide_eq_true_iff, Nat.one_shiftLeft, hpow,
    ← Int.dvd_iff_emod_eq_zero, ← Nat.dvd_iff_mod_eq_zero]
  simp only [signed]
  split
  · rw [Int.dvd_neg, Int.natCast_dvd_natCast]
  · rw [Int.natCast_dvd_natCast]

end Binary64

namespace Number

open Binary64

/-- An integer and a finite float compare as their units do. -/
theorem intOrder?_of_isFinite {x : Binary64} (n : Int) (hx : x.isFinite = true) :
    intOrder? n x = some (compare (n * Binary64.unitsPerOne) x.units) := by
  have hpos : (0 : Int) < Binary64.unitsPerOne := by
    exact_mod_cast Binary64.unitsPerOne_pos
  rw [Number.intOrder?, if_neg (by simp [Binary64.isNaN_eq_false_of_isFinite hx]),
    if_neg (by simp [Binary64.isInfinite_eq_false_of_isFinite hx])]
  have hscale : ∀ {k : Int}, 0 < k → ∀ a b : Int, compare (a * k) (b * k) = compare a b :=
    fun hk => compare_apply fun a b hab => Int.mul_lt_mul_of_pos_right hab hk
  split
  · next hsmall => rw [Binary64.order?_of_isFinite (Binary64.isFinite_ofInt hsmall) hx,
      Binary64.units_ofInt hsmall]
  cases he : x.exponent with
  | ofNat e =>
    rw [Binary64.units_of_ofNat he, hscale hpos]
    cases hc : compare n x.floor <;> simp [Binary64.isIntegral, he]
  | negSucc e =>
    have hk : (0 : Int) < 2 ^ (e + 1) := Int.pow_pos (by decide)
    rw [← hscale hk (n * Binary64.unitsPerOne), Binary64.units_mul_of_negSucc he,
      Int.mul_right_comm, hscale hpos, compare_mul_eq _ _ hk,
      Binary64.floor_of_negSucc he, Binary64.isIntegral_of_negSucc he]
    cases compare n (x.signed x.significand / 2 ^ (e + 1)) <;> simp

/-- An integer and a float that is not a NaN compare as their digits do. -/
theorem intOrder?_eq_compare_digits {x : Binary64} (n : Int) (hx : x.isNaN = false) :
    intOrder? n x = some (compare [0, n * (unitsPerOne : Int)] x.digits) := by
  by_cases hi : x.isInfinite = true
  · rw [digits_of_isInfinite hx hi, compare_pair, intOrder?, if_neg (by simp [hx]), if_pos hi]
    simp only [signed]
    split <;> rfl
  · have hf := isFinite_of_not hx (by simpa using hi)
    rw [intOrder?_of_isFinite n hf, digits_of_isFinite hf, compare_pair,
      compare_eq_iff_eq.2 rfl]
    rfl

/-! ## Digits of a number -/

/-- Whether a number is a NaN or has a part that is one. -/
def isNaN : Number → Bool
  | int _ => false
  | float x => x.isNaN
  | complex re im => re.isNaN || im.isNaN

/-- A list of integers for a number.  A complex number that lies on the real line has the list of
its real part, and one with a NaN in it is told apart by the tag and its bits. -/
def digits (tag : Nat) : Number → List Int
  | int n => [0, n * unitsPerOne]
  | float x => x.digits
  | complex re im =>
    if re.isNaN || im.isNaN then [4, tag, re.bits.toNat, im.bits.toNat]
    else if im.digits = Binary64.zero.digits then re.digits
    else 3 :: (re.digits ++ im.digits)

/-- **Real numbers compare as their digits do.** -/
theorem order?_eq_compare_digits {a b : Number} (s t : Nat) (ha : a.isComplex = false)
    (hb : b.isComplex = false) (hna : a.isNaN = false) (hnb : b.isNaN = false) :
    a.order? b = some (compare (a.digits s) (b.digits t)) := by
  cases a with
  | complex => simp [isComplex] at ha
  | int m =>
    cases b with
    | complex => simp [isComplex] at hb
    | int n =>
      have hpos : (0 : Int) < unitsPerOne := by exact_mod_cast unitsPerOne_pos
      rw [order?, digits, digits, compare_pair, compare_eq_iff_eq.2 rfl, Ordering.eq_then,
        compare_apply fun a b hab => Int.mul_lt_mul_of_pos_right hab hpos]
    | float y => exact intOrder?_eq_compare_digits m hnb
  | float x =>
    cases b with
    | complex => simp [isComplex] at hb
    | int n =>
      rw [order?, intOrder?_eq_compare_digits n hna, digits, digits, Option.map_some,
        ← Std.OrientedCmp.eq_swap]
    | float y => exact Binary64.order?_eq_compare_digits hna hnb

theorem numEq_iff_digits {x y : Binary64} (hx : x.isNaN = false) (hy : y.isNaN = false) :
    x.numEq y = true ↔ x.digits = y.digits := by
  rw [numEq, Binary64.order?_eq_compare_digits hx hy, beq_iff_eq, Option.some_inj,
    Std.compare_eq_iff_eq]

/-- The digits of a real number are two integers, of which the first is not `3`. -/
theorem exists_digits_of_real {a : Number} (tag : Nat) (ha : a.isComplex = false)
    (hn : a.isNaN = false) : ∃ c u : Int, c < 2 ∧ a.digits tag = [c, u] := by
  cases a with
  | complex => simp [isComplex] at ha
  | int n => exact ⟨0, n * unitsPerOne, by decide, rfl⟩
  | float x =>
    by_cases hi : x.isInfinite = true
    · refine ⟨x.signed 1, 0, ?_, digits_of_isInfinite hn hi⟩
      simp only [signed]
      split <;> decide
    · exact ⟨0, x.units, by decide, digits_of_isFinite (isFinite_of_not hn (by simpa using hi))⟩

theorem isComplex_re (a : Number) : a.re.isComplex = false := by
  cases a <;> rfl

theorem isNaN_eq (a : Number) : a.isNaN = (a.re.isNaN || a.im.isNaN) := by
  cases a <;> simp [isNaN, re, im, Binary64.isNaN, Binary64.zero, field, fraction]

theorem digits_eq_parts {a : Number} (tag : Nat) (hn : a.isNaN = false) :
    a.digits tag =
      if a.im.digits = Binary64.zero.digits then a.re.digits 0
      else 3 :: (a.re.digits 0 ++ a.im.digits) := by
  cases a with
  | int n => exact (if_pos rfl).symm
  | float x => exact (if_pos rfl).symm
  | complex x y => rw [digits, if_neg (by simpa [isNaN] using hn), im, re, digits]

theorem isNaN_parts {a : Number} (ha : a.isNaN = false) :
    a.re.isNaN = false ∧ a.im.isNaN = false := by
  rw [isNaN_eq] at ha
  simpa using ha

/-- Numbers have the same digits exactly when their parts do, unless a NaN is among them. -/
theorem digits_eq_iff_parts {a b : Number} (s t : Nat) (ha : a.isNaN = false)
    (hb : b.isNaN = false) :
    a.digits s = b.digits t ↔
      a.im.digits = b.im.digits ∧ a.re.digits 0 = b.re.digits 0 := by
  obtain ⟨c, u, hc, hcu⟩ := exists_digits_of_real 0 (isComplex_re a) (isNaN_parts ha).1
  obtain ⟨d, v, hd, hdv⟩ := exists_digits_of_real 0 (isComplex_re b) (isNaN_parts hb).1
  rw [digits_eq_parts s ha, digits_eq_parts t hb, hcu, hdv]
  -- the first digit tells a number off the real line from one on it
  by_cases hza : a.im.digits = Binary64.zero.digits <;>
    by_cases hzb : b.im.digits = Binary64.zero.digits
  · rw [if_pos hza, if_pos hzb, hza, hzb]
    simp
  · rw [if_pos hza, if_neg hzb, hza]
    constructor
    · intro h
      simp only [List.cons.injEq] at h
      omega
    · exact fun h => absurd h.1.symm hzb
  · rw [if_neg hza, if_pos hzb, hzb]
    constructor
    · intro h
      simp only [List.cons.injEq] at h
      omega
    · exact fun h => absurd h.1 hza
  · rw [if_neg hza, if_neg hzb]
    simp only [List.cons_append, List.nil_append, List.cons.injEq, true_and]
    tauto

/-- **Numbers are equal exactly when they have the same digits**, unless a NaN is among them. -/
theorem equal_iff_digits {a b : Number} (s t : Nat) (ha : a.isNaN = false)
    (hb : b.isNaN = false) : a.equal b = true ↔ a.digits s = b.digits t := by
  obtain ⟨hare, haim⟩ := isNaN_parts ha
  obtain ⟨hbre, hbim⟩ := isNaN_parts hb
  rw [digits_eq_iff_parts s t ha hb, equal, Bool.and_eq_true, numEq_iff_digits haim hbim,
    order?_eq_compare_digits 0 0 (isComplex_re a) (isComplex_re b) hare hbre, beq_iff_eq,
    Option.some_inj, Std.compare_eq_iff_eq]

/-- The first digit of a number with a NaN in it: `2` for a float and `4` for a complex number. -/
theorem digits_of_isNaN {a : Number} (tag : Nat) (ha : a.isNaN = true) :
    (∃ x, a = float x ∧ a.digits tag = [2, (x.bits.toNat : Int)]) ∨
      (∃ x y, a = complex x y ∧
        a.digits tag = [4, (tag : Int), (x.bits.toNat : Int), (y.bits.toNat : Int)]) := by
  cases a with
  | int n => simp [isNaN] at ha
  | float x => exact Or.inl ⟨x, rfl, Binary64.digits_of_isNaN ha⟩
  | complex re im => exact Or.inr ⟨re, im, rfl, if_pos ha⟩

/-- Without a NaN the first digit is neither. -/
theorem digits_of_not_isNaN {a : Number} (tag : Nat) (ha : a.isNaN = false) :
    ∃ c l, a.digits tag = c :: l ∧ c ≠ 2 ∧ c ≠ 4 := by
  obtain ⟨c, u, hc, hcu⟩ := exists_digits_of_real 0 (isComplex_re a) (isNaN_parts ha).1
  rw [digits_eq_parts tag ha, hcu]
  split
  · exact ⟨c, [u], rfl, by omega, by omega⟩
  · exact ⟨3, _, rfl, by decide, by decide⟩

theorem isNaN_eq_of_digits {a b : Number} {s t : Nat} (h : a.digits s = b.digits t) :
    a.isNaN = b.isNaN := by
  cases ha : a.isNaN <;> cases hb : b.isNaN
  · rfl
  · obtain ⟨c, l, hl, h2, h4⟩ := digits_of_not_isNaN s ha
    rcases digits_of_isNaN t hb with ⟨x, -, hx⟩ | ⟨x, y, -, hx⟩ <;> simp_all
  · obtain ⟨c, l, hl, h2, h4⟩ := digits_of_not_isNaN t hb
    rcases digits_of_isNaN s ha with ⟨x, -, hx⟩ | ⟨x, y, -, hx⟩ <;> simp_all
  · rfl

/-- With a NaN among them the digits give the bits. -/
theorem eq_of_digits_of_isNaN {a b : Number} {s t : Nat} (ha : a.isNaN = true)
    (h : a.digits s = b.digits t) : a = b ∧ (a.isComplex = true → s = t) := by
  have hbits {x y : Binary64} (hxy : (x.bits.toNat : Int) = y.bits.toNat) : x = y := by
    have := UInt64.toNat_inj.1 (Int.ofNat_inj.1 hxy)
    cases x
    cases y
    exact congrArg _ this
  rcases digits_of_isNaN s ha with ⟨x, rfl, hx⟩ | ⟨x, y, rfl, hx⟩ <;>
    rcases digits_of_isNaN t (isNaN_eq_of_digits h ▸ ha) with ⟨z, rfl, hz⟩ | ⟨z, w, rfl, hz⟩ <;>
    rw [hx, hz] at h <;> simp only [List.cons.injEq, reduceCtorEq, and_true, and_false] at h
  · exact ⟨congrArg float (hbits h.2), fun h => by simp [isComplex] at h⟩
  · refine ⟨?_, fun _ => by omega⟩
    rw [hbits h.2.2.1, hbits h.2.2.2]

theorem order?_of_isNaN {a b : Number} (h : a.isNaN = true ∨ b.isNaN = true) :
    a.order? b = none := by
  cases a <;> cases b <;> simp_all [order?, isNaN, intOrder?, Binary64.order?]

/-- Nothing equals a number with a NaN in it. -/
theorem equal_of_isNaN {a b : Number} (h : a.isNaN = true ∨ b.isNaN = true) :
    a.equal b = false := by
  rw [isNaN_eq a, isNaN_eq b, Bool.or_eq_true, Bool.or_eq_true] at h
  rw [equal, Bool.and_eq_false_iff]
  by_cases hre : a.re.isNaN = true ∨ b.re.isNaN = true
  · rw [order?_of_isNaN hre]
    exact Or.inr rfl
  · have him : a.im.isNaN = true ∨ b.im.isNaN = true := by tauto
    rw [numEq, Binary64.order?_eq_none_iff.2 him]
    exact Or.inl rfl

/-! ## Operators on numbers -/

/-- Under `==` the operators say what equality says, complex numbers or not. -/
theorem holds_eq (a b : Number) : holds .eq a b = a.equal b := by
  rw [holds]
  split
  · simp
  · next h =>
    have hc : a.isComplex = false ∧ b.isComplex = false := by simpa using h
    have hzero : Binary64.zero.numEq Binary64.zero = true :=
      (numEq_iff_digits rfl rfl).2 rfl
    have hre : a.re = a ∧ b.re = b ∧ a.im = .zero ∧ b.im = .zero := by
      cases a <;> cases b <;> simp_all [isComplex, re, im]
    rw [equal, hre.1, hre.2.1, hre.2.2.1, hre.2.2.2, hzero, Bool.true_and]
    cases a.order? b with
    | none => rfl
    | some o => cases o <;> rfl

/-- On real numbers that are not NaN, every operator reads the order of the digits. -/
theorem holds_of_real {a b : Number} (s t : Nat) (op : Operator) (ha : a.isComplex = false)
    (hb : b.isComplex = false) (hna : a.isNaN = false) (hnb : b.isNaN = false) :
    holds op a b = op.holds (compare (a.digits s) (b.digits t)) := by
  rw [holds, ha, hb, order?_eq_compare_digits s t ha hb hna hnb]
  rfl

end Number

end ValueHeap
