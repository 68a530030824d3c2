import Mathlib.Algebra.Order.Field.Rat
import Mathlib.Algebra.Order.Field.Basic
import Mathlib.Order.WithBot
import Mathlib.Tactic.FieldSimp
import ValueHeap.Outcome
import ValueHeap.Proofs.Compare.Verdict

/-!
# Exact values of numbers

What a number stands for is a rational number, or an infinity at one of the two ends of the line, or
two such parts if the number is complex; a NaN stands for nothing.  Said so, the order of two
numbers is the order of the line, whatever types the numbers have and on whichever way they are
compared: the float of a small integer, the floor of a large float and the place of a float among
all floats are never seen in it.

The line is what comparisons are measured by, and the digits of a number are how it is reached: two
integers that compare as the line does (`Number.Reads.compare_eq`).

## What is here

* `Extended` — the line, and `Binary64.toRat` and `Binary64.value?` — where a float lies on it.
* `Quantity` — what a number of any type stands for, and `Quantity.Equal`.
* `Quantity.Judged` — answers to the six operators that are exact.
* `Number.order?_eq` and `Number.equal_iff` — numbers are compared exactly, and
  `Number.judged_answer` — so are the answers to all operators.
-/

set_option autoImplicit false

namespace ValueHeap

/-- The rational numbers with an infinity at either end. -/
abbrev Extended : Type := WithBot (WithTop ℚ)

/-- The place of a rational number on the line. -/
def Extended.ofRat (r : ℚ) : Extended := ((r : WithTop ℚ) : Extended)

namespace Extended

theorem ofRat_lt_ofRat {r s : ℚ} : ofRat r < ofRat s ↔ r < s := by
  rw [ofRat, ofRat, WithBot.coe_lt_coe, WithTop.coe_lt_coe]

theorem bot_lt_ofRat (r : ℚ) : ⊥ < ofRat r := WithBot.bot_lt_coe _

theorem ofRat_lt_top (r : ℚ) : ofRat r < ⊤ := WithBot.coe_lt_coe.2 (WithTop.coe_lt_top r)

end Extended

/-! ## Floats -/

namespace Binary64

/-- The exact value of a finite float. -/
def toRat (x : Binary64) : ℚ := x.signed x.significand * (2 : ℚ) ^ x.exponent

/-- Where a float lies on the line; a NaN lies nowhere. -/
def value? (x : Binary64) : Option Extended :=
  if x.isNaN then none
  else if x.isInfinite then some (if x.isNegative then ⊥ else ⊤)
  else some (.ofRat x.toRat)

theorem exponent_eq (x : Binary64) : x.exponent = ((x.field - 1 : Nat) : Int) - unitBits := by
  have hunit : unitBits = 1074 := rfl
  rw [exponent, hunit]
  split <;> omega

/-- The exact value of a finite float is its number of units over the units in one. -/
theorem toRat_eq (x : Binary64) : x.toRat = (x.units : ℚ) / (unitsPerOne : ℚ) := by
  rw [toRat, units, signed_mul, exponent_eq, zpow_sub₀ (by norm_num : (2 : ℚ) ≠ 0), zpow_natCast,
    zpow_natCast, unitsPerOne]
  push_cast
  rw [mul_div_assoc]

theorem value?_eq_none_iff {x : Binary64} : x.value? = none ↔ x.isNaN = true := by
  rw [value?]
  split
  · next hn => simp [hn]
  · next hn => split <;> simp [hn]

theorem value?_zero : zero.value? = some (.ofRat 0) := by
  have hzero : zero.toRat = 0 := by
    rw [toRat, show zero.signed zero.significand = 0 from rfl, Int.cast_zero, zero_mul]
  rw [value?, if_neg (by decide), if_neg (by decide), hzero]

end Binary64

/-! ## Quantities -/

/-- What a number stands for.  A part that is a NaN stands for nothing. -/
inductive Quantity where
  /-- A truth value, an integer or a float. -/
  | real (x : Option Extended)
  /-- A complex number. -/
  | complex (re im : Option Extended)

namespace Quantity

/-- Whether the quantity is that of a complex number. -/
def IsComplex : Quantity → Prop
  | real _ => False
  | complex .. => True

/-- The real part. -/
def re : Quantity → Option Extended
  | real x => x
  | complex re _ => re

/-- The imaginary part, which is zero for a real number. -/
def im : Quantity → Option Extended
  | real _ => some (.ofRat 0)
  | complex _ im => im

/-- Both parts are the same, and stand for something. -/
def Equal (p q : Quantity) : Prop :=
  (∃ v, p.im = some v ∧ q.im = some v) ∧ ∃ u, p.re = some u ∧ q.re = some u

/-- Answers to the six operators that are exact for two quantities. -/
structure Judged (p q : Quantity) (answer : Operator → Except Failure Bool) : Prop where
  /-- Two real numbers are in the order of the line. -/
  ordered : ∀ u v, p = .real (some u) → q = .real (some v) →
    ∀ op, answer op = .ok (op.holds (compare u v))
  /-- Beside a NaN, a real number is different and in no order. -/
  nan : ∀ x y, p = .real x → q = .real y → x = none ∨ y = none →
    ∀ op, answer op = .ok (op == .ne)
  /-- Beside a complex number there is equality, which looks at both parts. -/
  equality : p.IsComplex ∨ q.IsComplex →
    ∃ r, answer .eq = .ok r ∧ (r = true ↔ p.Equal q) ∧ answer .ne = .ok !r
  /-- Beside a complex number there is no order. -/
  unordered : p.IsComplex ∨ q.IsComplex → ∀ op, op.isEquality = false →
    ∃ c : Cause, answer op = .error (.error (.raised c)) ∧ c.kind = .typeError

end Quantity

/-! ## Numbers on the line -/

namespace Number

open Binary64

/-- What a number stands for. -/
def quantity : Number → Quantity
  | int n => .real (some (.ofRat n))
  | float x => .real x.value?
  | complex re im => .complex re.value? im.value?

/-- The place on the line that the digits of a real number give. -/
inductive Reads : List Int → Extended → Prop
  | below : Reads [-1, 0] ⊥
  | between (u : Int) : Reads [0, u] (.ofRat ((u : ℚ) / (unitsPerOne : ℚ)))
  | above : Reads [1, 0] ⊤

theorem ofUnits_lt_ofUnits ⦃u v : Int⦄ (huv : u < v) :
    Extended.ofRat ((u : ℚ) / (unitsPerOne : ℚ)) < .ofRat ((v : ℚ) / (unitsPerOne : ℚ)) := by
  have hpos : (0 : ℚ) < unitsPerOne := by exact_mod_cast unitsPerOne_pos
  exact Extended.ofRat_lt_ofRat.2 (div_lt_div_of_pos_right (by exact_mod_cast huv) hpos)

/-- Digits compare as what they stand for does. -/
theorem Reads.compare_eq {k l : List Int} {u v : Extended} (hk : Reads k u) (hl : Reads l v) :
    compare u v = compare k l := by
  cases hk with
  | below =>
    cases hl with
    | below => exact compare_eq_iff_eq.2 rfl
    | between => exact compare_lt_iff_lt.2 (Extended.bot_lt_ofRat _)
    | above => exact compare_lt_iff_lt.2 bot_lt_top
  | between m =>
    cases hl with
    | below => exact compare_gt_iff_gt.2 (Extended.bot_lt_ofRat _)
    | between n =>
      rw [compare_pair, compare_eq_iff_eq.2 rfl, Ordering.eq_then]
      exact compare_apply ofUnits_lt_ofUnits m n
    | above => exact compare_lt_iff_lt.2 (Extended.ofRat_lt_top _)
  | above =>
    cases hl with
    | below => exact compare_gt_iff_gt.2 bot_lt_top
    | between => exact compare_gt_iff_gt.2 (Extended.ofRat_lt_top _)
    | above => exact compare_eq_iff_eq.2 rfl

/-- The digits of a float that is not a NaN read as its value. -/
theorem exists_reads_float {x : Binary64} (hn : x.isNaN = false) :
    ∃ u, x.value? = some u ∧ Reads x.digits u := by
  rw [value?, if_neg (by simp [hn])]
  by_cases hi : x.isInfinite = true
  · rw [if_pos hi, digits_of_isInfinite hn hi, signed]
    refine ⟨_, rfl, ?_⟩
    split
    · exact .below
    · exact .above
  · rw [if_neg hi, digits_of_isFinite (isFinite_of_not hn (by simpa using hi)), toRat_eq]
    exact ⟨_, rfl, .between x.units⟩

/-- The digits of a real number that is not a NaN read as what it stands for. -/
theorem exists_reads {a : Number} (tag : Nat) (ha : a.isComplex = false) (hn : a.isNaN = false) :
    ∃ u, a.quantity = .real (some u) ∧ Reads (a.digits tag) u := by
  cases a with
  | complex => simp [isComplex] at ha
  | int n =>
    have hne : (unitsPerOne : ℚ) ≠ 0 := by exact_mod_cast unitsPerOne_pos.ne'
    have hread := Reads.between (n * unitsPerOne)
    rw [Int.cast_mul, Int.cast_natCast, mul_div_cancel_right₀ _ hne] at hread
    exact ⟨_, rfl, hread⟩
  | float x =>
    obtain ⟨u, hu, hread⟩ := exists_reads_float hn
    exact ⟨u, congrArg Quantity.real hu, hread⟩

theorem quantity_re_of_isNaN {a : Number} (ha : a.isComplex = false) (hn : a.isNaN = true) :
    a.quantity.re = none := by
  cases a with
  | int => cases hn
  | float x => exact value?_eq_none_iff.2 hn
  | complex => cases ha

/-- **Real numbers are compared exactly**, and a NaN is not compared. -/
theorem order?_eq {a b : Number} (ha : a.isComplex = false) (hb : b.isComplex = false) :
    a.order? b = a.quantity.re.bind fun u => b.quantity.re.map fun v => compare u v := by
  by_cases hna : a.isNaN = true
  · rw [order?_of_isNaN (Or.inl hna), quantity_re_of_isNaN ha hna]
    rfl
  by_cases hnb : b.isNaN = true
  · rw [order?_of_isNaN (Or.inr hnb), quantity_re_of_isNaN hb hnb]
    cases a.quantity.re <;> rfl
  rw [Bool.not_eq_true] at hna hnb
  obtain ⟨u, hu, hau⟩ := exists_reads 0 ha hna
  obtain ⟨v, hv, hbv⟩ := exists_reads 0 hb hnb
  rw [order?_eq_compare_digits 0 0 ha hb hna hnb, hu, hv]
  exact congrArg some (hau.compare_eq hbv).symm

theorem order?_eq_some_eq_iff {a b : Number} (ha : a.isComplex = false)
    (hb : b.isComplex = false) :
    a.order? b = some .eq ↔ ∃ u, a.quantity.re = some u ∧ b.quantity.re = some u := by
  rw [order?_eq ha hb]
  simp only [Option.bind_eq_some_iff, Option.map_eq_some_iff, compare_eq_iff_eq]
  constructor
  · rintro ⟨u, hu, v, hv, rfl⟩
    exact ⟨u, hu, hv⟩
  · rintro ⟨u, hu, hv⟩
    exact ⟨u, hu, u, hv, rfl⟩

/-- **Numbers are equal exactly when both parts are.** -/
theorem equal_iff {a b : Number} : a.equal b = true ↔ a.quantity.Equal b.quantity := by
  have hre (a : Number) : a.re.quantity.re = a.quantity.re := by cases a <;> rfl
  have him (a : Number) : (float a.im).quantity.re = a.quantity.im := by
    cases a with
    | complex => rfl
    | int | float => simp only [quantity, im, Quantity.re, Quantity.im, value?_zero]
  rw [equal, Bool.and_eq_true, numEq, beq_iff_eq, beq_iff_eq, Quantity.Equal, ← hre a, ← hre b,
    ← him a, ← him b, ← order?_eq_some_eq_iff (isComplex_re a) (isComplex_re b),
    ← order?_eq_some_eq_iff rfl rfl]
  rfl

/-! ## Operators -/

/-- What the six operators answer for two numbers. -/
def answer (a b : Number) (op : Operator) : Except Failure Bool :=
  if (a.isComplex || b.isComplex) && !op.isEquality then .error (.error (.raised .complexOrdering))
  else .ok (holds op a b)

theorem isComplex_iff {a : Number} : a.isComplex = true ↔ a.quantity.IsComplex := by
  cases a <;> simp [isComplex, quantity, Quantity.IsComplex]

/-- **The answers for two numbers are exact.** -/
theorem judged_answer (a b : Number) : a.quantity.Judged b.quantity (a.answer b) := by
  have hreal {a : Number} {x : Option Extended} (ha : a.quantity = .real x) :
      a.isComplex = false := by
    rw [← Bool.not_eq_true, isComplex_iff, ha]
    exact id
  have hreals {op : Operator} {x y : Option Extended} (ha : a.quantity = .real x)
      (hb : b.quantity = .real y) :
      a.answer b op = .ok (op.reads (x.bind fun u => y.map fun v => compare u v)) := by
    rw [answer, holds, hreal ha, hreal hb, order?_eq (hreal ha) (hreal hb), ha, hb]
    rfl
  refine ⟨fun u v hu hv op => hreals hu hv, ?_, fun hc => ?_, ?_⟩
  · rintro x y hx hy hnone op
    rw [hreals hx hy]
    rcases hnone with rfl | rfl
    · rfl
    · cases x <;> rfl
  · have hcomplex : (a.isComplex || b.isComplex) = true := by
      rwa [Bool.or_eq_true, isComplex_iff, isComplex_iff]
    refine ⟨a.equal b, ?_, equal_iff, ?_⟩
    · rw [answer, if_neg (by simp [Operator.isEquality]), holds_eq]
    · rw [answer, if_neg (by simp [Operator.isEquality]), holds, if_pos hcomplex]
      cases a.equal b <;> rfl
  · intro hc op hop
    have hcomplex : (a.isComplex || b.isComplex) = true := by
      rwa [Bool.or_eq_true, isComplex_iff, isComplex_iff]
    exact ⟨.complexOrdering, if_pos (by rw [hcomplex, hop]; rfl), rfl⟩

end Number

end ValueHeap
