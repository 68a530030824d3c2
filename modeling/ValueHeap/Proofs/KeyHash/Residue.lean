import Mathlib.Data.ZMod.Basic
import Mathlib.Tactic.Ring
import ValueHeap.KeyHash
import ValueHeap.Proofs.Numeric.Units

/-!
# The residue of a number depends on the number alone

`Residue.ofFloat` takes 28 bits of a significand at a time and rotates words of 61 bits; the residue
of an integer is a remainder.  Both compute the number modulo the prime `2 ^ 61 - 1`, where two has
the inverse `2 ^ 60` and a negative power of two therefore has a meaning.

## What is here

* `Residue.power` — the powers of two modulo `2 ^ 61 - 1`, for every integer exponent.
* `Residue.rotate_eq` and `Residue.fold_spec` — rotating multiplies by a power of two, and a fold
  keeps the number under way.
* `Residue.ofUnits` — the residue of a number of units of `2 ^ -1074`, and the two ways in which
  the library computes it: `Residue.ofInt_eq_ofUnits` and `Residue.ofFloat_eq_ofUnits`.
* `Number.keyHash_eq_of_digits` — numbers with the same digits have the same hash.
-/

set_option autoImplicit false

namespace ValueHeap
namespace Residue

/-! ## Powers of two -/

theorem two_pow_61 : (2 : ZMod modulus) ^ 61 = 1 := by
  have h : ((modulus + 1 : Nat) : ZMod modulus) = 1 := by
    rw [Nat.cast_add, ZMod.natCast_self, Nat.cast_one, zero_add]
  rw [← h, show modulus + 1 = 2 ^ 61 from rfl, Nat.cast_pow, Nat.cast_ofNat]

/-- Two, with its inverse. -/
def two : (ZMod modulus)ˣ where
  val := 2
  inv := 2 ^ 60
  val_inv := by rw [← pow_succ', two_pow_61]
  inv_val := by rw [← pow_succ, two_pow_61]

/-- The powers of two modulo `2 ^ 61 - 1`. -/
def power (e : Int) : ZMod modulus := ((two ^ e : (ZMod modulus)ˣ) : ZMod modulus)

theorem power_add (e f : Int) : power (e + f) = power e * power f := by
  rw [power, zpow_add, Units.val_mul, power, power]

theorem power_natCast (n : Nat) : power n = 2 ^ n := by
  rw [power, zpow_natCast, Units.val_pow_eq_pow_val, two]

theorem power_zero : power 0 = 1 := by
  rw [power, zpow_zero, Units.val_one]

theorem power_neg_mul (e : Int) : power (-e) * power e = 1 := by
  rw [← power_add, neg_add_cancel, power_zero]

/-- Only the exponent modulo 61 matters. -/
theorem power_emod (e : Int) : 2 ^ (e % 61).toNat = power e := by
  have hnonneg : 0 ≤ e % 61 := Int.emod_nonneg e (by decide)
  have hperiod : power (61 * (e / 61)) = 1 := by
    have : two ^ (61 : Int) = 1 := by
      rw [show (61 : Int) = ((61 : Nat) : Int) from rfl, zpow_natCast]
      exact Units.ext (by rw [Units.val_pow_eq_pow_val, two, Units.val_one]; exact two_pow_61)
    rw [power, zpow_mul, this, one_zpow, Units.val_one]
  rw [← power_natCast, Int.toNat_of_nonneg hnonneg]
  calc power (e % 61) = power (61 * (e / 61)) * power (e % 61) := by rw [hperiod, one_mul]
    _ = power e := by rw [← power_add, Int.mul_ediv_add_emod]

/-! ## Rotating and folding -/

/-- A rotation takes away a multiple of the modulus. -/
theorem rotate_add (acc : Nat) {k : Nat} (hk : k ≤ 61) :
    rotate acc k + acc / 2 ^ (61 - k) * modulus = acc * 2 ^ k := by
  have hpow : (2 : Nat) ^ (61 - k) * 2 ^ k = 2 ^ 61 := by
    rw [← Nat.pow_add, Nat.sub_add_cancel hk]
  have hdiv : acc * 2 ^ k / 2 ^ 61 = acc / 2 ^ (61 - k) := by
    rw [← hpow, Nat.mul_div_mul_right _ _ (Nat.two_pow_pos k)]
  have hsplit := Nat.div_add_mod (acc * 2 ^ k) (2 ^ 61)
  rw [rotate, Nat.shiftLeft_eq, Nat.shiftRight_eq_div_pow,
    show (0x2000000000000000 : Nat) = 2 ^ 61 from rfl]
  rw [hdiv] at hsplit
  have hmod : acc / 2 ^ (61 - k) * modulus + acc / 2 ^ (61 - k)
      = 2 ^ 61 * (acc / 2 ^ (61 - k)) := by
    rw [← Nat.mul_succ, Nat.mul_comm, show modulus.succ = 2 ^ 61 from rfl]
  omega

theorem rotate_eq (acc : Nat) {k : Nat} (hk : k ≤ 61) :
    (rotate acc k : ZMod modulus) = acc * 2 ^ k := by
  have h := congrArg (Nat.cast (R := ZMod modulus)) (rotate_add acc hk)
  simpa using h

theorem rotate_lt {acc k : Nat} (hacc : acc < modulus) (hk : k ≤ 61) :
    rotate acc k < modulus := by
  have hpow : (2 : Nat) ^ (61 - k) * 2 ^ k = 2 ^ 61 := by
    rw [← Nat.pow_add, Nat.sub_add_cancel hk]
  have hlow : acc % 2 ^ (61 - k) < 2 ^ (61 - k) := Nat.mod_lt _ (Nat.two_pow_pos _)
  have hsplit := Nat.div_add_mod acc (2 ^ (61 - k))
  have hrot : rotate acc k = acc % 2 ^ (61 - k) * 2 ^ k + acc / 2 ^ (61 - k) := by
    rw [rotate, Nat.shiftLeft_eq, Nat.shiftRight_eq_div_pow,
      show (0x2000000000000000 : Nat) = 2 ^ 61 from rfl, ← hpow, Nat.mul_mod_mul_right]
  have hhigh : acc / 2 ^ (61 - k) < 2 ^ k := by
    rw [Nat.div_lt_iff_lt_mul (Nat.two_pow_pos _), Nat.mul_comm, hpow]
    exact Nat.lt_of_lt_of_le hacc (by decide)
  have hm : modulus + 1 = 2 ^ (61 - k) * 2 ^ k := by rw [hpow]; rfl
  generalize acc / 2 ^ (61 - k) = q at *
  generalize acc % 2 ^ (61 - k) = r at *
  generalize 2 ^ (61 - k) = a at *
  generalize 2 ^ k = b at *
  -- both parts at their largest would make the word of all ones, which `acc` is not
  rcases Nat.lt_or_ge (r + 1) a with hr | hr
  · have : (r + 2) * b ≤ a * b := Nat.mul_le_mul_right b hr
    rw [Nat.add_mul] at this
    omega
  · have hra : a = r + 1 := by omega
    subst hra
    rcases Nat.lt_or_ge (q + 1) b with hq | hq
    · rw [Nat.add_mul, Nat.one_mul] at hm
      omega
    · have hqb : b = q + 1 := by omega
      subst hqb
      rw [Nat.mul_succ] at hm
      omega

theorem absorb_lt {acc chunk : Nat} (hacc : acc < modulus) (hchunk : chunk < 2 ^ 28) :
    absorb acc chunk < modulus := by
  have := rotate_lt hacc (show 28 ≤ 61 by decide)
  have : (2 : Nat) ^ 28 ≤ modulus := by decide
  simp only [absorb]
  split <;> omega

theorem absorb_eq (acc chunk : Nat) :
    (absorb acc chunk : ZMod modulus) = acc * 2 ^ 28 + chunk := by
  have hrot := rotate_eq acc (show 28 ≤ 61 by decide)
  simp only [absorb]
  split
  · next h =>
    rw [Nat.cast_sub h, ZMod.natCast_self, sub_zero, Nat.cast_add, hrot]
  · rw [Nat.cast_add, hrot]

/-- The chunk that a step takes in has 28 bits. -/
theorem chunk_lt {w m : Nat} (hm : m < 2 ^ w) : m <<< 28 >>> w < 2 ^ 28 := by
  rw [Nat.shiftLeft_eq, Nat.shiftRight_eq_div_pow, Nat.div_lt_iff_lt_mul (Nat.two_pow_pos w),
    Nat.mul_comm]
  exact Nat.mul_lt_mul_of_pos_left hm (Nat.two_pow_pos 28)

/-- What is left is a fraction again. -/
theorem rest_lt (w m : Nat) : m % 1 <<< (w - 28) < 2 ^ (w - 28) := by
  rw [Nat.one_shiftLeft]
  exact Nat.mod_lt _ (Nat.two_pow_pos _)

/-- The chunk and what is left are together the fraction times `2 ^ 28`, all of it over `2 ^ w`. -/
theorem chunk_split (w m : Nat) :
    m <<< 28 >>> w * 2 ^ w + m % 1 <<< (w - 28) * 2 ^ (w - (w - 28)) = m * 2 ^ 28 := by
  rw [Nat.shiftLeft_eq, Nat.shiftRight_eq_div_pow, Nat.one_shiftLeft]
  rcases Nat.le_total 28 w with hw | hw
  · obtain ⟨v, rfl⟩ : ∃ v, w = v + 28 := ⟨w - 28, by omega⟩
    rw [Nat.add_sub_cancel, Nat.add_sub_cancel_left, Nat.pow_add,
      Nat.mul_div_mul_right _ _ (Nat.two_pow_pos 28), ← Nat.mul_assoc, ← Nat.add_mul,
      Nat.mul_comm (m / 2 ^ v), Nat.div_add_mod]
  · rw [Nat.sub_eq_zero_of_le hw, Nat.pow_zero, Nat.mod_one, Nat.zero_mul, Nat.add_zero]
    exact Nat.div_mul_cancel ((Nat.pow_dvd_pow 2 hw).mul_left m)

/-- The same of numbers modulo `2 ^ 61 - 1`. -/
theorem chunk_cast (w m : Nat) :
    ((m <<< 28 >>> w : Nat) : ZMod modulus)
        + (m % 1 <<< (w - 28) : Nat) * power (-((w - 28 : Nat) : Int))
      = m * power (-(w : Int)) * 2 ^ 28 := by
  have hsplit := congrArg (Nat.cast (R := ZMod modulus)) (chunk_split w m)
  simp only [Nat.cast_add, Nat.cast_mul, Nat.cast_pow, Nat.cast_ofNat] at hsplit
  have hchunk : (2 : ZMod modulus) ^ w * power (-w) = 1 := by
    rw [← power_natCast, mul_comm, power_neg_mul]
  have hrest : (2 : ZMod modulus) ^ (w - (w - 28)) * power (-w) =
      power (-((w - 28 : Nat) : Int)) := by
    rw [← power_natCast, ← power_add]
    congr 1
    omega
  calc ((m <<< 28 >>> w : Nat) : ZMod modulus)
        + (m % 1 <<< (w - 28) : Nat) * power (-((w - 28 : Nat) : Int))
      = ((m <<< 28 >>> w : Nat) * (2 : ZMod modulus) ^ w
          + (m % 1 <<< (w - 28) : Nat) * 2 ^ (w - (w - 28))) * power (-w) := by
        rw [add_mul, mul_assoc, mul_assoc, hrest, hchunk, mul_one]
    _ = m * power (-(w : Int)) * 2 ^ 28 := by rw [hsplit, mul_right_comm]

/-- **The fold keeps the number under way**, which is `(acc + m / 2 ^ w) * 2 ^ e`. -/
theorem fold_spec {acc : Nat} {e : Int} {w m : Nat} (hacc : acc < modulus) (hm : m < 2 ^ w) :
    (fold acc e w m).1 < modulus ∧
      ((fold acc e w m).1 : ZMod modulus) * power (fold acc e w m).2
        = (acc + m * power (-(w : Int))) * power e := by
  induction acc, e, w, m using fold.induct with
  | case1 acc e w =>
    rw [fold, if_pos rfl]
    refine ⟨hacc, ?_⟩
    rw [Nat.cast_zero, zero_mul, add_zero]
  | case2 acc e w m hne ih =>
    rw [fold, if_neg hne]
    obtain ⟨hlt, hval⟩ := ih (absorb_lt hacc (chunk_lt hm)) (rest_lt w m)
    refine ⟨hlt, ?_⟩
    have hexp : power e = 2 ^ 28 * power (e - 28) := by
      rw [← power_natCast, ← power_add]
      congr 1
      omega
    rw [hval, absorb_eq, add_assoc, chunk_cast, hexp]
    ring

/-- The residue of `m * 2 ^ e`. -/
theorem scaled_spec (m : Nat) (e : Int) :
    scaled m e < modulus ∧ (scaled m e : ZMod modulus) = m * power e := by
  have hzero : 0 < modulus := by decide
  obtain ⟨hlt, hval⟩ := fold_spec (e := e + (Nat.log2 m + 1 : Nat)) hzero
    (Nat.lt_log2_self (n := m))
  rw [scaled]
  simp only
  generalize fold 0 (e + (Nat.log2 m + 1 : Nat)) (Nat.log2 m + 1) m = r at hlt hval
  obtain ⟨acc, rest⟩ := r
  have hshift : (rest % 61).toNat ≤ 61 := by omega
  refine ⟨rotate_lt hlt hshift, ?_⟩
  rw [rotate_eq acc hshift, power_emod, hval, Nat.cast_zero, zero_add, mul_assoc, ← power_add]
  congr 2
  omega

/-! ## The residue of a number of units -/

/-- The residue of a number of units, under its sign. -/
def ofUnits (u : Int) : Int :=
  let m := ((u.natAbs : ZMod modulus) * power (-(Binary64.unitBits : Int))).val
  if u < 0 then -(m : Int) else m

theorem val_eq_of_lt {r : Nat} {z : ZMod modulus} (hr : r < modulus)
    (h : (r : ZMod modulus) = z) : z.val = r := by
  rw [← h, ZMod.val_natCast, Nat.mod_eq_of_lt hr]

theorem ofInt_eq_ofUnits (n : Int) : ofInt n = ofUnits (n * Binary64.unitsPerOne) := by
  have hpos := Binary64.unitsPerOne_pos
  have hneg : n * (Binary64.unitsPerOne : Int) < 0 ↔ n < 0 := by
    have hk : (0 : Int) < Binary64.unitsPerOne := by exact_mod_cast hpos
    constructor
    · intro h
      by_contra hn
      have := Int.mul_nonneg (Int.not_lt.1 hn) (Int.le_of_lt hk)
      omega
    · exact fun h => Int.mul_neg_of_neg_of_pos h hk
  have hval : (((n * (Binary64.unitsPerOne : Int)).natAbs : ZMod modulus)
      * power (-(Binary64.unitBits : Int))).val = n.natAbs % modulus := by
    refine val_eq_of_lt (Nat.mod_lt _ (by decide)) ?_
    rw [ZMod.natCast_mod, Int.natAbs_mul, Int.natAbs_natCast, Nat.cast_mul,
      Binary64.unitsPerOne, Nat.cast_pow, Nat.cast_ofNat, ← power_natCast, mul_assoc,
      ← power_add, add_neg_cancel, power_zero, mul_one]
  rw [ofInt, ofUnits, hval]
  simp only [hneg]

end Residue

namespace Binary64

theorem toNat_bits_abs (x : Binary64) : x.abs.bits.toNat = x.bits.toNat % 0x8000000000000000 := by
  rw [abs, UInt64.toNat_and]
  exact Nat.and_two_pow_sub_one_eq_mod _ 63

theorem isNegative_abs (x : Binary64) : x.abs.isNegative = false := by
  rw [isNegative, toNat_bits_abs]
  simp only [decide_eq_false_iff_not]
  omega

theorem field_abs (x : Binary64) : x.abs.field = x.field := by
  rw [field_eq, field_eq x, toNat_bits_abs, Nat.mod_mod]

theorem fraction_abs (x : Binary64) : x.abs.fraction = x.fraction := by
  rw [fraction_eq, fraction_eq x, toNat_bits_abs, Nat.mod_mod]

theorem significand_abs (x : Binary64) : x.abs.significand = x.significand := by
  rw [significand, significand, field_abs, fraction_abs]

theorem exponent_abs (x : Binary64) : x.abs.exponent = x.exponent := by
  rw [exponent, exponent, field_abs]

theorem isIntegral_abs (x : Binary64) : x.abs.isIntegral = x.isIntegral := by
  rw [isIntegral, isIntegral, exponent_abs, significand_abs]

theorem natAbs_units (x : Binary64) :
    x.units.natAbs = x.significand * 2 ^ (x.field - 1) := by
  simp only [units, signed]
  split
  · rw [Int.natAbs_neg, Int.natAbs_natCast]
  · rw [Int.natAbs_natCast]

theorem units_abs (x : Binary64) : x.abs.units = x.units.natAbs := by
  rw [natAbs_units, units, signed, isNegative_abs, significand_abs, field_abs]
  rfl

/-- An integral float counts its floor in units. -/
theorem units_of_isIntegral {x : Binary64} (h : x.isIntegral = true) :
    x.units = x.floor * unitsPerOne := by
  cases he : x.exponent with
  | ofNat e => exact units_of_ofNat he
  | negSucc e =>
    rw [isIntegral_of_negSucc he, decide_eq_true_iff] at h
    have hk : (0 : Int) < 2 ^ (e + 1) := Int.pow_pos (by decide)
    have hfloor : x.signed x.significand = x.floor * 2 ^ (e + 1) := by
      rw [floor_of_negSucc he, Int.ediv_mul_cancel (Int.dvd_of_emod_eq_zero h)]
    have hunits := units_mul_of_negSucc he
    rw [hfloor, Int.mul_right_comm] at hunits
    exact Int.eq_of_mul_eq_mul_right (Int.ne_of_gt hk) hunits

end Binary64

namespace Residue

open Binary64

/-- Either way of reducing a float's magnitude gives the residue of its units. -/
theorem magnitude_spec (x : Binary64) :
    magnitude x < modulus ∧
      (magnitude x : ZMod modulus) = x.units.natAbs * power (-(unitBits : Int)) := by
  rw [magnitude]
  split
  · next h =>
    simp only [Bool.and_eq_true] at h
    refine ⟨Nat.mod_lt _ (by decide), ?_⟩
    have hunits := units_of_isIntegral ((isIntegral_abs x).trans h.1)
    rw [units_abs] at hunits
    have hnat : x.units.natAbs = x.abs.floor.natAbs * unitsPerOne := by
      have := congrArg Int.natAbs hunits
      rwa [Int.natAbs_natCast, Int.natAbs_mul, Int.natAbs_natCast] at this
    rw [hnat, ZMod.natCast_mod, Nat.cast_mul, unitsPerOne, Nat.cast_pow, Nat.cast_ofNat,
      ← power_natCast, mul_assoc, ← power_add, add_neg_cancel, power_zero, mul_one]
  · obtain ⟨hlt, hval⟩ := scaled_spec x.significand x.exponent
    refine ⟨hlt, ?_⟩
    have hexp : x.exponent = ((x.field - 1 : Nat) : Int) + -(unitBits : Int) := by
      rw [exponent, unitBits]
      split <;> omega
    rw [hval, natAbs_units, Nat.cast_mul, Nat.cast_pow, Nat.cast_ofNat, ← power_natCast,
      mul_assoc, ← power_add, ← hexp]

/-- **The residue of a finite float is that of the number it stands for.** -/
theorem ofFloat_eq_ofUnits {x : Binary64} (hx : x.isFinite = true) :
    ofFloat x = ofUnits x.units := by
  obtain ⟨hlt, hval⟩ := magnitude_spec x
  rw [ofFloat, if_neg (by simp [isNaN_eq_false_of_isFinite hx]),
    if_neg (by simp [isInfinite_eq_false_of_isFinite hx]), ofUnits, ← hval,
    val_eq_of_lt hlt rfl]
  have hunits : x.units = x.signed (x.significand * 2 ^ (x.field - 1)) := rfl
  have hzero : x.significand * 2 ^ (x.field - 1) = 0 → magnitude x = 0 := by
    intro h
    rw [natAbs_units, h, Nat.cast_zero, zero_mul] at hval
    rw [← val_eq_of_lt hlt hval, ZMod.val_zero]
  generalize x.significand * 2 ^ (x.field - 1) = m at hunits hzero
  -- the sign of a zero is lost in its units, and its residue has none
  rcases Nat.eq_zero_or_pos m with hm | hm
  · rw [hzero hm, signed]
    split <;> split <;> rfl
  · cases hneg : x.isNegative with
    | true =>
      simp only [signed, hneg, ↓reduceIte] at hunits ⊢
      rw [if_pos (by omega)]
    | false =>
      simp only [signed, hneg, Bool.false_eq_true, ↓reduceIte] at hunits ⊢
      rw [if_neg (by omega)]

theorem ofFloat_of_isInfinite {x : Binary64} (hn : x.isNaN = false) (h : x.isInfinite = true) :
    ofFloat x = x.signed 314159 := by
  rw [ofFloat, if_neg (by simp [hn]), if_pos h]

end Residue

/-! ## Hashes of numbers -/

namespace Number

open Binary64 Residue

/-- The residue of a real number. -/
def residue : Number → Int
  | int n => Residue.ofInt n
  | float x => Residue.ofFloat x
  | complex .. => 0

/-- The hash of a number. -/
def keyHash : Number → UInt64
  | int n => KeyHash.ofInt n
  | float x => KeyHash.ofFloat x
  | complex re im => KeyHash.ofComplex re im

/-- The residue of a real number that is not a NaN can be read off its digits. -/
theorem exists_digits_residue {a : Number} (ha : a.isComplex = false) (hn : a.isNaN = false) :
    ∃ c u, a.digits 0 = [c, u] ∧ a.residue = if c = 0 then ofUnits u else c * 314159 := by
  cases a with
  | complex => simp [isComplex] at ha
  | int n =>
    refine ⟨0, n * unitsPerOne, rfl, ?_⟩
    rw [if_pos rfl, residue, ofInt_eq_ofUnits]
  | float x =>
    by_cases hi : x.isInfinite = true
    · refine ⟨x.signed 1, 0, digits_of_isInfinite hn hi, ?_⟩
      rw [residue, ofFloat_of_isInfinite hn hi]
      simp only [signed]
      split <;> rfl
    · have hf := isFinite_of_not hn (by simpa using hi)
      refine ⟨0, x.units, digits_of_isFinite hf, ?_⟩
      rw [if_pos rfl, residue, ofFloat_eq_ofUnits hf]

theorem residue_eq_of_digits {a b : Number} (ha : a.isComplex = false) (hb : b.isComplex = false)
    (h : a.digits 0 = b.digits 0) : a.residue = b.residue := by
  cases hn : a.isNaN with
  | false =>
    obtain ⟨c, u, hcu, hres⟩ := exists_digits_residue ha hn
    obtain ⟨d, v, hdv, hres'⟩ := exists_digits_residue hb (isNaN_eq_of_digits h ▸ hn)
    rw [hcu, hdv] at h
    simp only [List.cons.injEq, and_true] at h
    rw [hres, hres', h.1, h.2]
  | true => rw [(eq_of_digits_of_isNaN hn h).1]

theorem keyHash_eq (a : Number) :
    a.keyHash = KeyHash.sealed
      (UInt64.ofInt a.re.residue + 1000003 * UInt64.ofInt (Residue.ofFloat a.im)) := by
  have hzero (word : UInt64) : word + 1000003 * UInt64.ofInt (Residue.ofFloat .zero) = word := by
    have : UInt64.ofInt (Residue.ofFloat Binary64.zero) = 0 := rfl
    rw [this, UInt64.mul_zero, UInt64.add_zero]
  cases a with
  | int n => exact congrArg KeyHash.sealed (hzero _).symm
  | float x => exact congrArg KeyHash.sealed (hzero _).symm
  | complex x y => rfl

/-- **Numbers with the same digits have the same hash.** -/
theorem keyHash_eq_of_digits {a b : Number} {s t : Nat} (h : a.digits s = b.digits t) :
    a.keyHash = b.keyHash := by
  cases hn : a.isNaN with
  | false =>
    have hparts := (digits_eq_iff_parts s t hn (isNaN_eq_of_digits h ▸ hn)).1 h
    have him : Residue.ofFloat a.im = Residue.ofFloat b.im :=
      residue_eq_of_digits (a := .float a.im) (b := .float b.im) rfl rfl hparts.1
    rw [keyHash_eq, keyHash_eq, him,
      residue_eq_of_digits (isComplex_re a) (isComplex_re b) hparts.2]
  | true => rw [(eq_of_digits_of_isNaN hn h).1]

end Number

end ValueHeap
