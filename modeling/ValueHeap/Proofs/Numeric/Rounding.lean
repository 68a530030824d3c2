import Mathlib.Data.Int.ConditionallyCompleteOrder
import Mathlib.Tactic.Linarith
import ValueHeap.Proofs.Numeric.Exact

/-!
# Numbers that round to a float

A decimal is read as the float that is nearest to it, and half way between two floats as the one
with an even significand.  So the numbers that are read as one float are those between the middles
towards its two neighbours; the middles themselves belong to it if its significand is even.

All finite floats stand in a row, whatever their signs, and neighbours in the row have significands
of which one is even and the other is odd.  Behind the greatest float the row is continued by a
power of two that is no float any more: from half way to it on, numbers round to an infinity.

## What is here

* `Binary64.RoundsTo` — the numbers that are read as a float.
* `Binary64.ratAt` — the number at a place of the row.
* `Binary64.roundsTo_iff` — **they are those between the middles**.
* `Binary64.RoundsTo.place_eq` — no number is read as two floats.
-/

set_option autoImplicit false

namespace ValueHeap

/-! ## Nearer of two numbers -/

section Half

variable {a b q : ℚ}

/-- The greater of two numbers is the nearer one from the middle on. -/
theorem abs_sub_le_iff_half_le (hab : a < b) : |b - q| ≤ |a - q| ↔ (a + b) / 2 ≤ q := by
  rw [← sq_le_sq]
  constructor <;> intro h <;> nlinarith

theorem abs_sub_lt_iff_half_lt (hab : a < b) : |b - q| < |a - q| ↔ (a + b) / 2 < q := by
  rw [← sq_lt_sq]
  constructor <;> intro h <;> nlinarith

/-- The smaller one is the nearer one up to there. -/
theorem abs_sub_le_iff_le_half (hab : a < b) : |a - q| ≤ |b - q| ↔ q ≤ (a + b) / 2 := by
  rw [← not_lt, abs_sub_lt_iff_half_lt hab, not_lt]

end Half

namespace Binary64

/-- Half way from the greatest float to the power of two behind it.  From there on numbers round
to an infinity. -/
def roundingBound : ℚ := (2 ^ 54 - 1) * 2 ^ 970

/-- The number is read as this float: no float is nearer, and if another one is as near, then the
significand of this one is even. -/
structure RoundsTo (q : ℚ) (x : Binary64) : Prop where
  isFinite : x.isFinite = true
  bounded : |q| < roundingBound
  nearest : ∀ y : Binary64, y.isFinite = true → |x.toRat - q| ≤ |y.toRat - q|
  even : ∀ y : Binary64, y.isFinite = true → y.toRat ≠ x.toRat →
    |y.toRat - q| = |x.toRat - q| → x.significand % 2 = 0

/-! ## Floats in a row -/

/-- The number at a place among all floats. -/
def ratAt (z : Int) : ℚ := (unitsAt z : ℚ) / (unitsPerOne : ℚ)

/-- The place of the greatest float. -/
def lastPlace : Int := 0x7fefffffffffffff

variable {x y : Binary64} {q : ℚ}

theorem toRat_eq_ratAt (x : Binary64) : x.toRat = ratAt x.place := by
  rw [toRat_eq, units_eq_unitsAt, ratAt]

theorem ratAt_strictMono : StrictMono ratAt := by
  intro a b hab
  have hpos : (0 : ℚ) < unitsPerOne := by exact_mod_cast unitsPerOne_pos
  exact div_lt_div_of_pos_right (by exact_mod_cast unitsAt_lt_unitsAt hab) hpos

theorem ratAt_neg (z : Int) : ratAt (-z) = -ratAt z := by
  have hzero : magnitudeUnits 0 = 0 := rfl
  have hunits : unitsAt (-z) = -unitsAt z := by
    rw [unitsAt, unitsAt, Int.natAbs_neg]
    rcases lt_trichotomy z 0 with hz | rfl | hz
    · rw [if_neg (by omega), if_pos hz, neg_neg]
    · rw [Int.natAbs_zero, hzero]
      rfl
    · rw [if_pos (by omega), if_neg (by omega)]
  rw [ratAt, ratAt, hunits, Int.cast_neg, neg_div]

/-- The number at the place with this exponent and these digits below the leading one. -/
theorem ratAt_binade {e m : Nat} (hm : m < 0x10000000000000) :
    ratAt ((e + 1) * 0x10000000000000 + m : Nat) =
      (0x10000000000000 + m) * 2 ^ e / 2 ^ unitBits := by
  have hunits : unitsAt ((e + 1) * 0x10000000000000 + m : Nat) =
      ((0x10000000000000 + m) * 2 ^ e : Nat) := by
    rw [unitsAt, if_neg (by omega), Int.natAbs_natCast, magnitudeUnits_binade hm]
  rw [ratAt, hunits, unitsPerOne]
  push_cast
  rfl

/-- The bound is half way from the last float to the next place. -/
theorem roundingBound_eq : roundingBound = (ratAt lastPlace + ratAt (lastPlace + 1)) / 2 := by
  have hlast := ratAt_binade (e := 2045) (m := 0xfffffffffffff) (by decide)
  have hnext := ratAt_binade (e := 2046) (m := 0) (by decide)
  have hscale : (2 : ℚ) ^ 2045 / 2 ^ unitBits = 2 ^ 971 := by
    rw [show 2045 = 971 + unitBits by rfl, pow_add, mul_div_cancel_right₀ _ (by positivity)]
  rw [pow_succ, mul_comm _ (2 : ℚ), ← mul_assoc, mul_div_assoc, hscale] at hnext
  rw [mul_div_assoc, hscale] at hlast
  refine Eq.trans ?_ (congrArg (· / 2) (congrArg₂ (· + ·) hlast hnext)).symm
  rw [roundingBound, pow_succ (2 : ℚ) 970]
  generalize (2 : ℚ) ^ 970 = k
  push_cast
  ring

theorem place_le_lastPlace (hx : x.isFinite = true) :
    -lastPlace ≤ x.place ∧ x.place ≤ lastPlace := by
  have := place_bounds_of_isFinite hx
  rw [lastPlace]
  omega

/-- There is a float at every place up to the last one. -/
theorem exists_of_place {z : Int} (hlow : -lastPlace ≤ z) (hhigh : z ≤ lastPlace) :
    ∃ y : Binary64, y.isFinite = true ∧ y.place = z := by
  rw [lastPlace] at hlow hhigh
  have hword (n : Nat) (hn : n < 0x10000000000000000) : ∃ y : Binary64, y.bits.toNat = n :=
    ⟨⟨UInt64.ofNat n⟩, by rw [UInt64.toNat_ofNat', Nat.mod_eq_of_lt hn]⟩
  obtain ⟨y, hy⟩ := hword ((if z < 0 then 0x8000000000000000 else 0) + z.natAbs)
    (by split <;> omega)
  have hsign : y.isNegative = decide (z < 0) := by
    rw [isNegative, hy, decide_eq_decide]
    split <;> omega
  refine ⟨y, ?_, ?_⟩
  · simp only [isFinite, field, hy, bne_iff_ne]
    split <;> omega
  · simp only [place, signed, hsign, decide_eq_true_eq, hy]
    split <;> omega

/-- Neighbours have significands of which one is even. -/
theorem significand_mod_two (x : Binary64) : (x.significand : Int) % 2 = x.place % 2 := by
  have hfraction := fraction_eq x
  rw [significand, place, signed]
  split <;> split <;> omega

/-- A float is told by its sign and its place. -/
theorem eq_of_place (hsign : x.isNegative = y.isNegative) (hplace : x.place = y.place) : x = y := by
  have hx := x.bits.toNat_lt
  have hy := y.bits.toNat_lt
  have hbits : x.bits.toNat = y.bits.toNat := by
    simp only [place, signed, ← hsign] at hplace
    simp only [isNegative, decide_eq_decide] at hsign
    split at hplace <;> omega
  cases x
  cases y
  exact congrArg _ (UInt64.toNat_inj.1 hbits)

/-! ## Between the middles -/

/-- The middle between the float at a place and the one before. -/
def middle (z : Int) : ℚ := (ratAt (z - 1) + ratAt z) / 2

theorem middle_strictMono : StrictMono middle := by
  intro a b hab
  have hlow := ratAt_strictMono (show a - 1 < b - 1 by omega)
  have hhigh := ratAt_strictMono hab
  rw [middle, middle]
  linarith

theorem roundingBound_eq_middle : roundingBound = middle (lastPlace + 1) := by
  rw [roundingBound_eq, middle, add_sub_cancel_right]

theorem neg_roundingBound_eq_middle : -roundingBound = middle (-lastPlace) := by
  rw [roundingBound_eq, middle, ratAt_neg, show -lastPlace - 1 = -(lastPlace + 1) by rfl, ratAt_neg]
  ring

/-- What is read as a float is not below the middle towards the one before. -/
theorem RoundsTo.middle_le (hq : RoundsTo q x) :
    middle x.place ≤ q ∧ (q = middle x.place → x.significand % 2 = 0) := by
  obtain ⟨hlow, hhigh⟩ := place_le_lastPlace hq.isFinite
  rcases Int.lt_or_eq_of_le hlow with hlow | hlow
  · obtain ⟨y, hy, hplace⟩ := exists_of_place (z := x.place - 1) (by omega) (by omega)
    have hlt : ratAt (x.place - 1) < ratAt x.place := ratAt_strictMono (by omega)
    have hnearest := hq.nearest y hy
    have heven := hq.even y hy
    rw [toRat_eq_ratAt, toRat_eq_ratAt, hplace] at hnearest heven
    refine ⟨(abs_sub_le_iff_half_le hlt).1 hnearest, fun heq => heven hlt.ne ?_⟩
    exact le_antisymm ((abs_sub_le_iff_le_half hlt).2 heq.le) hnearest
  · have hbound := (abs_lt.1 hq.bounded).1
    rw [neg_roundingBound_eq_middle, hlow] at hbound
    exact ⟨hbound.le, fun heq => absurd heq hbound.ne'⟩

/-- Nor is it above the middle towards the next one. -/
theorem RoundsTo.le_middle (hq : RoundsTo q x) :
    q ≤ middle (x.place + 1) ∧ (q = middle (x.place + 1) → x.significand % 2 = 0) := by
  obtain ⟨hlow, hhigh⟩ := place_le_lastPlace hq.isFinite
  rcases Int.lt_or_eq_of_le hhigh with hhigh | hhigh
  · obtain ⟨y, hy, hplace⟩ := exists_of_place (z := x.place + 1) (by omega) (by omega)
    have hlt : ratAt x.place < ratAt (x.place + 1) := ratAt_strictMono (by omega)
    have hnearest := hq.nearest y hy
    have heven := hq.even y hy
    rw [toRat_eq_ratAt, toRat_eq_ratAt, hplace] at hnearest heven
    rw [middle, add_sub_cancel_right]
    refine ⟨(abs_sub_le_iff_le_half hlt).1 hnearest, fun heq => heven hlt.ne' ?_⟩
    exact le_antisymm ((abs_sub_le_iff_half_le hlt).2 heq.ge) hnearest
  · have hbound := (abs_lt.1 hq.bounded).2
    rw [roundingBound_eq_middle, ← hhigh] at hbound
    exact ⟨hbound.le, fun heq => absurd heq hbound.ne⟩

/-- What is strictly between the middles is read as the float, and so are the middles if the
significand is even. -/
theorem roundsTo_of_middle (hx : x.isFinite = true) (hlow : middle x.place ≤ q)
    (hhigh : q ≤ middle (x.place + 1))
    (heven : q = middle x.place ∨ q = middle (x.place + 1) → x.significand % 2 = 0) :
    RoundsTo q x := by
  obtain ⟨hfirst, hlast⟩ := place_le_lastPlace hx
  -- the end places are odd, so the row goes on behind an even one
  have hends : x.significand % 2 = 0 → -lastPlace < x.place ∧ x.place < lastPlace := fun h => by
    have := significand_mod_two x
    have : lastPlace % 2 = 1 := rfl
    omega
  have hbelow {w : Int} (hw : w < x.place) : (ratAt w + ratAt x.place) / 2 ≤ middle x.place := by
    have := ratAt_strictMono.monotone (show w ≤ x.place - 1 by omega)
    rw [middle]
    linarith
  have habove {w : Int} (hw : x.place < w) :
      middle (x.place + 1) ≤ (ratAt x.place + ratAt w) / 2 := by
    have := ratAt_strictMono.monotone (show x.place + 1 ≤ w by omega)
    rw [middle, add_sub_cancel_right]
    linarith
  refine ⟨hx, abs_lt.2 ⟨?_, ?_⟩, fun y hy => ?_, fun y hy hne htie => ?_⟩
  · rw [neg_roundingBound_eq_middle]
    refine lt_of_le_of_ne ((middle_strictMono.monotone hfirst).trans hlow) fun heq => ?_
    have hq : q = middle x.place :=
      le_antisymm (heq ▸ middle_strictMono.monotone hfirst) hlow
    exact absurd (middle_strictMono.injective (heq.trans hq)) (hends (heven (.inl hq))).1.ne
  · rw [roundingBound_eq_middle]
    have hle := middle_strictMono.monotone (show x.place + 1 ≤ lastPlace + 1 by omega)
    refine lt_of_le_of_ne (hhigh.trans hle) fun heq => ?_
    have hq : q = middle (x.place + 1) := le_antisymm hhigh (heq ▸ hle)
    have hplace := middle_strictMono.injective (hq.symm.trans heq)
    have := (hends (heven (.inr hq))).2
    omega
  · rw [toRat_eq_ratAt, toRat_eq_ratAt]
    rcases lt_trichotomy y.place x.place with hw | hw | hw
    · exact (abs_sub_le_iff_half_le (ratAt_strictMono hw)).2 ((hbelow hw).trans hlow)
    · rw [hw]
    · exact (abs_sub_le_iff_le_half (ratAt_strictMono hw)).2 (hhigh.trans (habove hw))
  · rw [toRat_eq_ratAt, toRat_eq_ratAt] at hne htie
    rcases lt_trichotomy y.place x.place with hw | hw | hw
    · have hq := (abs_sub_le_iff_le_half (ratAt_strictMono hw)).1 htie.le
      exact heven (.inl (le_antisymm (hq.trans (hbelow hw)) hlow))
    · exact absurd (congrArg ratAt hw) hne
    · have hq := (abs_sub_le_iff_half_le (ratAt_strictMono hw)).1 htie.le
      exact heven (.inr (le_antisymm hhigh ((habove hw).trans hq)))

/-- **The numbers that are read as a float are those between the middles** towards its neighbours,
and the middles themselves if its significand is even. -/
theorem roundsTo_iff (hx : x.isFinite = true) :
    RoundsTo q x ↔ middle x.place ≤ q ∧ q ≤ middle (x.place + 1) ∧
      (q = middle x.place ∨ q = middle (x.place + 1) → x.significand % 2 = 0) :=
  ⟨fun hq => ⟨hq.middle_le.1, hq.le_middle.1, fun h => h.elim hq.middle_le.2 hq.le_middle.2⟩,
    fun h => roundsTo_of_middle hx h.1 h.2.1 h.2.2⟩

/-- A finite float is read as itself. -/
theorem roundsTo_toRat (hx : x.isFinite = true) : RoundsTo x.toRat x := by
  have hbelow := ratAt_strictMono (show x.place - 1 < x.place by omega)
  have habove := ratAt_strictMono (show x.place < x.place + 1 by omega)
  have hlow : middle x.place < ratAt x.place := by
    rw [middle]
    linarith
  have hhigh : ratAt x.place < middle (x.place + 1) := by
    rw [middle, add_sub_cancel_right]
    linarith
  rw [toRat_eq_ratAt]
  exact (roundsTo_iff hx).2 ⟨hlow.le, hhigh.le, fun h => h.elim (absurd · hlow.ne')
    (absurd · hhigh.ne)⟩

/-- What is between two numbers that are read as a float is read as it. -/
theorem RoundsTo.between {a b : ℚ} (ha : RoundsTo a x) (hb : RoundsTo b x) (haq : a ≤ q)
    (hqb : q ≤ b) : RoundsTo q x :=
  (roundsTo_iff ha.isFinite).2 ⟨ha.middle_le.1.trans haq, hqb.trans hb.le_middle.1, fun h => by
    rcases h with h | h
    · exact ha.middle_le.2 (le_antisymm (haq.trans h.le) ha.middle_le.1)
    · exact hb.le_middle.2 (le_antisymm hb.le_middle.1 (h.ge.trans hqb))⟩

/-- **No number is read as floats at two places.** -/
theorem RoundsTo.place_eq (hx : RoundsTo q x) (hy : RoundsTo q y) : x.place = y.place := by
  wlog hlt : x.place < y.place generalizing x y
  · rcases lt_trichotomy x.place y.place with h | h | h
    · exact this hx hy h
    · exact h
    · exact (this hy hx h).symm
  have hmiddles := middle_strictMono.monotone (show x.place + 1 ≤ y.place by omega)
  have hxq : q = middle (x.place + 1) :=
    le_antisymm hx.le_middle.1 (hmiddles.trans hy.middle_le.1)
  have hyq : q = middle y.place := le_antisymm (hx.le_middle.1.trans hmiddles) hy.middle_le.1
  have hnext := middle_strictMono.injective (hxq.symm.trans hyq)
  have hevenx := hx.le_middle.2 hxq
  have heveny := hy.middle_le.2 hyq
  have := significand_mod_two x
  have := significand_mod_two y
  omega

end Binary64

end ValueHeap
