import ValueHeap.Proofs.Numeric.Shortest

/-!
# A float has only one shortest decimal

Two decimals of the same length that are as near to a float are on both sides of it.  If both end
in an odd digit at the same place, then an even one is between them and nearer.  If they have
different sizes, then a power of ten is between them, which has only one digit: it must be the
greater one, and the smaller one is nine times the next lower power.  But no float is half way
between these two.

## What is here

* `Shortest.toRat_ne_midway` — no float is half way between nine and ten times a power of ten.
* `Shortest.not_between` — nothing as short is between two shortest decimals.
* `Shortest.unique` — **there are no two of them**.
-/

set_option autoImplicit false

namespace ValueHeap.Shortest

open Decimal Binary64

variable {x : Binary64} {ds es : List Char} {e f : Int}

/-- No float is half way between nine and ten times a power of ten if nine times it is read as the
float: below one there are no such floats, and above one nothing is read from so far away. -/
theorem toRat_ne_midway (hx : 0 < x.place) (hread : RoundsTo (9 * (10 : ℚ) ^ e) x) :
    x.toRat ≠ 19 / 2 * (10 : ℚ) ^ e := by
  intro hmidway
  rcases lt_or_ge e 0 with he | he
  · -- five divides no power of two
    obtain ⟨d, rfl⟩ := Int.eq_negSucc_of_lt_zero he
    have hunits : 5 * (x.units * 10 ^ d * 4) = 19 * (unitsPerOne : Int) := by
      have hpos : (0 : ℚ) < unitsPerOne := by exact_mod_cast unitsPerOne_pos
      rw [toRat_eq, zpow_negSucc, div_eq_iff hpos.ne', mul_assoc, inv_mul_eq_div, ← mul_div_assoc,
        eq_div_iff (by positivity), pow_succ] at hmidway
      have : 5 * ((x.units : ℚ) * 10 ^ d * 4) = 19 * unitsPerOne := by linarith
      exact_mod_cast this
    have hrest : 19 * (unitsPerOne : Int) % 5 = 1 := by decide +kernel
    omega
  · obtain ⟨hvalue, hlow, -⟩ := quarters_spec hx
    have hone : (1 : ℚ) ≤ (10 : ℚ) ^ e := one_le_zpow₀ (by norm_num) he
    have hquarter : (0 : ℚ) < (2 : ℚ) ^ (x.exponent - 2) := zpow_pos (by norm_num) _
    have hsmall : x.significand ≤ 9 := by
      have hbelow : quartersBelow x ≤ 2 := by
        rw [quartersBelow]
        split <;> decide
      have hle : ((4 * x.significand : Nat) : ℚ) - 2 ≤
          (4 * x.significand - quartersBelow x : Nat) := by
        rw [sub_le_iff_le_add]
        exact_mod_cast (by omega : 4 * x.significand ≤ 4 * x.significand - quartersBelow x + 2)
      have hmiddle := hread.middle_le.1
      rw [hlow] at hmiddle
      have hnear : ((4 * x.significand : Nat) : ℚ) * (2 : ℚ) ^ (x.exponent - 2) -
          2 * (2 : ℚ) ^ (x.exponent - 2) ≤ 9 * (10 : ℚ) ^ e := by
        rw [← sub_mul]
        exact (mul_le_mul_of_nonneg_right hle hquarter.le).trans hmiddle
      have hfew : ((4 * x.significand : Nat) : ℚ) ≤ 38 :=
        le_of_mul_le_mul_right (by linarith) hquarter
      have : 4 * x.significand ≤ 38 := by exact_mod_cast hfew
      omega
    have hfield : x.field = 0 := by
      by_contra h
      rw [significand, if_neg h] at hsmall
      omega
    have htiny : (2 : ℚ) ^ (x.exponent - 2) ≤ (2 : ℚ) ^ (-6 : Int) := by
      refine zpow_le_zpow_right₀ (by norm_num) ?_
      rw [exponent, if_pos hfield]
      decide
    have hfew : ((4 * x.significand : Nat) : ℚ) ≤ 36 := by exact_mod_cast (by omega)
    norm_num at htiny
    nlinarith

section Unique

variable (hds : Binary64.Shortest x ds e) (hes : Binary64.Shortest x es f)
include hds hes

theorem length_eq : ds.length = es.length :=
  le_antisymm (hds.fewest es f hes.significant hes.reads)
    (hes.fewest ds e hds.significant hds.reads)

theorem distance_eq : |value ds e - x.toRat| = |value es f - x.toRat| :=
  le_antisymm (hds.nearest es f hes.significant hes.reads (length_eq hes hds))
    (hes.nearest ds e hds.significant hds.reads (length_eq hds hes))

variable (hlt : value ds e < value es f)
include hlt

/-- A float with two shortest decimals is half way between them. -/
theorem toRat_eq_half : x.toRat = (value ds e + value es f) / 2 := by
  have hdistance := distance_eq hds hes
  exact le_antisymm ((abs_sub_le_iff_le_half hlt).1 hdistance.le)
    ((abs_sub_le_iff_half_le hlt).1 hdistance.ge)

/-- And no decimal with as few digits is between them. -/
theorem not_between {cs : List Char} {g : Int} (hcs : Significant cs)
    (hlength : cs.length ≤ ds.length) (hlow : value ds e < value cs g) :
    value es f ≤ value cs g := by
  by_contra hhigh
  have hhalf := toRat_eq_half hds hes hlt
  have hread := hds.reads.between hes.reads hlow.le (not_le.1 hhigh).le
  have hsame := le_antisymm hlength (hds.fewest cs g hcs hread)
  have hnear := hds.nearest cs g hcs hread hsame
  rw [abs_of_neg (by linarith)] at hnear
  rcases abs_cases (value cs g - x.toRat) with ⟨h, -⟩ | ⟨h, -⟩ <;> rw [h] at hnear <;> linarith

end Unique

theorem value_singleton (c : Char) (e : Int) : value [c] e = whole [c] * (10 : ℚ) ^ e := by
  rw [value, List.length_singleton, Nat.cast_one, add_sub_cancel_right]

/-- Of two shortest decimals neither is the smaller one. -/
theorem not_value_lt (hx : 0 < x.place) (hds : Binary64.Shortest x ds e)
    (hes : Binary64.Shortest x es f) : ¬value ds e < value es f := by
  intro hlt
  have hlength := length_eq hds hes
  have hhalf := toRat_eq_half hds hes hlt
  have hbetween {cs : List Char} {g : Int} (hcs : Significant cs)
      (hshort : cs.length ≤ ds.length) (hlow : value ds e < value cs g) :
      value es f ≤ value cs g := not_between hds hes hlt hcs hshort hlow
  have hpos : 1 ≤ ds.length := List.length_pos_iff.2 hds.significant.ne_nil
  have hdbounds := hds.significant.value_bounds e
  have hebounds := hes.significant.value_bounds f
  have hdistance := distance_eq hds hes
  have hdodd := (hes.even ds e hds.significant hds.reads hlength hdistance).resolve_left
    fun h => by simp [h] at hlt
  have heodd := (hds.even es f hes.significant hes.reads hlength.symm hdistance.symm).resolve_left
    fun h => by simp [h] at hlt
  have hone : value ['1'] f = (10 : ℚ) ^ f ∧ value ['1'] (e + 1) = (10 : ℚ) ^ (e + 1) := by
    rw [value_singleton, value_singleton, show whole ['1'] = 1 from rfl, Nat.cast_one, one_mul,
      one_mul]
    exact ⟨rfl, rfl⟩
  have hsig : Significant ['1'] := ⟨by decide, List.forall_mem_singleton.2 rfl, by decide⟩
  have hef : e ≤ f := by
    have := (zpow_lt_zpow_iff_right₀ (by norm_num)).1 (hdbounds.1.trans_lt (hlt.trans hebounds.2))
    omega
  rcases hef.eq_or_lt with rfl | hef
  · -- two odd numbers have an even one between them
    have hunit : (0 : ℚ) < (10 : ℚ) ^ (e + 1 - ds.length) := zpow_pos (by norm_num) _
    have hwhole : whole ds + 1 < whole es := by
      rw [value, value, ← hlength, mul_lt_mul_iff_left₀ hunit, Nat.cast_lt] at hlt
      omega
    have hnextsig : Significant (Nat.toDigits 10 (whole ds + 1)) :=
      significant_toDigits (Nat.succ_pos _)
    have hnext : (Nat.toDigits 10 (whole ds + 1)).length = ds.length := by
      have hes := whole_lt hes.significant.isDigit
      have hds := hds.significant.le_whole
      have hself := whole_lt hnextsig.isDigit
      rw [whole_toDigits] at hself
      refine le_antisymm ((Nat.length_toDigits_le_iff (by decide) hpos).2 ?_) ?_
      · rw [hlength]
        exact hwhole.trans hes
      · have := (Nat.pow_lt_pow_iff_right (by decide)).1 (hds.trans_lt (Nat.lt_of_succ_lt hself))
        omega
    have hle := hbetween (g := e) hnextsig hnext.le (by
      rw [value, value, hnext, whole_toDigits, mul_lt_mul_iff_left₀ hunit, Nat.cast_lt]
      exact Nat.lt_succ_self _)
    rw [value, value, hnext, whole_toDigits, ← hlength, mul_le_mul_iff_left₀ hunit,
      Nat.cast_le] at hle
    omega
  · -- the powers of ten between them leave nine and ten times one of them
    have hlow : value ds e < (10 : ℚ) ^ f :=
      hdbounds.2.trans_le (zpow_le_zpow_right₀ (by norm_num) hef)
    have hf := hbetween hsig hpos (hone.1 ▸ hlow)
    have hnext := hbetween hsig hpos (hone.2 ▸ hdbounds.2)
    have heq : value es f = (10 : ℚ) ^ f := le_antisymm (hone.1 ▸ hf) hebounds.1
    have hfe : f = e + 1 := by
      have := (zpow_le_zpow_iff_right₀ (by norm_num)).1 (hebounds.1.trans (hnext.trans hone.2.le))
      omega
    have hsingle : ds.length = 1 := by
      have := hes.fewest ['1'] f hsig (by rw [hone.1, ← heq]; exact hes.reads)
      rw [List.length_singleton] at this
      omega
    have hvalue : value ds e = whole ds * (10 : ℚ) ^ e := by
      rw [value, hsingle, Nat.cast_one, add_sub_cancel_right]
    have hunit : (0 : ℚ) < (10 : ℚ) ^ e := zpow_pos (by norm_num) _
    have hten : (10 : ℚ) ^ (e + 1) = 10 * (10 : ℚ) ^ e := by
      rw [zpow_add_one₀ (by norm_num), mul_comm]
    have hnine : whole ds = 9 := by
      have hdigit := whole_lt hds.significant.isDigit
      rw [hsingle] at hdigit
      by_contra hne
      have hlow : value ds e < value ['9'] e := by
        rw [hvalue, value_singleton, mul_lt_mul_iff_left₀ hunit, Nat.cast_lt,
          show whole ['9'] = 9 from rfl]
        omega
      have hshort : ['9'].length ≤ ds.length := hsingle.ge
      have hle := hbetween ⟨by decide, List.forall_mem_singleton.2 rfl, by decide⟩ hshort hlow
      rw [heq, hfe, hten, value_singleton, mul_le_mul_iff_left₀ hunit,
        show whole ['9'] = 9 from rfl] at hle
      norm_num at hle
    rw [hvalue, hnine, heq, hfe, hten] at hhalf
    rw [hnine] at hvalue
    refine toRat_ne_midway hx (e := e) ?_ (by rw [hhalf]; push_cast; ring)
    have := hds.reads
    rwa [hvalue] at this

/-- **A float has only one shortest decimal.** -/
theorem unique (hx : 0 < x.place) (hds : Binary64.Shortest x ds e)
    (hes : Binary64.Shortest x es f) : ds = es ∧ e = f := by
  refine hds.significant.eq_of_value hes.significant (length_eq hds hes) ?_
  exact le_antisymm (not_lt.1 (not_value_lt hx hes hds)) (not_lt.1 (not_value_lt hx hds hes))

/-- Zero has no shortest decimal: the smaller ones of as many digits are nearer to it. -/
theorem significand_ne_zero (h : Binary64.Shortest x ds e) : x.significand ≠ 0 := by
  intro hx
  have hzero : x.toRat = 0 := by
    rw [toRat, hx, signed, Nat.cast_zero, neg_zero, ite_self, Int.cast_zero, zero_mul]
  have hself := roundsTo_toRat h.reads.isFinite
  have hbounds := h.significant.value_bounds e
  have hsmaller := h.significant.value_bounds (e - 1)
  rw [sub_add_cancel] at hsmaller
  have hpos : (0 : ℚ) < (10 : ℚ) ^ (e - 1) := zpow_pos (by norm_num) _
  rw [hzero] at hself
  have hread : RoundsTo (value ds (e - 1)) x :=
    hself.between h.reads (hpos.le.trans hsmaller.1) (hsmaller.2.le.trans hbounds.1)
  have hnearest := h.nearest ds (e - 1) h.significant hread rfl
  rw [hzero, sub_zero, sub_zero, abs_of_pos (by linarith), abs_of_pos (by linarith)] at hnearest
  linarith

end ValueHeap.Shortest
