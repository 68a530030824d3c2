import ValueHeap.Numeric.Shortest
import ValueHeap.Proofs.KeyHash.Residue
import ValueHeap.Proofs.Numeric.Decimal

/-!
# The digits of a float are the shortest that read back

The search for the digits of a float goes down through the powers of ten, and takes a multiple of
the first one that has a multiple among the numbers that are read as the float.  That these are the
fewest digits is a matter of size: a decimal with fewer digits that reads as the same float would
either be a multiple of a greater power of ten itself, or so small that a greater power of ten lies
between it and the multiple that was found.

## What is here

* `Shortest.search_spec` — the search finds the best multiple of the greatest power of ten.
* `Shortest.contains_iff` — the interval of a float has the numbers that are read as it.
* `Shortest.shortest_digits` — **it finds the shortest digits**.
-/

set_option autoImplicit false

namespace ValueHeap

open Decimal Binary64

namespace Shortest

/-! ## The search -/

variable {i : Interval} {k n a b : Nat}

theorem grid_pos (k : Nat) : 0 < grid k := Nat.pow_pos (by decide)

/-- What is between two numbers of the interval is in it. -/
theorem contains_of_between (ha : i.contains a = true) (hb : i.contains b = true) (han : a ≤ n)
    (hnb : n ≤ b) : i.contains n = true := by
  rw [Interval.contains] at *
  split at ha <;> simp_all <;> omega

/-- The distance to the float. -/
def Interval.distance (i : Interval) (n : Nat) : Nat := ((n : Int) - i.value).natAbs

/-- The best multiple of a power of ten in the interval: none is nearer, and any other that is as
near is odd. -/
structure Best (i : Interval) (k n : Nat) : Prop where
  contained : i.contains (n * grid k) = true
  nearest : ∀ c, i.contains (c * grid k) = true →
    i.distance (n * grid k) ≤ i.distance (c * grid k)
  even : ∀ c, i.contains (c * grid k) = true → i.distance (c * grid k) = i.distance (n * grid k) →
    c = n ∨ c % 2 = 1

/-- The two multiples of a power of ten around the float, and those further away. -/
theorem distance_grid (i : Interval) (k c : Nat) :
    let below := i.value / grid k
    let rest := i.value % grid k
    let distance := i.distance (c * grid k)
    (c < below ∧ rest + grid k ≤ distance) ∨ (c = below ∧ distance = rest) ∨
      (c = below + 1 ∧ distance + rest = grid k) ∨
      (below + 1 < c ∧ 2 * grid k ≤ distance + rest) := by
  intro below rest distance
  have hsplit : grid k * below + rest = i.value := Nat.div_add_mod _ _
  have hrest : rest < grid k := Nat.mod_lt i.value (grid_pos k)
  have hdistance : distance = ((c * grid k : Nat) - (i.value : Int)).natAbs := rfl
  rw [mul_comm] at hsplit
  rcases lt_trichotomy c below with hc | hc | hc
  · have := Nat.mul_le_mul_right (grid k) (Nat.succ_le_of_lt hc)
    rw [Nat.succ_mul] at this
    omega
  · rw [← hc] at hsplit
    omega
  · rcases Nat.eq_or_lt_of_le (Nat.succ_le_of_lt hc) with hc | hc
    · have := congrArg (· * grid k) hc
      simp only [Nat.succ_mul] at this
      omega
    · have := Nat.mul_le_mul_right (grid k) (Nat.succ_le_of_lt hc)
      rw [Nat.succ_mul, Nat.succ_mul] at this
      omega

/-- If a multiple is in the interval, then so is the one of the two around the float that is on
its side. -/
theorem contains_around {c : Nat} (hvalue : i.contains i.value = true)
    (hc : i.contains (c * grid k) = true) :
    (c ≤ i.value / grid k → i.contains (i.value / grid k * grid k) = true) ∧
      (i.value / grid k + 1 ≤ c → i.contains ((i.value / grid k + 1) * grid k) = true) := by
  have hsplit := Nat.div_add_mod' i.value (grid k)
  have hrest := Nat.mod_lt i.value (grid_pos k)
  refine ⟨fun h => contains_of_between hc hvalue (Nat.mul_le_mul_right _ h) (by omega),
    fun h => contains_of_between hvalue hc ?_ (Nat.mul_le_mul_right _ h)⟩
  rw [Nat.succ_mul]
  omega

/-- What is taken from the grid is the best on it. -/
theorem onGrid_best (hvalue : i.contains i.value = true) (hn : onGrid i k = some n) :
    Best i k n := by
  have hpos := grid_pos k
  have haround {c : Nat} (hc : i.contains (c * grid k) = true) := contains_around hvalue hc
  have hdistance (c : Nat) := distance_grid i k c
  simp only at hdistance
  have hbest := hdistance n
  rw [onGrid] at hn
  split at hn
  · next hbelow =>
    split at hn
    · next habove =>
      -- both are in the interval: the nearer one is taken, or the even one
      split at hn
      · next hlt =>
        rw [Nat.compare_eq_lt] at hlt
        cases hn
        refine ⟨hbelow, fun c _ => ?_, fun c _ _ => ?_⟩ <;> have := hdistance c <;> omega
      · next hgt =>
        rw [Nat.compare_eq_gt] at hgt
        cases hn
        refine ⟨habove, fun c _ => ?_, fun c _ _ => ?_⟩ <;> have := hdistance c <;> omega
      · next heq =>
        rw [Nat.compare_eq_eq] at heq
        rw [Option.some_inj] at hn
        refine ⟨?_, fun c _ => ?_, fun c _ _ => ?_⟩
        · split at hn <;> subst hn <;> assumption
        · have := hdistance c
          split at hn <;> omega
        · have := hdistance c
          split at hn <;> omega
    · next habove =>
      cases hn
      refine ⟨hbelow, fun c hc => ?_, fun c hc _ => ?_⟩ <;> have := hdistance c <;>
        have := mt (haround hc).2 habove <;> omega
  · next hbelow =>
    split at hn
    · next habove =>
      cases hn
      refine ⟨habove, fun c hc => ?_, fun c hc _ => ?_⟩ <;> have := hdistance c <;>
        have := mt (haround hc).1 hbelow <;> omega
    · cases hn

/-- If nothing is taken, then the interval has no multiple at all. -/
theorem contains_eq_false_of_onGrid (hvalue : i.contains i.value = true) (hn : onGrid i k = none)
    (c : Nat) : i.contains (c * grid k) = false := by
  rw [Bool.eq_false_iff]
  intro hc
  have haround := contains_around hvalue hc
  rw [onGrid] at hn
  split at hn
  · split at hn
    · split at hn <;> cases hn
    · cases hn
  · next hbelow =>
    split at hn
    · cases hn
    · next habove =>
      rcases Nat.lt_or_ge (i.value / grid k) c with h | h
      · exact habove (haround.2 h)
      · exact hbelow (haround.1 h)

/-- The search finds the best multiple of the greatest power of ten that has one in the interval. -/
theorem search_spec (hvalue : i.contains i.value = true) (K : Nat) :
    (search i K).2 ≤ K ∧ Best i (search i K).2 (search i K).1 ∧
      ∀ j, (search i K).2 < j → j ≤ K → ∀ c, i.contains (c * grid j) = false := by
  induction K with
  | zero =>
    have hbest : Best i 0 i.value := by
      have hunit (c : Nat) : c * grid 0 = c := Nat.mul_one c
      refine ⟨by rwa [hunit], fun c _ => ?_, fun c _ htie => Or.inl ?_⟩
      · rw [hunit, Interval.distance, sub_self]
        exact Nat.zero_le _
      · rw [hunit, hunit, Interval.distance, Interval.distance, sub_self] at htie
        omega
    exact ⟨le_rfl, hbest, fun j hj hjk => absurd hjk (Nat.not_le_of_lt hj)⟩
  | succ K ih =>
    rw [search]
    split
    · next n hn =>
      exact ⟨le_rfl, onGrid_best hvalue hn, fun j hj hjk => by omega⟩
    · next hn =>
      refine ⟨ih.1.trans (Nat.le_succ K), ih.2.1, fun j hj hjk => ?_⟩
      rcases Nat.eq_or_lt_of_le hjk with rfl | hjk
      · exact contains_eq_false_of_onGrid hvalue hn
      · exact ih.2.2 j hj (Nat.le_of_lt_succ hjk)

/-! ## The interval of a float -/

variable {x : Binary64}

/-- So many quarters of the last digit of the significand, in units of the interval. -/
def quarters (x : Binary64) (n : Nat) : Nat :=
  match x.exponent - 2 with
  | .ofNat e => n <<< e
  | .negSucc e => n * Nat.pow 5 (e + 1)

/-- How many quarters reach half way to the float below. -/
def quartersBelow (x : Binary64) : Nat :=
  if x.fraction = 0 ∧ 1 < x.field then 1 else 2

/-- The number that so many units of the interval make. -/
def Interval.toRat (i : Interval) (n : Nat) : ℚ := n / 10 ^ i.places

theorem toRat_quarters (x : Binary64) (n : Nat) :
    (intervalOf x).toRat (quarters x n) = n * (2 : ℚ) ^ (x.exponent - 2) := by
  have hplaces : (intervalOf x).places = (-(x.exponent - 2)).toNat := by rw [neg_sub]; rfl
  rw [Interval.toRat, hplaces, quarters]
  cases x.exponent - 2 with
  | ofNat e =>
    have he : (-Int.ofNat e).toNat = 0 := Int.toNat_neg_natCast e
    rw [he, pow_zero, div_one, Int.ofNat_eq_natCast, zpow_natCast]
    change ((n <<< e : Nat) : ℚ) = _
    rw [Nat.shiftLeft_eq]
    push_cast
    rfl
  | negSucc e =>
    have he : (-Int.negSucc e).toNat = e + 1 := rfl
    have hpow : (10 : ℚ) ^ (e + 1) = 2 ^ (e + 1) * 5 ^ (e + 1) := by rw [← mul_pow]; norm_num
    have hcast : ((Nat.pow 5 (e + 1) : Nat) : ℚ) = 5 ^ (e + 1) := Nat.cast_pow 5 (e + 1)
    rw [he, zpow_negSucc, Nat.cast_mul, hcast, hpow, mul_div_mul_right _ _ (by positivity),
      div_eq_mul_inv]

/-- So many quarters, in units of all floats. -/
theorem quarters_eq (x : Binary64) (n : ℚ) :
    n * (2 : ℚ) ^ (x.exponent - 2) = n * 2 ^ (x.field - 1) / 4 / unitsPerOne := by
  rw [exponent_eq, sub_right_comm, zpow_sub₀ two_ne_zero, zpow_sub₀ two_ne_zero, zpow_natCast,
    zpow_natCast, unitsPerOne]
  push_cast
  ring

/-- Half way to the float below are as many quarters. -/
theorem two_mul_magnitudeUnits_pred {b : Nat} (hb : 0 < b)
    (hbits : x.bits.toNat % 0x8000000000000000 = b) :
    2 * magnitudeUnits (b - 1) + quartersBelow x * 2 ^ (x.field - 1) = 2 * magnitudeUnits b := by
  obtain ⟨b, rfl⟩ := Nat.exists_eq_succ_of_ne_zero hb.ne'
  have hfield := field_eq x
  have hfraction := fraction_eq x
  rw [Nat.succ_sub_one, magnitudeUnits_succ, Nat.mul_add, Nat.add_left_cancel_iff, quartersBelow]
  rw [hbits] at hfield hfraction
  split
  · next h =>
    have hdiv : b / 0x10000000000000 - 1 + 1 = x.field - 1 := by omega
    rw [← hdiv, pow_succ']
    omega
  · next h =>
    have hdiv : b / 0x10000000000000 - 1 = x.field - 1 := by omega
    rw [hdiv]

/-- The float, and the middles to its neighbours, in quarters. -/
theorem quarters_spec (hx : 0 < x.place) :
    x.toRat = (4 * x.significand : Nat) * (2 : ℚ) ^ (x.exponent - 2) ∧
    middle x.place = (4 * x.significand - quartersBelow x : Nat) * (2 : ℚ) ^ (x.exponent - 2) ∧
    middle (x.place + 1) = (4 * x.significand + 2 : Nat) * (2 : ℚ) ^ (x.exponent - 2) := by
  obtain ⟨b, hb⟩ : ∃ b, x.bits.toNat % 0x8000000000000000 = b := ⟨_, rfl⟩
  have hunits := significand_mul_pow x
  have hplace : x.place = b := by
    rw [place, signed, hb] at hx ⊢
    split at hx
    · omega
    · rw [if_neg ‹_›]
  have hpos : 0 < b := by omega
  have hat (n : Nat) : ratAt n = magnitudeUnits n / unitsPerOne := by
    rw [ratAt, unitsAt, if_neg (by omega), Int.natAbs_natCast, Int.cast_natCast]
  have hpred := two_mul_magnitudeUnits_pred hpos hb
  have hsucc := magnitudeUnits_succ b
  have hfield : b / 0x10000000000000 - 1 = x.field - 1 := by rw [field_eq, hb]
  have hbelow : quartersBelow x ≤ 4 * x.significand := by
    have : x.significand ≠ 0 := by
      rintro h
      rw [h, zero_mul, hb] at hunits
      exact absurd (magnitudeUnits_strictMono hpos) (by rw [← hunits]; exact Nat.not_lt_zero _)
    rw [quartersBelow]
    split <;> omega
  rw [hb] at hunits
  rw [hfield] at hsucc
  have hpred' := congrArg (Nat.cast (R := ℚ)) hpred
  have hsucc' := congrArg (Nat.cast (R := ℚ)) hsucc
  rw [← hunits] at hpred' hsucc'
  push_cast at hpred' hsucc'
  rw [toRat_eq_ratAt, quarters_eq, quarters_eq, quarters_eq, middle, middle, add_sub_cancel_right,
    hplace, show (b : Int) - 1 = (b - 1 : Nat) by omega, show (b : Int) + 1 = (b + 1 : Nat) by rfl,
    hat, hat, hat, ← hunits, Nat.cast_sub hbelow, hsucc']
  push_cast
  refine ⟨by ring, ?_, by ring⟩
  rw [← add_div, div_right_comm]
  congr 1
  linarith

/-- **The interval of a positive float has the numbers that are read as it.** -/
theorem contains_iff (hx : 0 < x.place) (hfinite : x.isFinite = true) (n : Nat) :
    (intervalOf x).contains n = true ↔ RoundsTo ((intervalOf x).toRat n) x := by
  obtain ⟨-, hlow, hhigh⟩ := quarters_spec hx
  rw [← toRat_quarters] at hlow hhigh
  have hclosed : (intervalOf x).closed = true ↔ x.significand % 2 = 0 := beq_iff_eq
  have hpos : (0 : ℚ) < 10 ^ (intervalOf x).places := by positivity
  have hle (a b : Nat) : (intervalOf x).toRat a ≤ (intervalOf x).toRat b ↔ a ≤ b := by
    rw [Interval.toRat, Interval.toRat, div_le_div_iff_of_pos_right hpos, Nat.cast_le]
  have heq (a b : Nat) : (intervalOf x).toRat a = (intervalOf x).toRat b ↔ a = b := by
    rw [le_antisymm_iff, hle, hle, ← le_antisymm_iff]
  rw [roundsTo_iff hfinite, hlow, hhigh, hle, hle, heq, heq, ← hclosed, Interval.contains]
  have hends : (intervalOf x).low = quarters x (4 * x.significand - quartersBelow x) ∧
      (intervalOf x).high = quarters x (4 * x.significand + 2) := ⟨rfl, rfl⟩
  rw [hends.1, hends.2]
  cases (intervalOf x).closed with
  | true => simp
  | false =>
    simp only [Bool.false_eq_true, if_false, Bool.and_eq_true, decide_eq_true_eq, imp_false]
    omega

/-! ## What the search finds is the shortest -/

/-- A number of units can be told from what it stands for. -/
theorem toRat_le_toRat {a b : Nat} : i.toRat a ≤ i.toRat b ↔ a ≤ b := by
  rw [Interval.toRat, Interval.toRat, div_le_div_iff_of_pos_right (by positivity), Nat.cast_le]

theorem abs_toRat_sub (a : Nat) :
    |i.toRat a - i.toRat i.value| = i.distance a / 10 ^ i.places := by
  have hscale : (0 : ℚ) < 10 ^ i.places := by positivity
  rw [Interval.toRat, Interval.toRat, ← sub_div, abs_div, abs_of_pos hscale, Interval.distance,
    Nat.cast_natAbs]
  push_cast
  rfl

/-- A multiple of a power of ten. -/
theorem toRat_grid (n k : Nat) :
    i.toRat (n * grid k) = n * (10 : ℚ) ^ ((k : Int) - i.places) := by
  have hgrid : (grid k : ℚ) = 10 ^ k := Nat.cast_pow 10 k
  rw [zpow_sub₀ (by norm_num), zpow_natCast, zpow_natCast, Interval.toRat, Nat.cast_mul, hgrid,
    mul_div_assoc]

/-- A decimal that goes no further down than a power of ten is a multiple of it. -/
theorem exists_value_eq {ds : List Char} {e : Int} (h : k ≤ e + 1 - ds.length + i.places) :
    ∃ d, value ds e = i.toRat (whole ds * 10 ^ d * grid k) := by
  obtain ⟨d, hd⟩ := Int.eq_ofNat_of_zero_le (sub_nonneg.2 h)
  refine ⟨d, ?_⟩
  rw [value, toRat_grid, Nat.cast_mul, mul_assoc, Nat.cast_pow, ← zpow_natCast, Nat.cast_ofNat,
    ← zpow_add₀ (by norm_num)]
  congr 2
  omega

/-- What the search finds: the best multiple of a power of ten that is not above the float.  Unless
it is one of the first ten, it does not end in a zero, and nothing coarser is in the interval. -/
structure Found (i : Interval) (k n : Nat) : Prop where
  pos : 0 < n
  best : Best i k n
  grid_le : grid k ≤ i.value
  coarser : 10 < n → n % 10 ≠ 0 ∧ ∀ c, i.contains (c * grid (k + 1)) = false

/-- The best multiple is one of the two around the float. -/
theorem Best.le (hvalue : i.contains i.value = true) (hn : Best i k n) :
    n ≤ i.value / grid k + 1 := by
  by_contra h
  have haround := (contains_around hvalue hn.contained).2 (by omega)
  have hnearest := hn.nearest _ haround
  have hpos := grid_pos k
  have hn := distance_grid i k n
  have hnext := distance_grid i k (i.value / grid k + 1)
  simp only at hn hnext
  omega

theorem found_search (hvalue : i.contains i.value = true) (hzero : i.contains 0 = false) :
    let (n, k) := search i ((decimalDigits i.value).length - 1)
    Found i k n := by
  have hpos : 0 < i.value := Nat.pos_of_ne_zero fun h => by simp [← h, hvalue] at hzero
  have hdigits := significant_toDigits hpos
  have hlow : grid ((decimalDigits i.value).length - 1) ≤ i.value := by
    have := hdigits.le_whole
    rwa [whole_toDigits] at this
  have hhigh : i.value < 10 * grid ((decimalDigits i.value).length - 1) := by
    have := whole_lt hdigits.isDigit
    rwa [whole_toDigits, ← Nat.sub_add_cancel (List.length_pos_iff.2 hdigits.ne_nil),
      Nat.pow_succ'] at this
  generalize (decimalDigits i.value).length - 1 = K at hlow hhigh
  obtain ⟨hle, hbest, hnone⟩ := search_spec hvalue K
  generalize hn : (search i K).1 = n at hbest
  generalize hk : (search i K).2 = k at hle hbest hnone
  rw [show search i K = (n, k) from Prod.ext hn hk]
  refine ⟨Nat.pos_of_ne_zero fun h => ?_, hbest, (Nat.pow_le_pow_right (by decide) hle).trans hlow,
    fun hten => ?_⟩
  · have := hbest.contained
    rw [h, zero_mul, hzero] at this
    exact Bool.false_ne_true this
  · have hlt : k < K := by
      refine lt_of_le_of_ne hle fun heq => ?_
      subst heq
      have := hbest.le hvalue
      have := (Nat.div_lt_iff_lt_mul (grid_pos k)).2 hhigh
      omega
    have hcoarser := hnone (k + 1) (Nat.lt_succ_self k) hlt
    refine ⟨fun hmod => ?_, hcoarser⟩
    have hsplit : n * grid k = n / 10 * grid (k + 1) := by
      rw [show grid (k + 1) = 10 * grid k from Nat.pow_succ', ← mul_assoc,
        Nat.div_mul_cancel (Nat.dvd_of_mod_eq_zero hmod)]
    exact Bool.false_ne_true ((hcoarser _).symm.trans (hsplit ▸ hbest.contained))

section Float

variable {ds es : List Char} {e f : Int}

theorem toRat_value (hx : 0 < x.place) : (intervalOf x).toRat (intervalOf x).value = x.toRat := by
  rw [(quarters_spec hx).1, ← toRat_quarters]
  rfl

/-- Nothing coarser than what was found is read as the float, if more than one digit was found. -/
theorem Found.finer (h : Found (intervalOf x) k n) (hx : 0 < x.place) (hfinite : x.isFinite = true)
    (hn : 10 < n) (hes : RoundsTo (value es f) x) :
    f + 1 - es.length + (intervalOf x).places ≤ k := by
  by_contra hlt
  have hcoarse : ((k + 1 : Nat) : Int) ≤ f + 1 - es.length + (intervalOf x).places := by
    push_cast
    omega
  obtain ⟨d, hd⟩ := exists_value_eq hcoarse
  rw [hd, ← contains_iff hx hfinite, (h.coarser hn).2] at hes
  exact Bool.false_ne_true hes

/-- Nor is anything smaller than the digit found first. -/
theorem Found.exponent_le (h : Found (intervalOf x) k n) (hx : 0 < x.place)
    (hfinite : x.isFinite = true) (hds : Significant ds) (hreads : RoundsTo (value ds e) x)
    (hlength : 1 < ds.length) (hn : 10 < n)
    (hk : e + 1 - ds.length + (intervalOf x).places = k) (hes : Significant es)
    (hesreads : RoundsTo (value es f) x) : e ≤ f := by
  by_contra hlt
  have hone : whole ['1'] = 1 := rfl
  have hpower : value ['1'] e = (10 : ℚ) ^ e := by
    rw [value, hone, List.length_singleton, Nat.cast_one, one_mul, Nat.cast_one,
      add_sub_cancel_right]
  have hle : (10 : ℚ) ^ (f + 1) ≤ (10 : ℚ) ^ e := zpow_le_zpow_right₀ (by norm_num) (by omega)
  have hbetween : RoundsTo (value ['1'] e) x := by
    rw [hpower]
    exact hesreads.between hreads ((hes.value_bounds f).2.le.trans hle) (hds.value_bounds e).1
  have := h.finer hx hfinite hn hbetween
  rw [List.length_singleton] at this
  omega

/-- A decimal with as many digits as were found is a multiple of the same power of ten, or it is
further away: then it is one digit below that power, which is not above the float. -/
theorem Found.multiple_or_farther (h : Found (intervalOf x) k n) (hx : 0 < x.place)
    (hfinite : x.isFinite = true) (hds : Significant ds)
    (hvalue : value ds e = (intervalOf x).toRat (n * grid k))
    (hlength : 1 < ds.length → 10 < n ∧ e + 1 - ds.length + (intervalOf x).places = k)
    (hes : Significant es) (hesreads : RoundsTo (value es f) x) (hsame : es.length = ds.length) :
    (∃ d, value es f = (intervalOf x).toRat (whole es * 10 ^ d * grid k)) ∨
      |value ds e - x.toRat| < |value es f - x.toRat| := by
  have hreads : RoundsTo (value ds e) x := by
    rw [hvalue, ← contains_iff hx hfinite]
    exact h.best.contained
  by_cases hk : k ≤ f + 1 - es.length + (intervalOf x).places
  · exact Or.inl (exists_value_eq hk)
  have hone : ds.length = 1 := by
    have hpos : 0 < ds.length := List.length_pos_iff.2 hds.ne_nil
    by_contra hne
    obtain ⟨hn, hke⟩ := hlength (by omega)
    have := h.exponent_le hx hfinite hds hreads (by omega) hn hke hes hesreads
    omega
  have hbelow : value es f < (intervalOf x).toRat (1 * grid k) := by
    rw [toRat_grid, Nat.cast_one, one_mul]
    refine (hes.value_bounds f).2.trans_le (zpow_le_zpow_right₀ (by norm_num) ?_)
    rw [hsame, hone] at hk
    push_cast at hk
    omega
  have habove : (intervalOf x).toRat (1 * grid k) ≤ x.toRat := by
    rw [← toRat_value hx, toRat_le_toRat, one_mul]
    exact h.grid_le
  have hcontains : (intervalOf x).contains (1 * grid k) = true := by
    rw [contains_iff hx hfinite]
    exact hesreads.between (roundsTo_toRat hfinite) hbelow.le habove
  refine Or.inr ?_
  calc |value ds e - x.toRat| ≤ |(intervalOf x).toRat (1 * grid k) - x.toRat| := by
        rw [hvalue, ← toRat_value hx, abs_toRat_sub, abs_toRat_sub,
          div_le_div_iff_of_pos_right (by positivity), Nat.cast_le]
        exact h.best.nearest 1 hcontains
    _ < |value es f - x.toRat| := by
        rw [abs_of_nonpos (by linarith), abs_of_nonpos (by linarith)]
        linarith

/-- What the search finds gives the shortest digits. -/
theorem Found.shortest (h : Found (intervalOf x) k n) (hx : 0 < x.place)
    (hfinite : x.isFinite = true) (hds : Significant ds)
    (hvalue : value ds e = (intervalOf x).toRat (n * grid k))
    (hlength : 1 < ds.length → 10 < n ∧ e + 1 - ds.length + (intervalOf x).places = k) :
    Binary64.Shortest x ds e := by
  have hreads : RoundsTo (value ds e) x := by
    rw [hvalue, ← contains_iff hx hfinite]
    exact h.best.contained
  have hscale : (0 : ℚ) < 10 ^ (intervalOf x).places := by positivity
  refine ⟨hds, hreads, fun es f hes hesreads => ?_, fun es f hes hesreads hsame => ?_,
    fun es f hes hesreads hsame htie => ?_⟩
  · by_contra hlt
    have hpos : 0 < es.length := List.length_pos_iff.2 hes.ne_nil
    obtain ⟨hn, hke⟩ := hlength (by omega)
    have := h.exponent_le hx hfinite hds hreads (by omega) hn hke hes hesreads
    have := h.finer hx hfinite hn hesreads
    omega
  · rcases h.multiple_or_farther hx hfinite hds hvalue hlength hes hesreads hsame with ⟨d, hd⟩ | hlt
    · rw [hd, ← contains_iff hx hfinite] at hesreads
      rw [hd, hvalue, ← toRat_value hx, abs_toRat_sub, abs_toRat_sub,
        div_le_div_iff_of_pos_right hscale, Nat.cast_le]
      exact h.best.nearest _ hesreads
    · exact hlt.le
  · rcases h.multiple_or_farther hx hfinite hds hvalue hlength hes hesreads hsame with ⟨d, hd⟩ | hlt
    · rw [hd, ← contains_iff hx hfinite] at hesreads
      rw [hd, hvalue, ← toRat_value hx, abs_toRat_sub, abs_toRat_sub,
        div_left_inj' hscale.ne', Nat.cast_inj] at htie
      rcases h.best.even _ hesreads htie with heq | hodd
      · exact Or.inl (hes.eq_of_value hds hsame (by rw [hd, hvalue, heq]))
      · exact Or.inr (Nat.odd_iff.1 (Nat.Odd.of_mul_left (Nat.odd_iff.2 hodd)))
    · exact absurd htie hlt.ne'

end Float

theorem dropTrailingZeros_toDigits (hn : n % 10 ≠ 0) :
    dropTrailingZeros (Nat.toDigits 10 n) = Nat.toDigits 10 n := by
  obtain ⟨ds, hds⟩ : ∃ ds, Nat.toDigits 10 n = ds ++ [(n % 10).digitChar] := by
    rw [Nat.toDigits_eq_if (by decide)]
    split
    · next h => exact ⟨[], by rw [Nat.mod_eq_of_lt h, List.nil_append]⟩
    · exact ⟨_, rfl⟩
  have hlast : ¬((n % 10).digitChar == '0') = true := by
    rw [beq_iff_eq, Nat.digitChar_eq_zero]
    exact hn
  rw [hds, dropTrailingZeros, List.reverse_append, List.reverse_singleton, List.singleton_append,
    List.dropWhile_cons_of_neg (by exact hlast), List.reverse_cons, List.reverse_reverse]

/-- The sign of a float has no part in its digits. -/
theorem digits_abs (x : Binary64) : digits x.abs = digits x := by
  rw [digits, digits, intervalOf, intervalOf, significand_abs, fraction_abs, field_abs,
    exponent_abs]

/-- The digits of a positive float. -/
theorem shortest_digits_of_pos (hx : 0 < x.place) (hfinite : x.isFinite = true) :
    Binary64.Shortest x (digits x).1 (digits x).2 := by
  have hvalue : (intervalOf x).contains (intervalOf x).value = true := by
    rw [contains_iff hx hfinite, toRat_value hx]
    exact roundsTo_toRat hfinite
  have hzero : (intervalOf x).contains 0 = false := by
    rw [Bool.eq_false_iff, Ne, contains_iff hx hfinite]
    intro h
    have hread : RoundsTo (Binary64.toRat .zero) .zero := roundsTo_toRat rfl
    rw [Interval.toRat, Nat.cast_zero, zero_div] at h
    rw [toRat_eq_ratAt, show ratAt Binary64.zero.place = 0 from zero_div _] at hread
    exact absurd (h.place_eq hread) hx.ne'
  have hfound := found_search hvalue hzero
  rw [digits]
  generalize search (intervalOf x) ((decimalDigits (intervalOf x).value).length - 1) = found
    at hfound
  obtain ⟨n, k⟩ := found
  change Found (intervalOf x) k n at hfound
  change Binary64.Shortest x (dropTrailingZeros (Nat.toDigits 10 n))
    ((Nat.toDigits 10 n).length - 1 + k - (intervalOf x).places)
  by_cases hmod : n % 10 = 0
  · obtain rfl : n = 10 := by
      by_contra hne
      have := hfound.pos
      exact (hfound.coarser (by omega)).1 hmod
    have hdigits : dropTrailingZeros (Nat.toDigits 10 10) = ['1'] := by decide
    have hlength : (Nat.toDigits 10 10).length = 2 := by decide
    have hone : whole ['1'] = 1 := rfl
    rw [hdigits, hlength]
    refine hfound.shortest hx hfinite ⟨by decide, List.forall_mem_singleton.2 rfl, by decide⟩ ?_
      fun h => absurd h (by decide)
    rw [value, hone, toRat_grid, List.length_singleton, Nat.cast_one, one_mul, Nat.cast_one,
      show (10 : Nat) = ((10 : ℚ) ^ (1 : Int)) by norm_num, ← zpow_add₀ (by norm_num)]
    congr 1
    push_cast
    ring
  · have hsig := significant_toDigits hfound.pos
    have hlow := hsig.le_whole
    rw [whole_toDigits] at hlow
    rw [dropTrailingZeros_toDigits hmod]
    generalize hlength : (Nat.toDigits 10 n).length = l at hlow
    refine hfound.shortest hx hfinite hsig ?_ fun hlt => ⟨?_, by omega⟩
    · rw [value, whole_toDigits, toRat_grid, hlength]
      congr 2
      ring
    · have : 10 ^ 1 ≤ 10 ^ (l - 1) := Nat.pow_le_pow_right (by decide) (by omega)
      omega

theorem place_abs (x : Binary64) :
    x.abs.place = (x.bits.toNat % 0x8000000000000000 : Nat) := by
  rw [place, signed, isNegative_abs, toNat_bits_abs, Nat.mod_mod, if_neg Bool.false_ne_true]

theorem place_abs_pos (hx : x.significand ≠ 0) : 0 < x.abs.place := by
  have hunits := significand_mul_pow x
  rw [place_abs]
  refine Int.natCast_pos.2 (Nat.pos_of_ne_zero fun h => ?_)
  rw [h] at hunits
  exact absurd hunits (mul_ne_zero hx (Nat.two_pow_pos _).ne')

/-- **The digits of a float are the shortest ones that are read as it.** -/
theorem shortest_digits (hfinite : x.isFinite = true) (hx : x.significand ≠ 0) :
    Binary64.Shortest x.abs (digits x).1 (digits x).2 := by
  rw [← digits_abs]
  exact shortest_digits_of_pos (place_abs_pos hx) (by rw [isFinite, field_abs]; exact hfinite)

end Shortest

end ValueHeap
