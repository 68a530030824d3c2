import Mathlib.Algebra.Order.Floor.Semifield
import Mathlib.Data.Rat.Floor
import Mathlib.NumberTheory.LucasLehmer
import ValueHeap.Proofs.KeyHash.Residue
import ValueHeap.Proofs.Numeric.Splitting

/-!
# The loop that finds the residue of a float

The residue of a float is found by a loop over three variables: a word with the residue so far,
what is left of the fraction, and the exponent.  A round rotates the word, moves twenty-eight digits
of the fraction in front of the point, adds them to the word and takes the modulus away if it can.
Here the loop is run as a machine does, the word with machine arithmetic and the fraction, which is
a float that never needs rounding, at its exact value.

The word stays below the modulus, so its sum with twenty-eight digits is far from `2 ^ 64`, and a
fraction that is a float has fifty-three digits, so there are at most two rounds.

## What is here

* `Residue.rotateWord` and `Residue.absorbWord` — rotating and adding in machine words.
* `Residue.Folding` — the loop, with `Residue.Folding.Lossless`, a state of it in which the next
  round neither overflows nor rounds.
* `Residue.Folding.exists_endsAfter` — **it ends where the fold of the digits ends**.
* `Residue.cast_mul_power` — the same number has the same residue however it is written.
* `Residue.float_residue_exact` — **the residue of a float is its exact value modulo the prime**.
-/

set_option autoImplicit false

namespace ValueHeap

namespace Residue

theorem prime_modulus : Nat.Prime modulus :=
  lucas_lehmer_sufficiency 61 (by decide) (by norm_num)

/-! ## Machine words -/

/-- A word rotated within its low 61 bits. -/
def rotateWord (acc k : UInt64) : UInt64 :=
  acc <<< k &&& 0x1fffffffffffffff ||| acc >>> (61 - k)

/-- A round's work on the word. -/
def absorbWord (acc chunk : UInt64) : UInt64 :=
  let sum := rotateWord acc 28 + chunk
  if 0x1fffffffffffffff ≤ sum then sum - 0x1fffffffffffffff else sum

theorem toNat_rotateWord {acc k : UInt64} (hacc : acc.toNat < 2 ^ 61) (hk : k.toNat ≤ 61) :
    (rotateWord acc k).toNat = rotate acc.toNat k.toNat := by
  have hsub : (61 - k).toNat = 61 - k.toNat :=
    UInt64.toNat_sub_of_le _ _ (UInt64.le_iff_toNat_le.2 hk)
  have hhigh : acc.toNat >>> (61 - k.toNat) < 2 ^ k.toNat := by
    rw [Nat.shiftRight_eq_div_pow, Nat.div_lt_iff_lt_mul (Nat.two_pow_pos _), ← Nat.pow_add,
      Nat.add_sub_cancel' hk]
    exact hacc
  have hlow : acc.toNat <<< k.toNat % 2 ^ 61 = (acc.toNat % 2 ^ (61 - k.toNat)) <<< k.toNat := by
    rw [Nat.shiftLeft_eq, Nat.shiftLeft_eq, ← Nat.mul_mod_mul_right, ← Nat.pow_add,
      Nat.sub_add_cancel hk]
  rw [rotateWord, UInt64.toNat_or, UInt64.toNat_and, UInt64.toNat_shiftLeft,
    UInt64.toNat_shiftRight, hsub, Nat.mod_eq_of_lt (show k.toNat < 64 by omega),
    Nat.mod_eq_of_lt (show 61 - k.toNat < 64 by omega),
    show (0x1fffffffffffffff : UInt64).toNat = 2 ^ 61 - 1 from rfl,
    Nat.and_two_pow_sub_one_eq_mod, Nat.mod_mod_of_dvd _ (Nat.pow_dvd_pow 2 (by decide)), rotate,
    show (0x2000000000000000 : Nat) = 2 ^ 61 from rfl, hlow,
    Nat.shiftLeft_add_eq_or_of_lt hhigh]

/-- Below the modulus nothing is lost when a chunk is added. -/
theorem sum_lt {acc chunk : UInt64} (hacc : acc.toNat < modulus) (hchunk : chunk.toNat < 2 ^ 28) :
    (rotateWord acc 28).toNat + chunk.toNat < 2 ^ 62 := by
  have hmodulus : modulus < 2 ^ 61 := by decide
  have hrotate := rotate_lt hacc (show 28 ≤ 61 by decide)
  rw [toNat_rotateWord (hacc.trans hmodulus) (by decide)]
  exact Nat.lt_of_lt_of_le (Nat.add_lt_add hrotate hchunk) (by decide)

theorem toNat_absorbWord {acc chunk : UInt64} (hacc : acc.toNat < modulus)
    (hchunk : chunk.toNat < 2 ^ 28) :
    (absorbWord acc chunk).toNat = absorb acc.toNat chunk.toNat := by
  have hmodulus : (0x1fffffffffffffff : UInt64).toNat = modulus := rfl
  have hsum : (rotateWord acc 28 + chunk).toNat = rotate acc.toNat 28 + chunk.toNat := by
    have := sum_lt hacc hchunk
    rw [UInt64.toNat_add, Nat.mod_eq_of_lt (by omega),
      toNat_rotateWord (hacc.trans (by decide)) (by decide)]
    rfl
  rw [absorbWord, absorb]
  simp only [UInt64.le_iff_toNat_le, hsum, hmodulus]
  split
  · next hle =>
    rw [UInt64.toNat_sub_of_le _ _ (UInt64.le_iff_toNat_le.2 (by rwa [hsum, hmodulus])), hsum,
      hmodulus]
  · exact hsum

/-! ## The loop -/

/-- The variables of the loop. -/
structure Folding where
  /-- The residue so far. -/
  acc : UInt64
  /-- What is left of the fraction, at its exact value. -/
  fraction : ℚ
  /-- The exponent. -/
  exponent : Int

namespace Folding

/-- The digits that a round moves in front of the point. -/
def chunk (t : Folding) : Nat := ⌊t.fraction * 2 ^ 28⌋₊

/-- One round. -/
def next (t : Folding) : Folding where
  acc := absorbWord t.acc (.ofNat t.chunk)
  fraction := t.fraction * 2 ^ 28 - t.chunk
  exponent := t.exponent - 28

/-- The loop ends after so many rounds: it goes on while something is left of the fraction. -/
structure EndsAfter (t : Folding) (n : Nat) : Prop where
  goesOn : ∀ k < n, 0 < (next^[k] t).fraction
  stops : (next^[n] t).fraction = 0

/-- Nothing is lost in the next round: the word is a residue, it has room for the digits that are
added, and no operation on floats has to round. -/
structure Lossless (t : Folding) : Prop where
  acc_lt : t.acc.toNat < modulus
  sum_lt : (rotateWord t.acc 28).toNat + t.chunk < 2 ^ 64
  product : Binary64.IsValue (t.fraction * 2 ^ 28)
  whole : Binary64.IsValue t.chunk
  rest : Binary64.IsValue (t.fraction * 2 ^ 28 - t.chunk)

/-- What becomes of the word when the loop has ended. -/
def residue (t : Folding) : UInt64 := rotateWord t.acc (.ofNat (t.exponent % 61).toNat)

/-- The loop is where the fold of digits is: `m / 2 ^ w` is left of the fraction. -/
structure Matches (t : Folding) (acc : Nat) (e : Int) (w m : Nat) : Prop where
  acc_eq : t.acc.toNat = acc
  fraction_eq : t.fraction = (m : ℚ) / (2 ^ w : Nat)
  exponent_eq : t.exponent = e

variable {t : Folding} {acc w m : Nat} {e : Int}

theorem Matches.chunk_eq (ht : t.Matches acc e w m) : t.chunk = m <<< 28 >>> w := by
  rw [chunk, ht.fraction_eq, div_mul_eq_mul_div, Nat.shiftLeft_eq, Nat.shiftRight_eq_div_pow,
    ← Nat.floor_div_eq_div (K := ℚ)]
  push_cast
  rfl

/-- A fraction is left exactly if digits are. -/
theorem Matches.fraction_pos_iff (ht : t.Matches acc e w m) : 0 < t.fraction ↔ m ≠ 0 := by
  have hpos : (0 : ℚ) < (2 ^ w : Nat) := by exact_mod_cast Nat.two_pow_pos w
  rw [ht.fraction_eq, lt_div_iff₀ hpos, zero_mul, Nat.cast_pos, Nat.pos_iff_ne_zero]

/-- What a round leaves of the fraction. -/
theorem Matches.rest_eq (ht : t.Matches acc e w m) :
    t.fraction * (2 : ℚ) ^ 28 - t.chunk = (m % 1 <<< (w - 28) : Nat) / (2 ^ (w - 28) : Nat) := by
  have hpow : ((2 ^ w : Nat) : ℚ) = (2 ^ (w - (w - 28)) : Nat) * (2 ^ (w - 28) : Nat) := by
    rw [← Nat.cast_mul, ← Nat.pow_add, Nat.sub_add_cancel (Nat.sub_le w 28)]
  have hsplit := congrArg (Nat.cast (R := ℚ)) (chunk_split w m)
  rw [Nat.cast_add, Nat.cast_mul, Nat.cast_mul, Nat.cast_mul, hpow,
    show ((2 ^ 28 : Nat) : ℚ) = 2 ^ 28 by norm_num] at hsplit
  rw [ht.fraction_eq, ht.chunk_eq, hpow]
  field_simp
  linarith

theorem Matches.toNat_chunk (ht : t.Matches acc e w m) (hm : m < 2 ^ w) :
    (UInt64.ofNat t.chunk).toNat = t.chunk ∧ t.chunk < 2 ^ 28 := by
  have hchunk : t.chunk < 2 ^ 28 := ht.chunk_eq ▸ chunk_lt hm
  exact ⟨by rw [UInt64.toNat_ofNat', Nat.mod_eq_of_lt (by omega)], hchunk⟩

/-- A fraction with up to fifty-three digits, with its point moved, is the value of a float. -/
theorem isValue_fraction {k : Nat} (hw : w ≤ 53) (hm : m < 2 ^ w) (hk : k ≤ 28) :
    Binary64.IsValue ((m : ℚ) / (2 ^ w : Nat) * 2 ^ k) := by
  have hn : m < Binary64.exactBound := hm.trans_le (Nat.pow_le_pow_right (by decide) hw)
  have hshift : (m : ℚ) / (2 ^ w : Nat) * 2 ^ k = m * 2 ^ ((k : Int) - w) := by
    rw [zpow_sub₀ (by norm_num : (2 : ℚ) ≠ 0), zpow_natCast, zpow_natCast]
    push_cast
    ring
  rw [hshift]
  exact Binary64.isValue_mul_zpow hn (by omega) (by omega)

/-- **Nothing is lost** in a round on up to fifty-three digits. -/
theorem Matches.lossless (ht : t.Matches acc e w m) (hacc : acc < modulus) (hw : w ≤ 53)
    (hm : m < 2 ^ w) : t.Lossless := by
  have hacc' : t.acc.toNat < modulus := ht.acc_eq ▸ hacc
  obtain ⟨hword, hchunk⟩ := ht.toNat_chunk hm
  have hsum : (rotateWord t.acc 28).toNat + (UInt64.ofNat t.chunk).toNat < 2 ^ 62 :=
    sum_lt hacc' (by rwa [hword])
  refine ⟨hacc', by omega, ?_, ?_, ?_⟩
  · rw [ht.fraction_eq]
    exact isValue_fraction hw hm le_rfl
  · have := Binary64.isValue_mul_zpow (e := 0) (hchunk.trans (by decide)) (by decide) (by decide)
    rwa [zpow_zero, mul_one] at this
  · have := isValue_fraction (k := 0) (show w - 28 ≤ 53 by omega) (rest_lt w m) (by decide)
    rwa [pow_zero, mul_one, ← ht.rest_eq] at this

/-- **A round of the loop is a step of the fold.** -/
theorem Matches.next (ht : t.Matches acc e w m) (hacc : acc < modulus) (hm : m < 2 ^ w) :
    t.next.Matches (absorb acc (m <<< 28 >>> w)) (e - 28) (w - 28) (m % 1 <<< (w - 28)) := by
  have hacc' : t.acc.toNat < modulus := ht.acc_eq ▸ hacc
  obtain ⟨hword, hchunk⟩ := ht.toNat_chunk hm
  refine ⟨?_, ht.rest_eq, ?_⟩
  · rw [Folding.next, toNat_absorbWord hacc' (by rwa [hword]), hword, ht.acc_eq, ht.chunk_eq]
  · rw [Folding.next, ht.exponent_eq]

theorem EndsAfter.succ {n : Nat} (hpos : 0 < t.fraction) (hn : t.next.EndsAfter n) :
    t.EndsAfter (n + 1) where
  goesOn k hk := by
    cases k with
    | zero => exact hpos
    | succ k => exact hn.goesOn k (Nat.lt_of_succ_lt_succ hk)
  stops := hn.stops

/-- **The loop ends where the fold of the digits ends**, and a round takes in twenty-eight digits.
Nothing is lost on the way. -/
theorem exists_endsAfter (ht : t.Matches acc e w m) (hacc : acc < modulus) (hw : w ≤ 53)
    (hm : m < 2 ^ w) :
    ∃ n ≤ (w + 27) / 28, t.EndsAfter n ∧ (∀ k ≤ n, (Folding.next^[k] t).Lossless) ∧
      ∃ v, (Folding.next^[n] t).Matches (fold acc e w m).1 (fold acc e w m).2 v 0 := by
  induction acc, e, w, m using fold.induct generalizing t with
  | case1 acc e w =>
    have hzero : t.fraction = 0 := by rw [ht.fraction_eq, Nat.cast_zero, zero_div]
    refine ⟨0, Nat.zero_le _, ⟨fun k hk => absurd hk (Nat.not_lt_zero k), hzero⟩, ?_, w, ?_⟩
    · rintro k hk
      obtain rfl := Nat.le_zero.1 hk
      exact ht.lossless hacc hw hm
    · rw [fold, if_pos rfl]
      exact ht
  | case2 acc e w m hne ih =>
    obtain ⟨n, hn, hends, hlossless, v, hlast⟩ :=
      ih (ht.next hacc hm) (absorb_lt hacc (chunk_lt hm)) (by omega) (rest_lt w m)
    have hpos : w ≠ 0 := by
      rintro rfl
      exact hne (Nat.lt_one_iff.1 hm)
    refine ⟨n + 1, by omega, hends.succ (ht.fraction_pos_iff.2 hne), fun k hk => ?_, v, ?_⟩
    · cases k with
      | zero => exact ht.lossless hacc hw hm
      | succ k => exact hlossless k (Nat.le_of_succ_le_succ hk)
    · rw [fold, if_neg hne]
      exact hlast

/-- The last rotation. -/
theorem Matches.toNat_residue (ht : t.Matches acc e w m) (hacc : acc < modulus) :
    t.residue.toNat = rotate acc (e % 61).toNat := by
  have hshift : (UInt64.ofNat (e % 61).toNat).toNat = (e % 61).toNat := by
    rw [UInt64.toNat_ofNat', Nat.mod_eq_of_lt (by omega)]
  have hword : t.acc.toNat < 2 ^ 61 := ht.acc_eq ▸ hacc.trans (by decide)
  rw [residue, ht.exponent_eq, toNat_rotateWord hword (by rw [hshift]; omega), hshift, ht.acc_eq]

/-- Where the loop begins. -/
def start (fraction : ℚ) (exponent : Int) : Folding := ⟨0, fraction, exponent⟩

/-- **The loop begins where the fold does**, whatever the digits are that the number is given by. -/
theorem matches_start {f : ℚ} {d : Int} (hm : m ≠ 0) (hf : 1 / 2 ≤ f) (hf' : f < 1)
    (hvalue : (m : ℚ) * 2 ^ e = f * 2 ^ d) :
    (start f d).Matches 0 (e + (m.log2 + 1 : Nat)) (m.log2 + 1) m := by
  have hlow : ((2 ^ m.log2 : Nat) : ℚ) ≤ m := by exact_mod_cast Nat.log2_self_le hm
  have hhigh : (m : ℚ) < (2 ^ (m.log2 + 1) : Nat) := by exact_mod_cast Nat.lt_log2_self (n := m)
  have hpos : (0 : ℚ) < (2 ^ (m.log2 + 1) : Nat) := by positivity
  -- the digits over the next power of two are the fraction
  obtain ⟨hfraction, hexponent⟩ :
      f = (m : ℚ) / (2 ^ (m.log2 + 1) : Nat) ∧ d = e + (m.log2 + 1 : Nat) := by
    refine split_unique hf hf' ?_ ((div_lt_one hpos).2 hhigh) (hvalue.symm.trans ?_)
    · rw [le_div_iff₀ hpos, Nat.pow_succ, Nat.cast_mul, Nat.cast_ofNat]
      linarith
    · rw [zpow_add₀ (by norm_num : (2 : ℚ) ≠ 0), zpow_natCast, Nat.cast_pow, Nat.cast_ofNat]
      field_simp
  exact ⟨rfl, hfraction, hexponent⟩

/-- **The loop gives the residue** of a number that is split into a fraction and a power of two. -/
theorem exists_residue {f : ℚ} {d : Int} (hm : m < Binary64.exactBound) (hf : 1 / 2 ≤ f)
    (hf' : f < 1) (hvalue : (m : ℚ) * 2 ^ e = f * 2 ^ d) :
    ∃ n ≤ 2, (start f d).EndsAfter n ∧ (∀ k ≤ n, (Folding.next^[k] (start f d)).Lossless) ∧
      (Folding.next^[n] (start f d)).residue.toNat = scaled m e := by
  have hne : m ≠ 0 := by
    rintro rfl
    rw [Nat.cast_zero, zero_mul] at hvalue
    have : (0 : ℚ) < f * 2 ^ d := mul_pos (by linarith) (by positivity)
    exact this.ne hvalue
  have hwidth : m.log2 + 1 ≤ 53 := Nat.succ_le_succ (Binary64.exists_hidden_digit hm hne).1
  have hzero : 0 < modulus := by decide
  obtain ⟨n, hn, hends, hlossless, v, hlast⟩ :=
    exists_endsAfter (matches_start hne hf hf' hvalue) hzero hwidth Nat.lt_log2_self
  exact ⟨n, by omega, hends, hlossless,
    hlast.toNat_residue (fold_spec hzero Nat.lt_log2_self).1⟩

end Folding

end Residue

/-! ## Values of floats -/

namespace Binary64

variable {x : Binary64} {s : Int} {m : Nat} {e : Int}

theorem div_unitsPerOne (q : ℚ) : q / unitsPerOne = q * 2 ^ (-(unitBits : Int)) := by
  rw [unitsPerOne, Nat.cast_pow, Nat.cast_ofNat, zpow_neg, zpow_natCast, div_eq_mul_inv]

/-- The units of a float that is written as a sign and a magnitude. -/
theorem units_of_toRat_eq (hs : s = 1 ∨ s = -1) (hvalue : x.toRat = s * (m * 2 ^ e)) :
    x.units = s * x.units.natAbs ∧ (x.units.natAbs : ℚ) / unitsPerOne = m * 2 ^ e := by
  have hmagnitude : (0 : ℚ) ≤ m * 2 ^ e := by positivity
  have hpos : (0 : ℚ) < unitsPerOne := Nat.cast_pos.2 unitsPerOne_pos
  have habs : (x.units.natAbs : ℚ) / unitsPerOne = m * 2 ^ e := by
    have hsign : |(s : ℚ)| = 1 := by rcases hs with rfl | rfl <;> norm_num
    rw [toRat_eq] at hvalue
    rw [Nat.cast_natAbs, Int.cast_abs, ← abs_of_pos hpos, ← abs_div, hvalue, abs_mul, hsign,
      one_mul, abs_of_nonneg hmagnitude]
  refine ⟨?_, habs⟩
  rw [toRat_eq, ← habs, ← mul_div_assoc, div_left_inj' hpos.ne', ← Int.cast_natCast,
    ← Int.cast_mul] at hvalue
  exact Int.cast_injective hvalue

/-- A float without its sign has the magnitude of the float for its value. -/
theorem toRat_abs (x : Binary64) : x.abs.toRat = x.significand * 2 ^ x.exponent := by
  rw [toRat, significand_abs, exponent_abs, signed, isNegative_abs, if_neg (by decide),
    Int.cast_natCast]

/-- An integral float below the bound is a machine word, up to its sign. -/
theorem exists_word (hintegral : x.isIntegral = true)
    (hdirect : x.abs.floor < Residue.directBound) :
    ∃ word : UInt64, (word.toNat : ℚ) = x.abs.toRat := by
  have hfloor : x.abs.toRat = x.abs.floor := by
    rw [toRat_eq, units_of_isIntegral ((isIntegral_abs x).trans hintegral), Int.cast_mul,
      Int.cast_natCast]
    exact mul_div_cancel_right₀ _ (Nat.cast_ne_zero.2 unitsPerOne_pos.ne')
  have hnonneg : 0 ≤ x.abs.floor := by
    have : (0 : ℚ) ≤ x.abs.toRat := by
      rw [toRat_abs]
      positivity
    rw [hfloor] at this
    exact_mod_cast this
  have hbound : (Residue.directBound : Int) < 2 ^ 64 := by decide
  refine ⟨.ofNat x.abs.floor.toNat, ?_⟩
  rw [UInt64.toNat_ofNat', Nat.mod_eq_of_lt (by omega), hfloor, ← Int.cast_natCast,
    Int.toNat_of_nonneg hnonneg]

end Binary64

/-! ## Residues of floats -/

namespace Residue

/-- Numbers that are the same are the same modulo the prime. -/
theorem cast_mul_power {a b : Nat} {d e : Int} (h : (a : ℚ) * 2 ^ d = b * 2 ^ e) :
    (a : ZMod modulus) * power d = b * power e := by
  wlog hde : d ≤ e generalizing a b d e
  · exact (this h.symm (by omega)).symm
  obtain ⟨k, rfl⟩ := Int.exists_add_of_le hde
  rw [zpow_add₀ (by norm_num : (2 : ℚ) ≠ 0), mul_left_comm, mul_comm,
    mul_right_inj' (by positivity), zpow_natCast] at h
  have hab : a = b * 2 ^ k := by exact_mod_cast h
  rw [hab, Nat.cast_mul, Nat.cast_pow, Nat.cast_ofNat, ← power_natCast, mul_assoc, ← power_add,
    Int.add_comm]

/-- The residue of a number of units under a sign is the residue of the number under that sign. -/
theorem ofUnits_mul {s : Int} (hs : s = 1 ∨ s = -1) (a : Nat) :
    ofUnits (s * a) = s * ((a : ZMod modulus) * power (-(Binary64.unitBits : Int))).val := by
  rcases hs with rfl | rfl
  · rw [ofUnits, one_mul, one_mul, if_neg (by omega), Int.natAbs_natCast]
  · rw [ofUnits, neg_one_mul, neg_one_mul, Int.natAbs_neg, Int.natAbs_natCast]
    rcases Nat.eq_zero_or_pos a with rfl | ha
    · rw [if_neg (by decide), Nat.cast_zero, zero_mul, ZMod.val_zero]
      rfl
    · rw [if_pos (by omega)]

open Binary64 in
/-- **The residue of a float is its exact value modulo the prime.**  Let a finite float have the
value `s * (m * 2 ^ e)`, with `s` the sign.  Its residue is that sign times the representative of
`m * 2 ^ e` modulo the prime.  An integral float below the bound is some machine word, and the
remainder of the word is the same; any float but zero is split into a fraction and a power of two,
and the loop that begins with them ends after two rounds at the most, loses nothing on the way, and
leaves the same. -/
theorem float_residue_exact {x : Binary64} {s : Int} {m : Nat} {e : Int} (hx : x.isFinite = true)
    (hs : s = 1 ∨ s = -1) (hvalue : x.toRat = s * (m * 2 ^ e)) :
    Nat.Prime modulus ∧ ∃ r < modulus, (r : ZMod modulus) = m * power e ∧ ofFloat x = s * r ∧
      (x.isIntegral = true → x.abs.floor < directBound →
        ∃ word : UInt64, (word.toNat : ℚ) = m * 2 ^ e ∧ (word % 0x1fffffffffffffff).toNat = r) ∧
      (x.toRat ≠ 0 → (∃ f d, x.abs.Split f d) ∧ ∀ f d, x.abs.Split f d →
        1 / 2 ≤ f ∧ f < 1 ∧ (m : ℚ) * 2 ^ e = f * 2 ^ d ∧
        ∃ n ≤ 2, (Folding.start f d).EndsAfter n ∧
          (∀ k ≤ n, (Folding.next^[k] (Folding.start f d)).Lossless) ∧
          (Folding.next^[n] (Folding.start f d)).residue.toNat = r) := by
  obtain ⟨hlt, hmagnitude⟩ := magnitude_spec x
  obtain ⟨hunits, hunit⟩ := units_of_toRat_eq hs hvalue
  have habs : x.abs.toRat = m * 2 ^ e := by rw [← hunit, toRat_eq, units_abs, Int.cast_natCast]
  rw [div_unitsPerOne] at hunit
  -- what has the same value and is below the prime is the residue
  have hunique {a r : Nat} {d : Int} (hr : r < modulus) (hcast : (r : ZMod modulus) = a * power d)
      (ha : (a : ℚ) * 2 ^ d = m * 2 ^ e) : r = magnitude x := by
    rw [cast_mul_power (ha.trans hunit.symm), ← hmagnitude] at hcast
    rw [← val_eq_of_lt hr rfl, hcast, val_eq_of_lt hlt rfl]
  refine ⟨prime_modulus, magnitude x, hlt, ?_, ?_, fun hintegral hdirect => ?_, fun hne => ?_⟩
  · rw [hmagnitude, cast_mul_power hunit]
  · rw [ofFloat_eq_ofUnits hx, hunits, ofUnits_mul hs, ← hmagnitude, val_eq_of_lt hlt rfl]
  · obtain ⟨word, hword⟩ := exists_word hintegral hdirect
    rw [habs] at hword
    refine ⟨word, hword, hunique (a := word.toNat) (d := 0) (Nat.mod_lt _ (by decide)) ?_ ?_⟩
    · rw [UInt64.toNat_mod, power_zero, mul_one]
      exact ZMod.natCast_mod word.toNat modulus
    · rw [zpow_zero, mul_one, hword]
  · have hne' : x.abs.toRat ≠ 0 := by
      rw [hvalue, ← habs] at hne
      exact right_ne_zero_of_mul hne
    refine ⟨exists_split (isNegative_abs x) hne', fun f d hsplit => ?_⟩
    obtain ⟨hlow, hhigh, heq⟩ := hsplit.spec (isNegative_abs x)
    obtain ⟨n, hn, hends, hlossless, hresidue⟩ :=
      Folding.exists_residue (significand_lt x) hlow hhigh ((toRat_abs x).symm.trans heq)
    obtain ⟨hscaled, hcast⟩ := scaled_spec x.significand x.exponent
    refine ⟨hlow, hhigh, habs.symm.trans heq, n, hn, hends, hlossless, ?_⟩
    rw [hresidue, hunique hscaled hcast ((toRat_abs x).symm.trans habs)]

/-- Three times the least float, with a minus sign: modulo the prime, the power is `2 ^ 24`. -/
theorem subnormal_residue :
    Binary64.isFinite ⟨0x8000000000000003⟩ = true ∧
      Binary64.toRat ⟨0x8000000000000003⟩ = ((-1 : Int) : ℚ) * ((3 : Nat) * 2 ^ (-1074 : Int)) ∧
      ofFloat ⟨0x8000000000000003⟩ = -(3 * 2 ^ 24) ∧
      ∃ f d, Binary64.Split ⟨3⟩ f d ∧ ∃ n ≤ 2, (Folding.start f d).EndsAfter n ∧
        (∀ k ≤ n, (Folding.next^[k] (Folding.start f d)).Lossless) ∧
        (Folding.next^[n] (Folding.start f d)).residue.toNat = 3 * 2 ^ 24 := by
  have hfinite : Binary64.isFinite ⟨0x8000000000000003⟩ = true := by decide
  have hvalue : Binary64.toRat ⟨0x8000000000000003⟩ =
      ((-1 : Int) : ℚ) * ((3 : Nat) * 2 ^ (-1074 : Int)) := by
    rw [Binary64.toRat,
      show Binary64.signed ⟨0x8000000000000003⟩ (Binary64.significand ⟨0x8000000000000003⟩) = -3
        from by decide,
      show Binary64.exponent ⟨0x8000000000000003⟩ = -1074 from by decide,
      Int.cast_neg, Int.cast_neg, Int.cast_one, Int.cast_ofNat, Nat.cast_ofNat, neg_one_mul,
      neg_mul]
  obtain ⟨-, r, -, -, hr, -, hloop⟩ := float_residue_exact hfinite (.inr rfl) hvalue
  have hresidue : ofFloat ⟨0x8000000000000003⟩ = -(3 * 2 ^ 24) := by cbv
  obtain rfl : r = 3 * 2 ^ 24 := by omega
  obtain ⟨⟨f, d, hsplit⟩, hall⟩ := hloop (by rw [hvalue]; positivity)
  obtain ⟨-, -, -, hends⟩ := hall f d hsplit
  exact ⟨hfinite, hvalue, hresidue, f, d, hsplit, hends⟩

end Residue

end ValueHeap
