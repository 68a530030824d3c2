import ValueHeap.Proofs.Spelling
import ValueHeap.Text.Decimal

/-!
# Figures and what they stand for

Numbers are written as figures: digits with a sign, a fraction and a power of ten, of which only the
digits must be there.  A figure is read as far as it goes, so it ends where something follows that
can be in none of its parts.  What it stands for is a matter of the digits, and a float is the only
one that is read from them.

## What is here

* `Numeral` and `Figure` — the parts of a figure; there are also figures for what is not finite.
* `Figure.append_inj` — **a figure can be read in front of anything that does not go on with it**.
* `Figure.Denotes` — the float that a figure is read as.
* `Figure.exists_text`, `Figure.exists_part` and `Numeral.text_eq` — floats, the parts of complex
  numbers and integers are written as figures.
-/

set_option autoImplicit false

namespace ValueHeap

open Decimal Binary64

/-! ## Reading as far as possible -/

/-- The head of a list fails a test, if there is one. -/
def Stops (p : Char → Bool) (l : List Char) : Prop := ∀ c ∈ l.head?, p c = false

theorem takeWhile_append_of_stops {p : Char → Bool} {a r : List Char}
    (ha : ∀ c ∈ a, p c = true) (hr : Stops p r) : (a ++ r).takeWhile p = a := by
  rw [List.takeWhile_append_of_pos ha]
  cases r with
  | nil => exact List.append_nil a
  | cons c r => rw [List.takeWhile_cons_of_neg (by rw [hr c rfl]; decide), List.append_nil]

/-- What passes a test can be read in front of what does not. -/
theorem append_inj_of_stops {p : Char → Bool} {a b r s : List Char} (ha : ∀ c ∈ a, p c = true)
    (hb : ∀ c ∈ b, p c = true) (hr : Stops p r) (hs : Stops p s) (h : a ++ r = b ++ s) :
    a = b ∧ r = s := by
  have hab : a = b := by
    rw [← takeWhile_append_of_stops ha hr, h, takeWhile_append_of_stops hb hs]
  subst hab
  exact ⟨rfl, List.append_cancel_left h⟩

/-! ## Numerals -/

/-- The parts of a number in figures.  There is no point without a fraction. -/
structure Numeral where
  negative : Bool
  whole : List Char
  fraction : List Char
  /-- The power of ten: whether it is negative, and its digits. -/
  power : Option (Bool × List Char)
  whole_ne_nil : whole ≠ []
  isDigit_whole : ∀ c ∈ whole, c.isDigit = true
  isDigit_fraction : ∀ c ∈ fraction, c.isDigit = true
  isDigit_power : ∀ p ∈ power, ∀ c ∈ p.2, c.isDigit = true

namespace Numeral

/-- The minus sign of a number. -/
def signChars (negative : Bool) : List Char := if negative then ['-'] else []

/-- A fraction with the point in front of it. -/
def fractionChars (fraction : List Char) : List Char :=
  if fraction = [] then [] else '.' :: fraction

/-- A power of ten with its sign. -/
def powerChars : Option (Bool × List Char) → List Char
  | none => []
  | some (negative, digits) => 'e' :: (if negative then '-' else '+') :: digits

/-- The text of a numeral. -/
def chars (n : Numeral) : List Char :=
  signChars n.negative ++ (n.whole ++ (fractionChars n.fraction ++ powerChars n.power))

/-- A text does not go on with the digits, the fraction or the power of a number. -/
def Ends (r : List Char) : Prop := Stops (fun c => c.isDigit || c == '.' || c == 'e') r

variable {n m : Numeral} {r s : List Char}

theorem Ends.stops_isDigit (hr : Ends r) : Stops Char.isDigit r := fun c hc => by
  have := hr c hc
  simp_all

theorem Ends.head_ne (hr : Ends r) {c : Char} {l : List Char} (h : r = c :: l) :
    c ≠ '.' ∧ c ≠ 'e' := by
  have := hr c (by rw [h]; exact rfl)
  simp_all

theorem stops_isDigit_power (p : Option (Bool × List Char)) (hr : Ends r) :
    Stops Char.isDigit (powerChars p ++ r) := by
  match p with
  | none => exact hr.stops_isDigit
  | some (negative, digits) => exact fun c hc => by cases hc; rfl

theorem stops_isDigit_fraction (f : List Char) (p : Option (Bool × List Char)) (hr : Ends r) :
    Stops Char.isDigit (fractionChars f ++ (powerChars p ++ r)) := by
  rw [fractionChars]
  split
  · exact stops_isDigit_power p hr
  · exact fun c hc => by cases hc; rfl

theorem powerChars_append_inj {p q : Option (Bool × List Char)}
    (hp : ∀ x ∈ p, ∀ c ∈ x.2, c.isDigit = true) (hq : ∀ x ∈ q, ∀ c ∈ x.2, c.isDigit = true)
    (hr : Ends r) (hs : Ends s) (h : powerChars p ++ r = powerChars q ++ s) : p = q ∧ r = s := by
  match p, q with
  | none, none => exact ⟨rfl, h⟩
  | none, some _ => exact absurd rfl (hr.head_ne h).2
  | some _, none => exact absurd rfl (hs.head_ne h.symm).2
  | some (a, ds), some (b, es) =>
    simp only [powerChars, List.cons_append, List.cons.injEq, true_and] at h
    obtain ⟨hsign, hdigits⟩ := h
    obtain ⟨rfl, hrs⟩ := append_inj_of_stops (hp _ rfl) (hq _ rfl) hr.stops_isDigit
      hs.stops_isDigit hdigits
    have hab : a = b := by
      revert hsign
      cases a <;> cases b <;> decide
    exact ⟨by rw [hab], hrs⟩

theorem fractionChars_append_inj {f g : List Char} {p q : Option (Bool × List Char)}
    (hf : ∀ c ∈ f, c.isDigit = true) (hg : ∀ c ∈ g, c.isDigit = true) (hr : Ends r) (hs : Ends s)
    (h : fractionChars f ++ (powerChars p ++ r) = fractionChars g ++ (powerChars q ++ s)) :
    f = g ∧ powerChars p ++ r = powerChars q ++ s := by
  have hpoint {t s : List Char} (q : Option (Bool × List Char)) (hs : Ends s) :
      '.' :: t ≠ powerChars q ++ s := by
    match q with
    | none => exact fun h => (hs.head_ne h.symm).1 rfl
    | some _ => exact fun h => absurd (List.cons.inj h).1 (by decide)
  rw [fractionChars, fractionChars] at h
  split at h <;> split at h
  · next hf hg => exact ⟨hf.trans hg.symm, h⟩
  · exact absurd h.symm (hpoint p hr)
  · exact absurd h (hpoint q hs)
  · exact append_inj_of_stops hf hg (stops_isDigit_power p hr) (stops_isDigit_power q hs)
      (List.cons.inj h).2

theorem signChars_append_inj {a b : Bool} (hr : r.head? ≠ some '-') (hs : s.head? ≠ some '-')
    (h : signChars a ++ r = signChars b ++ s) : a = b ∧ r = s := by
  cases a <;> cases b
  · exact ⟨rfl, h⟩
  · exact absurd (by rw [show r = '-' :: s from h]; rfl) hr
  · exact absurd (by rw [← show '-' :: r = s from h]; rfl) hs
  · exact ⟨rfl, (List.cons.inj h).2⟩

/-- What is behind the sign begins with a digit. -/
theorem exists_whole_append (n : Numeral) (l : List Char) :
    ∃ c w, n.whole ++ l = c :: w ∧ c.isDigit = true := by
  obtain ⟨c, w, hw⟩ := List.exists_cons_of_ne_nil n.whole_ne_nil
  exact ⟨c, w ++ l, by rw [hw, List.cons_append],
    n.isDigit_whole c (by rw [hw]; exact List.mem_cons_self)⟩

theorem head?_whole_append_ne (n : Numeral) (l : List Char) : (n.whole ++ l).head? ≠ some '-' := by
  obtain ⟨c, w, hw, hc⟩ := n.exists_whole_append l
  rw [hw, List.head?_cons, Ne, Option.some_inj]
  rintro rfl
  exact absurd hc (by decide)

/-- **A numeral can be read in front of anything that does not go on with it.** -/
theorem append_inj (hr : Ends r) (hs : Ends s) (h : n.chars ++ r = m.chars ++ s) :
    n = m ∧ r = s := by
  simp only [chars, List.append_assoc] at h
  obtain ⟨hnegative, h⟩ :=
    signChars_append_inj (n.head?_whole_append_ne _) (m.head?_whole_append_ne _) h
  obtain ⟨hwhole, h⟩ := append_inj_of_stops n.isDigit_whole m.isDigit_whole
    (stops_isDigit_fraction _ _ hr) (stops_isDigit_fraction _ _ hs) h
  obtain ⟨hfraction, h⟩ :=
    fractionChars_append_inj n.isDigit_fraction m.isDigit_fraction hr hs h
  obtain ⟨hpower, h⟩ := powerChars_append_inj n.isDigit_power m.isDigit_power hr hs h
  refine ⟨?_, h⟩
  cases n
  cases m
  cases hnegative
  cases hwhole
  cases hfraction
  cases hpower
  rfl

end Numeral

/-! ## Figures -/

/-- A number in figures, or what is not finite. -/
inductive Figure
  | nan
  | infinity (negative : Bool)
  | numeral (n : Numeral)

namespace Figure

open Numeral

/-- The text of a figure. -/
def chars : Figure → List Char
  | nan => ['n', 'a', 'n']
  | infinity negative => signChars negative ++ ['i', 'n', 'f']
  | numeral n => n.chars

variable {f g : Figure} {r s : List Char}

/-- No numeral begins like a word with a sign. -/
theorem numeral_append_ne (n : Numeral) (negative : Bool) {c : Char} (hsign : c ≠ '-')
    (hdigit : c.isDigit = false) : n.chars ++ r ≠ signChars negative ++ c :: s := by
  intro h
  rw [Numeral.chars, List.append_assoc, List.append_assoc] at h
  have hhead : (c :: s).head? ≠ some '-' := (Option.some_injective Char).ne hsign
  obtain ⟨-, hrest⟩ := signChars_append_inj (n.head?_whole_append_ne _) hhead h
  obtain ⟨d, w, hw, hd⟩ :=
    n.exists_whole_append (fractionChars n.fraction ++ powerChars n.power ++ r)
  rw [hw] at hrest
  rw [(List.cons.inj hrest).1, hdigit] at hd
  exact Bool.false_ne_true hd

/-- **A figure can be read in front of anything that does not go on with it.** -/
theorem append_inj (hr : Ends r) (hs : Ends s) (h : f.chars ++ r = g.chars ++ s) :
    f = g ∧ r = s := by
  have hnan (n : Numeral) {r s : List Char} : n.chars ++ r ≠ nan.chars ++ s :=
    numeral_append_ne n false (by decide) (by decide)
  have hinfinity (n : Numeral) (b : Bool) {r s : List Char} :
      n.chars ++ r ≠ (infinity b).chars ++ s := by
    rw [chars, List.append_assoc]
    exact numeral_append_ne n b (by decide) (by decide)
  match f, g with
  | nan, nan => exact ⟨rfl, List.append_cancel_left h⟩
  | infinity a, infinity b =>
    rw [chars, chars, List.append_assoc, List.append_assoc] at h
    have hhead (l : List Char) : (['i', 'n', 'f'] ++ l).head? ≠ some '-' :=
      (Option.some_injective Char).ne (by decide)
    obtain ⟨hab, hrest⟩ := signChars_append_inj (hhead r) (hhead s) h
    exact ⟨congrArg infinity hab, List.append_cancel_left hrest⟩
  | numeral n, numeral m =>
    obtain ⟨hnm, hrest⟩ := Numeral.append_inj hr hs h
    exact ⟨congrArg numeral hnm, hrest⟩
  | nan, infinity b => cases b <;> exact absurd (List.cons.inj h).1 (by decide)
  | infinity a, nan => cases a <;> exact absurd (List.cons.inj h).1 (by decide)
  | numeral n, nan => exact absurd h (hnan n)
  | nan, numeral m => exact absurd h.symm (hnan m)
  | numeral n, infinity b => exact absurd h (hinfinity n b)
  | infinity a, numeral m => exact absurd h.symm (hinfinity m a)

end Figure

/-! ## What a figure stands for -/

/-- The float, or one NaN for all of them. -/
def Binary64.withoutPayload (x : Binary64) : Binary64 :=
  if x.isNaN then ⟨0x7ff8000000000000⟩ else x

theorem Binary64.isNaN_withoutPayload (x : Binary64) : x.withoutPayload.isNaN = x.isNaN := by
  rw [withoutPayload]
  split
  · next h =>
    rw [h]
    rfl
  · rfl

/-- The power of ten in a numeral. -/
def Numeral.exponent (n : Numeral) : Int :=
  match n.power with
  | none => 0
  | some (negative, digits) =>
    if negative then -(Decimal.whole digits : Int) else Decimal.whole digits

/-- The number in a numeral, without its sign. -/
def Numeral.magnitude (n : Numeral) : ℚ :=
  Decimal.whole (n.whole ++ n.fraction) * (10 : ℚ) ^ (n.exponent - n.fraction.length)

/-- A figure is read as a float. -/
def Figure.Denotes : Figure → Binary64 → Prop
  | nan, x => x.isNaN = true
  | infinity negative, x => x.isInfinite = true ∧ x.isNegative = negative
  | numeral n, x => x.isNegative = n.negative ∧ RoundsTo n.magnitude x.abs

/-- A float is told by its sign and by the place of its size. -/
theorem Binary64.eq_of_place_abs {x y : Binary64} (hsign : x.isNegative = y.isNegative)
    (habs : x.abs.place = y.abs.place) : x = y := by
  rw [Shortest.place_abs, Shortest.place_abs, Int.natCast_inj] at habs
  exact eq_of_place hsign (by rw [place, place, habs, signed, signed, hsign])

/-- **A figure is read as one float**, or as a NaN. -/
theorem Figure.Denotes.unique {f : Figure} {x y : Binary64} (hx : f.Denotes x)
    (hy : f.Denotes y) : x.withoutPayload = y.withoutPayload := by
  match f with
  | nan =>
    have hx : x.isNaN = true := hx
    have hy : y.isNaN = true := hy
    rw [withoutPayload, withoutPayload, if_pos hx, if_pos hy]
  | infinity negative =>
    have hplace {x : Binary64} (h : x.isInfinite = true) : x.abs.place = 0x7ff0000000000000 := by
      rw [isInfinite, Bool.and_eq_true, beq_iff_eq, beq_iff_eq, field_eq, fraction_eq] at h
      rw [Shortest.place_abs]
      omega
    rw [eq_of_place_abs (hx.2.trans hy.2.symm) ((hplace hx.1).trans (hplace hy.1).symm)]
  | numeral n => rw [eq_of_place_abs (hx.1.trans hy.1.symm) (hx.2.place_eq hy.2)]

/-! ## Floats as figures -/

namespace FloatLiteral

open Numeral

variable {x : Binary64} {ds : List Char} {n : Numeral}

/-- Digits in the parts of a numeral stand for the same number when the point is counted. -/
theorem whole_mul_eq_value {whole fraction : List Char} {exponent e : Int} {k : Nat}
    (hdigits : Decimal.whole (whole ++ fraction) = Decimal.whole ds * 10 ^ k)
    (hexponent : exponent - fraction.length + k = e + 1 - ds.length) :
    Decimal.whole (whole ++ fraction) * (10 : ℚ) ^ (exponent - fraction.length) = value ds e := by
  rw [hdigits, value, ← hexponent, zpow_add₀ (by norm_num), zpow_natCast]
  push_cast
  ring

/-- The positional layout is a numeral without a power. -/
theorem exists_positional (hds : Significant ds) (e : Int) (negative : Bool) :
    ∃ n : Numeral, n.chars = signChars negative ++ positional ds e ∧ n.negative = negative ∧
      n.power = none ∧ n.fraction ≠ [] ∧ n.magnitude = value ds e := by
  have hpos := List.length_pos_iff.2 hds.ne_nil
  have hzeros (k : Nat) : ∀ c ∈ List.replicate k '0', c.isDigit = true := fun c hc => by
    rw [List.eq_of_mem_replicate hc]
    rfl
  cases e with
  | ofNat e =>
    rcases Nat.lt_or_ge (e + 1) ds.length with hlt | hge
    · have hnone : e + 1 - ds.length = 0 := by omega
      have hrest : ds.drop (e + 1) ≠ [] := by
        rw [Ne, List.drop_eq_nil_iff]
        omega
      refine ⟨⟨negative, ds.take (e + 1), ds.drop (e + 1), none, ?_,
        fun c hc => hds.isDigit c (List.mem_of_mem_take hc),
        fun c hc => hds.isDigit c (List.mem_of_mem_drop hc), fun _ h => (nomatch h)⟩,
        ?_, rfl, rfl, hrest, ?_⟩
      · rw [Ne, List.take_eq_nil_iff, not_or]
        exact ⟨Nat.succ_ne_zero e, hds.ne_nil⟩
      · have hempty : (ds.drop (e + 1)).isEmpty = false := by
          rw [Bool.eq_false_iff, Ne, List.isEmpty_iff]
          exact hrest
        simp [Numeral.chars, positional, fractionChars, powerChars, hnone, hempty, hrest]
      · refine whole_mul_eq_value (k := 0) (by rw [List.take_append_drop, pow_zero, mul_one]) ?_
        rw [List.length_drop]
        simp only [Numeral.exponent, Int.ofNat_eq_natCast]
        omega
    · have hrest : ds.drop (e + 1) = [] := List.drop_eq_nil_iff.2 hge
      refine ⟨⟨negative, ds ++ List.replicate (e + 1 - ds.length) '0', ['0'], none, ?_, ?_,
        List.forall_mem_singleton.2 rfl, fun _ h => (nomatch h)⟩, ?_, rfl, rfl,
        List.cons_ne_nil _ _, ?_⟩
      · exact List.append_ne_nil_of_left_ne_nil hds.ne_nil _
      · exact fun c hc => (List.mem_append.1 hc).elim (hds.isDigit c) (hzeros _ c)
      · simp [Numeral.chars, positional, fractionChars, powerChars, hrest,
          List.take_of_length_le hge]
      · refine whole_mul_eq_value (k := e + 1 - ds.length + 1) ?_ ?_
        · rw [List.append_assoc, ← List.replicate_succ', whole_append, whole_zeros,
            List.length_replicate, add_zero]
        · rw [List.length_singleton]
          simp only [Numeral.exponent, Int.ofNat_eq_natCast]
          omega
  | negSucc e =>
    have hfraction : List.replicate e '0' ++ ds ≠ [] :=
      List.append_ne_nil_of_right_ne_nil _ hds.ne_nil
    refine ⟨⟨negative, ['0'], List.replicate e '0' ++ ds, none, by decide,
      List.forall_mem_singleton.2 rfl, ?_, fun _ h => (nomatch h)⟩, ?_, rfl, rfl, hfraction, ?_⟩
    · exact fun c hc => (List.mem_append.1 hc).elim (hzeros e c) (hds.isDigit c)
    · simp only [Numeral.chars, positional, fractionChars, if_neg hfraction, powerChars]
      simp
    · refine whole_mul_eq_value (k := 0) ?_ ?_
      · rw [← List.append_assoc, List.singleton_append, ← List.replicate_succ, whole_append,
          whole_zeros, zero_mul, zero_add, pow_zero, mul_one]
      · rw [List.length_append, List.length_replicate]
        simp only [Numeral.exponent]
        omega

/-- The layout with a power is a numeral whose power has at least two digits. -/
theorem exists_scientific (hds : Significant ds) (e : Int) (negative : Bool) :
    ∃ n : Numeral, n.chars = signChars negative ++ usualScientific ds e ∧ n.negative = negative ∧
      (∃ p es, n.power = some (p, es) ∧ 2 ≤ es.length) ∧ n.magnitude = value ds e := by
  obtain ⟨c, rest, rfl⟩ := List.exists_cons_of_ne_nil hds.ne_nil
  obtain ⟨power, hpower⟩ : ∃ power, power = if (Nat.toDigits 10 e.natAbs).length < 2 then
    '0' :: Nat.toDigits 10 e.natAbs else Nat.toDigits 10 e.natAbs := ⟨_, rfl⟩
  have hpos : 0 < (Nat.toDigits 10 e.natAbs).length := Nat.length_toDigits_pos
  have hisDigit : ∀ c ∈ Nat.toDigits 10 e.natAbs, c.isDigit = true := fun c =>
    Nat.isDigit_of_mem_toDigits (by decide) (by decide)
  have hdigits : ∀ c ∈ power, c.isDigit = true := by
    rw [hpower]
    split
    · exact fun c hc => (List.mem_cons.1 hc).elim (fun h => h ▸ rfl) (hisDigit c)
    · exact hisDigit
  have hlength : 2 ≤ power.length := by
    rw [hpower]
    split
    · rw [List.length_cons]
      omega
    · omega
  have hwhole : Decimal.whole power = e.natAbs := by
    rw [hpower]
    split
    · rw [← List.singleton_append, whole_append, show Decimal.whole ['0'] = 0 from rfl, zero_mul,
        zero_add, whole_toDigits]
    · exact whole_toDigits _
  refine ⟨⟨negative, [c], rest, some (decide (e < 0), power), List.cons_ne_nil c [], ?_, ?_, ?_⟩,
    ?_, rfl, ⟨_, _, rfl, hlength⟩, ?_⟩
  · exact fun d hd => hds.isDigit d (List.mem_singleton.1 hd ▸ List.mem_cons_self)
  · exact fun d hd => hds.isDigit d (List.mem_cons_of_mem c hd)
  · rintro p ⟨⟩ d hd
    exact hdigits d hd
  · rw [Numeral.chars, usualScientific, ← hpower]
    cases rest <;> simp [fractionChars, powerChars, pointed]
  · have hexponent : (if decide (e < 0) = true then -(Decimal.whole power : Int)
        else Decimal.whole power) = e := by
      rw [hwhole]
      simp only [decide_eq_true_eq]
      split <;> omega
    refine whole_mul_eq_value (k := 0) (by rw [List.singleton_append, pow_zero, mul_one]) ?_
    rw [Numeral.exponent]
    simp only [hexponent, List.length_cons]
    omega

/-- What the text of a number has behind the digits for its whole part. -/
def Written (n : Numeral) : Prop :=
  (n.power = none ∧ n.fraction ≠ []) ∨ ∃ p es, n.power = some (p, es) ∧ 2 ≤ es.length

/-- A finite float is written as a numeral that is read as the float, with a fraction or a power. -/
theorem exists_numeral (hx : x.isFinite = true) :
    ∃ n : Numeral, text x = String.ofList n.chars ∧ Written n ∧ (Figure.numeral n).Denotes x := by
  by_cases hzero : x.significand = 0
  · have hroundsTo : RoundsTo 0 x.abs := by
      have hread := roundsTo_toRat (x := x.abs) (by rw [isFinite, field_abs]; exact hx)
      rwa [toRat, significand_abs, hzero, signed, Nat.cast_zero, neg_zero, ite_self, Int.cast_zero,
        zero_mul] at hread
    have hspelled : 'e' ∉ sign x ++ ['0', '.', '0'] := by
      rw [List.mem_append, not_or]
      exact ⟨e_not_mem_sign x, by decide⟩
    have hdigit : ∀ c ∈ ['0'], c.isDigit = true := List.forall_mem_singleton.2 rfl
    refine ⟨⟨x.isNegative, ['0'], ['0'], none, by decide, hdigit, hdigit,
      fun _ h => by cases h⟩, ?_, Or.inl ⟨rfl, List.cons_ne_nil _ _⟩, rfl, ?_⟩
    · rw [text_of_isFinite hx, printed, if_pos hzero, spelled_of_not_mem hspelled]
      rfl
    · rw [magnitude, show Decimal.whole (['0'] ++ ['0']) = 0 from rfl, Nat.cast_zero, zero_mul]
      exact hroundsTo
  · obtain ⟨ds, e, h⟩ : ∃ ds e, Binary64.Shortest x.abs ds e :=
      ⟨_, _, Shortest.shortest_digits hx hzero⟩
    by_cases hsize : -5 ≤ e ∧ e ≤ 15
    · obtain ⟨n, hchars, hsign, hpower, hfraction, hvalue⟩ :=
        exists_positional h.significant e x.isNegative
      refine ⟨n, ?_, Or.inl ⟨hpower, hfraction⟩, hsign.symm, hvalue ▸ h.reads⟩
      rw [text_of_positional h hsize.1 hsize.2, hchars, positional_eq h.significant.ne_nil]
      rfl
    · obtain ⟨n, hchars, hsign, hpower, hvalue⟩ :=
        exists_scientific h.significant e x.isNegative
      refine ⟨n, ?_, Or.inr hpower, hsign.symm, hvalue ▸ h.reads⟩
      rw [text_of_scientific h (by omega), hchars]
      rfl

/-- A float is written as a figure that is read as the float. -/
theorem exists_text (x : Binary64) :
    ∃ f : Figure, text x = String.ofList f.chars ∧ (∀ n, f = .numeral n → Written n) ∧
      f.Denotes x := by
  by_cases hn : x.isNaN = true
  · exact ⟨.nan, by rw [text, if_pos hn]; rfl, (fun _ h => by cases h), hn⟩
  by_cases hi : x.isInfinite = true
  · refine ⟨.infinity x.isNegative, ?_, (fun _ h => by cases h), hi, rfl⟩
    rw [text, if_neg hn, if_pos hi]
    cases x.isNegative <;> rfl
  · obtain ⟨n, htext, hwritten, hdenotes⟩ :=
      exists_numeral (isFinite_of_not (Bool.eq_false_iff.2 hn) (Bool.eq_false_iff.2 hi))
    exact ⟨.numeral n, htext, fun m h => by cases h; exact hwritten, hdenotes⟩

/-! ## Parts of complex numbers as figures -/

theorem dropPointZero_append (l : List Char) : dropPointZero (l ++ ['.', '0']) = l := by
  rw [dropPointZero, if_pos (List.suffix_append l _), List.length_append]
  exact List.take_left

/-- Two characters without a point are enough to end in something else. -/
theorem dropPointZero_of_length {l m : List Char} (hm : '.' ∉ m) (hlength : 2 ≤ m.length) :
    dropPointZero (l ++ m) = l ++ m :=
  if_neg fun h =>
    have hsuffix := List.suffix_of_suffix_length_le h (List.suffix_append l m) (by exact hlength)
    hm (hsuffix.subset List.mem_cons_self)

theorem point_not_mem {l : List Char} (hl : ∀ c ∈ l, c.isDigit = true) : '.' ∉ l :=
  fun h => absurd (hl _ h) (by decide)

/-- A fraction that is not a single zero is kept. -/
theorem dropPointZero_fraction {l fraction : List Char} (hdigits : ∀ c ∈ fraction, c.isDigit = true)
    (hnil : fraction ≠ []) (hzero : fraction ≠ ['0']) :
    dropPointZero (l ++ '.' :: fraction) = l ++ '.' :: fraction := by
  match fraction with
  | [] => exact absurd rfl hnil
  | [d] =>
    refine dropPointZero_of_getLast? ?_
    rw [List.getLast?_append_of_ne_nil _ (List.cons_ne_nil _ _)]
    exact (Option.some_injective Char).ne fun h => hzero (h ▸ rfl)
  | d :: d' :: rest =>
    rw [← List.singleton_append, ← List.append_assoc]
    exact dropPointZero_of_length (point_not_mem hdigits) (Nat.le_add_left 2 rest.length)

/-- Without a `.0` at its end a numeral is one that is read as the same float. -/
theorem exists_dropPointZero (hn : Written n) (hx : (Figure.numeral n).Denotes x) :
    ∃ m : Numeral, dropPointZero n.chars = m.chars ∧ (Figure.numeral m).Denotes x := by
  rcases hn with ⟨hpower, hfraction⟩ | ⟨p, es, hpower, hlength⟩
  · have hchars : n.chars = signChars n.negative ++ n.whole ++ '.' :: n.fraction := by
      simp [Numeral.chars, hpower, fractionChars, hfraction, powerChars]
    by_cases hzero : n.fraction = ['0']
    · have hexponent : n.exponent = 0 := by rw [Numeral.exponent, hpower]
      refine ⟨⟨n.negative, n.whole, [], none, n.whole_ne_nil, n.isDigit_whole,
        fun _ h => (nomatch h), fun _ h => (nomatch h)⟩, ?_, hx.1, ?_⟩
      · rw [hchars, hzero, dropPointZero_append, Numeral.chars, fractionChars, if_pos rfl]
        simp [powerChars]
      · have hread : RoundsTo n.magnitude x.abs := hx.2
        rw [magnitude, hzero, hexponent, whole_append,
          show Decimal.whole ['0'] = 0 from rfl] at hread
        rw [magnitude]
        convert hread using 1
        simp only [Numeral.exponent, List.append_nil, List.length_nil, List.length_singleton]
        push_cast
        norm_num
        ring
    · exact ⟨n, by rw [hchars, dropPointZero_fraction n.isDigit_fraction hfraction hzero], hx⟩
  · have hdigits := point_not_mem (n.isDigit_power _ hpower)
    have hchars : n.chars = signChars n.negative ++ (n.whole ++ (fractionChars n.fraction ++
        ['e', if p then '-' else '+'])) ++ es := by
      simp [Numeral.chars, hpower, powerChars]
    exact ⟨n, by rw [hchars, dropPointZero_of_length hdigits hlength], hx⟩

/-- A part of a complex number is written as a figure that is read as the float. -/
theorem exists_part (x : Binary64) :
    ∃ f : Figure, part x = String.ofList f.chars ∧ f.Denotes x := by
  obtain ⟨f, htext, hwritten, hdenotes⟩ := exists_text x
  rw [part, htext, String.toList_ofList]
  match f with
  | .nan => exact ⟨.nan, congrArg _ (by decide), hdenotes⟩
  | .infinity negative =>
    refine ⟨.infinity negative, congrArg _ ?_, hdenotes⟩
    cases negative <;> decide
  | .numeral n =>
    obtain ⟨m, hm, hdenotes⟩ := exists_dropPointZero (hwritten n rfl) hdenotes
    exact ⟨.numeral m, congrArg _ hm, hdenotes⟩

end FloatLiteral

/-! ## Integers as figures -/

/-- The figures of an integer. -/
def Numeral.ofInt (n : Int) : Numeral where
  negative := decide (n < 0)
  whole := Nat.toDigits 10 n.natAbs
  fraction := []
  power := none
  whole_ne_nil := Nat.toDigits_ne_nil
  isDigit_whole := fun _ => Nat.isDigit_of_mem_toDigits (by decide) (by decide)
  isDigit_fraction := fun _ h => (nomatch h)
  isDigit_power := fun _ h => (nomatch h)

theorem Decimal.toList_text (n : Int) :
    (text n).toList = Numeral.signChars (decide (n < 0)) ++ Nat.toDigits 10 n.natAbs := by
  rw [text, Nat.repr_eq_ofList_toDigits]
  by_cases h : n < 0
  · rw [if_pos h, String.toList_append, decide_eq_true h]
    exact congrArg ('-' :: ·) String.toList_ofList
  · rw [if_neg h, String.toList_ofList, decide_eq_false h]
    rfl

theorem Numeral.text_eq (n : Int) : (Decimal.text n).toList = (Numeral.ofInt n).chars := by
  simp [Decimal.toList_text, Numeral.chars, Numeral.ofInt, fractionChars, powerChars]

theorem Numeral.ofInt_injective {m n : Int} (h : Numeral.ofInt m = Numeral.ofInt n) : m = n := by
  have hsign : decide (m < 0) = decide (n < 0) := congrArg Numeral.negative h
  have hdigits : Nat.toDigits 10 m.natAbs = Nat.toDigits 10 n.natAbs := congrArg Numeral.whole h
  have habs : m.natAbs = n.natAbs := by
    rw [← whole_toDigits m.natAbs, hdigits, whole_toDigits]
  rw [decide_eq_decide] at hsign
  omega

/-- No float is written as an integer is. -/
theorem FloatLiteral.not_written_ofInt (n : Int) : ¬Written (Numeral.ofInt n) := by
  rintro (⟨-, h⟩ | ⟨p, es, h, -⟩)
  · exact h rfl
  · cases h

end ValueHeap
