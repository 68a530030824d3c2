import Mathlib.Data.List.GetD
import Mathlib.Data.List.TakeWhile
import ValueHeap.Proofs.Numeric.Unique
import ValueHeap.Text.FloatLiteral

/-!
# The usual spelling of floats

By the usual spelling a finite float is written with its shortest digits: in positional notation,
with at least one digit behind the point, while the power of ten of the first digit is neither below
`-4` nor above `15`, and otherwise with a point behind the first of several digits and with the
power behind an `e`, which has a sign and at least two digits.

The library takes over what a printer makes of a float and spells out the power in it.  The printer
has a threshold of its own for small floats: those with a power of `-5` it still prints
positionally.  These floats are not spelled as usual, and all others are.

## What is here

* `FloatLiteral.Usual` — the usual spelling.
* `FloatLiteral.text_of_positional` and `FloatLiteral.text_of_scientific` — the spelling of a float
  with given shortest digits.
* `FloatLiteral.text_usual_iff` — **the floats that are spelled as usual**.
-/

set_option autoImplicit false

namespace ValueHeap.FloatLiteral

open Decimal Binary64

variable {x : Binary64} {ds es : List Char} {e f : Int}

/-! ## The usual spelling -/

/-- The digit of a decimal for a power of ten: a zero in front of the first digit, and behind the
last one. -/
def digitFor (digits : List Char) (exponent power : Int) : Char :=
  if power ≤ exponent then digits.getD (exponent - power).toNat '0' else '0'

/-- The digits for the powers of ten down to the units, and behind a point those for the powers down
to that of the last digit, at least one. -/
def usualPositional (digits : List Char) (exponent : Int) : List Char :=
  let top := exponent.toNat
  let places := max 1 (digits.length - 1 - exponent).toNat
  ((List.range (top + 1)).map fun i : Nat => digitFor digits exponent (top - i)) ++
    '.' :: (List.range places).map fun i : Nat => digitFor digits exponent (-1 - i)

/-- Digits with a point behind the first one, if there are more. -/
def pointed : List Char → List Char
  | c :: d :: rest => c :: '.' :: d :: rest
  | digits => digits

/-- The digits with the power of ten of the first one, which has a sign and at least two digits. -/
def usualScientific (digits : List Char) (exponent : Int) : List Char :=
  let power := Nat.toDigits 10 exponent.natAbs
  pointed digits ++
    'e' :: (if exponent < 0 then '-' else '+') :: (if power.length < 2 then '0' :: power else power)

/-- The usual spelling of a float. -/
inductive Usual (x : Binary64) : String → Prop
  | nan (h : x.isNaN = true) : Usual x "nan"
  | infinity (h : x.isInfinite = true) : Usual x (if x.isNegative then "-inf" else "inf")
  | zero (h : x.isFinite = true) (hx : x.significand = 0) :
    Usual x (String.ofList (sign x ++ ['0', '.', '0']))
  | positional {digits : List Char} {exponent : Int} (hx : x.significand ≠ 0)
    (h : Binary64.Shortest x.abs digits exponent) (hlow : -4 ≤ exponent) (hhigh : exponent ≤ 15) :
    Usual x (String.ofList (sign x ++ usualPositional digits exponent))
  | scientific {digits : List Char} {exponent : Int} (hx : x.significand ≠ 0)
    (h : Binary64.Shortest x.abs digits exponent) (hsize : exponent < -4 ∨ 15 < exponent) :
    Usual x (String.ofList (sign x ++ usualScientific digits exponent))

/-! ## The two layouts -/

/-- The digits up to an index, with zeros for those that are missing. -/
theorem take_append_replicate (ds : List Char) (n : Nat) :
    ds.take n ++ List.replicate (n - ds.length) '0' = (List.range n).map (ds.getD · '0') := by
  refine List.ext_getElem (by simp; omega) fun i hi hi' => ?_
  rw [List.getElem_map, List.getElem_range, List.getElem_append]
  split
  · next h =>
    rw [List.getElem_take, List.getD_eq_getElem _ _ (by simp at h; omega)]
  · next h =>
    rw [List.getElem_replicate, List.getD_eq_default _ _ (by simp at h hi'; omega)]

/-- The digits from an index on. -/
theorem drop_eq_map (ds : List Char) (n : Nat) :
    ds.drop n = (List.range (ds.length - n)).map fun i => ds.getD (n + i) '0' := by
  refine List.ext_getElem (by simp) fun i hi hi' => ?_
  rw [List.length_drop] at hi
  rw [List.getElem_drop, List.getElem_map, List.getElem_range, List.getD_eq_getElem]

theorem positional_eq (hds : ds ≠ []) (e : Int) : positional ds e = usualPositional ds e := by
  cases e with
  | ofNat e =>
    have hwhole (i : Nat) : digitFor ds (e : Int) (e - i) = ds.getD i '0' := by
      rw [digitFor, if_pos (by omega), sub_sub_cancel, Int.toNat_natCast]
    have hrest (i : Nat) : digitFor ds (e : Int) (-1 - i) = ds.getD (e + 1 + i) '0' := by
      rw [digitFor, if_pos (by omega), show (e - (-1 - i) : Int).toNat = e + 1 + i by omega]
    have hplaces : max 1 (ds.length - 1 - e : Int).toNat = max 1 (ds.length - (e + 1)) := by omega
    change _ = usualPositional ds (e : Int)
    simp only [positional, usualPositional, Int.toNat_natCast, hwhole, hrest, hplaces,
      take_append_replicate, List.append_cancel_left_eq, List.cons.injEq, true_and]
    rcases Nat.eq_zero_or_pos (ds.length - (e + 1)) with hnone | hsome
    · rw [if_pos (by simp; omega), hnone, Nat.max_eq_left (Nat.zero_le 1), List.range_one,
        List.map_singleton, List.getD_eq_default _ _ (by omega)]
    · rw [if_neg (by simp; omega), Nat.max_eq_right hsome, drop_eq_map]
  | negSucc e =>
    have hlength := List.length_pos_iff.2 hds
    have hplaces : max 1 (ds.length - 1 - .negSucc e : Int).toNat = e + ds.length := by omega
    have hfraction : List.replicate e '0' ++ ds =
        (List.range (e + ds.length)).map fun i : Nat => digitFor ds (.negSucc e) (-1 - i) := by
      refine List.ext_getElem (by simp) fun i hi hi' => ?_
      rw [List.getElem_map, List.getElem_range, List.getElem_append, digitFor]
      rw [List.length_append, List.length_replicate] at hi
      split
      · next h =>
        rw [List.length_replicate] at h
        rw [List.getElem_replicate, if_neg (by omega)]
      · next h =>
        simp only [List.length_replicate] at h ⊢
        rw [if_pos (by omega), show (Int.negSucc e - (-1 - i)).toNat = i - e by omega,
          List.getD_eq_getElem _ _ (by omega)]
    simp only [positional, usualPositional, hplaces, List.cons_append, hfraction]
    rfl

theorem scientific_eq (ds : List Char) (e : Int) :
    scientific ds e =
      pointed ds ++ 'e' :: ((if e < 0 then ['-'] else []) ++ Nat.toDigits 10 e.natAbs) := by
  have hpointed : ds.take 1 ++ (if ds.length ≤ 1 then [] else '.' :: ds.drop 1) = pointed ds := by
    match ds with
    | [] | [_] | _ :: _ :: _ => rfl
  rw [← hpointed]
  exact List.append_assoc _ _ _

theorem pointed_ne_nil (hds : ds ≠ []) : pointed ds ≠ [] := by
  match ds with
  | [] => exact absurd rfl hds
  | [_] | _ :: _ :: _ => exact List.cons_ne_nil _ _

theorem getLast?_pointed (ds : List Char) : (pointed ds).getLast? = ds.getLast? := by
  match ds with
  | [] | [_] => rfl
  | c :: d :: rest =>
    rw [pointed, List.getLast?_cons_cons, List.getLast?_cons_cons, List.getLast?_cons_cons]

/-! ## Spelling what was printed -/

theorem spelled_of_not_mem {l : List Char} (hl : 'e' ∉ l) : spelled l = l := by
  have hnone : l.dropWhile (· != 'e') = [] :=
    List.dropWhile_eq_nil_iff.2 fun c hc => bne_iff_ne.2 fun h => hl (h ▸ hc)
  rw [spelled, hnone]

theorem spelled_append {l power : List Char} (hl : 'e' ∉ l) :
    spelled (l ++ 'e' :: power) = dropPointZero l ++ 'e' :: spelledPower power := by
  have hall : ∀ c ∈ l, (c != 'e') = true := fun c hc => bne_iff_ne.2 fun h => hl (h ▸ hc)
  rw [spelled, List.dropWhile_append_of_pos hall, List.takeWhile_append_of_pos hall,
    List.dropWhile_cons_of_neg (by decide), List.takeWhile_cons_of_neg (by decide), List.append_nil]

theorem dropPointZero_of_getLast? {l : List Char} (hl : l.getLast? ≠ some '0') :
    dropPointZero l = l := by
  refine if_neg ?_
  rintro ⟨m, rfl⟩
  exact hl (by rw [List.getLast?_append_of_ne_nil _ (by decide)]; rfl)

/-- A power gets a sign and two digits. -/
theorem spelledPower_eq (e : Int) :
    spelledPower ((if e < 0 then ['-'] else []) ++ Nat.toDigits 10 e.natAbs) =
      (if e < 0 then '-' else '+') ::
        (if (Nat.toDigits 10 e.natAbs).length < 2 then '0' :: Nat.toDigits 10 e.natAbs
          else Nat.toDigits 10 e.natAbs) := by
  have htwo {ds : List Char} (hds : ds ≠ []) :
      twoDigits ds = if ds.length < 2 then '0' :: ds else ds := by
    have := List.length_pos_iff.2 hds
    rw [twoDigits]
    split
    · rw [show 2 - ds.length = 1 by omega]
      rfl
    · rw [show 2 - ds.length = 0 by omega]
      rfl
  have hnil : Nat.toDigits 10 e.natAbs ≠ [] := Nat.toDigits_ne_nil
  rw [← htwo hnil]
  split
  · rfl
  · have hdigit : ∀ c ∈ Nat.toDigits 10 e.natAbs, c.isDigit = true := fun c =>
      Nat.isDigit_of_mem_toDigits (by decide) (by decide)
    generalize Nat.toDigits 10 e.natAbs = ds at hnil hdigit
    rw [List.nil_append]
    unfold spelledPower
    split
    · exact absurd (hdigit '-' List.mem_cons_self) (by decide)
    · rfl

/-! ## The spelling of a float -/

/-- The last one of the shortest digits is not a zero. -/
theorem getLast?_ne_zero (h : Binary64.Shortest x ds e) : ds.getLast? ≠ some '0' := by
  intro hlast
  obtain ⟨ds, rfl⟩ := List.getLast?_eq_some_iff.1 hlast
  rcases eq_or_ne ds [] with rfl | hnil
  · exact h.significant.lead rfl
  · have hds : Significant ds := by
      refine ⟨hnil, fun c hc => h.significant.isDigit c (List.mem_append_left _ hc), ?_⟩
      have hhead : (ds ++ ['0']).head? = ds.head? := List.head?_append_of_ne_nil ds hnil
      rw [← hhead]
      exact h.significant.lead
    have hvalue : value ds e = value (ds ++ ['0']) e := by
      have hzero : whole ['0'] = 0 := rfl
      rw [value, value, whole_append, hzero, List.length_append, List.length_singleton]
      push_cast
      rw [add_zero, ← sub_sub, mul_assoc, ← zpow_one_add₀ (by norm_num), add_sub_cancel]
    have := h.fewest ds e hds (hvalue ▸ h.reads)
    rw [List.length_append, List.length_singleton] at this
    omega

theorem text_of_isFinite (hx : x.isFinite = true) :
    text x = String.ofList (spelled (printed x)) := by
  rw [text, if_neg (by rw [isNaN_eq_false_of_isFinite hx]; decide),
    if_neg (by rw [isInfinite_eq_false_of_isFinite hx]; decide)]

/-- What is printed for a float with these shortest digits. -/
theorem printed_of_shortest (hx : x.significand ≠ 0) (h : Binary64.Shortest x.abs ds e) :
    printed x = sign x ++ if isPositional e then positional ds e else scientific ds e := by
  have hfinite : x.isFinite = true := by
    rw [← h.reads.isFinite, isFinite, isFinite, field_abs]
  obtain ⟨hds, he⟩ := Shortest.unique (Shortest.place_abs_pos hx) h
    (Shortest.shortest_digits hfinite hx)
  rw [printed, if_neg hx, show Shortest.digits x = (ds, e) from Prod.ext hds.symm he.symm]

theorem e_not_mem_sign (x : Binary64) : 'e' ∉ sign x := by
  rw [sign]
  split <;> decide

theorem e_not_mem_of_isDigit (hds : ∀ c ∈ ds, c.isDigit = true) : 'e' ∉ ds :=
  fun h => absurd (hds _ h) (by decide)

theorem e_not_mem_usualPositional (hds : ∀ c ∈ ds, c.isDigit = true) :
    'e' ∉ usualPositional ds e := by
  have hdigit (p : Int) : (digitFor ds e p).isDigit = true := by
    rw [digitFor]
    split
    · rw [List.getD_eq_getElem?_getD]
      cases h : ds[(e - p).toNat]? with
      | none => rfl
      | some c => exact hds c (List.mem_of_getElem? h)
    · rfl
  intro h
  rw [usualPositional, List.mem_append, List.mem_cons, List.mem_map, List.mem_map] at h
  rcases h with ⟨i, -, hi⟩ | h | ⟨i, -, hi⟩
  · exact absurd (hdigit (e.toNat - i)) (by rw [hi]; decide)
  · exact absurd h (by decide)
  · exact absurd (hdigit (-1 - i)) (by rw [hi]; decide)

theorem e_not_mem_pointed (hds : ∀ c ∈ ds, c.isDigit = true) : 'e' ∉ pointed ds := by
  have he := e_not_mem_of_isDigit hds
  match ds with
  | [] | [_] => exact he
  | c :: d :: rest =>
    rw [List.mem_cons, not_or] at he
    rw [pointed, List.mem_cons, not_or, List.mem_cons, not_or]
    exact ⟨he.1, by decide, he.2⟩

/-- A float with a power between `-5` and `15` is spelled positionally. -/
theorem text_of_positional (h : Binary64.Shortest x.abs ds e) (hlow : -5 ≤ e) (hhigh : e ≤ 15) :
    text x = String.ofList (sign x ++ usualPositional ds e) := by
  have hx : x.significand ≠ 0 := significand_abs x ▸ Shortest.significand_ne_zero h
  have hfinite : x.isFinite = true := by
    rw [← h.reads.isFinite, isFinite, isFinite, field_abs]
  have hsize : isPositional e = true := by
    rw [isPositional, Bool.and_eq_true, decide_eq_true_eq, decide_eq_true_eq]
    exact ⟨hlow, hhigh⟩
  rw [text_of_isFinite hfinite, printed_of_shortest hx h, if_pos hsize,
    positional_eq h.significant.ne_nil, spelled_of_not_mem]
  rw [List.mem_append, not_or]
  exact ⟨e_not_mem_sign x, e_not_mem_usualPositional h.significant.isDigit⟩

/-- Any other float is spelled with the power of ten. -/
theorem text_of_scientific (h : Binary64.Shortest x.abs ds e) (hsize : e < -5 ∨ 15 < e) :
    text x = String.ofList (sign x ++ usualScientific ds e) := by
  have hx : x.significand ≠ 0 := significand_abs x ▸ Shortest.significand_ne_zero h
  have hfinite : x.isFinite = true := by
    rw [← h.reads.isFinite, isFinite, isFinite, field_abs]
  have hscientific : ¬isPositional e = true := by
    rw [isPositional, Bool.and_eq_true, decide_eq_true_eq, decide_eq_true_eq]
    omega
  have hmantissa : 'e' ∉ sign x ++ pointed ds := by
    rw [List.mem_append, not_or]
    exact ⟨e_not_mem_sign x, e_not_mem_pointed h.significant.isDigit⟩
  have hlast : (sign x ++ pointed ds).getLast? ≠ some '0' := by
    rw [List.getLast?_append_of_ne_nil _ (pointed_ne_nil h.significant.ne_nil), getLast?_pointed]
    exact getLast?_ne_zero h
  rw [text_of_isFinite hfinite, printed_of_shortest hx h, if_neg hscientific, scientific_eq,
    ← List.append_assoc, spelled_append hmantissa, dropPointZero_of_getLast? hlast,
    spelledPower_eq, List.append_assoc]
  rfl

/-- A float with a power of `-5` is not spelled as usual. -/
theorem not_usual (h : Binary64.Shortest x.abs ds (-5)) : ¬Usual x (text x) := by
  have hx : x.significand ≠ 0 := significand_abs x ▸ Shortest.significand_ne_zero h
  have hfinite : x.isFinite = true := by
    rw [← h.reads.isFinite, isFinite, isFinite, field_abs]
  have htext := text_of_positional h (by decide) (by decide)
  have hpower {es : List Char} {f : Int} (hes : Binary64.Shortest x.abs es f) : f = -5 :=
    ((Shortest.unique (Shortest.place_abs_pos hx) h hes).2).symm
  generalize text x = t at htext
  intro husual
  cases husual with
  | nan hn => exact absurd (isNaN_eq_false_of_isFinite hfinite) (by rw [hn]; decide)
  | infinity hi => exact absurd (isInfinite_eq_false_of_isFinite hfinite) (by rw [hi]; decide)
  | zero _ hz => exact hx hz
  | positional _ hes hlow => exact absurd (hpower hes ▸ hlow) (by decide)
  | scientific _ hes =>
    -- an `e` is only in a text with the power
    have he := String.ofList_injective htext
    rw [List.append_cancel_left_eq] at he
    refine e_not_mem_usualPositional (e := -5) h.significant.isDigit ?_
    rw [← he, usualScientific]
    exact List.mem_append_right _ List.mem_cons_self

/-- The float nearest to `0.00001`. -/
def hundredThousandth : Binary64 := ⟨0x3ee4f8b588e368f1⟩

theorem shortest_hundredThousandth : Binary64.Shortest hundredThousandth.abs ['1'] (-5) := by
  have hdigits : Shortest.digits hundredThousandth = (['1'], -5) := by decide +kernel
  have h := Shortest.shortest_digits (x := hundredThousandth) (by decide) (by decide)
  rwa [hdigits] at h

/-- It is not spelled `1e-05`, as usual. -/
theorem hundredThousandth_not_usual :
    Usual hundredThousandth "1e-05" ∧ text hundredThousandth = "0.00001" ∧
      ¬Usual hundredThousandth (text hundredThousandth) :=
  ⟨.scientific (by decide) shortest_hundredThousandth (by decide),
    text_of_positional shortest_hundredThousandth (by decide) (by decide),
    not_usual shortest_hundredThousandth⟩

/-- **A float is spelled as usual unless the power of ten of its shortest digits is `-5`**, and then
it is spelled positionally. -/
theorem text_usual_iff (x : Binary64) :
    (Usual x (text x) ↔ ∀ ds, ¬Binary64.Shortest x.abs ds (-5)) ∧
      ∀ ds, Binary64.Shortest x.abs ds (-5) →
        text x = String.ofList (sign x ++ usualPositional ds (-5)) := by
  refine ⟨⟨fun husual ds h => not_usual h husual, fun hpower => ?_⟩,
    fun ds h => text_of_positional h (by decide) (by decide)⟩
  by_cases hn : x.isNaN = true
  · rw [text, if_pos hn]
    exact .nan hn
  by_cases hi : x.isInfinite = true
  · rw [text, if_neg hn, if_pos hi]
    exact .infinity hi
  have hfinite := isFinite_of_not (Bool.eq_false_iff.2 hn) (Bool.eq_false_iff.2 hi)
  by_cases hx : x.significand = 0
  · have hzero : 'e' ∉ sign x ++ ['0', '.', '0'] := by
      rw [List.mem_append, not_or]
      exact ⟨e_not_mem_sign x, by decide⟩
    rw [text_of_isFinite hfinite, printed, if_pos hx, spelled_of_not_mem hzero]
    exact .zero hfinite hx
  have h := Shortest.shortest_digits hfinite hx
  have hne : (Shortest.digits x).2 ≠ -5 := fun heq => hpower _ (heq ▸ h)
  by_cases hsize : -4 ≤ (Shortest.digits x).2 ∧ (Shortest.digits x).2 ≤ 15
  · rw [text_of_positional h (by omega) hsize.2]
    exact .positional hx h hsize.1 hsize.2
  · rw [text_of_scientific h (by omega)]
    exact .scientific hx h (by omega)

theorem text_usual_iff_hundredThousandth :
    Binary64.Shortest hundredThousandth.abs ['1'] (-5) ∧ text hundredThousandth = "0.00001" :=
  ⟨shortest_hundredThousandth,
    (text_usual_iff hundredThousandth).2 ['1'] shortest_hundredThousandth⟩

end ValueHeap.FloatLiteral
