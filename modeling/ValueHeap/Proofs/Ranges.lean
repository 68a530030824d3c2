import Mathlib.Data.Set.Card
import ValueHeap.Proofs.Counts
import ValueHeap.Proofs.Form.Hash

/-!
# Ranges as sequences

A range stands for the numbers that lie a whole number of steps from its start and before its stop.
There may be nearly `2 ^ 64` of them, so no term is ever listed: lengths are found by a division,
and two ranges are compared by their starts, steps and lengths.  This is the lexicographic order of
the sequences all the same.  Sequences that begin alike have the same first two terms, hence the
same step, and then the one is as far as it goes a beginning of the other.

## What is here

* `Progression.Denotes` — the sequence that a range stands for.  It is said term by term, without
  the length, and `Progression.before_term_iff` says that the length counts its terms.
* `Progression.order_eq_compare_terms` — ranges compare as these sequences do.
* `ranges_compare_as_sequences` — both of it, what follows for the order, and the hashes.
-/

set_option autoImplicit false

namespace ValueHeap

open Std

/-! ## Sequences with a beginning in common -/

theorem compare_nil_left {α : Type} [Ord α] (xs : List α) :
    compare [] xs = compare 0 xs.length := by
  cases xs with
  | nil => rfl
  | cons x xs => exact (Nat.compare_eq_lt.2 (Nat.succ_pos _)).symm

theorem compare_nil_right {α : Type} [Ord α] (xs : List α) :
    compare xs [] = compare xs.length 0 := by
  cases xs with
  | nil => rfl
  | cons x xs => exact (Nat.compare_eq_gt.2 (Nat.succ_pos _)).symm

theorem compare_succ_succ (m n : Nat) : compare (m + 1) (n + 1) = compare m n := by
  simp only [compare, compareOfLessAndEq, Nat.add_lt_add_iff_right, Nat.add_right_cancel_iff]

/-- Two beginnings of one sequence compare as their lengths do. -/
theorem compare_map_range (f : Nat → Int) (m n : Nat) :
    compare ((List.range m).map f) ((List.range n).map f) = compare m n := by
  induction m generalizing n f with
  | zero => rw [List.range_zero, List.map_nil, compare_nil_left, List.length_map, List.length_range]
  | succ m ih =>
    cases n with
    | zero =>
      rw [List.range_zero, List.map_nil, compare_nil_right, List.length_map, List.length_range]
    | succ n =>
      rw [List.range_succ_eq_map, List.range_succ_eq_map, List.map_cons, List.map_cons,
        List.compare_cons_cons, compare_self, Ordering.eq_then, List.map_map, List.map_map, ih,
        compare_succ_succ]

namespace Progression

variable {p q : Progression} {k : Nat} {xs ys : List Int}

/-! ## The terms of a range -/

/-- The number that lies so many steps from the start. -/
def term (p : Progression) (k : Nat) : Int := p.start.toInt + k * p.step.toInt

/-- A number lies strictly before the stop, in the direction of the step. -/
def Before (p : Progression) (z : Int) : Prop :=
  if 0 < p.step.toInt then z < p.stop.toInt else p.stop.toInt < z

instance (p : Progression) (z : Int) : Decidable (p.Before z) :=
  inferInstanceAs (Decidable (if 0 < p.step.toInt then z < p.stop.toInt else p.stop.toInt < z))

/-- The range denotes this sequence: with so many steps from the start the sequence has the number
that lies there, if it is before the stop, and nothing otherwise. -/
def Denotes (p : Progression) (xs : List Int) : Prop :=
  ∀ k, xs[k]? = if p.Before (p.term k) then some (p.term k) else none

theorem Denotes.unique (hx : p.Denotes xs) (hy : p.Denotes ys) : xs = ys :=
  List.ext_getElem? fun k => (hx k).trans (hy k).symm

theorem step_toInt_ne (p : Progression) : p.step.toInt ≠ 0 := fun h =>
  p.step_ne (Int64.toInt_inj.1 h)

/-- How far a number of steps leads, beside the distance from the start to the stop. -/
theorem before_term_iff_lt_span (p : Progression) (k : Nat) :
    p.Before (p.term k) ↔ (k : Int) * p.step.toInt.natAbs < p.span := by
  have hne := p.step_toInt_ne
  rw [Before, term, span]
  split
  · next hpos =>
    rw [Int.natAbs_of_nonneg (Int.le_of_lt hpos)]
    omega
  · next hneg =>
    rw [Int.ofNat_natAbs_of_nonpos (by omega), Int.mul_neg]
    omega

/-- **The length counts the terms**: as many steps lead to a number before the stop. -/
theorem before_term_iff (p : Progression) (k : Nat) : p.Before (p.term k) ↔ k < p.length := by
  have hpos : 0 < p.step.toInt.natAbs := Int.natAbs_pos.2 p.step_toInt_ne
  have hspan : (k : Int) * p.step.toInt.natAbs < p.span ↔
      k * p.step.toInt.natAbs < p.span.toNat := by
    rw [← Int.natCast_mul]
    omega
  rw [before_term_iff_lt_span, hspan, length, ← Nat.succ_le_iff, ← Nat.succ_le_iff,
    Nat.le_div_iff_mul_le hpos, Nat.succ_mul]
  omega

/-- The sequence that a range denotes. -/
def terms (p : Progression) : List Int := (List.range p.length).map p.term

@[simp] theorem length_terms (p : Progression) : p.terms.length = p.length := by
  rw [terms, List.length_map, List.length_range]

theorem denotes_terms (p : Progression) : p.Denotes p.terms := by
  intro k
  rw [terms, List.getElem?_map]
  by_cases hk : k < p.length
  · rw [List.getElem?_range hk, if_pos ((p.before_term_iff k).2 hk)]
    rfl
  · rw [List.getElem?_eq_none (by rw [List.length_range]; omega),
      if_neg (mt (p.before_term_iff k).1 hk)]
    rfl

theorem denotes_iff : p.Denotes xs ↔ xs = p.terms :=
  ⟨fun hx => hx.unique p.denotes_terms, fun hx => hx ▸ p.denotes_terms⟩

/-! ## Nothing is too large for a machine word -/

theorem span_lt (p : Progression) : p.span < 2 ^ 64 := by
  have hstart := p.start.toInt_lt
  have hstart' := p.start.le_toInt
  have hstop := p.stop.toInt_lt
  have hstop' := p.stop.le_toInt
  rw [span]
  split <;> omega

/-- The length fits a word of 64 bits, since a step is at least one. -/
theorem length_lt (p : Progression) : p.length < 2 ^ 64 := by
  by_contra hle
  have hbefore := (before_term_iff_lt_span p _).1 ((p.before_term_iff (2 ^ 64 - 1)).2 (by omega))
  have hstep : (1 : Int) ≤ p.step.toInt.natAbs := by
    have := Int.natAbs_pos.2 p.step_toInt_ne
    omega
  have hmul := Int.mul_le_mul_of_nonneg_left hstep (Int.natCast_nonneg (2 ^ 64 - 1))
  have hspan := p.span_lt
  omega

/-- The widest range has one term less than there are words of 64 bits, and the least integer is a
step like others. -/
example :
    (mk Int64.minValue Int64.maxValue 1 (by decide)).length = 2 ^ 64 - 1 ∧
      (mk Int64.maxValue Int64.minValue Int64.minValue (by decide)).length = 2 := by
  decide +kernel

/-- Nothing that the length is computed from leaves the integers of 128 bits. -/
theorem span_add_step_lt (p : Progression) : p.span.natAbs + p.step.toInt.natAbs < 2 ^ 127 := by
  have hstart := p.start.toInt_lt
  have hstart' := p.start.le_toInt
  have hstop := p.stop.toInt_lt
  have hstop' := p.stop.le_toInt
  have hstep := p.step.toInt_lt
  have hstep' := p.step.le_toInt
  rw [span]
  split <;> omega

/-! ## The order of ranges -/

theorem terms_of_length_eq_zero (hp : p.length = 0) : p.terms = [] := by
  rw [terms, hp]
  rfl

theorem exists_terms_of_pos (hp : 0 < p.length) :
    ∃ rest, p.terms = p.start.toInt :: rest ∧ rest.length + 1 = p.length := by
  obtain ⟨n, hn⟩ := Nat.exists_eq_succ_of_ne_zero (Nat.ne_of_gt hp)
  refine ⟨((List.range n).map Nat.succ).map p.term, ?_, ?_⟩
  · rw [terms, hn, Nat.succ_eq_add_one, List.range_succ_eq_map, List.map_cons]
    simp [term]
  · simp [hn]

theorem exists_terms_of_two_le (hp : 2 ≤ p.length) :
    ∃ rest, p.terms = p.start.toInt :: (p.start.toInt + p.step.toInt) :: rest := by
  obtain ⟨n, hn⟩ := Nat.exists_eq_add_of_le' hp
  refine ⟨(((List.range n).map Nat.succ).map Nat.succ).map p.term, ?_⟩
  rw [terms, hn, List.range_succ_eq_map, List.range_succ_eq_map]
  simp [term]

/-- **Ranges compare as the sequences that they denote.** -/
theorem order_eq_compare_terms (p q : Progression) : p.order q = compare p.terms q.terms := by
  rw [order]
  split
  · next hempty =>
    rcases hempty with hp | hq
    · rw [terms_of_length_eq_zero hp, compare_nil_left, length_terms, hp]
    · rw [terms_of_length_eq_zero hq, compare_nil_right, length_terms, hq]
  · next hsome =>
    rw [not_or] at hsome
    obtain ⟨xs, hxs, hxlen⟩ := exists_terms_of_pos (Nat.pos_of_ne_zero hsome.1)
    obtain ⟨ys, hys, hylen⟩ := exists_terms_of_pos (Nat.pos_of_ne_zero hsome.2)
    split
    · next hstart =>
      rw [hxs, hys, List.compare_cons_cons, int64_compare_eq_of_ne hstart]
    · next hstart =>
      rw [Decidable.not_not] at hstart
      split
      · next hstep =>
        -- the second terms decide
        obtain ⟨hp, hq, hne⟩ := hstep
        obtain ⟨us, hus⟩ := exists_terms_of_two_le hp
        obtain ⟨vs, hvs⟩ := exists_terms_of_two_le hq
        have hsecond : compare (q.start.toInt + p.step.toInt) (q.start.toInt + q.step.toInt) =
            compare p.step.toInt q.step.toInt :=
          compare_apply (fun a b hab => by omega) p.step.toInt q.step.toInt
        rw [hus, hvs, hstart, List.compare_cons_cons, compare_self, Ordering.eq_then,
          List.compare_cons_cons, hsecond, int64_compare_eq_of_ne hne]
      · next hstep =>
        by_cases hsame : p.step = q.step
        · -- one of the sequences is a beginning of the other
          have hterm : p.term = q.term := by
            funext k
            rw [term, term, hstart, hsame]
          rw [terms, terms, hterm, compare_map_range]
        · -- one of the sequences has no second term
          have hone : xs = [] ∨ ys = [] := by
            rw [← List.length_eq_zero_iff, ← List.length_eq_zero_iff]
            by_contra hnone
            exact hstep ⟨by omega, by omega, hsame⟩
          rw [hxs, hys, hstart, List.compare_cons_cons, compare_self, Ordering.eq_then, ← hxlen,
            ← hylen, compare_succ_succ]
          rcases hone with rfl | rfl
          · exact (compare_nil_left ys).symm
          · exact (compare_nil_right xs).symm

instance : TransCmp order := by
  have heq : order = compareOn terms := funext fun p => funext fun q => order_eq_compare_terms p q
  rw [heq]
  infer_instance

theorem order_eq_eq_iff : p.order q = .eq ↔ p.terms = q.terms := by
  rw [order_eq_compare_terms, Std.compare_eq_iff_eq]

end Progression

/-! ## Ranges as keys -/

theorem KeyHash.ofRange_eq_of_order {p q : Progression} (h : p.order q = .eq) :
    KeyHash.ofRange p = KeyHash.ofRange q := by
  rw [Progression.order_eq_compare_digits, Std.compare_eq_iff_eq] at h
  exact KeyHash.ofRange_eq_of_digits h

theorem Heap.keyHash_range {h : Heap} {s : Slot} {p : Progression}
    (hp : h.find? s = some (.range p)) :
    h.keyHash (.ref s) = .ok (some (KeyHash.ofRange p)) := by
  rw [keyHash, keyHashWithin, read_eq_ok_iff.2 hp]
  rfl

/-- **Ranges compare as the sequences that they denote.**  The length of a range is the number of
terms before its stop, which fits a word of 64 bits, as what it is computed from fits 128 bits.  So
a range denotes one sequence, of that length.  The order of two ranges is the lexicographic order of
their sequences.  It is a total preorder in which ranges are equal when they denote the same, and
then they have the same hash as keys. -/
theorem ranges_compare_as_sequences :
    (∀ p : Progression, (∀ k, p.Before (p.term k) ↔ k < p.length) ∧
        {k | p.Before (p.term k)}.encard = p.length ∧ p.length < 2 ^ 64 ∧
        p.span.natAbs + p.step.toInt.natAbs < 2 ^ 127 ∧
        ∃ xs, p.Denotes xs ∧ xs.length = p.length ∧ ∀ ys, p.Denotes ys → ys = xs) ∧
      (∀ (p q : Progression) (xs ys : List Int), p.Denotes xs → q.Denotes ys →
        p.order q = compare xs ys ∧ (p.order q = .eq ↔ xs = ys)) ∧
      TransCmp Progression.order ∧
      ∀ (h : Heap) (s t : Slot) (p q : Progression), h.find? s = some (.range p) →
        h.find? t = some (.range q) → p.order q = .eq →
          ∃ word, h.keyHash (.ref s) = .ok (some word) ∧ h.keyHash (.ref t) = .ok (some word) := by
  refine ⟨fun p => ⟨p.before_term_iff, ?_, p.length_lt, p.span_add_step_lt, p.terms,
    p.denotes_terms, p.length_terms, fun ys hys => hys.unique p.denotes_terms⟩, ?_,
    inferInstance, ?_⟩
  · have hterms : {k | p.Before (p.term k)} = (Finset.range p.length : Set Nat) := by
      ext k
      rw [Set.mem_ofPred_eq, p.before_term_iff, Finset.mem_coe, Finset.mem_range]
    rw [hterms, Set.encard_coe_eq_coe_finsetCard, Finset.card_range]
  · intro p q xs ys hxs hys
    rw [Progression.denotes_iff] at hxs hys
    subst hxs hys
    exact ⟨p.order_eq_compare_terms q, Progression.order_eq_eq_iff⟩
  · intro h s t p q hp hq hpq
    refine ⟨KeyHash.ofRange p, Heap.keyHash_range hp, ?_⟩
    rw [Heap.keyHash_range hq, KeyHash.ofRange_eq_of_order hpq]

/-- The ranges of step two from 0 up to 3 and from 0 up to 4 denote the same sequence. -/
theorem ranges_compare_as_sequences_stops :
    ∃ c : Custody, Reachable .untracked c ∧
      c.heap.find? 0 = some (.range ⟨0, 3, 2, by decide⟩) ∧
      c.heap.find? 1 = some (.range ⟨0, 4, 2, by decide⟩) ∧
      (Progression.mk 0 3 2 (by decide)).Denotes [0, 2] ∧
      (Progression.mk 0 4 2 (by decide)).Denotes [0, 2] ∧
      ∃ word, c.heap.keyHash (.ref 0) = .ok (some word) ∧
        c.heap.keyHash (.ref 1) = .ok (some word) := by
  let p : Progression := ⟨0, 3, 2, by decide⟩
  let q : Progression := ⟨0, 4, 2, by decide⟩
  let o : Object := .tuple [.range 0 3 2, .range 0 4 2]
  let c : Custody := Custody.after ⟨Heap.empty .untracked, 0⟩ (.build o) [.ref 2]
  have hc : Reachable .untracked c :=
    .result [.ref 2] .start (Request.permitted_build o _) (by decide +kernel)
  have hp : c.heap.find? 0 = some (.range p) := by decide +kernel
  have hq : c.heap.find? 1 = some (.range q) := by decide +kernel
  have hpd : p.Denotes [0, 2] := Progression.denotes_iff.2 (by decide +kernel)
  have hqd : q.Denotes [0, 2] := Progression.denotes_iff.2 (by decide +kernel)
  obtain ⟨-, horder, -, hhash⟩ := ranges_compare_as_sequences
  have hpq : p.order q = .eq := (horder p q _ _ hpd hqd).2.2 rfl
  exact ⟨c, hc, hp, hq, hpd, hqd, hhash c.heap 0 1 p q hp hq hpq⟩

end ValueHeap
