import ValueHeap.Proofs.Action
import ValueHeap.Proofs.Compare.Level
import ValueHeap.Proofs.Numeric.Exact

/-!
# Numbers are compared exactly

A truth value, an integer of either kind, a float and a complex number are compared as the numbers
that they stand for, in both modes and in either order of the types.  The result is settled by the
rules of the two types: it does not depend on the heap beyond the number that a reference leads to,
nothing falls back, and nothing is reported.

A comparison takes one level of nesting even for two numbers, so without a level left it is refused,
unless both are machine integers, which are compared on the spot.

## What is here

* `Heap.quantity?` — what a value stands for, if it is a number.
* `numbers_compare_exactly` — rich comparison of any two numbers, with a level left, without one,
  and where no level is taken for the two themselves.
-/

set_option autoImplicit false

namespace ValueHeap

/-- What a value stands for, if it is a number. -/
def Heap.quantity? (h : Heap) : Value → Option Quantity
  | .bool b => some (.real (some (.ofRat (if b then 1 else 0))))
  | .int n => some (.real (some (.ofRat n.toInt)))
  | .float x => some (.real x.value?)
  | .ref s =>
    match h.find? s with
    | some (.longInt n) => some (.real (some (.ofRat n)))
    | some (.complex re im) => some (.complex re.value? im.value?)
    | _ => none
  | _ => none

/-- The value is a machine integer. -/
def Value.IsMachineInt (v : Value) : Prop := ∃ n, v = .int n

namespace Compare

variable {h : Heap} {mode : Mode} {a b : Value} {p q : Quantity}

theorem unlessInts_of_not {judge : Judge} {op : Operator}
    (hints : ¬(a.IsMachineInt ∧ b.IsMachineInt)) : unlessInts judge a b op = judge a b op := by
  cases a with
  | int m =>
    cases b with
    | int n => exact absurd ⟨⟨m, rfl⟩, n, rfl⟩ hints
    | _ => rfl
  | _ => rfl

theorem exists_numberOf_of_quantity (ha : h.quantity? a = some p) :
    ∃ m, numberOf h a = .ok (some m) ∧ m.quantity = p := by
  cases a with
  | bool b =>
    cases ha
    exact ⟨_, rfl, by cases b <;> simp [Number.quantity]⟩
  | int n =>
    cases ha
    exact ⟨_, rfl, rfl⟩
  | float x =>
    cases ha
    exact ⟨_, rfl, rfl⟩
  | ref s =>
    simp only [Heap.quantity?] at ha
    split at ha
    · next n hn =>
      cases ha
      exact ⟨.int n, by rw [numberOf, Heap.read_eq_ok_iff.2 hn]; rfl, rfl⟩
    · next re im hn =>
      cases ha
      exact ⟨.complex re im, by rw [numberOf, Heap.read_eq_ok_iff.2 hn]; rfl, rfl⟩
    · cases ha
  | none | ellipsis | builtin => cases ha

variable {m n : Number} {levels : Nat} {judge : Judge} {op : Operator}

/-- One level of comparison gives two numbers their answer. -/
theorem answer_dispatch (hm : numberOf h a = .ok (some m)) (hn : numberOf h b = .ok (some n)) :
    (dispatch h mode levels judge a b op).result.mapError Halt.failure = m.answer n op := by
  rw [dispatch_numbers hm hn, Number.answer]
  split <;> rfl

/-- Machine integers get the same answer on the spot as by a level of comparison. -/
theorem answer_unlessInts (hm : numberOf h a = .ok (some m)) (hn : numberOf h b = .ok (some n))
    (hjudge : ¬(a.IsMachineInt ∧ b.IsMachineInt) →
      (judge a b op).result.mapError Halt.failure = m.answer n op) :
    (unlessInts judge a b op).result.mapError Halt.failure = m.answer n op := by
  by_cases hints : a.IsMachineInt ∧ b.IsMachineInt
  · obtain ⟨⟨i, rfl⟩, j, rfl⟩ := hints
    cases hm
    cases hn
    rfl
  · rw [unlessInts_of_not hints]
    exact hjudge hints

end Compare

open Compare

/-- **Numbers are compared exactly.**  With a level of nesting left, and without one for two machine
integers, the answers to the six operators are those of the exact quantities, and so they are where
no level is taken for the two values themselves.  In every other case the comparison is refused for
want of a level. -/
theorem numbers_compare_exactly (h : Heap) (mode : Mode) {a b : Value} {p q : Quantity}
    (ha : h.quantity? a = some p) (hb : h.quantity? b = some q) :
    (0 < h.levelsLeft ∨ (a.IsMachineInt ∧ b.IsMachineInt) →
      p.Judged q fun op => (richCompare mode a b op h).result) ∧
    (p.Judged q fun op => (richCompareHere mode a b op h).result) ∧
    (h.levelsLeft = 0 → ¬(a.IsMachineInt ∧ b.IsMachineInt) → ∀ op,
      (richCompare mode a b op h).result = .error (.error (.raised .comparisonTooDeep))) := by
  obtain ⟨m, hm, rfl⟩ := exists_numberOf_of_quantity ha
  obtain ⟨n, hn, rfl⟩ := exists_numberOf_of_quantity hb
  refine ⟨fun hlevel => ?_, ?_, fun hzero hints op => ?_⟩
  · have hanswer (op : Operator) : (richCompare mode a b op h).result = m.answer n op := by
      rw [richCompare, Action.result_consult]
      cases hl : h.levelsLeft with
      | zero =>
        exact answer_unlessInts hm hn fun hints => absurd hlevel (by simp [hl, hints])
      | succ levels => exact answer_unlessInts hm hn fun _ => answer_dispatch hm hn
    exact funext hanswer ▸ m.judged_answer n
  · have hanswer (op : Operator) : (richCompareHere mode a b op h).result = m.answer n op := by
      rw [richCompareHere, Action.result_consult]
      exact answer_dispatch hm hn
    exact funext hanswer ▸ m.judged_answer n
  · rw [richCompare, Action.result_consult, hzero, within, unlessInts_of_not hints]
    rfl

/-- The float next below an integer that no float is equal to. -/
theorem numbers_compare_exactly_beyond_floats :
    (Heap.empty .untracked).quantity? (.int 9007199254740993) =
      some (.real (some (.ofRat 9007199254740993))) ∧
    (Heap.empty .untracked).quantity? (.float ⟨0x4340000000000000⟩) =
      some (.real (some (.ofRat 9007199254740992))) ∧
    0 < (Heap.empty .untracked).levelsLeft ∧
    (richCompare .total (.int 9007199254740993) (.float ⟨0x4340000000000000⟩) .gt
      (Heap.empty .untracked)).result = .ok true := by
  have hfloat : (⟨0x4340000000000000⟩ : Binary64).toRat = 9007199254740992 := by
    rw [Binary64.toRat, show Binary64.signed _ (Binary64.significand _) = 0x10000000000000 from rfl,
      show Binary64.exponent _ = 1 from rfl]
    norm_num
  have ha : (Heap.empty .untracked).quantity? (.int 9007199254740993) =
      some (.real (some (.ofRat 9007199254740993))) := by
    rw [Heap.quantity?, show (9007199254740993 : Int64).toInt = 9007199254740993 from rfl]
    norm_num
  have hb : (Heap.empty .untracked).quantity? (.float ⟨0x4340000000000000⟩) =
      some (.real (some (.ofRat 9007199254740992))) := by
    rw [Heap.quantity?, Binary64.value?, if_neg (by decide), if_neg (by decide), hfloat]
  have hlevel : 0 < (Heap.empty .untracked).levelsLeft := by decide
  refine ⟨ha, hb, hlevel, ?_⟩
  have horder : compare (Extended.ofRat 9007199254740993) (.ofRat 9007199254740992) = .gt :=
    compare_gt_iff_gt.2 (Extended.ofRat_lt_ofRat.2 (by decide))
  have hanswer := ((numbers_compare_exactly _ .total ha hb).1 (Or.inl hlevel)).ordered _ _ rfl rfl
  rw [hanswer .gt, horder]
  rfl

/-- A truth value and an integer above it, where not even one level of nesting is allowed: the
answers are not those of the quantities 1 and 2, in either mode. -/
theorem numbers_compare_exactly_no_level :
    (Heap.empty (.under { depth := some 0 })).quantity? (.bool true) =
      some (.real (some (.ofRat 1))) ∧
    (Heap.empty (.under { depth := some 0 })).quantity? (.int 2) =
      some (.real (some (.ofRat 2))) ∧
    ∀ mode, ¬(Quantity.real (some (.ofRat 1))).Judged (.real (some (.ofRat 2))) fun op =>
      (richCompare mode (.bool true) (.int 2) op (Heap.empty (.under { depth := some 0 }))).result := by
  refine ⟨rfl, ?_, fun mode hjudged => ?_⟩
  · rw [Heap.quantity?, show (2 : Int64).toInt = 2 from rfl]
    norm_num
  · have hrefused : (richCompare mode (.bool true) (.int 2) .lt
        (Heap.empty (.under { depth := some 0 }))).result =
        .error (.error (.raised .comparisonTooDeep)) := by
      cases mode <;> rfl
    cases hrefused.symm.trans (hjudged.ordered _ _ rfl rfl .lt)

end ValueHeap
