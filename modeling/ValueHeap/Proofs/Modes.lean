import ValueHeap.Proofs.Compare.Level
import ValueHeap.Proofs.Compare.Stops
import ValueHeap.Proofs.Counts

/-!
# Total mode extends strict mode

The mode is asked in two places only, both of them behind the rules of the types: where two dicts
are to be ordered, and in the fallback.  Under `==` and `!=` neither place tells the modes apart.
The rule of dicts knows whether two dicts are equal, so no order is asked for, and by the fallback
rules of either mode a value is equal to itself only.  Keys are looked up under `==`, so they are
found in the same places.  Under the four orderings strict mode gives up in both places, and total
mode goes on.

## What is here

* `Compare.fallback_modes` — the fallback, which under `==` and `!=` is the same in both modes.
* `Compare.within_modes` — a comparison in strict mode held against the same one in total mode.
* `richCompare_total_extends_strict` — what strict mode answers, total mode answers as well.
-/

set_option autoImplicit false

namespace ValueHeap

namespace Compare

open Answer

variable {h : Heap} {judge : Judge} {n : Nat} {mode : Mode} {a b : Value} {op : Operator}

/-! ## Behind the rules -/

/-- Strict mode does not order what the rules leave open. -/
theorem exists_fallback_error (hop : op.isEquality = false) :
    ∃ e, (fallback h .strict n a b op).result = .error e := by
  cases hr : (fallback h .strict n a b op).result with
  | error e => exact ⟨e, rfl⟩
  | ok r =>
    rcases fallback_result hr with ⟨heq, -⟩ | ⟨hmode, -⟩
    · rw [hop] at heq
      cases heq
    · cases hmode

/-! ## Levels -/

/-- What may be different in total mode: it goes on where strict mode stops, but not under `==` and
`!=`. -/
def modeLeeway (op : Operator) : Leeway :=
  ⟨fun _ => op.isEquality = false, fun _ => False, Eq, False⟩

/-- An operator that is no equality leaves as much leeway as any. -/
theorem modeLeeway_mono {α β : Type} {R : α → β → Prop} {x : Answer α} {y : Answer β}
    {op' : Operator} (hxy : Matches (modeLeeway op') R x y)
    (hop : op'.isEquality = false → op.isEquality = false) : Matches (modeLeeway op) R x y :=
  hxy.mono (fun _ => hop) (fun _ => id) (fun _ _ => id) id fun _ _ => id

/-- Where no rule decides, both modes do the same under `==` and `!=`, and strict mode stops under
the other operators. -/
theorem fallback_modes (hc : h.Coherent) (ha : h.Names a) (hb : h.Names b) :
    Matches (modeLeeway op) Eq (fallback h .strict n a b op) (fallback h .total n a b op) := by
  cases hop : op.isEquality with
  | false =>
    obtain ⟨e, he⟩ := exists_fallback_error hop
    exact .left he hop
  | true =>
    obtain ⟨x, hx⟩ := exists_fallbackOrder hc ha hb
    exact .ok (fallback_of_isEquality hop hx) (fallback_of_isEquality hop hx) rfl False.elim

/-- One level in total mode keeps up with strict mode if the comparisons of the parts do. -/
theorem dispatch_modes {judge judge' : Judge} (hc : h.Coherent)
    (hj : ∀ a b op, Matches (modeLeeway op) Eq (judge a b op) (judge' a b op)) :
    Matches (modeLeeway op) Eq (dispatch h .strict n judge a b op)
      (dispatch h .total n judge' a b op) := by
  have hself (v : Value) : Counterpart (modeLeeway op) Eq h n h n v v :=
    .refl (fun _ => rfl) fun _ _ _ _ _ _ => rfl
  have hrefl {α : Type} (x : Answer α) : Matches (modeLeeway op) Eq x x := .refl fun _ _ => rfl
  have hsame {a a' b b' : Value} (ha : a = a') (hb : b = b') :
      Matches (modeLeeway op) Eq (sameOrEqual judge a b) (sameOrEqual judge' a' b') := by
    subst ha hb
    exact sameOrEqual_matches Iff.rfl (modeLeeway_mono (hj a b .eq) nofun)
  have hrule (a b : Value) (op' : Operator) (hop : op'.isEquality = op.isEquality) :
      Matches (modeLeeway op) Eq (typeRule h n judge a b op') (typeRule h n judge' a b op') := by
    refine typeRule_matches hsame ?_ (fun i j _ _ => hrefl _) (hself a) (hself b)
    rintro - a a' b b' rfl rfl
    exact modeLeeway_mono (hj a b op') hop.symm.trans
  refine dispatch_matches (hself a).typeOf_matches (hself b).typeOf_matches
    (fun s t _ _ => hrefl _) (hrule a b op rfl) (hrule b a op.swapped (by cases op <;> rfl)) ?_ ?_
  · intro ty ha hb hnone hnone'
    have hlast : Matches (modeLeeway op) Eq (fallback h .strict n a b op)
        (fallback h .total n a b op) := fallback_modes hc (names_of_typeOf ha) (names_of_typeOf hb)
    cases hop : op.isEquality with
    | true =>
      have hthree := threeWayRule_of_isEquality .strict hop ha hb hnone
      have hthree' := threeWayRule_of_isEquality .total hop ha hb hnone'
      exact (Matches.ok hthree hthree' rfl False.elim).decideOr fun _ _ => hlast
    | false =>
      obtain ⟨e, he⟩ := exists_fallback_error hop
      exact .left ((result_decideOr_of_none rfl).trans he) hop
  · intro s t _ ha hb _ _
    exact fallback_modes hc (names_of_typeOf ha) (names_of_typeOf hb)

/-- **A comparison in total mode keeps up with the same one in strict mode.** -/
theorem within_modes (hc : h.Coherent) (n : Nat) (a b : Value) (op : Operator) :
    Matches (modeLeeway op) Eq (within h .strict n a b op) (within h .total n a b op) := by
  induction n generalizing a b op with
  | zero => exact .refl fun _ _ => rfl
  | succ n ih =>
    have hself (v : Value) : Counterpart (modeLeeway op) Eq h n h n v v :=
      .refl (fun _ => rfl) fun _ _ _ _ _ _ => rfl
    exact unlessInts_matches (hself a) (hself b) (dispatch_modes hc ih)

end Compare

/-- **Total mode extends strict mode.**  In whatever can come about, the two modes give the same
result for any two values under `==` and `!=`, errors included.  Under every operator, what strict
mode answers is what total mode answers. -/
theorem richCompare_total_extends_strict {budget : Budget} {c : Custody}
    (hc : Reachable budget c) (a b : Value) (op : Operator) :
    (op.isEquality = true → (richCompare .total a b op c.heap).result =
        (richCompare .strict a b op c.heap).result) ∧
      ∀ r, (richCompare .strict a b op c.heap).result = .ok r →
        (richCompare .total a b op c.heap).result = .ok r := by
  have hmodes := Compare.within_modes hc.sound.coherent c.heap.levelsLeft a b op
  constructor
  · intro hop
    have hsame : (Compare.within c.heap .total c.heap.levelsLeft a b op).result =
        (Compare.within c.heap .strict c.heap.levelsLeft a b op).result :=
      (hmodes.result_eq (fun _ _ hne => absurd hop (ne_of_eq_of_ne hne Bool.false_ne_true))
        (fun _ _ => id) fun _ _ => id).symm
    rw [richCompare, richCompare, Action.result_consult, Action.result_consult, hsame]
  · intro r hr
    exact Action.result_consult_eq_ok.2
      (hmodes.result_eq_ok (fun _ => id) (Action.result_consult_eq_ok.1 hr))

/-- Two lists begin with equal dicts, which have no order in strict mode.  They are told apart by
the integers behind these, so strict mode puts the lists in order, and total mode does so as
well. -/
theorem richCompare_total_extends_strict_lists :
    ∃ c : Custody, Reachable .untracked c ∧
      c.heap.find? 0 = some (.dict [⟨⟨.int 1, 1⟩, .none⟩]) ∧
      c.heap.find? 1 = some (.list [.ref 0, .int 1]) ∧
      c.heap.find? 2 = some (.dict [⟨⟨.bool true, 1⟩, .none⟩]) ∧
      c.heap.find? 3 = some (.list [.ref 2, .int 2]) ∧
      (richCompare .strict (.ref 1) (.ref 3) .lt c.heap).result = .ok true ∧
      (richCompare .total (.ref 1) (.ref 3) .lt c.heap).result = .ok true ∧
      (richCompare .total (.ref 0) (.ref 2) .eq c.heap).result =
        (richCompare .strict (.ref 0) (.ref 2) .eq c.heap).result := by
  let o : Object := .tuple [.list [.dict [(.int 1, .none)], .int 1],
    .list [.dict [(.bool true, .none)], .int 2]]
  let c : Custody := Custody.after ⟨Heap.empty .untracked, 0⟩ (.build o) [.ref 4]
  have hc : Reachable .untracked c :=
    .result [.ref 4] .start (Request.permitted_build o _) (by decide +kernel)
  have hlt : (richCompare .strict (.ref 1) (.ref 3) .lt c.heap).result = .ok true := by
    decide +kernel
  refine ⟨c, hc, ?_, ?_, ?_, ?_, hlt,
    (richCompare_total_extends_strict hc (.ref 1) (.ref 3) .lt).2 true hlt,
    (richCompare_total_extends_strict hc (.ref 0) (.ref 2) .eq).1 rfl⟩ <;>
    decide +kernel

end ValueHeap
