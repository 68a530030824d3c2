import ValueHeap.Proofs.Compare.Mirror
import ValueHeap.Proofs.Compare.Negation
import ValueHeap.Proofs.Counts

/-!
# The six operators on one pair

Each operator goes its own way through the rules, and some of them may fail where others do not.
What they say of one and the same pair fits together all the same.  `!=` goes the way of `==` and
denies what it says.  The other results are read off one verdict on the pair, which is what makes
`<=` the union of `<` and `==`, and `>=` that of `>` and `==`.

A pair may have no place in any order, as a NaN and a number have, or two sets of which neither is
within the other.  Then none of the five holds.

## What is here

* `richCompare_operators_cohere` — what the operators say of a pair, in whatever can come about.
-/

set_option autoImplicit false

namespace ValueHeap

/-- An answer that follows another one does so within an action as well. -/
theorem Answer.Follows.consult {α β : Type} {f : α → β} {x : Heap → Nat → Answer α}
    {y : Heap → Nat → Answer β} {h : Heap} (hxy : Follows f (x h h.levelsLeft) (y h h.levelsLeft)) :
    (Action.consult y h).result = (Action.consult x h).result.map f := by
  rw [Action.result_consult, Action.result_consult, hxy]
  cases (x h h.levelsLeft).result <;> rfl

/-- **The operators cohere.**  In whatever can come about, in either mode and for any two values,
`!=` denies what `==` says and fails where and as it does.  Where the other five operators all give
a result, at most one of `<`, `==` and `>` holds, `<=` holds where `<` or `==` does, and `>=` where
`>` or `==` does. -/
theorem richCompare_operators_cohere {budget : Budget} {c : Custody} (hc : Reachable budget c)
    (mode : Mode) (a b : Value) :
    (richCompare mode a b .ne c.heap).result =
        (richCompare mode a b .eq c.heap).result.map (!·) ∧
      ∀ lt le eq gt ge,
        (richCompare mode a b .lt c.heap).result = .ok lt →
        (richCompare mode a b .le c.heap).result = .ok le →
        (richCompare mode a b .eq c.heap).result = .ok eq →
        (richCompare mode a b .gt c.heap).result = .ok gt →
        (richCompare mode a b .ge c.heap).result = .ok ge →
        ¬(lt = true ∧ eq = true) ∧ ¬(lt = true ∧ gt = true) ∧ ¬(eq = true ∧ gt = true) ∧
          (le = true ↔ lt = true ∨ eq = true) ∧ (ge = true ↔ gt = true ∨ eq = true) := by
  refine ⟨(Compare.within_denies c.heap mode c.heap.levelsLeft a b).consult, ?_⟩
  intro lt le eq gt ge hlt hle heq hgt hge
  obtain ⟨v, w, hvw⟩ :=
    Compare.within_balanced hc.sound.coherent.keyed mode c.heap.levelsLeft a b
  -- all five read their results off the same verdict
  have hreads {op : Operator} {r : Bool} (hr : (richCompare mode a b op c.heap).result = .ok r) :
      r = op.reads v :=
    hvw.left op r (Action.result_consult_eq_ok.1 hr)
  rw [hreads hlt, hreads hle, hreads heq, hreads hgt, hreads hge]
  rcases v with _ | _ | _ | _ <;> decide

/-- Two lists begin with the same NaN.  The set of 1, which the first one goes on with, is below the
set of 1 and 2, which the second one goes on with. -/
theorem richCompare_operators_cohere_sets :
    ∃ c : Custody, Reachable .untracked c ∧ c.heap.find? 0 = some (.set [⟨.int 1, 1⟩]) ∧
      c.heap.find? 1 = some (.list [.float ⟨0x7ff8000000000000⟩, .ref 0]) ∧
      c.heap.find? 2 = some (.set [⟨.int 1, 1⟩, ⟨.int 2, 2⟩]) ∧
      c.heap.find? 3 = some (.list [.float ⟨0x7ff8000000000000⟩, .ref 2]) ∧
      (richCompare .strict (.ref 1) (.ref 3) .lt c.heap).result = .ok true ∧
      (richCompare .strict (.ref 1) (.ref 3) .le c.heap).result = .ok true ∧
      (richCompare .strict (.ref 1) (.ref 3) .eq c.heap).result = .ok false ∧
      (richCompare .strict (.ref 1) (.ref 3) .ne c.heap).result = .ok true ∧
      ¬(true = true ∧ false = true) := by
  let o : Object := .tuple [.list [.float ⟨0x7ff8000000000000⟩, .set [.int 1]],
    .list [.float ⟨0x7ff8000000000000⟩, .set [.int 1, .int 2]]]
  let c : Custody := Custody.after ⟨Heap.empty .untracked, 0⟩ (.build o) [.ref 4]
  have hc : Reachable .untracked c :=
    .result [.ref 4] .start (Request.permitted_build o _) (by decide +kernel)
  have hlt : (richCompare .strict (.ref 1) (.ref 3) .lt c.heap).result = .ok true := by
    decide +kernel
  have hle : (richCompare .strict (.ref 1) (.ref 3) .le c.heap).result = .ok true := by
    decide +kernel
  have heq : (richCompare .strict (.ref 1) (.ref 3) .eq c.heap).result = .ok false := by
    decide +kernel
  have hgt : (richCompare .strict (.ref 1) (.ref 3) .gt c.heap).result = .ok false := by
    decide +kernel
  have hge : (richCompare .strict (.ref 1) (.ref 3) .ge c.heap).result = .ok false := by
    decide +kernel
  obtain ⟨hne, hverdict⟩ := richCompare_operators_cohere hc .strict (.ref 1) (.ref 3)
  refine ⟨c, hc, ?_, ?_, ?_, ?_, hlt, hle, heq, ?_, (hverdict _ _ _ _ _ hlt hle heq hgt hge).1⟩
  · decide +kernel
  · decide +kernel
  · decide +kernel
  · decide +kernel
  · rw [hne, heq]
    rfl

end ValueHeap
