import ValueHeap.Proofs.Compare.Mirror
import ValueHeap.Proofs.Counts

/-!
# Mirrored operators

`a < b` is `b > a`, `a <= b` is `b >= a`, and `==` and `!=` are symmetric, whatever the values are
made of.  In total mode the four orderings have one exception: a comparison that comes down to two
dicts each of which counts as above the other.

## What is here

* `richCompare_swapped_eq_iff` — when the results in both directions agree, in whatever can come
  about.
* `richCompare_swapped_ne_dicts` — two dicts on which they do not.
-/

set_option autoImplicit false

namespace ValueHeap

/-- **Exchanging the operands mirrors the operator**, but for a stalemate in total mode.  In
whatever can come about, and in either mode, let an operator give a result on two values, and the
mirrored operator one on the values exchanged.  The two results are the same unless the mode is
total, the operator is one of the four orderings, and the comparison comes down to a standoff of two
dicts.  There they do differ. -/
theorem richCompare_swapped_eq_iff {budget : Budget} {c : Custody} (hc : Reachable budget c)
    {mode : Mode} {a b : Value} {op : Operator} {r r' : Bool}
    (hr : (richCompare mode a b op c.heap).result = .ok r)
    (hr' : (richCompare mode b a op.swapped c.heap).result = .ok r') :
    r = r' ↔ ¬(mode = .total ∧ op.isEquality = false ∧
      Compare.Stalemate c.heap c.heap.levelsLeft a b) := by
  have hk := hc.sound.coherent.keyed
  rw [richCompare, Action.result_consult_eq_ok] at hr hr'
  constructor
  · rintro hsame ⟨rfl, hop, hstalemate⟩
    obtain ⟨hleft, hright⟩ := hstalemate.abides hk
    rw [hleft op r hr, hright op.swapped r' hr'] at hsame
    cases op <;> first | cases hop; done | cases hsame
  · intro hnot
    obtain ⟨v, w, hvw⟩ := Compare.within_balanced hk mode c.heap.levelsLeft a b
    rw [hvw.left op r hr, hvw.right op.swapped r' hr']
    rcases hvw.mirror with rfl | ⟨⟨hmode, hstalemate⟩, rfl, rfl⟩
    · exact (op.reads_swapped v).symm
    · -- only equality is left, and it reads the same off both verdicts
      have hop : op.isEquality = true := by
        rw [← Bool.not_eq_false]
        exact fun hop => hnot ⟨hmode, hop, hstalemate⟩
      rcases Operator.isEquality_iff.1 hop with rfl | rfl <;> rfl

/-- A list of the set of 1 is neither below a list of the set of 2 nor above it, and there is no
stalemate. -/
theorem richCompare_swapped_eq_iff_sets :
    ∃ c : Custody, Reachable .untracked c ∧ c.heap.find? 1 = some (.list [.ref 0]) ∧
      c.heap.find? 3 = some (.list [.ref 2]) ∧
      (richCompare .total (.ref 1) (.ref 3) .lt c.heap).result = .ok false ∧
      (richCompare .total (.ref 3) (.ref 1) (Operator.swapped .lt) c.heap).result = .ok false ∧
      ¬Compare.Stalemate c.heap c.heap.levelsLeft (.ref 1) (.ref 3) := by
  let o : Object := .tuple [.list [.set [.int 1]], .list [.set [.int 2]]]
  let c : Custody := Custody.after ⟨Heap.empty .untracked, 0⟩ (.build o) [.ref 4]
  have hc : Reachable .untracked c :=
    .result [.ref 4] .start (Request.permitted_build o _) (by decide +kernel)
  have hlt : (richCompare .total (.ref 1) (.ref 3) .lt c.heap).result = .ok false := by
    decide +kernel
  have hgt : (richCompare .total (.ref 3) (.ref 1) (Operator.swapped .lt) c.heap).result =
      .ok false := by
    decide +kernel
  have hnot : ¬Compare.Stalemate c.heap c.heap.levelsLeft (.ref 1) (.ref 3) :=
    not_and.1 (not_and.1 ((richCompare_swapped_eq_iff hc hlt hgt).1 rfl) rfl) rfl
  refine ⟨c, hc, ?_, ?_, hlt, hgt, hnot⟩ <;> decide +kernel

/-- Under the key 1 the one dict has the set of 1 and the other the set of 2.  The first dict is not
below the second one in total mode, but the second is above the first. -/
theorem richCompare_swapped_ne_dicts :
    ∃ c : Custody, Reachable .untracked c ∧ c.heap.find? 0 = some (.set [⟨.int 1, 1⟩]) ∧
      c.heap.find? 1 = some (.dict [⟨⟨.int 1, 1⟩, .ref 0⟩]) ∧
      c.heap.find? 2 = some (.set [⟨.int 2, 2⟩]) ∧
      c.heap.find? 3 = some (.dict [⟨⟨.int 1, 1⟩, .ref 2⟩]) ∧
      (richCompare .total (.ref 1) (.ref 3) .lt c.heap).result = .ok false ∧
      (richCompare .total (.ref 3) (.ref 1) (Operator.swapped .lt) c.heap).result = .ok true := by
  let o : Object := .tuple [.dict [(.int 1, .set [.int 1])], .dict [(.int 1, .set [.int 2])]]
  let c : Custody := Custody.after ⟨Heap.empty .untracked, 0⟩ (.build o) [.ref 4]
  have hc : Reachable .untracked c :=
    .result [.ref 4] .start (Request.permitted_build o _) (by decide +kernel)
  refine ⟨c, hc, ?_, ?_, ?_, ?_, ?_, ?_⟩ <;> decide +kernel

end ValueHeap
